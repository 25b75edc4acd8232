import LinuxDemo.Lib.Heap
import LinuxDemo.Lib.Chain
import LinuxDemo.Source.TimerWheel
import LinuxDemo.Invariant.Wheel
import LinuxDemo.Invariant.WheelRun
import LinuxDemo.Lib.Countdown
import LinuxDemo.Invariant.WheelSchedule
import LinuxDemo.Guarantees.TimerWheel
import LinuxDemo.Invariant.TimerList
import LinuxDemo.Invariant.TimerListRun
import LinuxDemo.Guarantees.TimerList
import LinuxDemo.Lib.CString
import LinuxDemo.Lib.Crlf
import LinuxDemo.Source.HttpParse
import LinuxDemo.Invariant.HttpLine
import LinuxDemo.Invariant.HttpRequest
import LinuxDemo.Invariant.HttpSession
import LinuxDemo.Invariant.HttpVerdict
import LinuxDemo.Invariant.HttpGrammar
import LinuxDemo.Guarantees.HttpParse
import LinuxDemo.Guarantees.EpollChatroom
import LinuxDemo.Source.AlarmKeeplive
import LinuxDemo.Invariant.KeepliveTimers
import LinuxDemo.Invariant.KeepliveRun
import LinuxDemo.Invariant.KeepliveAlarm
import LinuxDemo.Guarantees.AlarmKeeplive
import LinuxDemo.Invariant.TimerListLedger
import LinuxDemo.Invariant.WheelRearm
import LinuxDemo.Invariant.SelectServer
import LinuxDemo.Guarantees.SelectServer
import LinuxDemo.Invariant.ParentChild
import LinuxDemo.Guarantees.ParentChild
import LinuxDemo.Lib.Counting
import LinuxDemo.Source.PthreadTest
import LinuxDemo.Invariant.PthreadTest
import LinuxDemo.Guarantees.PthreadTest
import LinuxDemo.Lib.EdgeTriggered
import LinuxDemo.Source.EpollTcpUdp
import LinuxDemo.Invariant.EpollTcpUdp
import LinuxDemo.Guarantees.EpollTcpUdp
import LinuxDemo.Invariant.EpollSig
import LinuxDemo.Guarantees.EpollSig
import LinuxDemo.Invariant.EpollLtEt
import LinuxDemo.Guarantees.EpollLtEt
import LinuxDemo.Invariant.HttpTokens
import LinuxDemo.Guarantees.HttpLines
import LinuxDemo.Invariant.HttpFraming
import LinuxDemo.Guarantees.TimerAdjust
import LinuxDemo.Invariant.TimerCallbacks
import LinuxDemo.Guarantees.TimerCallbacks
import LinuxDemo.Source.CgiServer
import LinuxDemo.Guarantees.CgiServer
import LinuxDemo.Guarantees.SelectRound
import LinuxDemo.Guarantees.SelectBounds
import LinuxDemo.Lib.ReadBuffer
import LinuxDemo.Source.SelectClient
import LinuxDemo.Invariant.SelectClient
import LinuxDemo.Guarantees.SelectClient
import LinuxDemo.Source.EchoServer
import LinuxDemo.Invariant.EchoServer
import LinuxDemo.Guarantees.EchoServer
import LinuxDemo.Source.HttpRounds
import LinuxDemo.Invariant.HttpCursor
import LinuxDemo.Guarantees.HttpCursor
import LinuxDemo.Invariant.PthreadCreation
import LinuxDemo.Lib.Descriptors
import LinuxDemo.Source.DescriptorCalls
import LinuxDemo.Invariant.DescriptorCalls
import LinuxDemo.Guarantees.DescriptorCalls
import LinuxDemo.Invariant.WheelService
import LinuxDemo.Invariant.ListService
import LinuxDemo.Guarantees.TimersAgree
import LinuxDemo.Invariant.SigChld
import LinuxDemo.Guarantees.SigChld
import LinuxDemo.Invariant.UnamedSemTest
import LinuxDemo.Guarantees.UnamedSemTest
import LinuxDemo.Invariant.TestPipe
import LinuxDemo.Guarantees.TestPipe
import LinuxDemo.Invariant.SelectEcho
import LinuxDemo.Invariant.SelectDeadlock
import LinuxDemo.Invariant.SelectPrograms
import LinuxDemo.Guarantees.SelectEcho
import LinuxDemo.Lib.FdTable
import LinuxDemo.Source.CreateDaemon
import LinuxDemo.Invariant.CreateDaemon
import LinuxDemo.Guarantees.CreateDaemon
import LinuxDemo.Lib.Backlog
import LinuxDemo.Source.ChatRoom
import LinuxDemo.Invariant.ChatMember
import LinuxDemo.Invariant.ChatRoom
import LinuxDemo.Invariant.ChatSettles
import LinuxDemo.Guarantees.ChatRoom
import LinuxDemo.Lib.Serial
import LinuxDemo.Source.PthreadRwlock
import LinuxDemo.Invariant.PthreadRwlock
import LinuxDemo.Guarantees.PthreadRwlock
import LinuxDemo.Guarantees.SharedFileMapping
import LinuxDemo.Guarantees.HttpReport
import LinuxDemo.Invariant.HttpOutput
import LinuxDemo.Invariant.HttpReport
