import LinuxDemo.Source.ListTimer
import LinuxDemo.Lib.Run

/-!
# `alarm_keeplive.cpp`

The event loop of `main` with the timer list, the `users` array, the signal handler and
what the kernel does for them: descriptors, the alarm, pending signals, and the socket
pair with its edge-triggered notification. One operation is one event of a batch or one
action of the kernel; the handler only appends to the socket pair, so it may as well run
between two operations. An answer that the kernel cannot give is a broken contract.

Connections are numbered as they are accepted, so that a connection is told from an
earlier one with the same descriptor. The record keeps what the guarantees speak about:
which connection a timer was made for, when each connection was last active, the readings
of the clock, and how the timers were used.
-/
namespace LinuxDemo.Source.AlarmKeeplive
open LinuxDemo.Lib LinuxDemo.Source.ListTimer

def FD_LIMIT : Nat := 65535
def MAX_EVENTS_NUMBER : Nat := 1024
def TIMESLOT : Int := 5

/-- `sizeof(signals)` -/
def signalsSize : Nat := 1024

inductive Sig where
  | alrm | term
  deriving DecidableEq, Repr

/-- `SIGALRM`, `SIGTERM`. -/
def Sig.number : Sig → Nat
  | .alrm => 14
  | .term => 15

/-- The descriptors made before the loop, and the byte at each address, if it is mapped. -/
structure Env where
  listenfd : Nat
  pipefd0 : Nat
  distinct : listenfd ≠ pipefd0
  memory : Nat → Option UInt8

/-- `client_data`; the loop reads neither the address nor the buffer. -/
structure ClientData where
  sockfd : Nat
  timer : Ptr
  deriving DecidableEq, Repr

/-- A member of `events`: the descriptor, and whether EPOLLIN is set. -/
structure Event where
  fd : Nat
  epollin : Bool
  deriving DecidableEq, Repr

/-- Before `epoll_wait`, inside of a batch with the events still to be handled, or behind
the loop. -/
inductive Phase where
  | waiting
  | batch (rest : List Event)
  | exited
  deriving DecidableEq, Repr

/-- The open client descriptors with their connections, the number of connections made,
the alarm, the pending signals, and the bytes readable at `pipefd[0]` with the pending
notification. -/
structure Kernel where
  conns : Nat → Option Nat
  accepted : Nat
  armed : Bool
  alrmPending : Bool
  termPending : Bool
  pipe : List UInt8
  notified : Bool

/-- A call of `adjust_timer` or `del_timer`: its argument, the connection whose event led
to it, and the list it was called on. -/
structure Use where
  timer : Nat
  connection : Option Nat
  list : SortTimeList Nat

/-- A call of `tick`: the clock, the timers that fired with the connections they closed,
and the connections and their last activity before it. -/
structure Tick where
  cur : Int
  closed : List (Nat × Option Nat)
  conns : Nat → Option Nat
  activity : Nat → Int
  turn : Nat → Nat

/-- `activity` is the clock at the last activity of a connection, `turn` its place among
all activities. -/
structure Record where
  madeFor : Nat → Nat
  activity : Nat → Int
  turn : Nat → Nat
  turns : Nat
  readings : List Int
  uses : List Use
  ticks : List Tick

structure Server where
  timerList : SortTimeList Nat
  users : Nat → Option ClientData
  phase : Phase
  stopServer : Bool
  timeout : Bool
  kernel : Kernel
  record : Record

/-- The state when the loop is entered, behind the first `alarm(TIMESLOT)`. -/
def Server.init : Server where
  timerList := SortTimeList.init
  users _ := none
  phase := .waiting
  stopServer := false
  timeout := false
  kernel := ⟨fun _ => none, 0, true, false, false, [], false⟩
  record := ⟨fun _ => 0, fun _ => 0, fun _ => 0, 0, [], [], []⟩

/-- `recv` on a client: data, the end of the stream, EAGAIN, or another error. With data
comes the reading of `time(NULL)` behind it. -/
inductive Recv where
  | data (cur : Int)
  | eof
  | again
  | error
  deriving DecidableEq, Repr

inductive Op where
  /-- the alarm goes off -/
  | expire
  /-- a signal is sent from outside -/
  | kill (sig : Sig)
  /-- a pending signal is handled -/
  | deliver (sig : Sig)
  /-- `epoll_wait` returns; no event stands for EINTR -/
  | wait (events : List Event)
  /-- `epoll_wait` fails otherwise -/
  | waitFails
  /-- the event of the listening socket, with `accept` and `time(NULL)` -/
  | accept (connfd : Nat) (cur : Int)
  /-- the event of `pipefd[0]` -/
  | signals
  /-- the event of a client, with `recv` -/
  | recv (result : Recv)
  /-- an event without EPOLLIN -/
  | other
  /-- behind the batch, with the `time(NULL)` of a `tick` -/
  | finish (cur : Int)
  deriving DecidableEq, Repr

/-- `sig_handler`: the signal number is passed to `send` as the address of the byte. A byte
that is sent is new data at the edge-triggered `pipefd[0]`. -/
def sigHandler (env : Env) (k : Kernel) (sig : Sig) : Kernel :=
  match env.memory sig.number with
  | some b => { k with pipe := k.pipe ++ [b], notified := true }
  | none => k

/-- `cb_func`: `epoll_ctl` is called with the other `epollfd` and does nothing, `close`
takes the descriptor out of the event table as well. -/
def cbFunc (conns : Nat → Option Nat) (u : ClientData) : Nat → Option Nat :=
  Function.update conns u.sockfd none

/-- A reading of the clock that makes the connection the one active last. -/
def Record.active (r : Record) (connection : Nat) (cur : Int) : Record :=
  { r with
    activity := Function.update r.activity connection cur
    turn := Function.update r.turn connection r.turns
    turns := r.turns + 1
    readings := r.readings ++ [cur] }

/-- The accept branch. -/
def acceptClient (s : Server) (connfd : Nat) (cur : Int) : Except Fault Server := do
  let timer := s.timerList.heap.fresh
  let list := { s.timerList with
    heap := s.timerList.heap.alloc ⟨cur + 3 * TIMESLOT, connfd, none, none⟩ }
  let timerList ← addTimer list (some timer)
  return { s with
    timerList := timerList
    users := Function.update s.users connfd (some ⟨connfd, some timer⟩)
    kernel := { s.kernel with
      conns := Function.update s.kernel.conns connfd (some s.kernel.accepted)
      accepted := s.kernel.accepted + 1 }
    record := { s.record.active s.kernel.accepted cur with
      madeFor := Function.update s.record.madeFor timer s.kernel.accepted } }

/-- `cb_func(&users[sockfd]); if(timer) timer_list.del_timer(timer);` -/
def dropClient (s : Server) (fd : Nat) (u : ClientData) : Except Fault Server :=
  let conns := cbFunc s.kernel.conns u
  match u.timer with
  | none => .ok { s with kernel := { s.kernel with conns := conns } }
  | some timer => do
    let timerList ← delTimer s.timerList (some timer)
    return { s with
      timerList := timerList
      kernel := { s.kernel with conns := conns }
      record := { s.record with
        uses := s.record.uses ++ [⟨timer, s.kernel.conns fd, s.timerList⟩] } }

/-- `if(timer)` and the branch on received data. -/
def touchClient (s : Server) (fd : Nat) (u : ClientData) (cur : Int) : Except Fault Server :=
  match u.timer with
  | none => .ok s
  | some timer => do
    let heap ← s.timerList.heap.modify (some timer) (setExpire (cur + 3 * TIMESLOT))
    let timerList ← adjustTimer { s.timerList with heap := heap } (some timer)
    let r := s.record.active ((s.kernel.conns fd).getD 0) cur
    return { s with
      timerList := timerList
      record := { r with
        uses := r.uses ++ [⟨timer, s.kernel.conns fd, { s.timerList with heap := heap }⟩] } }

/-- The client branch. An entry of `users` that was never assigned has no value. -/
def recvClient (s : Server) (fd : Nat) (rest : List Event) (result : Recv) :
    Except Fault Server :=
  match s.users fd with
  | none => .error .dangling
  | some u =>
    match result with
    | .data cur => touchClient { s with phase := .batch rest } fd u cur
    | .eof => dropClient { s with phase := .batch rest } fd u
    | .again => .ok { s with phase := .batch [] }
    | .error => dropClient { s with phase := .batch rest } fd u

/-- The branch of `pipefd[0]`: up to `sizeof(signals)` bytes are read and looked at. -/
def readSignals (s : Server) : Server :=
  let signals := s.kernel.pipe.take signalsSize
  { s with
    timeout := s.timeout || decide (14 ∈ signals)
    stopServer := s.stopServer || decide (15 ∈ signals)
    kernel := { s.kernel with pipe := s.kernel.pipe.drop signalsSize } }

/-- The callback of every timer, on the open connections and the closings so far. -/
def callback (users : Nat → Option ClientData) :
    Callback ((Nat → Option Nat) × List (Nat × Option Nat)) Nat := fun timer userData c list =>
  match users userData with
  | none => .error .dangling
  | some u => .ok ((cbFunc c.1 u, c.2 ++ [(timer, c.1 u.sockfd)]), list)

/-- `time_handler`. An empty list is left before the clock is read. -/
def timeHandler (s : Server) (cur : Int) : Except Fault Server := do
  let ((conns, closed), timerList) ← tick (callback s.users) cur (s.kernel.conns, []) s.timerList
  return { s with
    timerList := timerList
    kernel := { s.kernel with conns := conns, armed := true }
    record := { s.record with
      readings := if s.timerList.head = none then s.record.readings else s.record.readings ++ [cur]
      ticks := s.record.ticks ++
        [⟨cur, closed, s.kernel.conns, s.record.activity, s.record.turn⟩] } }

/-- Open registered descriptors, each at most once, and `pipefd[0]` when it was notified. -/
def Reportable (env : Env) (k : Kernel) (events : List Event) : Prop :=
  events.length ≤ MAX_EVENTS_NUMBER ∧ (events.map Event.fd).Nodup ∧
    ∀ e ∈ events, e.fd = env.listenfd ∨ (e.fd = env.pipefd0 ∧ k.notified = true ∧ e.epollin = true) ∨
      (k.conns e.fd).isSome = true

instance (env : Env) (k : Kernel) (events : List Event) : Decidable (Reportable env k events) := by
  unfold Reportable
  infer_instance

def step (env : Env) (s : Server) : Op → Except Fault Server
  | .expire =>
    if s.kernel.armed then
      .ok { s with kernel := { s.kernel with armed := false, alrmPending := true } }
    else .error .contract
  | .kill .alrm => .ok { s with kernel := { s.kernel with alrmPending := true } }
  | .kill .term => .ok { s with kernel := { s.kernel with termPending := true } }
  | .deliver .alrm =>
    if s.kernel.alrmPending then
      .ok { s with kernel := sigHandler env { s.kernel with alrmPending := false } .alrm }
    else .error .contract
  | .deliver .term =>
    if s.kernel.termPending then
      .ok { s with kernel := sigHandler env { s.kernel with termPending := false } .term }
    else .error .contract
  | .wait events =>
    if s.phase = .waiting ∧ Reportable env s.kernel events then
      .ok { s with
        phase := .batch events
        kernel := { s.kernel with
          notified := s.kernel.notified && decide (env.pipefd0 ∉ events.map Event.fd) } }
    else .error .contract
  | .waitFails => if s.phase = .waiting then .ok { s with phase := .exited } else .error .contract
  | .accept connfd cur =>
    match s.phase with
    | .batch (e :: rest) =>
      if e.fd = env.listenfd ∧ connfd < FD_LIMIT ∧ connfd ≠ env.listenfd ∧ connfd ≠ env.pipefd0 ∧
          s.kernel.conns connfd = none then
        acceptClient { s with phase := .batch rest } connfd cur
      else .error .contract
    | _ => .error .contract
  | .signals =>
    match s.phase with
    | .batch (e :: rest) =>
      if e.fd ≠ env.listenfd ∧ e.fd = env.pipefd0 ∧ e.epollin then
        .ok (readSignals { s with phase := .batch rest })
      else .error .contract
    | _ => .error .contract
  | .recv result =>
    match s.phase with
    | .batch (e :: rest) =>
      if e.fd ≠ env.listenfd ∧ e.fd ≠ env.pipefd0 ∧ e.epollin then recvClient s e.fd rest result
      else .error .contract
    | _ => .error .contract
  | .other =>
    match s.phase with
    | .batch (e :: rest) =>
      if e.fd ≠ env.listenfd ∧ ¬ e.epollin then .ok { s with phase := .batch rest }
      else .error .contract
    | _ => .error .contract
  | .finish cur =>
    if s.phase = .batch [] then do
      let s ← if s.timeout then timeHandler s cur else .ok s
      return { s with timeout := false, phase := if s.stopServer then .exited else .waiting }
    else .error .contract

end LinuxDemo.Source.AlarmKeeplive
