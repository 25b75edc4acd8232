import LinuxDemo.Lib.Descriptors
import LinuxDemo.Source.EpollChatroom
import LinuxDemo.Source.EpollLtEt
import LinuxDemo.Source.EpollTcpUdp

/-!
# What the edge-triggered loops call on client descriptors

For each operation the calls of `accept`, `recv`, `send` and `close` in the order in which
the source makes them. The read loop of `epoll_tcp_udp.cpp` sends a chunk back, that of
`epoll_chatroom.cpp` sends it to the members of `client_list_fd`, that of `use_ET` only
prints it. All three call `close` behind a `recv` that returns 0 and go on, and behind an
error other than EAGAIN and leave the loop.
-/
namespace LinuxDemo.Source
open LinuxDemo.Lib

namespace EpollTcpUdp

/-- `recv` is called for an event of neither socket, with EPOLLIN. -/
def Event.report (env : Env) (e : Event) : Report :=
  ⟨e.fd, e.fd ≠ env.listenfd && e.fd ≠ env.udpfd && e.epollin⟩

def batch (env : Env) (s : Server) : List Report := s.events.map (Event.report env)

/-- The calls of a round of the read loop. -/
def readCalls (fd : Nat) : Recv → List FdCall
  | .data _ _ => [.recv fd false, .send fd]
  | .again => [.recv fd false]
  | .eof => [.recv fd true, .close fd]
  | .error => [.recv fd true, .close fd]

def calls (s : Server) : Op → List FdCall
  | .accept connfd => [.accept connfd]
  | .recv result =>
    match s.events with
    | e :: _ => readCalls e.fd result
    | [] => []
  | _ => []

def loop (env : Env) : Loop Server Op := ⟨Server.init, step env, calls, batch env⟩

end EpollTcpUdp

namespace EpollChatroom

def Event.report (listenfd : Nat) (e : Event) : Report :=
  ⟨e.fd, e.fd ≠ listenfd && e.epollin⟩

def batch (listenfd : Nat) (s : Server) : List Report := s.events.map (Event.report listenfd)

/-- The calls of a round of the read loop. -/
def readCalls (clientListFd : List Nat) (fd : Nat) : Recv → List FdCall
  | .data _ => .recv fd false :: (clientListFd.filter (· ≠ fd)).map FdCall.send
  | .again => [.recv fd false]
  | .eof => [.recv fd true, .close fd]
  | .error => [.recv fd true, .close fd]

def calls (s : Server) : Op → List FdCall
  | .accept connfd => [.accept connfd]
  | .recv result =>
    match s.events with
    | e :: _ => readCalls s.clientListFd e.fd result
    | [] => []
  | _ => []

def loop (listenfd : Nat) : Loop Server Op :=
  ⟨Server.init, step listenfd, calls, batch listenfd⟩

end EpollChatroom

namespace EpollLtEt

def Event.report (env : Env) (e : Event) : Report :=
  ⟨e.fd, e.fd ≠ env.listenfd && e.epollin⟩

def batch (env : Env) (s : Server) : List Report := s.events.map (Event.report env)

/-- The steps with `use_ET`, where `recv` may also fail on an open descriptor, with
ECONNRESET say. -/
def stepET (env : Env) (s : Server) : Op → Except Fault Server
  | .recv .error =>
    match s.events with
    | e :: rest =>
      if e.fd ≠ env.listenfd ∧ e.epollin then .ok { close s e.fd with events := rest }
      else .error .contract
    | [] => .error .contract
  | op => step env .useET s op

/-- The calls of a round of the loop in `use_ET`. -/
def readCalls (sockfd : Nat) : Recv → List FdCall
  | .data _ => [.recv sockfd false]
  | .again => [.recv sockfd false]
  | .eof => [.recv sockfd true, .close sockfd]
  | .error => [.recv sockfd true, .close sockfd]

/-- `accept` may have failed. -/
def calls (s : Server) : Op → List FdCall
  | .accept (some clientfd) => [.accept clientfd]
  | .recv result =>
    match s.events with
    | e :: _ => readCalls e.fd result
    | [] => []
  | _ => []

def loop (env : Env) : Loop Server Op := ⟨Server.init, stepET env, calls, batch env⟩

end EpollLtEt

end LinuxDemo.Source
