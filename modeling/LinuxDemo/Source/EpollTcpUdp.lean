import LinuxDemo.Lib.EdgeTriggered
import LinuxDemo.Lib.Run

/-!
# `epoll_tcp_udp.cpp`

The event loop of `main` with what arrives and what the edge-triggered event table makes
of it. An operation is an arrival, or the answers of the kernel to the next calls of the
loop; an answer that the kernel cannot give is a broken contract. Connections are numbered
as they arrive; they may bring data before they are accepted. A call of `epoll_wait` that
fails ends the program and is left out.

The record keeps what `recv` returned, every call of `send`, and every datagram received
with what was sent for it.
-/
namespace LinuxDemo.Source.EpollTcpUdp
open LinuxDemo.Lib

def MAX_EVENTS_NUMBER : Nat := 1024
def UDP_BUFFER_SIZE : Nat := 1024
def TCP_BUFFER_SIZE : Nat := 1024

/-- The descriptors made before the loop. -/
structure Env where
  listenfd : Nat
  udpfd : Nat
  distinct : listenfd ≠ udpfd

/-- A member of `events`: the descriptor, and whether EPOLLIN is set. -/
structure Event where
  fd : Nat
  epollin : Bool
  deriving DecidableEq, Repr

/-- A datagram from or to `peer`. -/
structure Datagram where
  peer : Nat
  payload : List UInt8
  deriving DecidableEq, Repr

/-- The bytes of a connection not yet read, and whether its end has arrived. -/
structure Conn where
  input : List UInt8
  eof : Bool
  deriving DecidableEq, Repr

/-- A call of `send`, with the number of bytes it accepted, 0 for EAGAIN. -/
structure Send where
  connection : Nat
  buf : List UInt8
  accepted : Nat
  deriving DecidableEq, Repr

/-- The connections and datagrams at the listening and the UDP socket, all connections and
their number, the open client descriptors with their connections, the notifications of the
event table, the rest of the batch, and the record. -/
structure Server where
  backlog : List Nat
  datagrams : List Datagram
  conns : Nat → Conn
  made : Nat
  fds : Nat → Option Nat
  notified : Nat → Bool
  events : List Event
  received : Nat → List UInt8
  sends : List Send
  answers : List (Datagram × List Datagram)

def Server.init : Server where
  backlog := []
  datagrams := []
  conns _ := ⟨[], false⟩
  made := 0
  fds _ := none
  notified _ := false
  events := []
  received _ := []
  sends := []
  answers := []

/-- What `recv` returns: a number of bytes, of which the `send` behind it accepts some; 0;
or -1 with EAGAIN or another error. -/
inductive Recv where
  | data (num2 accepted : Nat)
  | eof
  | again
  | error
  deriving DecidableEq, Repr

inductive Op where
  /-- a connection arrives -/
  | connect
  | datagram (d : Datagram)
  /-- bytes arrive on a connection -/
  | bytes (connection : Nat) (buf : List UInt8)
  /-- the peer closes a connection -/
  | fin (connection : Nat)
  /-- `epoll_wait` returns -/
  | wait (events : List Event)
  /-- the event of the listening socket, with `accept` -/
  | accept (connfd : Nat)
  /-- the event of the UDP socket, with `recvfrom` and `sendto` -/
  | recvfrom
  /-- a round of the read loop on a client -/
  | recv (result : Recv)
  | somethingElse
  deriving DecidableEq, Repr

/-- There is something to accept, to receive or to read. -/
def Readable (env : Env) (s : Server) (fd : Nat) : Prop :=
  if fd = env.listenfd then s.backlog ≠ []
  else if fd = env.udpfd then s.datagrams ≠ []
  else match s.fds fd with
    | some k => (s.conns k).input ≠ [] ∨ (s.conns k).eof = true
    | none => False

instance (env : Env) (s : Server) (fd : Nat) : Decidable (Readable env s fd) := by
  unfold Readable
  split
  · infer_instance
  · split
    · infer_instance
    · split <;> infer_instance

/-- Descriptors with a notification, each at most once, with EPOLLIN if there is something. -/
def Reportable (env : Env) (s : Server) (events : List Event) : Prop :=
  events.length ≤ MAX_EVENTS_NUMBER ∧ (events.map Event.fd).Nodup ∧
    ∀ e ∈ events, s.notified e.fd = true ∧ (Readable env s e.fd → e.epollin = true)

instance (env : Env) (s : Server) (events : List Event) : Decidable (Reportable env s events) := by
  unfold Reportable
  infer_instance

/-- Something arrives on a connection, accepted or not. -/
def arrive (s : Server) (k : Nat) (conn : Conn) : Server :=
  { s with
    conns := Function.update s.conns k conn
    notified := raise s.notified fun fd => s.fds fd = some k }

/-- `addfd(epollfd, connfd)` notifies of what is there already. -/
def acceptClient (s : Server) (connfd k : Nat) (backlog : List Nat) : Server :=
  { s with
    backlog := backlog
    fds := Function.update s.fds connfd (some k)
    notified := Function.update s.notified connfd
      (decide ((s.conns k).input ≠ []) || (s.conns k).eof) }

/-- `buf` behind `recvfrom`: at most `UDP_BUFFER_SIZE-1` bytes, and zeros. -/
def udpBuf (payload : List UInt8) : List UInt8 :=
  let got := payload.take (UDP_BUFFER_SIZE - 1)
  got ++ List.replicate (UDP_BUFFER_SIZE - got.length) 0

/-- The branch of the UDP socket: `UDP_BUFFER_SIZE-1` bytes are sent. -/
def answer (s : Server) : Server :=
  match s.datagrams with
  | [] => s
  | d :: datagrams =>
    let num := (d.payload.take (UDP_BUFFER_SIZE - 1)).length
    { s with
      datagrams := datagrams
      answers := s.answers ++
        [(d, if num > 0 then [⟨d.peer, (udpBuf d.payload).take (UDP_BUFFER_SIZE - 1)⟩] else [])] }

/-- `close` takes an open descriptor out of the event table as well. -/
def close (s : Server) (fd : Nat) : Server :=
  { s with
    fds := Function.update s.fds fd none
    notified := Function.update s.notified fd false }

/-- One round of the read loop on a client. Behind `close` the loop goes on, and the next
`recv` fails with EBADF. -/
def readOnce (s : Server) (fd : Nat) (rest : List Event) (result : Recv) : Except Fault Server :=
  match s.fds fd with
  | none => if result = .error then .ok { s with events := rest } else .error .contract
  | some k =>
    match result with
    | .data num2 accepted =>
      if 0 < num2 ∧ num2 ≤ TCP_BUFFER_SIZE - 1 ∧ num2 ≤ (s.conns k).input.length ∧
          accepted ≤ num2 then
        let buf := (s.conns k).input.take num2
        .ok { s with
          conns := Function.update s.conns k ⟨(s.conns k).input.drop num2, (s.conns k).eof⟩
          received := Function.update s.received k (s.received k ++ buf)
          sends := s.sends ++ [⟨k, buf, accepted⟩] }
      else .error .contract
    | .eof =>
      if (s.conns k).input = [] ∧ (s.conns k).eof then
        .ok (close s fd)
      else .error .contract
    | .again =>
      if (s.conns k).input = [] ∧ ¬ (s.conns k).eof then .ok { s with events := rest }
      else .error .contract
    | .error => .ok { close s fd with events := rest }

def step (env : Env) (s : Server) : Op → Except Fault Server
  | .connect =>
    .ok { s with
      backlog := s.backlog ++ [s.made]
      made := s.made + 1
      notified := raise s.notified (· = env.listenfd) }
  | .datagram d =>
    .ok { s with
      datagrams := s.datagrams ++ [d]
      notified := raise s.notified (· = env.udpfd) }
  | .bytes k buf =>
    if k < s.made ∧ (s.conns k).eof = false ∧ buf ≠ [] then
      .ok (arrive s k ⟨(s.conns k).input ++ buf, false⟩)
    else .error .contract
  | .fin k => if k < s.made then .ok (arrive s k ⟨(s.conns k).input, true⟩) else .error .contract
  | .wait events =>
    if s.events = [] ∧ Reportable env s events then
      .ok { s with
        events := events
        notified := report s.notified (events.map Event.fd) }
    else .error .contract
  | .accept connfd =>
    match s.events, s.backlog with
    | e :: rest, k :: backlog =>
      if e.fd = env.listenfd ∧ connfd ≠ env.listenfd ∧ connfd ≠ env.udpfd ∧
          s.fds connfd = none then
        .ok (acceptClient { s with events := rest } connfd k backlog)
      else .error .contract
    | _, _ => .error .contract
  | .recvfrom =>
    match s.events with
    | e :: rest =>
      if e.fd ≠ env.listenfd ∧ e.fd = env.udpfd then .ok (answer { s with events := rest })
      else .error .contract
    | [] => .error .contract
  | .recv result =>
    match s.events with
    | e :: rest =>
      if e.fd ≠ env.listenfd ∧ e.fd ≠ env.udpfd ∧ e.epollin then readOnce s e.fd rest result
      else .error .contract
    | [] => .error .contract
  | .somethingElse =>
    match s.events with
    | e :: rest =>
      if e.fd ≠ env.listenfd ∧ e.fd ≠ env.udpfd ∧ ¬ e.epollin then
        .ok { s with events := rest }
      else .error .contract
    | [] => .error .contract

end LinuxDemo.Source.EpollTcpUdp
