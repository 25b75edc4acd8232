import LinuxDemo.Lib.EdgeTriggered
import LinuxDemo.Lib.Run

/-!
# `epoll_LT_ET_servertest.cpp`

The event loop of `main` with either of its handlers. An operation is an arrival, or the
answers of the kernel to the next calls of the loop; an answer that the kernel cannot give
is a broken contract, and so is an error of `recv` on an open descriptor. Connections are
numbered as they arrive. A call of `epoll_wait` that fails ends the program and is left
out, and so are the texts printed.

The record keeps which connections were accepted, what `recv` returned on each, and which
were closed.
-/
namespace LinuxDemo.Source.EpollLtEt
open LinuxDemo.Lib

def MAX_EVENT_NUMBER : Nat := 1024
def BUFFSIZE : Nat := 10

/-- What the loop calls on the events of a batch: `use_LT` or `use_ET`. -/
inductive Handler where
  | useLT | useET
  deriving DecidableEq, Repr

/-- The last argument of `addfd` in `use_LT` and in `use_ET`. -/
def Handler.enableEt : Handler → Bool
  | .useLT => false
  | .useET => true

/-- The listening socket. `main` adds it with EPOLLET, whichever the handler is. -/
structure Env where
  listenfd : Nat

/-- A member of `events`: the descriptor, and whether EPOLLIN is set. -/
structure Event where
  fd : Nat
  epollin : Bool
  deriving DecidableEq, Repr

/-- The bytes of a connection not yet read, and whether its end has arrived. -/
structure Conn where
  input : List UInt8
  eof : Bool
  deriving DecidableEq, Repr

/-- A client descriptor in the event table: its connection, and whether EPOLLET is set. -/
structure Client where
  connection : Nat
  et : Bool
  deriving DecidableEq, Repr

/-- The connections at the listening socket, all connections and their number, the open
client descriptors, the edge-triggered notifications, the rest of the batch, and the
record. -/
structure Server where
  backlog : List Nat
  conns : Nat → Conn
  made : Nat
  fds : Nat → Option Client
  notified : Nat → Bool
  events : List Event
  accepted : List Nat
  received : Nat → List UInt8
  closed : List Nat

def Server.init : Server where
  backlog := []
  conns _ := ⟨[], false⟩
  made := 0
  fds _ := none
  notified _ := false
  events := []
  accepted := []
  received _ := []
  closed := []

/-- What `recv` returns: a number of bytes; 0; or -1 with EAGAIN or another error. -/
inductive Recv where
  | data (ret : Nat)
  | eof
  | again
  | error
  deriving DecidableEq, Repr

inductive Op where
  /-- a connection arrives -/
  | connect
  /-- bytes arrive on a connection -/
  | bytes (connection : Nat) (buf : List UInt8)
  /-- the peer closes a connection -/
  | fin (connection : Nat)
  /-- `epoll_wait` returns -/
  | wait (events : List Event)
  /-- the event of the listening socket, with what `accept` returns, -1 being `none` -/
  | accept (clientfd : Option Nat)
  /-- the event of a client, or for `use_ET` a round of its loop, with what `recv` returns -/
  | recv (result : Recv)
  | somethingElse
  deriving DecidableEq, Repr

/-- Unread bytes or an end. -/
def Conn.Readable (c : Conn) : Prop := c.input ≠ [] ∨ c.eof = true

instance (c : Conn) : Decidable c.Readable := inferInstanceAs (Decidable (_ ∨ _))

/-- There is something to read at a client descriptor. -/
def Readable (s : Server) (fd : Nat) : Prop := ∃ c ∈ s.fds fd, (s.conns c.connection).Readable

instance (s : Server) (fd : Nat) : Decidable (Readable s fd) := by
  unfold Readable
  infer_instance

/-- What `epoll_wait` has to report. Without EPOLLET a descriptor is reported while there is
something to read, with it once for each notification. -/
def Pending (env : Env) (s : Server) (fd : Nat) : Prop :=
  if fd = env.listenfd then s.notified fd = true
  else match s.fds fd with
    | some c => if c.et then s.notified fd = true else (s.conns c.connection).Readable
    | none => False

instance (env : Env) (s : Server) (fd : Nat) : Decidable (Pending env s fd) := by
  unfold Pending
  split
  · infer_instance
  · split
    · split <;> infer_instance
    · infer_instance

/-- Pending descriptors, each at most once, with EPOLLIN if there is something to read. -/
def Reportable (env : Env) (s : Server) (events : List Event) : Prop :=
  events.length ≤ MAX_EVENT_NUMBER ∧ (events.map Event.fd).Nodup ∧
    ∀ e ∈ events, Pending env s e.fd ∧ (Readable s e.fd → e.epollin = true)

instance (env : Env) (s : Server) (events : List Event) : Decidable (Reportable env s events) := by
  unfold Reportable
  infer_instance

/-- Something arrives on a connection, accepted or not. -/
def arrive (s : Server) (k : Nat) (conn : Conn) : Server :=
  { s with
    conns := Function.update s.conns k conn
    notified := raise s.notified fun fd => (s.fds fd).map Client.connection = some k }

/-- `addfd(epollfd, fd, enable_et)` for a new connection notifies of what is there already. -/
def addfd (s : Server) (fd k : Nat) (enable_et : Bool) : Server :=
  { s with
    fds := Function.update s.fds fd (some ⟨k, enable_et⟩)
    notified := Function.update s.notified fd (decide (s.conns k).Readable)
    accepted := s.accepted ++ [k] }

/-- The branch of the listening socket, the same in both handlers. Where `accept` fails,
`addfd` does nothing. -/
def acceptClient (env : Env) (h : Handler) (s : Server) (clientfd : Option Nat) :
    Except Fault Server :=
  match clientfd, s.backlog with
  | none, _ => .ok s
  | some fd, k :: backlog =>
    if fd ≠ env.listenfd ∧ s.fds fd = none then
      .ok (addfd { s with backlog := backlog } fd k h.enableEt)
    else .error .contract
  | some _, [] => .error .contract

/-- `recv(fd, buf, BUFFSIZE-1, 0)`; on a closed descriptor it fails with EBADF. -/
def recv (s : Server) (fd : Nat) (result : Recv) : Except Fault Server :=
  match s.fds fd with
  | none => if result = .error then .ok s else .error .contract
  | some c =>
    let conn := s.conns c.connection
    match result with
    | .data ret =>
      if 0 < ret ∧ ret ≤ BUFFSIZE - 1 ∧ ret ≤ conn.input.length then
        .ok { s with
          conns := Function.update s.conns c.connection ⟨conn.input.drop ret, conn.eof⟩
          received := Function.update s.received c.connection
            (s.received c.connection ++ conn.input.take ret) }
      else .error .contract
    | .eof => if conn.input = [] ∧ conn.eof = true then .ok s else .error .contract
    | .again => if conn.input = [] ∧ conn.eof = false then .ok s else .error .contract
    | .error => .error .contract

/-- `close` takes an open descriptor out of the event table as well; on a closed one it
fails. -/
def close (s : Server) (fd : Nat) : Server :=
  match s.fds fd with
  | none => s
  | some c =>
    { s with
      fds := Function.update s.fds fd none
      notified := Function.update s.notified fd false
      closed := s.closed ++ [c.connection] }

/-- The EPOLLIN branch of `use_LT`: one call of `recv`. -/
def useLT (s : Server) (sockfd : Nat) (rest : List Event) (result : Recv) :
    Except Fault Server := do
  let s ← recv s sockfd result
  match result with
  | .data _ => return { s with events := rest }
  | _ => return { close s sockfd with events := rest }

/-- A round of the loop in the EPOLLIN branch of `use_ET`. Behind `close` at the end of the
input the loop goes on. -/
def useET (s : Server) (sockfd : Nat) (rest : List Event) (result : Recv) :
    Except Fault Server := do
  let s ← recv s sockfd result
  match result with
  | .data _ => return s
  | .eof => return close s sockfd
  | .again => return { s with events := rest }
  | .error => return { close s sockfd with events := rest }

def Handler.read : Handler → Server → Nat → List Event → Recv → Except Fault Server
  | .useLT => EpollLtEt.useLT
  | .useET => EpollLtEt.useET

def step (env : Env) (h : Handler) (s : Server) : Op → Except Fault Server
  | .connect =>
    .ok { s with
      backlog := s.backlog ++ [s.made]
      made := s.made + 1
      notified := raise s.notified (· = env.listenfd) }
  | .bytes k buf =>
    if k < s.made ∧ (s.conns k).eof = false ∧ buf ≠ [] then
      .ok (arrive s k ⟨(s.conns k).input ++ buf, false⟩)
    else .error .contract
  | .fin k =>
    if k < s.made ∧ (s.conns k).eof = false then .ok (arrive s k ⟨(s.conns k).input, true⟩)
    else .error .contract
  | .wait events =>
    if s.events = [] ∧ Reportable env s events then
      .ok { s with
        events := events
        notified := report s.notified (events.map Event.fd) }
    else .error .contract
  | .accept clientfd =>
    match s.events with
    | e :: rest =>
      if e.fd = env.listenfd then acceptClient env h { s with events := rest } clientfd
      else .error .contract
    | [] => .error .contract
  | .recv result =>
    match s.events with
    | e :: rest =>
      if e.fd ≠ env.listenfd ∧ e.epollin then h.read s e.fd rest result
      else .error .contract
    | [] => .error .contract
  | .somethingElse =>
    match s.events with
    | e :: rest =>
      if e.fd ≠ env.listenfd ∧ ¬ e.epollin then .ok { s with events := rest }
      else .error .contract
    | [] => .error .contract

end LinuxDemo.Source.EpollLtEt
