import LinuxDemo.Lib.Run

/-!
# `epoll_chatroom.cpp`

The event loop of `main`, one system call at a time. An operation is the answer of the
kernel to the call the loop makes next; an answer that the kernel cannot give is a broken
contract. Every chunk received is recorded, and what is passed to `send` for it.
-/
namespace LinuxDemo.Source.EpollChatroom
open LinuxDemo.Lib

/-- A member of `events`: the descriptor, and whether EPOLLIN is set. -/
structure Event where
  fd : Nat
  epollin : Bool
  deriving DecidableEq, Repr

/-- The calls of `send` for one chunk, with what was connected and what had been closed
when the chunk was received. -/
structure Broadcast where
  sender : Nat
  buf : List UInt8
  targets : List Nat
  connected : List Nat
  closed : List Nat
  deriving DecidableEq, Repr

/-- The loop's variables, the client descriptors that the kernel has open, and the record:
which descriptors were closed so far, the chunks received with their senders, and all
broadcasts. -/
structure Server where
  clientListFd : List Nat
  events : List Event
  connected : List Nat
  closed : List Nat
  received : List (Nat × List UInt8)
  broadcasts : List Broadcast
  deriving DecidableEq, Repr

def Server.init : Server := ⟨[], [], [], [], [], []⟩

/-- What `recv` returns: a number of bytes, 0, or -1 with EAGAIN or another error. -/
inductive Recv where
  | data (buf : List UInt8)
  | eof
  | again
  | error
  deriving DecidableEq, Repr

/-- The answers of the kernel: `epoll_wait` returns, `accept` returns a descriptor, `recv`
returns. An event without EPOLLIN is passed over by itself. -/
inductive Op where
  | wait (events : List Event)
  | accept (connfd : Nat)
  | recv (result : Recv)
  | somethingElse
  deriving DecidableEq, Repr

/-- `close(fd)`; for a descriptor that is not open it does nothing. -/
def close (s : Server) (fd : Nat) : Server :=
  if fd ∈ s.connected then
    { s with connected := s.connected.erase fd, closed := s.closed ++ [fd] }
  else s

/-- The loop over `client_list_fd`. -/
def sendAll (s : Server) (fd : Nat) (buf : List UInt8) : Server :=
  { s with broadcasts := s.broadcasts ++
      [⟨fd, buf, s.clientListFd.filter (· ≠ fd), s.connected, s.closed⟩] }

/-- TCP_BUFFER_SIZE - 1. -/
def maxChunk : Nat := 1023

/-- One round of the read loop on the descriptor of the first pending event. -/
def readOnce (s : Server) (fd : Nat) (rest : List Event) : Recv → Except Fault Server
  | .data buf =>
    if fd ∈ s.connected ∧ buf ≠ [] ∧ buf.length ≤ maxChunk then
      .ok (sendAll { s with received := s.received ++ [(fd, buf)] } fd buf)
    else .error .contract
  | .eof => if fd ∈ s.connected then .ok (close s fd) else .error .contract
  | .again => if fd ∈ s.connected then .ok { s with events := rest } else .error .contract
  | .error => .ok { close s fd with events := rest }

/-- The kernel reports open registered descriptors, each at most once. -/
def Reportable (listenfd : Nat) (s : Server) (events : List Event) : Prop :=
  (events.map Event.fd).Nodup ∧ ∀ e ∈ events, e.fd = listenfd ∨ e.fd ∈ s.connected

instance (listenfd : Nat) (s : Server) (events : List Event) :
    Decidable (Reportable listenfd s events) := by
  unfold Reportable
  infer_instance

def step (listenfd : Nat) (s : Server) : Op → Except Fault Server
  | .wait events =>
    if s.events = [] ∧ Reportable listenfd s events then .ok { s with events := events }
    else .error .contract
  | .accept connfd =>
    match s.events with
    | e :: rest =>
      if e.fd = listenfd ∧ connfd ≠ listenfd ∧ connfd ∉ s.connected then
        .ok { s with
          events := rest
          clientListFd := s.clientListFd ++ [connfd]
          connected := s.connected ++ [connfd] }
      else .error .contract
    | [] => .error .contract
  | .recv result =>
    match s.events with
    | e :: rest =>
      if e.fd ≠ listenfd ∧ e.epollin then readOnce s e.fd rest result else .error .contract
    | [] => .error .contract
  | .somethingElse =>
    match s.events with
    | e :: rest =>
      if e.fd ≠ listenfd ∧ ¬ e.epollin then .ok { s with events := rest } else .error .contract
    | [] => .error .contract

end LinuxDemo.Source.EpollChatroom
