import LinuxDemo.Lib.EdgeTriggered
import LinuxDemo.Lib.Run

/-!
# `epoll_sig.cpp`

The event loop of `main` with the signal handler, the socket pair and the edge-triggered
event table. An operation is an action of the kernel or the handling of one event; the
handler only appends to the socket pair, so it may as well run between two operations. An
answer that the kernel cannot give is a broken contract. What is accepted is registered and
never read.
-/
namespace LinuxDemo.Source.EpollSig
open LinuxDemo.Lib

def MAX_EVENTS_NUMBER : Nat := 1024

/-- `sizeof(signals)` -/
def signalsSize : Nat := 1024

inductive Sig where
  | hup | chld | term | int
  deriving DecidableEq, Repr

/-- `SIGHUP`, `SIGCHLD`, `SIGTERM`, `SIGINT`. -/
def Sig.number : Sig → UInt8
  | .hup => 1
  | .chld => 17
  | .term => 15
  | .int => 2

/-- The descriptors made before the loop, and the byte at each address, if it is mapped. -/
structure Env where
  listenfd : Nat
  pipefd0 : Nat
  distinct : listenfd ≠ pipefd0
  memory : Nat → Option UInt8

/-- A member of `events`: the descriptor, and whether EPOLLIN is set. -/
structure Event where
  fd : Nat
  epollin : Bool
  deriving DecidableEq, Repr

/-- Before `epoll_wait`, inside of a batch with the events still to be handled, or behind
the loop. -/
inductive Phase where
  | waiting
  | batch (rest : List Event)
  | exited
  deriving DecidableEq, Repr

/-- The bytes readable at `pipefd[0]`, the notifications of the event table, the accepted
clients, and the record: the signals delivered, and the bytes read. -/
structure Server where
  phase : Phase
  stopServer : Bool
  pipe : List UInt8
  notified : Nat → Bool
  clients : List Nat
  delivered : List Sig
  read : List UInt8

def Server.init : Server := ⟨.waiting, false, [], fun _ => false, [], [], []⟩

inductive Op where
  /-- a signal is delivered -/
  | deliver (sig : Sig)
  /-- something arrives at the listening socket or at a client -/
  | arrive (fd : Nat)
  /-- `epoll_wait` returns; no event stands for EINTR -/
  | wait (events : List Event)
  /-- `epoll_wait` fails otherwise -/
  | waitFails
  /-- the event of the listening socket -/
  | accept (connfd : Nat)
  /-- the event of `pipefd[0]` -/
  | signals
  | somethingElse
  /-- behind the batch -/
  | finish
  deriving DecidableEq, Repr

/-- `sig_handler`: the signal number is passed to `send` as the address of the byte. -/
def sigHandler (env : Env) (s : Server) (sig : Sig) : Server :=
  match env.memory sig.number.toNat with
  | some b => { s with pipe := s.pipe ++ [b], notified := raise s.notified (· = env.pipefd0) }
  | none => s

/-- The branch of `pipefd[0]`: up to `sizeof(signals)` bytes are read and looked at, one by
one. -/
def readSignals (s : Server) : Server :=
  let signals := s.pipe.take signalsSize
  { s with
    stopServer := s.stopServer ||
      signals.any fun b => decide (b = Sig.term.number) || decide (b = Sig.int.number)
    pipe := s.pipe.drop signalsSize
    read := s.read ++ signals }

/-- Descriptors with a notification, each at most once, and `pipefd[0]` with EPOLLIN if
there is something to read. -/
def Reportable (env : Env) (s : Server) (events : List Event) : Prop :=
  events.length ≤ MAX_EVENTS_NUMBER ∧ (events.map Event.fd).Nodup ∧
    ∀ e ∈ events, s.notified e.fd = true ∧ (e.fd = env.pipefd0 → s.pipe ≠ [] → e.epollin = true)

instance (env : Env) (s : Server) (events : List Event) : Decidable (Reportable env s events) := by
  unfold Reportable
  infer_instance

def step (env : Env) (s : Server) : Op → Except Fault Server
  | .deliver sig =>
    if s.phase ≠ .exited then .ok { sigHandler env s sig with delivered := s.delivered ++ [sig] }
    else .error .contract
  | .arrive fd =>
    if fd = env.listenfd ∨ fd ∈ s.clients then
      .ok { s with notified := raise s.notified (· = fd) }
    else .error .contract
  | .wait events =>
    if s.phase = .waiting ∧ Reportable env s events then
      .ok { s with
        phase := .batch events
        notified := report s.notified (events.map Event.fd) }
    else .error .contract
  | .waitFails => if s.phase = .waiting then .ok { s with phase := .exited } else .error .contract
  | .accept connfd =>
    match s.phase with
    | .batch (e :: rest) =>
      if e.fd = env.listenfd ∧ connfd ≠ env.listenfd ∧ connfd ≠ env.pipefd0 ∧
          connfd ∉ s.clients then
        .ok { s with phase := .batch rest, clients := s.clients ++ [connfd] }
      else .error .contract
    | _ => .error .contract
  | .signals =>
    match s.phase with
    | .batch (e :: rest) =>
      if e.fd ≠ env.listenfd ∧ e.fd = env.pipefd0 ∧ e.epollin then
        .ok (readSignals { s with phase := .batch rest })
      else .error .contract
    | _ => .error .contract
  | .somethingElse =>
    match s.phase with
    | .batch (e :: rest) =>
      if e.fd ≠ env.listenfd ∧ ¬ (e.fd = env.pipefd0 ∧ e.epollin) then
        .ok { s with phase := .batch rest }
      else .error .contract
    | _ => .error .contract
  | .finish =>
    if s.phase = .batch [] then
      .ok { s with phase := if s.stopServer then .exited else .waiting }
    else .error .contract

end LinuxDemo.Source.EpollSig
