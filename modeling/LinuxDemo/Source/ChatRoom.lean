import LinuxDemo.Lib.EdgeTriggered
import LinuxDemo.Source.EpollChatroom
import LinuxDemo.Source.EpollChatroomClient
import Mathlib.Data.List.Basic

/-!
# `epoll_chatroom.cpp` and its clients

The server with a number of processes of `epoll_chatroom_client.cpp`, one system call at a
time and in any order, and the kernel between them: connections, the queue of the listening
socket and the edge-triggered event tables. `recv` gives as much of what has been sent as
the kernel likes, and so does `read` of what has been typed: a terminal gives one line, a
pipe all that fits. A connection takes all it is given, so that what the server does for one
chunk is one step. There are descriptors enough for all clients in the server; without one
`accept` fails, and so does the assertion behind it. Neither program ends or closes a socket
that works, so nobody leaves.
-/
namespace LinuxDemo.Source.ChatRoom
open LinuxDemo.Lib

def MAX_EVENTS_NUMBER : Nat := 1024

structure Env where
  listenfd : Nat
  /-- how many connections can wait to be accepted -/
  queue : Nat
  someQueue : 0 < queue
  clients : Nat
  /-- how many connections the server can have open -/
  limit : Nat
  enough : clients ≤ limit
  /-- what is typed at a client, part by part -/
  script : Nat → List (List UInt8)

/-- Where a client is. -/
inductive Phase where
  /-- at `connect` -/
  | starting
  /-- at the calls of `addfd` -/
  | connected
  | inLoop
  deriving DecidableEq

/-- A client with its user and its connection. -/
structure Member where
  phase : Phase
  client : EpollChatroomClient.Client
  /-- the notifications in its event table -/
  stdinNotified : Bool
  clifdNotified : Bool
  /-- what is still to be typed -/
  script : List (List UInt8)
  /-- what is typed and not read -/
  stdin : List UInt8
  /-- standard input ends there -/
  eof : Bool
  /-- on the way to the server -/
  up : List UInt8
  /-- on the way back -/
  down : List UInt8
  /-- all that was typed -/
  typed : List UInt8
  /-- how much was new at each `read` of standard input, and how much it gave -/
  looks : List (Nat × Nat)
  /-- how much is new since -/
  unseen : Nat
  /-- how many chunks the server had received when it accepted the connection -/
  joined : Option Nat

structure Room where
  server : EpollChatroom.Server
  /-- the notifications in the event table of the server -/
  notified : Nat → Bool
  /-- the clients by the descriptors of their connections -/
  fds : Nat → Option Nat
  /-- who waits to be accepted -/
  backlog : List Nat
  member : Nat → Member
  /-- the chunks the server has received, and from whom -/
  log : List (Nat × List UInt8)
  /-- how many connections were new at each `accept` -/
  accepts : List Nat
  /-- how many are new since -/
  arrived : Nat

def Member.init (script : List (List UInt8)) : Member where
  phase := .starting
  client := .init
  stdinNotified := false
  clifdNotified := false
  script := script
  stdin := []
  eof := false
  up := []
  down := []
  typed := []
  looks := []
  unseen := 0
  joined := none

def Room.init (env : Env) : Room where
  server := .init
  notified _ := false
  fds _ := none
  backlog := []
  member i := .init (env.script i)
  log := []
  accepts := []
  arrived := 0

namespace Member

/-- The next part is typed; behind the last, standard input ends. -/
def type (m : Member) : Except Fault Member :=
  match m.script with
  | part :: script =>
    .ok { m with
      script := script
      stdin := m.stdin ++ part
      typed := m.typed ++ part
      unseen := m.unseen + part.length
      stdinNotified := m.stdinNotified || (decide (m.phase = .inLoop) && decide (part ≠ [])) }
  | [] =>
    if m.eof then .error .contract
    else .ok { m with
      eof := true
      stdinNotified := m.stdinNotified || decide (m.phase = .inLoop) }

/-- `addfd` of `clifd` and of standard input, which notify of what is there already. -/
def register (m : Member) : Except Fault Member :=
  if m.phase = .connected then
    .ok { m with
      phase := .inLoop
      clifdNotified := decide (m.down ≠ [])
      stdinNotified := decide (m.stdin ≠ [] ∨ m.eof = true) }
  else .error .contract

/-- There is a notification, and it still holds. -/
def Ready (m : Member) : EpollChatroomClient.Event → Prop
  | .stdin => m.stdinNotified = true ∧ (m.stdin ≠ [] ∨ m.eof = true)
  | .clifd epollin => epollin = true ∧ m.clifdNotified = true ∧ m.down ≠ []

instance (m : Member) : DecidablePred m.Ready := fun e => by
  cases e <;> unfold Ready <;> infer_instance

/-- A system call of the client, with what the kernel answers. -/
def step (m : Member) (op : EpollChatroomClient.Op) : Except Fault Member := do
  let client ← EpollChatroomClient.step m.client op
  match op with
  | .wait events =>
    if events ≠ [] ∧ events.Nodup ∧ ∀ e ∈ events, m.Ready e then
      .ok { m with
        client := client
        stdinNotified := m.stdinNotified && decide (.stdin ∉ events)
        clifdNotified := m.clifdNotified && decide (.clifd true ∉ events) }
    else .error .contract
  | .read buffer =>
    if buffer <+: m.stdin ∧ (buffer = [] → m.stdin = []) then
      .ok { m with
        client := client
        stdin := m.stdin.drop buffer.length
        up := m.up ++ buffer
        looks := m.looks ++ [(m.unseen, buffer.length)]
        unseen := 0 }
    else .error .contract
  | .recv (.data buf) =>
    if buf <+: m.down then .ok { m with client := client, down := m.down.drop buf.length }
    else .error .contract
  | .recv .again => if m.down = [] then .ok { m with client := client } else .error .contract
  | .recv .eof | .recv .error | .pass => .error .contract

/-- The calls of `send` whose descriptor is that of this client. -/
def deliver (m : Member) (sends : List Nat) (buf : List UInt8) : Member :=
  { m with
    down := m.down ++ sends.flatMap fun _ => buf
    clifdNotified := m.clifdNotified || (decide (m.phase = .inLoop) && decide (sends ≠ [])) }

end Member

inductive Op where
  /-- somebody types at the client -/
  | type (i : Nat)
  | connect (i : Nat)
  | register (i : Nat)
  | client (i : Nat) (op : EpollChatroomClient.Op)
  | server (op : EpollChatroom.Op)

/-- There is a connection to accept, or there are bytes to read. -/
def Readable (env : Env) (s : Room) (fd : Nat) : Prop :=
  if fd = env.listenfd then s.backlog ≠ []
  else match s.fds fd with
    | some i => (s.member i).up ≠ []
    | none => False

instance (env : Env) (s : Room) : DecidablePred (Readable env s) := fun fd => by
  unfold Readable
  split
  · infer_instance
  · split <;> infer_instance

/-- What `epoll_wait` returns in the server. -/
def Reportable (env : Env) (s : Room) (events : List EpollChatroom.Event) : Prop :=
  events ≠ [] ∧ events.length ≤ MAX_EVENTS_NUMBER ∧
    ∀ e ∈ events, e.epollin = true ∧ s.notified e.fd = true ∧ Readable env s e.fd

instance (env : Env) (s : Room) (events : List EpollChatroom.Event) :
    Decidable (Reportable env s events) := by
  unfold Reportable
  infer_instance

/-- The server has received `buf` from `i` and passed it to `send` for `targets`. -/
def relay (s : Room) (i : Nat) (buf : List UInt8) (targets : List Nat) : Room :=
  let sender := { s.member i with up := (s.member i).up.drop buf.length }
  { s with
    log := s.log ++ [(i, buf)]
    member := fun j => (Function.update s.member i sender j).deliver
      (targets.filter fun fd => s.fds fd = some j) buf }

/-- A system call of the server, with what the kernel answers. -/
def serverStep (env : Env) (s : Room) (op : EpollChatroom.Op) : Except Fault Room := do
  let server ← EpollChatroom.step env.listenfd s.server op
  match op with
  | .wait events =>
    if Reportable env s events then
      .ok { s with
        server := server
        notified := report s.notified (events.map EpollChatroom.Event.fd) }
    else .error .contract
  | .accept connfd =>
    match s.backlog with
    | i :: backlog =>
      if s.server.connected.length < env.limit then
        .ok { s with
          server := server
          backlog := backlog
          fds := Function.update s.fds connfd (some i)
          notified := Function.update s.notified connfd (decide ((s.member i).up ≠ []))
          member := Function.update s.member i { s.member i with joined := some s.log.length }
          accepts := s.accepts ++ [s.arrived]
          arrived := 0 }
      else .error .assertion
    | [] => .error .assertion
  | .recv result =>
    match s.server.events.head?.bind fun e => s.fds e.fd with
    | none => .error .contract
    | some i =>
      match result with
      | .data buf =>
        if buf <+: (s.member i).up then
          -- the broadcast that is recorded last is the one of this chunk
          let targets := (server.broadcasts.getLast?.map EpollChatroom.Broadcast.targets).getD []
          .ok { relay s i buf targets with server := server }
        else .error .contract
      | .again =>
        if (s.member i).up = [] then .ok { s with server := server } else .error .contract
      | .eof | .error => .error .contract
  | .somethingElse => .error .contract

/-- A step of one member. What it sends is announced to the server. -/
def memberStep (env : Env) (s : Room) (i : Nat) (act : Member → Except Fault Member) :
    Except Fault Room :=
  if i < env.clients then do
    let m ← act (s.member i)
    .ok { s with
      member := Function.update s.member i m
      notified := raise s.notified fun fd => s.fds fd = some i ∧ (s.member i).up ≠ m.up }
  else .error .contract

/-- `connect`. -/
def connect (env : Env) (s : Room) (i : Nat) : Except Fault Room :=
  if i < env.clients ∧ (s.member i).phase = .starting ∧ s.backlog.length < env.queue then
    .ok { s with
      member := Function.update s.member i { s.member i with phase := .connected }
      backlog := s.backlog ++ [i]
      arrived := s.arrived + 1
      notified := raise s.notified (· = env.listenfd) }
  else .error .contract

def step (env : Env) (s : Room) : Op → Except Fault Room
  | .type i => memberStep env s i Member.type
  | .connect i => connect env s i
  | .register i => memberStep env s i Member.register
  | .client i op => memberStep env s i (Member.step · op)
  | .server op => serverStep env s op

end LinuxDemo.Source.ChatRoom
