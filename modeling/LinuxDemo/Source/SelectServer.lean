import LinuxDemo.Lib.Heap
import Mathlib.Data.Finset.Card
import Mathlib.Data.Finset.Insert

/-!
# `selectserver_test.c`

The loop of `main`, one round at a time. What the kernel answers in a round is an argument
of it; which descriptors are open is part of the state. An `fd_set` is a finite set, and a
descriptor that does not fit it is a fault, as is an index outside `client[]`. The address
printed for a new connection and the text printed for received data are left out, and
`write` is one entry of the log.
-/
namespace LinuxDemo.Source.SelectServer
open LinuxDemo.Lib

def FD_SETSIZE : Nat := 1024

/-- System calls on a descriptor, in the order they are made. -/
inductive Call where
  | accept (connfd : Int)
  | read (fd n : Int)
  | write (fd n : Int)
  | close (fd : Int)
  deriving DecidableEq

structure Server where
  client : Nat → Int
  maxi : Int
  maxfd : Int
  allset : Finset Int
  /-- descriptors open in the process -/
  opened : Finset Int
  calls : List Call
  /-- `err_quit` has ended the process -/
  quit : Bool

/-- What the kernel answers in one round. -/
structure Round where
  /-- the descriptors `select` leaves in `rset` -/
  ready : Finset Int
  /-- what `accept` returns, if it is called -/
  connfd : Int
  /-- what `getsockname` returns on it -/
  named : Int
  /-- what `read` returns on `client[i]`, if it is called -/
  read : Nat → Int

/-- The state in front of the loop, `opened` being the descriptors open by then. -/
def Server.init (listenfd : Int) (opened : Finset Int) : Server :=
  ⟨fun _ => -1, -1, listenfd, {listenfd}, opened, [], false⟩

/-- `client[i]`, read. -/
def Server.clientAt (s : Server) (i : Nat) : Except Fault Int :=
  if i < FD_SETSIZE then .ok (s.client i) else .error .outOfBounds

/-- `client[i] = fd`. -/
def Server.setClient (s : Server) (i : Nat) (fd : Int) : Except Fault Server :=
  if i < FD_SETSIZE then .ok { s with client := Function.update s.client i fd }
  else .error .outOfBounds

def fdInRange (fd : Int) : Prop := 0 ≤ fd ∧ fd < FD_SETSIZE

instance (fd : Int) : Decidable (fdInRange fd) := inferInstanceAs (Decidable (_ ∧ _))

/-- `FD_SET(fd, &set)`. -/
def fdSet (fd : Int) (set : Finset Int) : Except Fault (Finset Int) :=
  if fdInRange fd then .ok (insert fd set) else .error .outOfBounds

/-- `FD_CLR(fd, &set)`. -/
def fdClr (fd : Int) (set : Finset Int) : Except Fault (Finset Int) :=
  if fdInRange fd then .ok (set.erase fd) else .error .outOfBounds

/-- `FD_ISSET(fd, &set)`. -/
def fdIsset (fd : Int) (set : Finset Int) : Except Fault Bool :=
  if fdInRange fd then .ok (decide (fd ∈ set)) else .error .outOfBounds

/-- `FD_SET(listenfd, &allset)` and the other assignments in front of the loop. -/
def boot (listenfd : Int) (opened : Finset Int) : Except Fault Server := do
  let allset ← fdSet listenfd ∅
  return { Server.init listenfd opened with allset := allset }

/-- `nready = select(maxfd+1, &rset, NULL, NULL, NULL)` with `rset = allset`. It waits until
something is ready; with a closed descriptor in the set it fails and leaves `rset` alone. -/
def select (s : Server) (r : Round) : Except Fault (Int × Finset Int) :=
  if ∀ fd ∈ s.allset, fd ≤ s.maxfd → fd ∈ s.opened then
    if r.ready.Nonempty ∧ r.ready ⊆ s.allset.filter (· ≤ s.maxfd) then
      .ok (r.ready.card, r.ready)
    else .error .contract
  else .ok (-1, s.allset)

/-- The loop that puts `connfd` into the first free entry; the result is the value of `i`
behind it. The number counts the entries left. -/
def place (connfd : Int) : Nat → Nat → Server → Except Fault (Nat × Server)
  | 0, i, s => .ok (i, s)
  | n + 1, i, s => do
    if (← s.clientAt i) < 0 then
      let s ← s.setClient i connfd
      return (i, s)
    else place connfd n (i + 1) s

/-- The branch of a ready client. -/
def serve (i : Nat) (sockfd n : Int) (s : Server) (rset : Finset Int) :
    Except Fault (Server × Finset Int) :=
  let s := { s with calls := s.calls ++ [Call.read sockfd n] }
  if n = 0 then do
    let s := { s with opened := s.opened.erase sockfd, calls := s.calls ++ [Call.close sockfd] }
    let rset ← fdClr sockfd rset
    let s ← s.setClient i (-1)
    return (s, rset)
  else .ok ({ s with calls := s.calls ++ [Call.write sockfd n] }, rset)

/-- The loop over `client[]`. The number counts the entries up to `maxi`. -/
def scan (read : Nat → Int) : Nat → Nat → Server → Finset Int → Int → Except Fault Server
  | 0, _, s, _, _ => .ok s
  | n + 1, i, s, rset, nready => do
    let sockfd ← s.clientAt i
    if sockfd < 0 then scan read n (i + 1) s rset nready
    else if ← fdIsset sockfd rset then
      let (s, rset) ← serve i sockfd (read i) s rset
      if nready - 1 ≤ 0 then return s
      else scan read n (i + 1) s rset (nready - 1)
    else scan read n (i + 1) s rset nready

/-- The branch of a new connection, up to the test of `nready`. -/
def newClient (connfd : Int) (s : Server) : Except Fault Server := do
  let (i, s) ← place connfd FD_SETSIZE 0 s
  let allset ← fdSet connfd s.allset
  let s := { s with allset := allset }
  let s := if connfd > s.maxfd then { s with maxfd := connfd } else s
  return if (i : Int) > s.maxi then { s with maxi := i } else s

/-- The part of a round behind `select`, which returned `nready` and left `rset`. -/
def afterSelect (listenfd : Int) (r : Round) (nready : Int) (rset : Finset Int) (s : Server) :
    Except Fault Server := do
  if ← fdIsset listenfd rset then
    let s := { s with
      opened := if r.connfd < 0 then s.opened else insert r.connfd s.opened
      calls := s.calls ++ [Call.accept r.connfd] }
    if r.named < 0 then return { s with quit := true }
    else
      let s ← newClient r.connfd s
      if nready - 1 ≤ 0 then return s
      else scan r.read (s.maxi + 1).toNat 0 s rset (nready - 1)
  else scan r.read (s.maxi + 1).toNat 0 s rset nready

/-- One round of `for(;;)`. -/
def round (listenfd : Int) (r : Round) (s : Server) : Except Fault Server := do
  let (nready, rset) ← select s r
  afterSelect listenfd r nready rset s

end LinuxDemo.Source.SelectServer
