import LinuxDemo.Lib.FdTable
import LinuxDemo.Lib.Run

/-!
# `create_daemon.c`

`becomeDaemon` on a table of processes, each with its group, its session and its descriptors.
The function is followed from process to process, the `_exit` of each coming before its child
goes on. Nobody waits for it, so it may come later; the table is then the one there is when
both are made. Who has ended stays in the table until somebody has waited for it. A new
process gets a number that is not in use for a process, a group or a session. No `umask`,
`chdir` or `close` makes the function fail. Nobody is stopped, and nobody has asked for a
signal at the end of its parent, so that the hang-up of a terminal is all that an `_exit`
does to others.
-/
namespace LinuxDemo.Source.CreateDaemon
open LinuxDemo.Lib

def BD_NO_CHDIR : BitVec 32 := 0o1
def BD_NO_CLOSE_FILE : BitVec 32 := 0o2
def BD_NO_REOPEN_STD_FDS : BitVec 32 := 0o4
def BD_NO_UMASK : BitVec 32 := 0o10
def BD_MAX_CLOSE : Nat := 8192

def STDIN_FILENO : Nat := 0
def STDOUT_FILENO : Nat := 1
def STDERR_FILENO : Nat := 2

inductive File where
  /-- `/dev/null`, as it is opened here -/
  | devNull
  | inherited (n : Nat)
  deriving DecidableEq

structure Proc where
  ppid : Nat
  pgid : Nat
  sid : Nat
  /-- the process has a controlling terminal -/
  tty : Bool
  /-- it has ended and is not waited for yet -/
  ended : Bool
  umask : Nat
  cwd : String
  fds : FdTable File

/-- The processes by their numbers. -/
structure World where
  proc : Nat → Option Proc
  bound : Nat
  above : ∀ pid, bound ≤ pid → proc pid = none

/-- What the kernel answers. -/
structure Kernel where
  /-- the numbers of the new processes, where `fork` succeeds -/
  first : Option Nat
  second : Option Nat
  /-- the limit on descriptors, if there is one -/
  limit : Option Nat
  /-- `/dev/null` can be opened -/
  devNull : Bool
  /-- who takes in the children of the caller: process 1, or an ancestor that asked for it -/
  reaper : Nat
  /-- who has been waited for soon after its `_exit` -/
  waited : Nat → Bool
  /-- whom a hang-up ends: its `SIGHUP` is for the foreground group, can be handled, and does
  not meet a child that is in its own session by then -/
  hup : Nat → Bool

namespace World

def set (w : World) (pid : Nat) (p : Proc) : World where
  proc := Function.update w.proc pid (some p)
  bound := max w.bound (pid + 1)
  above pid' h := by
    rw [Function.update_of_ne (by omega)]
    exact w.above pid' (by omega)

/-- The number is in use for no process, group or session. -/
def Unused (w : World) (pid : Nat) : Prop :=
  w.proc pid = none ∧ ∀ q < w.bound, (w.proc q).all (fun p => p.pgid ≠ pid ∧ p.sid ≠ pid) = true

/-- There is a process group of this number. -/
def Group (w : World) (pid : Nat) : Prop :=
  ∃ q < w.bound, (w.proc q).any (fun p => p.pgid = pid) = true

instance (w : World) (pid : Nat) : Decidable (w.Group pid) :=
  inferInstanceAs (Decidable (∃ q < w.bound, _ = true))

instance (w : World) (pid : Nat) : Decidable (w.Unused pid) :=
  have : Decidable (w.proc pid = none) := decidable_of_iff ((w.proc pid).isNone = true) (by simp)
  inferInstanceAs (Decidable (_ ∧ ∀ q < w.bound, _ = true))

/-- `fork`: the child is a copy of the parent. -/
def fork (w : World) (self child : Nat) : Except Fault World :=
  match w.proc self with
  | some p =>
    if p.ended = false ∧ w.Unused child then .ok (w.set child { p with ppid := self })
    else .error .contract
  | none => .error .contract

/-- The process leads a session with a controlling terminal. -/
def leads (w : World) (self : Nat) : Bool := (w.proc self).any fun p => p.sid = self && p.tty

/-- What becomes of a process where `self` ends: one who leads a session hangs up its
terminal. -/
def hangUp (w : World) (k : Kernel) (self pid : Nat) (p : Proc) : Proc :=
  if w.leads self ∧ p.sid = self then { p with tty := false, ended := p.ended || k.hup pid } else p

/-- Its children get a new parent. -/
def orphan (k : Kernel) (self : Nat) (p : Proc) : Proc :=
  if p.ppid = self then { p with ppid := k.reaper } else p

/-- What is left of a process behind the `_exit` of `self`. -/
def afterExit (w : World) (k : Kernel) (self pid : Nat) (p : Proc) : Option Proc :=
  let p := w.hangUp k self pid p
  if pid = self then if k.waited self then none else some { p with ended := true }
  else some (orphan k self p)

/-- `_exit`. Who takes in the others' children does not call it. -/
def exit (w : World) (k : Kernel) (self : Nat) : Except Fault World :=
  if self = k.reaper then .error .contract
  else .ok
    { proc := fun pid => (w.proc pid).bind (w.afterExit k self pid)
      bound := w.bound
      above := fun pid h => by simp [w.above pid h] }

/-- The process is there and has not ended. -/
def alive (w : World) (pid : Nat) : Bool := (w.proc pid).any fun p => !p.ended

/-- `switch(fork())`, where it succeeds: the parent leaves by `_exit`, and the child goes on,
unless it was hung up. -/
def handOver (w : World) (k : Kernel) (self child : Nat) : Except Fault (Option World) := do
  let w ← w.fork self child
  let w ← w.exit k self
  .ok (if w.alive child then some w else none)

/-- `setsid`, which fails for the number of a process group. -/
def setsid (w : World) (self : Nat) : Option World :=
  if w.Group self then none
  else (w.proc self).map fun p => w.set self { p with pgid := self, sid := self, tty := false }

end World

/-- The test `!(flags & bit)`. -/
def lacks (flags bit : BitVec 32) : Bool := flags &&& bit = 0

/-- `sysconf(_SC_OPEN_MAX)`, and what the code makes of -1. -/
def maxfd (k : Kernel) : Nat :=
  match k.limit with
  | some n => n
  | none => BD_MAX_CLOSE

/-- The standard descriptors; nothing stands for -1. -/
def reopen (k : Kernel) (fds : FdTable File) : Option Unit × FdTable File :=
  let fds := fds.close STDIN_FILENO
  match if k.devNull then fds.openFile k.limit .devNull else none with
  | none => (none, fds)
  | some (fd, fds) =>
    if fd ≠ STDIN_FILENO then (none, fds)
    else match fds.dup2 k.limit STDIN_FILENO STDOUT_FILENO with
      | none => (none, fds)
      | some fds => match fds.dup2 k.limit STDIN_FILENO STDERR_FILENO with
        | none => (none, fds)
        | some fds => (some (), fds)

/-- What the last process does to itself up to its standard descriptors. -/
def settle (k : Kernel) (flags : BitVec 32) (p : Proc) : Proc :=
  let p := if lacks flags BD_NO_UMASK then { p with umask := 0 } else p
  let p := if lacks flags BD_NO_CHDIR then { p with cwd := "/" } else p
  if lacks flags BD_NO_CLOSE_FILE then { p with fds := p.fds.closeRange 0 (maxfd k) } else p

/-- All it does to itself, and what it returns. -/
def configure (k : Kernel) (flags : BitVec 32) (p : Proc) : Int × Proc :=
  let p := settle k flags p
  if lacks flags BD_NO_REOPEN_STD_FDS then
    match reopen k p.fds with
    | (some (), fds) => (0, { p with fds := fds })
    | (none, fds) => (-1, { p with fds := fds })
  else (0, p)

/-- What is returned, by which process, and the processes there are then. -/
structure Result where
  value : Int
  pid : Nat
  world : World

/-- The function, called by the process `self`; nothing where nobody is left to return. -/
def becomeDaemon (k : Kernel) (flags : BitVec 32) (self : Nat) (w : World) :
    Except Fault (Option Result) :=
  match k.first with
  | none => .ok (some ⟨-1, self, w⟩)
  | some child => do
    match ← w.handOver k self child with
    | none => .ok none
    | some w =>
      match w.setsid child with
      | none => .ok (some ⟨-1, child, w⟩)
      | some w =>
        match k.second with
        | none => .ok (some ⟨-1, child, w⟩)
        | some daemon => do
          match ← w.handOver k child daemon with
          | none => .ok none
          | some w =>
            match w.proc daemon with
            | none => .error .contract
            | some p =>
              let (value, p) := configure k flags p
              .ok (some ⟨value, daemon, w.set daemon p⟩)

end LinuxDemo.Source.CreateDaemon
