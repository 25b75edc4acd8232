import LinuxDemo.Lib.Run
import Mathlib.Logic.Function.Basic

/-!
# The children of `my_echo_ser.c`

The parent forks a child for every connection, the children end at any time, and `sig_chld`
reaps them. A signal that is pending is not queued, and it is not delivered while its
handler runs. The handler is the one of the source, or the one that is commented out there,
with a single `wait`. The `printf` of the source lacks its argument, so a line says that a
child has ended, and names none. An answer that the kernel cannot give is a broken contract.
-/
namespace LinuxDemo.Source.SigChld
open LinuxDemo.Lib

/-- The body of `sig_chld`. -/
inductive Reaping where
  /-- `while((pid=waitpid(-1,&stat,WNOHANG))>0)` with a line for every child -/
  | waitpidLoop
  /-- `pid=wait(&stat)` and a line -/
  | waitOnce
  deriving DecidableEq

inductive Child where
  | unborn | running | zombie | reaped
  deriving DecidableEq

/-- Where the handler is. -/
inductive Handler where
  /-- at `waitpid`, or `wait` -/
  | waiting
  /-- at `printf` -/
  | printing
  deriving DecidableEq

structure State where
  /-- the children in the order of their `fork` -/
  child : Nat → Child
  forked : Nat
  /-- `SIGCHLD` is pending -/
  pending : Bool
  handler : Option Handler
  /-- what `waitpid` gave, if positive -/
  waited : List Nat
  /-- lines printed -/
  lines : Nat

def State.init : State := ⟨fun _ => .unborn, 0, false, none, [], 0⟩

def someZombie (s : State) : Prop := ∃ i < s.forked, s.child i = .zombie

instance (s : State) : Decidable (someZombie s) :=
  inferInstanceAs (Decidable (∃ i < s.forked, s.child i = .zombie))

def someRunning (s : State) : Prop := ∃ i < s.forked, s.child i = .running

instance (s : State) : Decidable (someRunning s) :=
  inferInstanceAs (Decidable (∃ i < s.forked, s.child i = .running))

/-- What the handler, or the kernel on its behalf, does next. -/
inductive Handling where
  /-- the handler is entered -/
  | deliver
  /-- `waitpid` or `wait` gives a child -/
  | reap (i : Nat)
  /-- `waitpid` gives 0 or -1, `wait` gives -1 -/
  | noChild
  | print
  deriving DecidableEq

/-- What follows the `printf` of the handler. -/
def afterPrint : Reaping → Option Handler
  | .waitpidLoop => some .waiting
  | .waitOnce => none

def handle (body : Reaping) (s : State) : Handling → Except Fault State
  | .deliver =>
    if s.pending ∧ s.handler = none then .ok { s with pending := false, handler := some .waiting }
    else .error .contract
  | .reap i =>
    if s.handler = some .waiting ∧ i < s.forked ∧ s.child i = .zombie then
      .ok { s with
        child := Function.update s.child i .reaped
        waited := s.waited ++ [i]
        handler := some .printing }
    else .error .contract
  | .noChild =>
    if s.handler = some .waiting ∧ ¬ someZombie s then
      match body with
      | .waitpidLoop => .ok { s with handler := none }
      -- `wait` blocks as long as there is a child, and the line is printed all the same
      | .waitOnce =>
        if someRunning s then .error .contract else .ok { s with handler := some .printing }
    else .error .contract
  | .print =>
    if s.handler = some .printing then
      .ok { s with lines := s.lines + 1, handler := afterPrint body }
    else .error .contract

inductive Op where
  /-- the parent, which is not in its handler, accepts a connection and forks -/
  | fork
  /-- `_exit(0)` in a child -/
  | exit (i : Nat)
  | handler (h : Handling)

def step (body : Reaping) (s : State) : Op → Except Fault State
  | .fork =>
    if s.handler = none then
      .ok { s with child := Function.update s.child s.forked .running, forked := s.forked + 1 }
    else .error .contract
  | .exit i =>
    if s.child i = .running then
      .ok { s with child := Function.update s.child i .zombie, pending := true }
    else .error .contract
  | .handler h => handle body s h

end LinuxDemo.Source.SigChld
