import LinuxDemo.Lib.Run

/-!
# `unamed_sem_test.c`

`main` and the two threads it creates, each a program counter, stepping in any order. One
step is one access to what they share or one call of the library; `global++` is a load and a
store. The semaphore is valid and no signal handler is installed, so `sem_wait` and
`sem_post` do not fail. A step of a thread that is blocked, or not there, is not possible.
`global`, `loop` and `j` are of type `int`: `global++` faults where it overflows, and `j`
never passes `loop`.
-/
namespace LinuxDemo.Source.UnamedSemTest
open LinuxDemo.Lib

/-- The largest `int`. -/
def INT_MAX : Nat := 2147483647

inductive Pid where
  | pid1 | pid2
  deriving DecidableEq

/-- Where a thread is in `threadFunc`. -/
inductive Thread where
  | absent
  /-- at `j<loop` -/
  | testing (j : Nat)
  /-- at `sem_wait` -/
  | waiting (j : Nat)
  /-- at `global++`, in front of the load -/
  | loading (j : Nat)
  /-- at `global++`, with what was loaded -/
  | storing (j : Nat) (loaded : Int)
  /-- at `sem_post` -/
  | posting (j : Nat)
  | finished
  deriving DecidableEq

/-- Where `main` is. -/
inductive Main where
  /-- at `sem_init` -/
  | initialising
  /-- at `pthread_create` -/
  | creating (p : Pid)
  /-- at `pthread_join` -/
  | joining (p : Pid)
  /-- at `printf` -/
  | printing
  /-- at `sem_destroy` -/
  | destroying
  | returned
  /-- behind `exit(0)` -/
  | exited
  deriving DecidableEq

/-- Which of the calls of `main` succeed. -/
structure Env where
  initialises : Bool
  creates : Pid → Bool

structure State where
  main : Main
  thread : Pid → Thread
  /-- the value of `sem` -/
  sem : Nat
  global : Int
  printed : List String

def State.init : State := ⟨.initialising, fun _ => .absent, 0, 0, []⟩

/-- The next step of a thread, `loop` being what `arg` points to. -/
def threadStep (loop : Nat) (p : Pid) (s : State) : Except Fault State :=
  let goto (pc : Thread) : Pid → Thread := fun q => if q = p then pc else s.thread q
  if s.main = .exited ∨ s.main = .returned then .error .contract
  else match s.thread p with
  | .testing j => .ok { s with thread := goto (if j < loop then .waiting j else .finished) }
  | .waiting j =>
    if 0 < s.sem then .ok { s with thread := goto (.loading j), sem := s.sem - 1 }
    else .error .contract
  | .loading j => .ok { s with thread := goto (.storing j s.global) }
  | .storing j loaded =>
    if loaded < INT_MAX then .ok { s with thread := goto (.posting j), global := loaded + 1 }
    else .error .overflow
  | .posting j => .ok { s with thread := goto (.testing (j + 1)), sem := s.sem + 1 }
  | .absent | .finished => .error .contract

/-- `printf("error\n"); exit(0);` -/
def fail (s : State) : State := { s with main := .exited, printed := s.printed ++ ["error\n"] }

/-- A successful `pthread_create`. -/
def create (p : Pid) (next : Main) (s : State) : State :=
  { s with main := next, thread := fun q => if q = p then .testing 0 else s.thread q }

/-- The next step of `main`. -/
def mainStep (env : Env) (s : State) : Except Fault State :=
  match s.main with
  | .initialising =>
    if env.initialises then .ok { s with main := .creating .pid1, sem := 1 } else .ok (fail s)
  | .creating p =>
    if env.creates p then
      match p with
      | .pid1 => .ok (create .pid1 (.creating .pid2) s)
      | .pid2 => .ok (create .pid2 (.joining .pid1) s)
    else .ok (fail s)
  | .joining p =>
    if s.thread p = .finished then
      match p with
      | .pid1 => .ok { s with main := .joining .pid2 }
      | .pid2 => .ok { s with main := .printing }
    else .error .contract
  | .printing =>
    .ok { s with
      main := .destroying
      printed := s.printed ++ ["global is " ++ toString s.global ++ "\n"] }
  | .destroying => .ok { s with main := .returned }
  | .returned | .exited => .error .contract

/-- Whose step is next. -/
inductive Op where
  | main
  | thread (p : Pid)
  deriving DecidableEq

def step (env : Env) (loop : Nat) (s : State) : Op → Except Fault State
  | .main => mainStep env s
  | .thread p => threadStep loop p s

/-- `int loop=1000` -/
def loop : Nat := 1000

end LinuxDemo.Source.UnamedSemTest
