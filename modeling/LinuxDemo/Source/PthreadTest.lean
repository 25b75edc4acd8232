import LinuxDemo.Lib.Heap

/-!
# `pthread_test.c`

`main` and any number `n` of threads, each a program counter, stepping in any order. One
step is one access to what they share or one call of the thread library. A step of a
thread that is blocked, or has ended, is not possible. What is printed, and the tests for
errors of the library, are left out; how long a thread sleeps does not matter.
-/
namespace LinuxDemo.Source.PthreadTest
open LinuxDemo.Lib

inductive TState where
  | alive | terminated | joined
  deriving DecidableEq

/-- Where a thread is in `threadfun`. -/
inductive Worker where
  /-- not created -/
  | absent
  /-- in `sleep` -/
  | sleeping
  /-- at `pthread_mutex_lock` -/
  | locking
  /-- at `numunjoin++` -/
  | counting
  /-- at `thread[idx].state=TS_TERMINATED` -/
  | marking
  /-- at `pthread_mutex_unlock` -/
  | unlocking
  /-- at `pthread_cond_signal` -/
  | signalling
  | returning
  | finished
  deriving DecidableEq

/-- Where `main` is. -/
inductive Main where
  /-- in front of a round of the first loop -/
  | creating (idx : Nat)
  /-- at `totThreads=argc-1` -/
  | settingTot
  /-- at `numlive=argc-1` -/
  | settingLive
  /-- at `while(numlive>0)` -/
  | testing
  /-- at `pthread_mutex_lock` -/
  | locking
  /-- at `while(numunjoin==0)` -/
  | testingUnjoin
  /-- in `pthread_cond_wait`, blocked -/
  | waiting
  /-- in `pthread_cond_wait`, woken up, at the mutex -/
  | woken
  /-- in front of a round of the loop over `thread` -/
  | scanning (idx : Nat)
  /-- in `pthread_join` -/
  | joining (idx : Nat)
  /-- at `thread[idx].state=TS_JOINED` -/
  | marking (idx : Nat)
  /-- at `numlive--` -/
  | lessLive (idx : Nat)
  /-- at `numunjoin--` -/
  | lessUnjoin (idx : Nat)
  /-- at `pthread_mutex_unlock` -/
  | unlocking
  /-- out of the loop -/
  | left
  deriving DecidableEq

inductive Holder where
  | main
  | worker (idx : Nat)
  deriving DecidableEq

structure State where
  main : Main
  worker : Nat → Worker
  /-- `thread[idx].state` -/
  state : Nat → TState
  totThreads : Int
  numlive : Int
  numunjoin : Int
  /-- who holds `pmt` -/
  mutex : Option Holder
  /-- calls of `pthread_join` on each thread -/
  joins : Nat → Nat

def State.init : State :=
  ⟨.creating 0, fun _ => .absent, fun _ => .alive, 0, 0, 0, none, fun _ => 0⟩

/-- The next step of thread `idx`. -/
def workerStep (idx : Nat) (s : State) : Except Fault State :=
  let goto (pc : Worker) := Function.update s.worker idx pc
  match s.worker idx with
  | .sleeping => .ok { s with worker := goto .locking }
  | .locking =>
    if s.mutex = none then .ok { s with worker := goto .counting, mutex := some (.worker idx) }
    else .error .contract
  | .counting => .ok { s with worker := goto .marking, numunjoin := s.numunjoin + 1 }
  | .marking =>
    .ok { s with worker := goto .unlocking, state := Function.update s.state idx .terminated }
  | .unlocking => .ok { s with worker := goto .signalling, mutex := none }
  | .signalling =>
    .ok { s with
      worker := goto .returning
      main := if s.main = .waiting then .woken else s.main }
  | .returning => .ok { s with worker := goto .finished }
  | .absent | .finished => .error .contract

/-- The round of the first loop for thread `idx`, `pthread_create` succeeding or not. -/
def createThread (idx : Nat) (created : Bool) (s : State) : State :=
  { s with
    main := .creating (idx + 1)
    state := Function.update s.state idx .alive
    worker := if created then Function.update s.worker idx .sleeping else s.worker }

/-- The next step of `main`, with `argc - 1 = n`; `creates idx` tells whether the call of
`pthread_create` for thread `idx` succeeds. -/
def mainStep (n : Nat) (creates : Nat → Bool) (s : State) : Except Fault State :=
  match s.main with
  | .creating idx =>
    if idx < n then .ok (createThread idx (creates idx) s)
    else .ok { s with main := .settingTot }
  | .settingTot => .ok { s with main := .settingLive, totThreads := n }
  | .settingLive => .ok { s with main := .testing, numlive := n }
  | .testing => .ok { s with main := if s.numlive > 0 then .locking else .left }
  | .locking =>
    if s.mutex = none then .ok { s with main := .testingUnjoin, mutex := some .main }
    else .error .contract
  | .testingUnjoin =>
    if s.numunjoin = 0 then .ok { s with main := .waiting, mutex := none }
    else .ok { s with main := .scanning 0 }
  | .waiting => .error .contract
  | .woken =>
    if s.mutex = none then .ok { s with main := .testingUnjoin, mutex := some .main }
    else .error .contract
  | .scanning idx =>
    if (idx : Int) < s.totThreads then
      if s.state idx = .terminated then
        .ok { s with main := .joining idx, joins := Function.update s.joins idx (s.joins idx + 1) }
      else .ok { s with main := .scanning (idx + 1) }
    else .ok { s with main := .unlocking }
  | .joining idx =>
    if s.worker idx = .finished then .ok { s with main := .marking idx } else .error .contract
  | .marking idx =>
    .ok { s with main := .lessLive idx, state := Function.update s.state idx .joined }
  | .lessLive idx => .ok { s with main := .lessUnjoin idx, numlive := s.numlive - 1 }
  | .lessUnjoin idx => .ok { s with main := .scanning (idx + 1), numunjoin := s.numunjoin - 1 }
  | .unlocking => .ok { s with main := .testing, mutex := none }
  | .left => .error .contract

/-- `pthread_cond_wait` returns without a signal. -/
def wakeUp (s : State) : Except Fault State :=
  if s.main = .waiting then .ok { s with main := .woken } else .error .contract

/-- Whose step is next. -/
inductive Op where
  | main
  | worker (idx : Nat)
  | wakeUp

def step (n : Nat) (creates : Nat → Bool) (s : State) : Op → Except Fault State
  | .main => mainStep n creates s
  | .worker idx => workerStep idx s
  | .wakeUp => wakeUp s

end LinuxDemo.Source.PthreadTest
