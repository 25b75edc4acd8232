import LinuxDemo.Lib.Run

/-!
# `pthread_rwlock.c`

`main` and the thread it creates, in any order. One step is one access to what they share or
one call of the library; `a++` and `a--` are a load and a store, and the argument of `printf`
is loaded before it prints. `mode` says for each which of the two locking functions it calls;
as the file stands both call `pthread_rwlock_rdlock`. No call of the library fails.
-/
namespace LinuxDemo.Source.PthreadRwlock
open LinuxDemo.Lib

inductive Thread where
  | main
  /-- in `pthread_func` -/
  | son
  deriving DecidableEq

/-- `pthread_rwlock_rdlock` or `pthread_rwlock_wrlock`. -/
inductive Mode where
  | read | write
  deriving DecidableEq

/-- What is done between locking and unlocking. -/
inductive Action where
  /-- `printf` of the first line -/
  | begin
  /-- the load of `a++` or `a--` -/
  | load
  /-- the store of `a++` or `a--` -/
  | store
  /-- the load of the argument of `printf` -/
  | argument
  /-- `printf("value of a %d\n",a)` -/
  | value
  /-- `printf` of the last line -/
  | finish
  deriving DecidableEq

/-- Where a thread is. -/
inductive Place where
  /-- `main` at `pthread_create`; the son is not there yet -/
  | starting
  | locking
  /-- with the lock, the value last loaded and what is still to be done -/
  | inside (loaded : Int) (rest : List Action)
  /-- `main` at `pthread_join` -/
  | joining
  | ended
  deriving DecidableEq

/-- The variable `a`, and what has been printed. -/
structure Shared where
  a : Int
  printed : List String
  deriving DecidableEq

structure State where
  shared : Shared
  place : Thread → Place

def State.init : State := ⟨⟨1, []⟩, fun _ => .starting⟩

def actions : List Action := [.begin, .load, .store, .argument, .value, .finish]

def beginText : Thread → String
  | .main => "main pthread begin,readlock\n"
  | .son => "son pthread begin,writelock\n"

def finishText : Thread → String
  | .main => "main pthread end,read unlock\n"
  | .son => "son pthread end,write unlock\n"

/-- `a--` or `a++`. -/
def change : Thread → Int
  | .main => -1
  | .son => 1

def Shared.print (s : Shared) (text : String) : Shared := { s with printed := s.printed ++ [text] }

def perform (t : Thread) (loaded : Int) (s : Shared) : Action → Int × Shared
  | .begin => (loaded, s.print (beginText t))
  | .load => (s.a, s)
  | .store => (loaded, { s with a := loaded + change t })
  | .argument => (s.a, s)
  | .value => (loaded, s.print ("value of a " ++ toString loaded ++ "\n"))
  | .finish => (loaded, s.print (finishText t))

/-- How a thread has the lock. -/
def held (mode : Thread → Mode) (s : State) (t : Thread) : Option Mode :=
  match s.place t with
  | .inside _ _ => some (mode t)
  | _ => none

def other : Thread → Thread
  | .main => .son
  | .son => .main

/-- A reader waits for a writer, a writer for everybody. -/
def free (mode : Thread → Mode) (s : State) (t : Thread) : Prop :=
  match mode t with
  | .read => held mode s (other t) ≠ some .write
  | .write => held mode s (other t) = none

instance (mode : Thread → Mode) (s : State) (t : Thread) : Decidable (free mode s t) := by
  unfold free
  split <;> infer_instance

/-- The next step of a thread. -/
def step (mode : Thread → Mode) (s : State) (t : Thread) : Except Fault State :=
  let goto (p : Place) : Thread → Place := Function.update s.place t p
  match s.place t with
  | .starting =>
    match t with
    | .main => .ok { s with place := fun _ => .locking }
    | .son => .error .contract
  | .locking =>
    if free mode s t then .ok { s with place := goto (.inside 0 actions) }
    else .error .contract
  | .inside loaded (action :: rest) =>
    let (loaded, shared) := perform t loaded s.shared action
    .ok ⟨shared, goto (.inside loaded rest)⟩
  | .inside _ [] => .ok { s with place := goto (if t = .main then .joining else .ended) }
  | .joining =>
    if s.place .son = .ended then .ok { s with place := goto .ended } else .error .contract
  | .ended => .error .contract

end LinuxDemo.Source.PthreadRwlock
