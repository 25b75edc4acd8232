import LinuxDemo.Lib.Run

/-!
# `test_pipe.c`

Parent and child from `fork` on, one system call at a time, in any order. A pipe holds at
most `capacity` bytes; a `write` into it takes as many steps as the kernel likes, and how
many bytes a `read` gives, out of those that are there and fit, is the kernel's choice as
well. A `read` from an empty pipe waits as long as somebody can write, and who writes with
nobody left to read is killed. Standard output takes all it is given, no `close` fails, and
the program is started with one argument. After a failed `fork` the parent itself goes on
in the branch of the child, there being no `break`. What `printf` is given waits in the
buffer of `stdout`, unless that is a terminal, and `_exit` does not write it out.
-/
namespace LinuxDemo.Source.TestPipe
open LinuxDemo.Lib

def BUFFSIZE : Nat := 20

structure Env where
  /-- `argv[1]` -/
  arg : List UInt8
  /-- what the pipe holds -/
  capacity : Nat
  holds : 0 < capacity
  /-- `fork` succeeds -/
  forks : Bool
  /-- standard output is a terminal, so that a line printed is a line written -/
  terminal : Bool

/-- Where the parent is. -/
inductive Parent where
  /-- at `fork` -/
  | forking
  /-- at `close(pfd[0])` -/
  | closingRead
  /-- in `write(pfd[1],argv[1],strlen(argv[1]))`, with what is not written yet -/
  | writing (rest : List UInt8)
  /-- at `close(pfd[1])` -/
  | closingWrite
  /-- at `wait` -/
  | waiting
  | returned
  /-- by `SIGPIPE` -/
  | killed
  /-- in the branch of the child -/
  | fellThrough
  deriving DecidableEq

/-- Where the process is that is in the branch of the child. -/
inductive Child where
  | absent
  /-- at `close(pfd[1])` -/
  | closingWrite
  /-- at `read(pfd[0],buf,BUFFSIZE)` -/
  | reading
  /-- at `write(STDOUT_FILENO,buf,readfrompipe)` -/
  | writing (buf : List UInt8)
  /-- at `write(STDOUT_FILENO,"\nbye\n",5)` -/
  | parting
  /-- at `close(pfd[0])` -/
  | closingRead
  /-- at `_exit(0)` -/
  | exiting
  | exited
  /-- waited for -/
  | reaped
  deriving DecidableEq

inductive Proc where
  | parent | child
  deriving DecidableEq

structure State where
  parent : Parent
  child : Child
  /-- bytes in the pipe -/
  pipe : List UInt8
  /-- who has `pfd[0]` open -/
  readEnd : Proc → Bool
  /-- who has `pfd[1]` open -/
  writeEnd : Proc → Bool
  stdout : List UInt8
  /-- printed and not yet written -/
  buffer : List UInt8

def State.init : State := ⟨.forking, .absent, [], fun p => p = .parent, fun p => p = .parent, [], []⟩

/-- `"error fork\n"` -/
def errorFork : List UInt8 := [101, 114, 114, 111, 114, 32, 102, 111, 114, 107, 10]

/-- `"\nbye\n"` -/
def bye : List UInt8 := [10, 98, 121, 101, 10]

/-- `printf` of a line. -/
def printf (env : Env) (line : List UInt8) (s : State) : State :=
  if env.terminal then { s with stdout := s.stdout ++ line }
  else { s with buffer := s.buffer ++ line }

/-- `p` closes an end. -/
def shut (ends : Proc → Bool) (p : Proc) : Proc → Bool := fun q => if q = p then false else ends q

def someEnd (ends : Proc → Bool) : Bool := ends .parent || ends .child

/-- The next step of the parent; `n` bytes go into the pipe if it is writing. -/
def parentStep (env : Env) (n : Nat) (s : State) : Except Fault State :=
  match s.parent with
  | .forking =>
    if env.forks then
      .ok { s with
        parent := .closingRead, child := .closingWrite
        readEnd := fun _ => true, writeEnd := fun _ => true }
    else
      -- what the parent had open is what is open in the branch of the child
      .ok (printf env errorFork { s with
        parent := .fellThrough, child := .closingWrite
        readEnd := fun p => p = .child, writeEnd := fun p => p = .child })
  | .closingRead => .ok { s with parent := .writing env.arg, readEnd := shut s.readEnd .parent }
  | .writing [] => .ok { s with parent := .closingWrite }
  | .writing (b :: rest) =>
    if someEnd s.readEnd = false then
      .ok { s with parent := .killed, writeEnd := shut s.writeEnd .parent }
    else if 0 < n ∧ n ≤ (b :: rest).length ∧ n + s.pipe.length ≤ env.capacity then
      .ok { s with
        parent := .writing ((b :: rest).drop n)
        pipe := s.pipe ++ (b :: rest).take n }
    else .error .contract
  | .closingWrite => .ok { s with parent := .waiting, writeEnd := shut s.writeEnd .parent }
  | .waiting =>
    if s.child = .exited then .ok { s with parent := .returned, child := .reaped }
    else .error .contract
  | .returned | .killed | .fellThrough => .error .contract

/-- The next step in the branch of the child; a `read` gives `n` bytes. -/
def childStep (n : Nat) (s : State) : Except Fault State :=
  match s.child with
  | .closingWrite => .ok { s with child := .reading, writeEnd := shut s.writeEnd .child }
  | .reading =>
    if s.pipe = [] then
      if n = 0 ∧ someEnd s.writeEnd = false then .ok { s with child := .parting }
      else .error .contract
    else if 0 < n ∧ n ≤ BUFFSIZE ∧ n ≤ s.pipe.length then
      .ok { s with child := .writing (s.pipe.take n), pipe := s.pipe.drop n }
    else .error .contract
  | .writing buf => .ok { s with child := .reading, stdout := s.stdout ++ buf }
  | .parting => .ok { s with child := .closingRead, stdout := s.stdout ++ bye }
  | .closingRead => .ok { s with child := .exiting, readEnd := shut s.readEnd .child }
  | .exiting => .ok { s with child := .exited, buffer := [] }
  | .absent | .exited | .reaped => .error .contract

/-- Whose step is next, and what the kernel decides in it. -/
inductive Op where
  | parent (n : Nat)
  | child (n : Nat)

def step (env : Env) (s : State) : Op → Except Fault State
  | .parent n => parentStep env n s
  | .child n => childStep n s

end LinuxDemo.Source.TestPipe
