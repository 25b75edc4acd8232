import LinuxDemo.Lib.Heap

/-!
# `parent_child_communicate.c`

The parent's and the child's loop, one system call at a time, in any order the scheduler
picks. How many bytes a `read` returns is the kernel's choice and an argument of the call:
at least one and at most what was asked for and is there, in order. A pipe is the list of
bytes written to it and not yet read; a `write` blocks until all is in the pipe. The
branches that report an error are left out.
-/
namespace LinuxDemo.Source.ParentChild
open LinuxDemo.Lib

def BUFSIZE : Nat := 10000

/-- `toupper`, in the C locale. -/
def toupper (c : UInt8) : UInt8 := if 97 ≤ c ∧ c ≤ 122 then c - 32 else c

/-- Where the parent is in its loop, with the bytes of `buf` it is about to write. -/
inductive Parent where
  /-- at `sz=read(STDIN_FILENO,buf,BUFSIZE)` -/
  | reading
  /-- at `write(pipe1[1],buf,sz)` -/
  | sending (buf : List UInt8)
  /-- at `sz=read(pipe2[0],buf,BUFSIZE)` -/
  | awaiting
  /-- at `write(STDOUT_FILENO,buf,sz)` -/
  | printing (buf : List UInt8)
  | returned
  deriving DecidableEq

inductive Child where
  /-- at `sz=read(pipe1[0],buf,BUFSIZE)` -/
  | reading
  /-- at `write(pipe2[1],buf,sz)` -/
  | replying (buf : List UInt8)
  | exited
  deriving DecidableEq

structure State where
  /-- what standard input still has to deliver -/
  stdin : List UInt8
  parent : Parent
  pipe1 : List UInt8
  child : Child
  pipe2 : List UInt8
  stdout : List UInt8
  /-- what the parent has read from standard input -/
  input : List UInt8
  deriving DecidableEq

def State.init (stdin : List UInt8) : State := ⟨stdin, .reading, [], .reading, [], [], []⟩

/-- `read(fd,buf,BUFSIZE)` may return `n` of the bytes that are there. -/
def readable (n : Nat) (bytes : List UInt8) : Prop := 1 ≤ n ∧ n ≤ BUFSIZE ∧ n ≤ bytes.length

instance (n : Nat) (bytes : List UInt8) : Decidable (readable n bytes) :=
  inferInstanceAs (Decidable (_ ∧ _ ∧ _))

/-- System calls, a `read` with what it returns. -/
inductive Op where
  | parentRead (n : Nat)
  | parentSend
  | parentAwait (n : Nat)
  | parentPrint
  | childRead (n : Nat)
  | childReply

/-- The parent's `read` from standard input; it returns 0 at the end of the input. -/
def parentRead (n : Nat) (s : State) : Except Fault State :=
  if s.parent = .reading then
    if n = 0 ∧ s.stdin = [] then .ok { s with parent := .returned }
    else if readable n s.stdin then
      .ok { s with
        stdin := s.stdin.drop n
        input := s.input ++ s.stdin.take n
        parent := .sending (s.stdin.take n) }
    else .error .contract
  else .error .contract

def parentSend (s : State) : Except Fault State :=
  match s.parent with
  | .sending buf => .ok { s with pipe1 := s.pipe1 ++ buf, parent := .awaiting }
  | _ => .error .contract

/-- The one `read` of the reply pipe. It waits for data, the child keeping its end open. -/
def parentAwait (n : Nat) (s : State) : Except Fault State :=
  if s.parent = .awaiting ∧ readable n s.pipe2 then
    .ok { s with pipe2 := s.pipe2.drop n, parent := .printing (s.pipe2.take n) }
  else .error .contract

def parentPrint (s : State) : Except Fault State :=
  match s.parent with
  | .printing buf => .ok { s with stdout := s.stdout ++ buf, parent := .reading }
  | _ => .error .contract

/-- The child's `read`; it returns 0 once the parent has closed its end and nothing is left. -/
def childRead (n : Nat) (s : State) : Except Fault State :=
  if s.child = .reading then
    if n = 0 ∧ s.pipe1 = [] ∧ s.parent = .returned then .ok { s with child := .exited }
    else if readable n s.pipe1 then
      .ok { s with
        pipe1 := s.pipe1.drop n
        child := .replying ((s.pipe1.take n).map toupper) }
    else .error .contract
  else .error .contract

def childReply (s : State) : Except Fault State :=
  match s.child with
  | .replying buf => .ok { s with pipe2 := s.pipe2 ++ buf, child := .reading }
  | _ => .error .contract

def step (s : State) : Op → Except Fault State
  | .parentRead n => parentRead n s
  | .parentSend => parentSend s
  | .parentAwait n => parentAwait n s
  | .parentPrint => parentPrint s
  | .childRead n => childRead n s
  | .childReply => childReply s

end LinuxDemo.Source.ParentChild
