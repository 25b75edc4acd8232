import LinuxDemo.Lib.CString
import LinuxDemo.Lib.Run

/-!
# `shared_file_mapping.c`

One invocation of `main` on the file named first, with or without a second argument. The
first MEMSIZE bytes are mapped: the rest of the page behind the end of the file is zero at
each mapping, and what is stored there is lost. That is assumed of the file system; one that
keeps the page between two mappings (tmpfs) does otherwise. Of an empty file nothing is
mapped, and the first access is a bus error. `open`, `mmap`, `close` and `msync` do not fail.
-/
namespace LinuxDemo.Source.SharedFileMapping
open LinuxDemo.Lib LinuxDemo.Lib.CString

def MEMSIZE : Nat := 100

/-- `argv[2]`, without its terminator. -/
structure Arg where
  text : List UInt8
  noZero : ∀ c ∈ text, c ≠ 0

/-- What is printed. -/
inductive Line where
  /-- `"current string %.*s\n"` -/
  | current (text : List UInt8)
  /-- `"input too big error\n"` -/
  | tooBig
  /-- `"copy \" %s \" to shared memory\n"` -/
  | copied (text : List UInt8)
  deriving DecidableEq

/-- The memory that `mmap` returns. -/
def mmap (file : List UInt8) : List UInt8 :=
  file.take MEMSIZE ++ List.replicate (MEMSIZE - file.length) 0

/-- `strncpy(addr, src, n)`, which fills up with zeros. -/
def strncpy (addr src : List UInt8) (n : Nat) : List UInt8 :=
  src.take n ++ List.replicate (n - src.length) 0 ++ addr.drop n

/-- What is in the file once the memory is `addr`. -/
def msync (file addr : List UInt8) : List UInt8 := addr.take file.length ++ file.drop MEMSIZE

/-- The lines printed, and the file afterwards. -/
def main (file : List UInt8) (arg : Option Arg) : Except Fault (List Line × List UInt8) :=
  if file = [] then .error .outOfBounds
  else
    let addr := mmap file
    let lines := [Line.current (cstr addr)]
    match arg with
    | none => .ok (lines, file)
    | some arg =>
      let lines := if arg.text.length > MEMSIZE then lines ++ [.tooBig] else lines
      let addr := List.replicate MEMSIZE 0
      let addr := strncpy addr arg.text (MEMSIZE - 1)
      .ok (lines ++ [.copied arg.text], msync file addr)

/-- The file, and what all invocations so far have printed. -/
structure State where
  file : List UInt8
  output : List (List Line)

def step (s : State) (arg : Option Arg) : Except Fault State := do
  let (lines, file) ← main s.file arg
  .ok ⟨file, s.output ++ [lines]⟩

end LinuxDemo.Source.SharedFileMapping
