import LinuxDemo.Lib.Run
import LinuxDemo.Lib.ReadBuffer
import LinuxDemo.Lib.Transcript
import Mathlib.Data.Finset.Card
import Mathlib.Data.Finset.Insert
import Mathlib.Data.Fintype.EquivFin

/-!
# `my_echo_ser.c`

`echo` on any sequence of results of `read`, with every position of `buf` that its inner
loop touches on record; and the loop of `main` in the parent, with the descriptors that
are open there. `writen` writes all it is given. The children, `sig_chld` and the calls in
front of the loop are left out.
-/
namespace LinuxDemo.Source.EchoServer
open LinuxDemo.Lib LinuxDemo.Lib.CString LinuxDemo.Lib.ReadBuffer LinuxDemo.Lib.Transcript

section Echo

def STDOUT_FILENO : Nat := 1

/-- The argument of `echo`, and what `unp.h` defines. -/
structure Env where
  clifd : Nat
  MAXLINE : Nat
  apart : clifd ≠ STDOUT_FILENO

/-- What `read(clifd, buf, MAXLINE)` gives. -/
inductive Read (MAXLINE : Nat) where
  | chunk (data : List UInt8) (positive : 0 < data.length) (fits : data.length ≤ MAXLINE)
  /-- -1 with `errno == EINTR` -/
  | interrupted
  /-- -1 with another error -/
  | failed
  | eof

/-- The inner loop touches `buf[position]` for a chunk of `length` bytes. -/
structure Access where
  length : Nat
  position : Nat
  deriving DecidableEq

structure Worker where
  buf : Buffer
  calls : List (Call UInt8)
  printed : List String

/-- At the start of `echo`, `buf` holding anything. -/
def Worker.init (buf : Buffer) : Worker := ⟨buf, [], []⟩

/-- `buf[i]>='a' && buf[i]<='z'`. -/
def lower (b : UInt8) : Bool := 97 ≤ b ∧ b ≤ 122

/-- The inner loop from `i` on; the positions it reads or writes are recorded. -/
def upcase (MAXLINE : Nat) (buf : Buffer) : Nat → Nat → Traced Nat Buffer
  | 0, _ => Traced.fault .fuel
  | fuel + 1, i => do
    let b ← readByte MAXLINE buf i
    if lower b then
      let buf ← writeByte MAXLINE buf i (b - 32)
      upcase MAXLINE buf fuel (i + 1)
    else pure buf

/-- The body of the outer loop, on the chunk that was read. -/
def serveChunk (env : Env) (data : List UInt8) (w : Worker) : Traced Access Worker := do
  let n := data.length
  let buf := fill w.buf data
  let calls := w.calls ++ [.read env.clifd data, .write env.clifd (contents buf n)]
  let buf ← (upcase env.MAXLINE buf (env.MAXLINE + 1) 0).relabel (Access.mk n)
  pure { w with buf := buf, calls := calls ++ [.write STDOUT_FILENO (contents buf n)] }

/-- `echo` on the results of `read`, as far as they are given. -/
def echo (env : Env) (w : Worker) : List (Read env.MAXLINE) → Traced Access Worker
  | [] => pure w
  | .chunk data _ _ :: reads => do
    let w ← serveChunk env data w
    echo env w reads
  | .interrupted :: reads => echo env { w with calls := w.calls ++ [.interrupted env.clifd] } reads
  | .failed :: _ =>
    pure { w with
      calls := w.calls ++ [.failed env.clifd]
      printed := w.printed ++ ["read error\n"] }
  | .eof :: _ => pure { w with calls := w.calls ++ [.read env.clifd []] }

end Echo

section Main

def EINTR : Nat := 4

/-- `sizeof(cliaddr)`, which `accept` stores as well. -/
def sizeofCliaddr : Nat := 16

/-- System calls of the parent in its loop, in order. -/
inductive MainCall where
  /-- the descriptor, or nothing after a failure -/
  | accept (clifd : Option Nat)
  | fork
  | close (fd : Nat)
  deriving DecidableEq

structure Parent where
  clilen : Nat
  errno : Nat
  /-- descriptors open in the parent -/
  opened : Finset Nat
  calls : List MainCall
  printed : List String

/-- What `accept` gives in a round. -/
inductive Accept where
  | connection
  | failed (errno : Nat)

/-- In front of the loop, `opened` being the descriptors open by then. -/
def Parent.init (opened : Finset Nat) : Parent := ⟨0, 0, opened, [], []⟩

/-- The lowest free descriptor. -/
def lowestFree (opened : Finset Nat) : Nat := Nat.find (Infinite.exists_notMem_finset opened)

/-- The second half of a round in the parent: a successful `fork` and `close(clilen)`. -/
def forkAndClose (p : Parent) : Parent :=
  { p with
    opened := p.opened.erase p.clilen
    calls := p.calls ++ [.fork, .close p.clilen] }

/-- One round of the loop in the parent. A closed `listenfd` accepts nothing. -/
def serveRound (listenfd : Nat) (p : Parent) : Accept → Except Fault Parent
  | .connection =>
    if listenfd ∈ p.opened then
      let clifd := lowestFree p.opened
      .ok (forkAndClose { p with
        clilen := sizeofCliaddr
        opened := insert clifd p.opened
        calls := p.calls ++ [.accept (some clifd)] })
    else .error .contract
  | .failed _ =>
    -- `if(errno=EINTR)` is an assignment
    let p := { p with
      clilen := sizeofCliaddr, errno := EINTR, calls := p.calls ++ [MainCall.accept none] }
    if p.errno ≠ 0 then .ok p
    else .ok (forkAndClose { p with printed := p.printed ++ ["accept error\n"] })

end Main
end LinuxDemo.Source.EchoServer
