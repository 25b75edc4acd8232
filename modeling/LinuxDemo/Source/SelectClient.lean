import LinuxDemo.Lib.ReadBuffer
import LinuxDemo.Lib.Transcript
import Mathlib.Data.Finset.Card
import Mathlib.Data.Finset.Insert

/-!
# `selectclient_test.c`

The loop of `str_cli`, one round at a time. The bytes that still come on `fp` and on the
socket are part of the state, an argument of the round says what `select` leaves in `rset`
and how much each `read` returns. A `read` returns nothing at the end of its stream only,
and there are no read errors; a `write` writes all it is given. An `fd_set` is a finite
set, both descriptors fit it.
-/
namespace LinuxDemo.Source.SelectClient
open LinuxDemo.Lib LinuxDemo.Lib.CString LinuxDemo.Lib.ReadBuffer LinuxDemo.Lib.Transcript

/-- What `str_cli` is called with, and what `unp.h` defines. -/
structure Env where
  /-- `fileno(fp)` -/
  fp : Nat
  sockfd : Nat
  /-- `fileno(stdout)` -/
  stdout : Nat
  MAXLINE : Nat
  distinct : fp ≠ sockfd
  apart : stdout ≠ sockfd
  positive : 0 < MAXLINE

/-- How `str_cli` ends. -/
inductive Outcome where
  | returned
  /-- `err_quit`, which prints its argument and ends the process -/
  | quit (message : String)
  deriving DecidableEq

structure State where
  rset : Finset Nat
  stdineof : Int
  buf : Buffer
  n : Nat
  /-- the bytes still to come on each descriptor -/
  fpLeft : List UInt8
  sockLeft : List UInt8
  calls : List (Call UInt8)
  ended : Option Outcome

/-- What the kernel answers in one round. -/
structure Round where
  /-- the descriptors that are ready when `select` returns -/
  ready : Finset Nat
  /-- how many bytes `read` returns, if there are as many -/
  fromSocket : Nat
  fromFp : Nat

/-- In front of the loop, `buf` holding anything. -/
def State.init (buf : Buffer) (fpStream sockStream : List UInt8) : State :=
  ⟨∅, 0, buf, 0, fpStream, sockStream, [], none⟩

/-- What a `read` of `MAXLINE` bytes returns, with `left` to come. -/
def chunk (env : Env) (len : Nat) (left : List UInt8) : List UInt8 :=
  left.take (min env.MAXLINE (max 1 len))

/-- `maxfdp1 = max(fileno(fp), sockfd) + 1`. -/
def maxfdp1 (env : Env) : Nat := max env.fp env.sockfd + 1

/-- The start of a round, up to `select`. -/
def select (env : Env) (ready : Finset Nat) (s : State) : State :=
  let rset := if s.stdineof = 0 then insert env.fp s.rset else s.rset
  let rset := insert env.sockfd rset
  { s with rset := rset.filter fun fd => maxfdp1 env ≤ fd ∨ fd ∈ ready }

/-- `if(FD_ISSET(sockfd,&rset))`. -/
def serveSocket (env : Env) (len : Nat) (s : State) : State :=
  if env.sockfd ∈ s.rset then
    let data := chunk env len s.sockLeft
    let s := { s with
      buf := fill s.buf data
      n := data.length
      sockLeft := s.sockLeft.drop data.length
      calls := s.calls ++ [Call.read env.sockfd data] }
    if s.n = 0 then
      if s.stdineof = 1 then { s with ended := some .returned }
      else { s with ended := some (.quit "server terminated\n") }
    else { s with calls := s.calls ++ [Call.write env.stdout (contents s.buf s.n)] }
  else s

/-- `if( FD_ISSET(fileno(fp),&rset) )`. -/
def serveFp (env : Env) (len : Nat) (s : State) : State :=
  if env.fp ∈ s.rset then
    let data := chunk env len s.fpLeft
    let s := { s with
      buf := fill s.buf data
      n := data.length
      fpLeft := s.fpLeft.drop data.length
      calls := s.calls ++ [Call.read env.fp data] }
    if s.n = 0 then
      { s with
        stdineof := 1
        calls := s.calls ++ [Call.shutdown env.sockfd]
        rset := s.rset.erase env.fp }
    else { s with calls := s.calls ++ [Call.write env.sockfd (contents s.buf s.n)] }
  else s

/-- One round of the loop. -/
def step (env : Env) (s : State) (r : Round) : Except Fault State :=
  if s.ended = none then
    let s := serveSocket env r.fromSocket (select env r.ready s)
    if s.ended = none then .ok (serveFp env r.fromFp s) else .ok s
  else .error .contract

end LinuxDemo.Source.SelectClient
