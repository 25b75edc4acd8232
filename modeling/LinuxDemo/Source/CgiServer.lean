import LinuxDemo.Lib.CString

/-!
# `CGI_server.cpp`

`cgi_conn::init` and `cgi_conn::process`, the loop of the latter round by round. The kernel
has the bytes of the client that were not received yet, the answers it will give, and
whether the socket is open: `removefd`, which `hsha_process_pool.h` provides, takes the
socket out of the event table and closes it. Every call of `process` goes to a log, in
order. Behind `fork` the log is that of the process that gets the answer.
-/
namespace LinuxDemo.Source.CgiServer
open LinuxDemo.Lib LinuxDemo.Lib.CString

def BUFFER_SIZE : Nat := 1024

def CR : UInt8 := 13
def LF : UInt8 := 10

/-- `cgi_conn`, with the static `m_epollfd`. -/
structure CgiConn where
  mEpollfd : Int
  mSockfd : Int
  mBuff : Buffer
  mReadIdx : Nat

def init (epollfd sockfd : Int) : CgiConn where
  mEpollfd := epollfd
  mSockfd := sockfd
  mBuff _ := 0
  mReadIdx := 0

/-- What `recv` returns: bytes; 0; or -1 with EAGAIN or another error. -/
inductive Recv where
  | data (bytes : List UInt8)
  | eof
  | again
  | error
  deriving DecidableEq, Repr

/-- What a call of `recv` finds at an open socket: up to `n + 1` bytes, or the end of the
stream; nothing yet; an error. -/
inductive Ready where
  | upTo (n : Nat)
  | again
  | error
  deriving DecidableEq, Repr

inductive Call where
  | recv (fd : Int) (len : Nat) (result : Recv)
  | printf (text : List UInt8)
  | removefd (epollfd fd : Int)
  | access (fileName : List UInt8)
  | fork
  | close (fd : Int)
  | dup (fd : Int)
  | execl (path arg : List UInt8)
  | exit
  deriving DecidableEq, Repr

/-- `ready` is by the number of the call. `access` and `fork` are what these return, and
`execl` whether it replaces the process. -/
structure Kernel where
  stream : List UInt8
  ready : Nat → Ready
  calls : Nat
  isOpen : Bool
  access : Int
  fork : Int
  execl : Bool

structure World where
  conn : CgiConn
  kernel : Kernel
  log : List Call

def World.call (w : World) (c : Call) : World := { w with log := w.log ++ [c] }

/-- `recv` of at most `len` bytes. On a closed socket it fails with EBADF. -/
def Kernel.recv (k : Kernel) (len : Nat) : Recv × Kernel :=
  if k.isOpen then
    match k.ready k.calls with
    | .upTo n =>
      let bytes := k.stream.take (min (n + 1) len)
      (if bytes = [] then .eof else .data bytes,
        { k with stream := k.stream.drop (min (n + 1) len), calls := k.calls + 1 })
    | .again => (.again, { k with calls := k.calls + 1 })
    | .error => (.error, { k with calls := k.calls + 1 })
  else (.error, k)

/-- The bytes that `recv` puts into the buffer. -/
def store (m : Buffer) : Nat → List UInt8 → Except Fault Buffer
  | _, [] => .ok m
  | p, b :: bytes => do
    let m ← (writeByte BUFFER_SIZE m p b).result
    store m (p + 1) bytes

/-- `removefd(m_epollfd, m_sockfd)` -/
def removefd (w : World) : World :=
  { w.call (.removefd w.conn.mEpollfd w.conn.mSockfd) with
    kernel := { w.kernel with isOpen := false } }

/-- `m_buff` as a C string. -/
def content (w : World) : Except Fault (List UInt8) := (printString BUFFER_SIZE w.conn.mBuff 0).result

/-- `(idx>=1) && (m_buff[idx-1]=='\r') && (m_buff[idx]=='\n')` -/
def endsLine (m : Buffer) (idx : Nat) : Except Fault Bool :=
  if 1 ≤ idx then do
    let last ← (readByte BUFFER_SIZE m (idx - 1)).result
    if last = CR then do
      let b ← (readByte BUFFER_SIZE m idx).result
      return b = LF
    else return false
  else .ok false

/-- The search for the end of a line with `n` bytes between `idx` and `m_read_idx`. -/
def findLine (m : Buffer) : Nat → Nat → Except Fault Nat
  | 0, idx => .ok idx
  | n + 1, idx => do
    if ← endsLine m idx then return idx
    else findLine m n (idx + 1)

/-- Behind `m_buff[idx-1]='\0'`. The result says whether the loop goes on. -/
def serve (w : World) : Except Fault (World × Bool) := do
  let fileName ← content w
  let w := w.call (.access fileName)
  if w.kernel.access = -1 then return (removefd w, false)
  else
    let w := w.call .fork
    if w.kernel.fork = -1 then return (removefd w, false)
    else if w.kernel.fork > 0 then return (removefd w, false)
    else
      let w := (w.call (.close 1)).call (.dup w.conn.mSockfd)
      let path ← content w
      let w := w.call (.execl path path)
      if w.kernel.execl then return (w, false) else return (w.call .exit, false)

/-- The branch of `ret > 0`, `idx` being the old `m_read_idx`. -/
def gotData (w : World) (idx ret : Nat) : Except Fault (World × Bool) := do
  let mReadIdx := w.conn.mReadIdx + ret
  let w := { w with conn := { w.conn with mReadIdx := mReadIdx } }
  let text ← content w
  let w := w.call (.printf text)
  let idx ← findLine w.conn.mBuff (mReadIdx - idx) idx
  if idx = mReadIdx then return (w, true)
  else do
    let mBuff ← (writeByte BUFFER_SIZE w.conn.mBuff (idx - 1) 0).result
    serve { w with conn := { w.conn with mBuff := mBuff } }

/-- One round of `while(1)`, and whether another one follows. -/
def round (w : World) : Except Fault (World × Bool) := do
  let idx := w.conn.mReadIdx
  let (result, kernel) := w.kernel.recv (BUFFER_SIZE - 1 - idx)
  let w := { w with kernel := kernel }.call (.recv w.conn.mSockfd (BUFFER_SIZE - 1 - idx) result)
  match result with
  | .again => return (w, true)
  | .error => return (removefd w, true)
  | .eof => return (removefd w, false)
  | .data bytes => do
    let mBuff ← store w.conn.mBuff idx bytes
    gotData { w with conn := { w.conn with mBuff := mBuff } } idx bytes.length

/-- `process`, as far as `n` rounds of its loop. -/
def process : Nat → World → Except Fault (World × Bool)
  | 0, w => .ok (w, true)
  | n + 1, w => do
    let (w, more) ← round w
    if more then process n w else return (w, false)

end LinuxDemo.Source.CgiServer
