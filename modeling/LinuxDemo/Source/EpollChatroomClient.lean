import LinuxDemo.Lib.CString
import LinuxDemo.Lib.Run

/-!
# `epoll_chatroom_client.cpp`

The event loop of `main`, one system call at a time. An operation is the answer of the
kernel to the call the loop makes next; an answer that the kernel cannot give is a broken
contract. What is received is recorded, and what is passed to `send` and to `printf`. A call
of `epoll_wait` that fails ends the program and is left out.
-/
namespace LinuxDemo.Source.EpollChatroomClient
open LinuxDemo.Lib LinuxDemo.Lib.CString

/-- The size of `buffer` and of `buf`. -/
def BUFFER_SIZE : Nat := 1024

/-- A member of `events`, by its descriptor. -/
inductive Event where
  | stdin
  | clifd (epollin : Bool)
  deriving DecidableEq, Repr

/-- The rest of the batch, whether `clifd` is open, and the record: all bytes passed to
`send`, every chunk received, and what every call of `printf` shows for `%d` and `%s`. -/
structure Client where
  events : List Event
  opened : Bool
  sent : List UInt8
  received : List (List UInt8)
  printed : List (Nat × List UInt8)
  deriving DecidableEq, Repr

def Client.init : Client := ⟨[], true, [], [], []⟩

/-- `printf("get %d byte of content : %s",num2,buf)`, which stops at a NUL byte. The byte
behind the chunk is one. -/
def content (buf : List UInt8) : Nat × List UInt8 := (buf.length, cstr buf)

/-- What `recv` returns: a number of bytes, 0, or -1 with EAGAIN or another error. -/
inductive Recv where
  | data (buf : List UInt8)
  | eof
  | again
  | error
  deriving DecidableEq, Repr

inductive Op where
  /-- `epoll_wait` returns -/
  | wait (events : List Event)
  /-- the one `read` of an event of standard input, and `send` -/
  | read (buffer : List UInt8)
  /-- a round of the read loop on `clifd` -/
  | recv (result : Recv)
  /-- an event of `clifd` without EPOLLIN -/
  | pass
  deriving DecidableEq, Repr

/-- A round of the read loop. The end of the stream does not end the loop. -/
def readOnce (c : Client) (rest : List Event) : Recv → Except Fault Client
  | .data buf =>
    if c.opened ∧ buf ≠ [] ∧ buf.length ≤ BUFFER_SIZE - 1 then
      .ok { c with
        received := c.received ++ [buf]
        printed := c.printed ++ [content buf] }
    else .error .contract
  | .eof => if c.opened then .ok { c with opened := false } else .error .contract
  | .again => if c.opened then .ok { c with events := rest } else .error .contract
  | .error => .ok { c with opened := false, events := rest }

def step (c : Client) : Op → Except Fault Client
  | .wait events => if c.events = [] then .ok { c with events := events } else .error .contract
  | .read buffer =>
    match c.events with
    | .stdin :: rest =>
      if buffer.length ≤ BUFFER_SIZE then
        .ok { c with events := rest, sent := c.sent ++ buffer }
      else .error .contract
    | _ => .error .contract
  | .recv result =>
    match c.events with
    | .clifd true :: rest => readOnce c rest result
    | _ => .error .contract
  | .pass =>
    match c.events with
    | .clifd false :: rest => .ok { c with events := rest }
    | _ => .error .contract

end LinuxDemo.Source.EpollChatroomClient
