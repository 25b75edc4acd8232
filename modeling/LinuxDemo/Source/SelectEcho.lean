import LinuxDemo.Lib.Run

/-!
# `selectclient_test.c` and `selectserver_test.c` on one connection

`str_cli` of the client, and the loop of the server as far as it is about this client, one
system call at a time and in any order, with the two directions of the connection between
them. A direction holds so many bytes; a `write` waits until all it is given is in there,
which takes as many steps as the kernel likes, and a `read` gives any part of what is there
and fits `buf`, and nothing at the end only. Standard output takes all. Writing to a
connection that the other side has closed is left out, and so is what the server prints.
-/
namespace LinuxDemo.Source.SelectEcho
open LinuxDemo.Lib

structure Env where
  MAXLINE : Nat
  positive : 0 < MAXLINE
  /-- what the connection holds on the way to the server -/
  toServer : Nat
  /-- and on the way back -/
  toClient : Nat
  someUp : 0 < toServer
  someBack : 0 < toClient

/-- How `str_cli` ends. -/
inductive Outcome where
  | returned
  /-- `err_quit("server terminated\n")` -/
  | quit
  deriving DecidableEq

/-- Where the client is in its loop; `fp` says whether `fileno(fp)` is in `rset`. -/
inductive Client where
  /-- at `select` -/
  | selecting
  /-- at `read(sockfd,buf,MAXLINE)` -/
  | readingSocket (fp : Bool)
  /-- at `write(fileno(stdout),buf,n)` -/
  | printing (buf : List UInt8) (fp : Bool)
  /-- at `read(fileno(fp),buf,MAXLINE)` -/
  | readingFp
  /-- in `write(sockfd,buf,n)`, with what is not written yet -/
  | sending (rest : List UInt8)
  /-- at `shutdown(sockfd,SHUT_WR)` -/
  | shutting
  | ended (how : Outcome)
  deriving DecidableEq

/-- Where the server is in its loop. -/
inductive Server where
  /-- at `select` -/
  | selecting
  /-- at `read(sockfd,buf,MAXLINE)` -/
  | reading
  /-- in `write(sockfd,buf,n)`, with what is not written yet -/
  | replying (rest : List UInt8)
  | closed
  deriving DecidableEq

structure State where
  client : Client
  stdineof : Bool
  /-- what still comes on `fp` -/
  stdin : List UInt8
  stdout : List UInt8
  /-- on the way to the server -/
  up : List UInt8
  /-- the client has shut down its direction -/
  upEnd : Bool
  server : Server
  /-- on the way back -/
  down : List UInt8
  /-- the server has closed the connection -/
  downEnd : Bool
  deriving DecidableEq

def State.init (input : List UInt8) : State :=
  ⟨.selecting, false, input, [], [], false, .selecting, [], false⟩

/-- Behind the part of the loop that is about the socket. -/
def behindSocket (fp : Bool) : Client := if fp then .readingFp else .selecting

/-- The `select` of the client. The socket is ready exactly if a `read` would not wait, and
`fp` is asked for until its end. -/
def clientSelect (fp : Bool) (s : State) : Except Fault State :=
  let sock : Bool := decide (s.down ≠ []) || s.downEnd
  if (fp = true → s.stdineof = false) ∧ (sock || fp) = true then
    .ok { s with client := if sock then .readingSocket fp else behindSocket fp }
  else .error .contract

/-- The next step of the client; `fp` is for `select`, `n` for `read` and `write`. -/
def clientStep (env : Env) (fp : Bool) (n : Nat) (s : State) : Except Fault State :=
  match s.client with
  | .selecting => clientSelect fp s
  | .readingSocket fp =>
    if s.down = [] then
      if s.downEnd then
        .ok { s with client := .ended (if s.stdineof then .returned else .quit) }
      else .error .contract
    else if 0 < n ∧ n ≤ env.MAXLINE ∧ n ≤ s.down.length then
      .ok { s with client := .printing (s.down.take n) fp, down := s.down.drop n }
    else .error .contract
  | .printing buf fp => .ok { s with client := behindSocket fp, stdout := s.stdout ++ buf }
  | .readingFp =>
    if s.stdin = [] then .ok { s with client := .shutting, stdineof := true }
    else if 0 < n ∧ n ≤ env.MAXLINE ∧ n ≤ s.stdin.length then
      .ok { s with client := .sending (s.stdin.take n), stdin := s.stdin.drop n }
    else .error .contract
  | .sending [] => .ok { s with client := .selecting }
  | .sending (b :: rest) =>
    if s.downEnd = false ∧ 0 < n ∧ n ≤ (b :: rest).length ∧ s.up.length + n ≤ env.toServer then
      .ok { s with
        client := .sending ((b :: rest).drop n)
        up := s.up ++ (b :: rest).take n }
    else .error .contract
  | .shutting => .ok { s with client := .selecting, upEnd := true }
  | .ended _ => .error .contract

/-- The next step of the server; `n` is for `read` and `write`. -/
def serverStep (env : Env) (n : Nat) (s : State) : Except Fault State :=
  match s.server with
  | .selecting =>
    if s.up ≠ [] ∨ s.upEnd = true then .ok { s with server := .reading } else .error .contract
  | .reading =>
    if s.up = [] then
      if s.upEnd then .ok { s with server := .closed, downEnd := true } else .error .contract
    else if 0 < n ∧ n ≤ env.MAXLINE ∧ n ≤ s.up.length then
      .ok { s with server := .replying (s.up.take n), up := s.up.drop n }
    else .error .contract
  | .replying [] => .ok { s with server := .selecting }
  | .replying (b :: rest) =>
    if 0 < n ∧ n ≤ (b :: rest).length ∧ s.down.length + n ≤ env.toClient then
      .ok { s with
        server := .replying ((b :: rest).drop n)
        down := s.down ++ (b :: rest).take n }
    else .error .contract
  | .closed => .error .contract

/-- Whose step is next, and what the kernel decides in it. -/
inductive Op where
  | client (fp : Bool) (n : Nat)
  | server (n : Nat)
  deriving DecidableEq

def step (env : Env) (s : State) : Op → Except Fault State
  | .client fp n => clientStep env fp n s
  | .server n => serverStep env n s

/-- The step is no `read` from the socket, or one that gives all there is and fits. -/
def wholeRead (env : Env) (s : State) : Op → Bool
  | .client _ n =>
    match s.client with
    | .readingSocket _ => s.down = [] ∨ n = min env.MAXLINE s.down.length
    | _ => true
  | .server n =>
    match s.server with
    | .reading => s.up = [] ∨ n = min env.MAXLINE s.up.length
    | _ => true

/-- The steps there are where such a `read` gives all that has been written. -/
def wholeStep (env : Env) (s : State) (op : Op) : Except Fault State :=
  if wholeRead env s op then step env s op else .error .contract

end LinuxDemo.Source.SelectEcho
