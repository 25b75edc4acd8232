import LinuxDemo.Source.HttpParse

/-!
# What `http_parse.cpp` prints and answers

The loop of `parse_content` and the receive loop of `main` once more, with everything that
goes to standard output or to the client, in order.
-/
namespace LinuxDemo.Source.HttpParse
open LinuxDemo.Lib

def szret : List String := ["I get a correct result\n", "Something wrong\n"]

/-- A message that the parser printed, "reading failed" or "remote client has closed the
connection", or what was sent to the client. -/
inductive Told where
  | printed (message : Message)
  | readingFailed
  | clientClosed
  | sent (text : String)
  deriving DecidableEq, Repr

/-- `send` of `szret[0]`. -/
def Told.correct : Told := .sent szret[0]

/-- `send` of `szret[1]`. -/
def Told.wrong : Told := .sent szret[1]

/-- What `recv` returns when the data are used up: -1, or 0. -/
inductive Ending where
  | failed | closed
  deriving DecidableEq, Repr

def Ending.told : Ending → Told
  | .failed => .readingFailed
  | .closed => .clientClosed

/-- The loop of `parse_content`, behind what has been told. -/
def parseContentLoopTold :
    Nat → List Told → Session → Traced Access (HttpCode × List Told × Session)
  | 0, _, _ => Traced.fault .fuel
  | fuel + 1, told, s => do
    let (output, next) ← parseContentRound s
    let told := told ++ output.map .printed
    match next with
    | .inl s => parseContentLoopTold fuel told s
    | .inr (code, s) => pure (code, told, s)

def parseContentTold (told : List Told) (s : Session) :
    Traced Access (HttpCode × List Told × Session) :=
  parseContentLoopTold (s.readIndex + 1) told s

/-- The receive loop of `main` as in `serve`. Where the buffer is full, `recv` is asked for
nothing and returns 0. -/
def serveTold (e : Ending) : List Told → Session → List (List UInt8) → Traced Access (List Told)
  | told, _, [] => pure (told ++ [e.told])
  | told, s, chunk :: chunks => do
    let data := chunk.take (bufferSize - s.readIndex)
    if data = [] then pure (told ++ [.clientClosed])
    else do
      let (result, told, s) ← parseContentTold told (s.receive data)
      if result = .noRequest then serveTold e told s chunks
      else if result = .getRequest then pure (told ++ [.correct])
      else pure (told ++ [.wrong])

end LinuxDemo.Source.HttpParse
