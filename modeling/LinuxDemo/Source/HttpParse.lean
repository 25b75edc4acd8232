import LinuxDemo.Lib.CString

/-!
# `http_parse.cpp`

The two state machines of the HTTP parser on the one receive buffer: `parse_line` cuts
lines in place, `parse_requestline` and `parse_headers` look at them as C strings, and
`main` appends what `recv` delivers. Every position of the buffer that one of them reads
or writes is recorded, with the cursors of the call.
-/
namespace LinuxDemo.Source.HttpParse
open LinuxDemo.Lib LinuxDemo.Lib.CString

/-- `BUFFER_SIZE`. -/
def bufferSize : Nat := 4096

def CR : UInt8 := 13
def LF : UInt8 := 10
def TAB : UInt8 := 9
def SPACE : UInt8 := 32
def SLASH : UInt8 := 47

/-- The character set `" \t"`. -/
def blanks : List UInt8 := [SPACE, TAB]

/-- `"GET"` -/
def GET : List UInt8 := [71, 69, 84]

/-- `"HTTP/1.1"` -/
def HTTP_1_1 : List UInt8 := [72, 84, 84, 80, 47, 49, 46, 49]

/-- `"Host:"` -/
def HOST : List UInt8 := [72, 111, 115, 116, 58]

inductive CheckState where
  | requestline | header
  deriving DecidableEq, Repr

inductive LineStatus where
  | lineOk | lineBad | lineOpen
  deriving DecidableEq, Repr

inductive HttpCode where
  | noRequest | getRequest | badRequest | forbiddenRequest | internalError | closedConnection
  deriving DecidableEq, Repr

/-- The messages of the parser, with the text that fills the `%s`. -/
inductive Message where
  | methodIsGet | urlIs (url : List UInt8) | hostIs (host : List UInt8) | headerNotHandled
  deriving DecidableEq, Repr

/-- The loop of `parse_line` with `n` bytes between `checked_index` and `read_index`.
Returns the status, the new `checked_index` and the rewritten buffer. -/
def parseLineLoop (readIndex : Nat) :
    Nat → Buffer → Nat → Traced Nat (LineStatus × Nat × Buffer)
  | 0, buffer, checkedIndex => pure (.lineOpen, checkedIndex, buffer)
  | n + 1, buffer, checkedIndex => do
    let temp ← readByte bufferSize buffer checkedIndex
    if temp = CR then
      if checkedIndex + 1 = readIndex then
        pure (.lineOpen, checkedIndex, buffer)
      else do
        let next ← readByte bufferSize buffer (checkedIndex + 1)
        if next = LF then do
          let buffer ← writeByte bufferSize buffer checkedIndex 0
          let buffer ← writeByte bufferSize buffer (checkedIndex + 1) 0
          pure (.lineOk, checkedIndex + 2, buffer)
        else pure (.lineBad, checkedIndex, buffer)
    else if temp = LF then
      if checkedIndex > 1 then do
        let last ← readByte bufferSize buffer (checkedIndex - 1)
        if last = CR then do
          let buffer ← writeByte bufferSize buffer (checkedIndex - 1) 0
          let buffer ← writeByte bufferSize buffer checkedIndex 0
          pure (.lineOk, checkedIndex + 1, buffer)
        else pure (.lineBad, checkedIndex, buffer)
      else pure (.lineBad, checkedIndex, buffer)
    else parseLineLoop readIndex n buffer (checkedIndex + 1)

def parseLine (buffer : Buffer) (checkedIndex readIndex : Nat) :
    Traced Nat (LineStatus × Nat × Buffer) :=
  parseLineLoop readIndex (readIndex - checkedIndex) buffer checkedIndex

/-- What `parse_requestline` returns, leaves in its reference argument and in the
buffer, and prints. -/
structure Reply where
  code : HttpCode
  checkstate : CheckState
  buffer : Buffer
  output : List Message

/-- The end of `parse_requestline`: the last check of `url`, and the report. -/
def reportUrl (buffer : Buffer) (url : Option Nat) (checkstate : CheckState) :
    Traced Nat Reply :=
  match url with
  | none => pure ⟨.badRequest, checkstate, buffer, [.methodIsGet]⟩
  | some url => do
    let first ← readByte bufferSize buffer url
    if first ≠ SLASH then
      pure ⟨.badRequest, checkstate, buffer, [.methodIsGet]⟩
    else do
      let text ← printString bufferSize buffer url
      pure ⟨.noRequest, .header, buffer, [.methodIsGet, .urlIs text]⟩

/-- `url += 7; url = strchr(url, '/');` and what follows. -/
def skipScheme (buffer : Buffer) (url : Nat) (checkstate : CheckState) : Traced Nat Reply := do
  let found ← strchr bufferSize buffer (url + 7) SLASH
  reportUrl buffer found checkstate

/-- `parse_requestline` from the search for the blank behind the URL on. -/
def parseVersion (buffer : Buffer) (url : Nat) (checkstate : CheckState) : Traced Nat Reply := do
  match ← strpbrk bufferSize buffer url blanks with
  | none => pure ⟨.badRequest, checkstate, buffer, [.methodIsGet]⟩
  | some version => do
    let buffer ← writeByte bufferSize buffer version 0
    let skipped ← strspn bufferSize buffer (version + 1) blanks
    let differs ← strcasecmp bufferSize buffer (version + 1 + skipped) HTTP_1_1
    if differs ≠ 0 then skipScheme buffer url checkstate
    else reportUrl buffer (some url) checkstate

def parseRequestline (buffer : Buffer) (temp : Nat) (checkstate : CheckState) :
    Traced Nat Reply := do
  match ← strpbrk bufferSize buffer temp blanks with
  | none => pure ⟨.badRequest, checkstate, buffer, []⟩
  | some url => do
    let buffer ← writeByte bufferSize buffer url 0
    let method ← strcasecmp bufferSize buffer temp GET
    if method ≠ 0 then
      pure ⟨.badRequest, checkstate, buffer, []⟩
    else do
      let tabs ← strspn bufferSize buffer (url + 1) [TAB]
      parseVersion buffer (url + 1 + tabs) checkstate

def parseHeaders (buffer : Buffer) (temp : Nat) : Traced Nat (HttpCode × List Message) := do
  let first ← readByte bufferSize buffer temp
  if first = 0 then pure (.getRequest, [])
  else do
    let host ← strncasecmp bufferSize buffer temp HOST 5
    if host = 0 then do
      let skipped ← strspn bufferSize buffer (temp + 5) blanks
      let text ← printString bufferSize buffer (temp + 5 + skipped)
      pure (.noRequest, [.hostIs text])
    else pure (.noRequest, [.headerNotHandled])

/-- The local variables of `main` that `parse_content` works on. -/
structure Session where
  buffer : Buffer
  readIndex : Nat
  checkedIndex : Nat
  startLine : Nat
  checkstate : CheckState

/-- A position touched by `parse_line`, with its `read_index`, or by a function that was
given the line from `startLine` on, with the `checked_index` and `read_index` of the time. -/
inductive Access where
  | byLine (readIndex position : Nat)
  | byText (startLine checkedIndex readIndex position : Nat)
  deriving DecidableEq, Repr

/-- A round of the loop of `parse_content`: what it prints, and the session the loop goes on
with, or what it returns. -/
def parseContentRound (s : Session) :
    Traced Access (List Message × (Session ⊕ (HttpCode × Session))) := do
  let (linestatus, checkedIndex, buffer) ←
    (parseLine s.buffer s.checkedIndex s.readIndex).relabel (.byLine s.readIndex)
  let s := { s with buffer, checkedIndex }
  match linestatus with
  | .lineOpen => pure ([], .inr (.noRequest, s))
  | .lineBad => pure ([], .inr (.badRequest, s))
  | .lineOk =>
    let temp := s.startLine
    let s := { s with startLine := s.checkedIndex }
    match s.checkstate with
    | .requestline => do
      let reply ← (parseRequestline s.buffer temp s.checkstate).relabel
        (.byText temp s.checkedIndex s.readIndex)
      let s := { s with buffer := reply.buffer, checkstate := reply.checkstate }
      if reply.code = .badRequest then pure (reply.output, .inr (.badRequest, s))
      else pure (reply.output, .inl s)
    | .header => do
      let (code, output) ← (parseHeaders s.buffer temp).relabel
        (.byText temp s.checkedIndex s.readIndex)
      if code = .badRequest then pure (output, .inr (.badRequest, s))
      else if code = .getRequest then pure (output, .inr (.getRequest, s))
      else pure (output, .inl s)

/-- The loop of `parse_content`, without what is printed. -/
def parseContentLoop : Nat → Session → Traced Access (HttpCode × Session)
  | 0, _ => Traced.fault .fuel
  | fuel + 1, s => do
    let (_, next) ← parseContentRound s
    match next with
    | .inl s => parseContentLoop fuel s
    | .inr ended => pure ended

/-- Every line takes at least two bytes, so the loop ends. -/
def parseContent (s : Session) : Traced Access (HttpCode × Session) :=
  parseContentLoop (s.readIndex + 1) s

/-- The zeroed buffer and cursors before the first `recv`. -/
def Session.init : Session := ⟨fun _ => 0, 0, 0, 0, .requestline⟩

/-- `recv` puts bytes at the end of what was received. -/
def Session.receive (s : Session) (data : List UInt8) : Session where
  buffer p := if p < s.readIndex then s.buffer p else data.getD (p - s.readIndex) (s.buffer p)
  readIndex := s.readIndex + data.length
  checkedIndex := s.checkedIndex
  startLine := s.startLine
  checkstate := s.checkstate

/-- The receive loop of `main` on the data that arrives: `recv` takes at most what the
buffer has room for, nothing taken ends the loop, and so does a verdict. The last code
returned by `parse_content` is the result. -/
def serve (s : Session) : List (List UInt8) → Traced Access HttpCode
  | [] => pure .noRequest
  | chunk :: chunks => do
    let data := chunk.take (bufferSize - s.readIndex)
    if data = [] then pure .noRequest
    else do
      let (result, s) ← parseContent (s.receive data)
      if result = .noRequest then serve s chunks
      else pure result

end LinuxDemo.Source.HttpParse
