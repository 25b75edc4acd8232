import LinuxDemo.Lib.Run
import LinuxDemo.Source.HttpParse

/-!
# The loops of `http_parse.cpp`, one round at a time

`LineCall` follows the rounds of the loop of `parse_content`, and `receiveRound` is a round of
the receive loop of `main` that goes on.
-/
namespace LinuxDemo.Source.HttpParse
open LinuxDemo.Lib LinuxDemo.Lib.CString

/-- The loop of `parse_line` takes its LF branch with a CR in front of the LF: it gets
there over bytes that are neither, the guard on `checked_index` passes, and so does the test
of the byte in front. -/
def takesLfBranch : Nat → Buffer → Nat → Bool
  | 0, _, _ => false
  | n + 1, buffer, checkedIndex =>
    if buffer checkedIndex = CR then false
    else if buffer checkedIndex = LF then
      checkedIndex > 1 && buffer (checkedIndex - 1) = CR
    else takesLfBranch n buffer (checkedIndex + 1)

/-- A round of the loop of `parse_content`, without what is printed. -/
def contentRound (s : Session) : Traced Access (Session ⊕ (HttpCode × Session)) := do
  let (_, next) ← parseContentRound s
  pure next

/-- The sessions with which `parse_content`, called with `s`, calls `parse_line`. -/
inductive LineCall : Session → Session → Prop where
  | first (s : Session) : LineCall s s
  | next {s s' t : Session} : (contentRound s).result = .ok (.inl s') → LineCall s' t → LineCall s t

/-- A round of the receive loop in which `recv` delivers what there is room for of `chunk`
and `parse_content` returns NO_REQUEST. -/
def receiveRound (s : Session) (chunk : List UInt8) : Except Fault Session :=
  let data := chunk.take (bufferSize - s.readIndex)
  if data = [] then .error .contract
  else do
    let (result, s) ← (parseContent (s.receive data)).result
    if result = .noRequest then .ok s else .error .contract

end LinuxDemo.Source.HttpParse
