import LinuxDemo.Invariant.HttpCursor

/-!
# The cursors of the HTTP parser

Between two calls of `parse_content`, whatever was sent and however it was cut.
-/
namespace LinuxDemo.Guarantees.HttpCursor
open LinuxDemo.Lib LinuxDemo.Lib.CString LinuxDemo.Source.HttpParse LinuxDemo.Invariant.Http

/-- The cursors and the buffer when `stream` has been received. -/
structure CursorInvariant (stream : List UInt8) (s : Session) : Prop where
  line_le : s.startLine ≤ s.checkedIndex
  checked_le : s.checkedIndex ≤ s.readIndex
  read_le : s.readIndex ≤ 4096
  /-- what is not delivered is as the client sent it -/
  original : ∀ p, s.startLine ≤ p → p < s.readIndex → stream[p]? = some (s.buffer p)
  clean : ∀ p, s.startLine ≤ p → p < s.checkedIndex → s.buffer p ≠ CR ∧ s.buffer p ≠ LF
  stopped : s.checkedIndex = s.readIndex ∨
    s.checkedIndex + 1 = s.readIndex ∧ s.buffer s.checkedIndex = CR

theorem cursorInvariant_of_tracks {stream : List UInt8} {s : Session} (h : Tracks stream s)
    (stopped : Stopped s) : CursorInvariant stream s := by
  obtain ⟨pre, t, hd, hpre, hc⟩ := h.awaiting.checked
  have hread := h.awaiting.read
  have hold := h.awaiting.holds
  have hlen := congrArg List.length hd
  rw [List.length_append] at hlen
  constructor
  · omega
  · omega
  · exact h.awaiting.bound
  · intro p hp hp'
    have hbyte := getElem?_of_holds hold (i := p - s.startLine) (by omega)
    rwa [List.getElem?_drop, Nat.add_sub_cancel' hp] at hbyte
  · intro p hp hp'
    rw [hd, holds_append] at hold
    exact hpre _ (mem_of_holds hold.1 hp (by omega))
  · exact stopped

/-- Behind any rounds of the receive loop that went on, and in them the last branch of
`parse_line` is not taken: whatever is received next, no call of `parse_line` completes a
line on a LF because the byte in front is a CR. The first part says that the session is the
one with which `main` goes on. -/
theorem cursors_between_calls (chunks : List (List UInt8)) :
    Ends (fun _ => True) (run receiveRound Session.init chunks) fun s =>
      (∀ more, (serve Session.init (chunks ++ more)).result = (serve s more).result) ∧
      CursorInvariant (received bufferSize chunks) s ∧
      ∀ data t, s.readIndex + data.length ≤ bufferSize → LineCall (s.receive data) t →
        takesLfBranch (t.readIndex - t.checkedIndex) t.buffer t.checkedIndex = false := by
  cases hrun : run receiveRound Session.init chunks with
  | error e => trivial
  | ok s =>
    obtain ⟨tracks, stopped⟩ := rounds_kept tracks_init (Or.inl rfl) hrun
    refine ⟨serve_of_rounds hrun, cursorInvariant_of_tracks tracks stopped, ?_⟩
    intro data t hroom hcall
    have called := lineCall_tracks hcall (tracks.receive hroom)
    exact not_takesLfBranch called.awaiting.last_ne_cr _

/-- A CR at the end of a chunk, its LF at the start of the next one. -/
example :
    (run receiveRound Session.init [[65, 13]]).map
      (fun s => (s.startLine, s.checkedIndex, s.readIndex)) = .ok (0, 1, 2) := by
  decide +kernel

end LinuxDemo.Guarantees.HttpCursor
