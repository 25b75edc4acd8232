import LinuxDemo.Invariant.HttpTokens
import LinuxDemo.Invariant.HttpFraming
import LinuxDemo.Guarantees.HttpParse

/-!
# Guarantees of the line functions of the HTTP parser

About `parse_requestline` on a line of its own, and about `parse_line` on a stream however
it arrives.
-/
namespace LinuxDemo.Guarantees.HttpLines
open LinuxDemo.Lib LinuxDemo.Lib.CString LinuxDemo.Source.HttpParse LinuxDemo.Invariant.Http
open LinuxDemo.Guarantees.HttpParse (Stream Cutting)

/-! ## The request line -/

/-- A line of the grammar is accepted and its URL reported; any other is rejected and the
state is left alone. -/
def FollowsGrammar (x : Line) (st : CheckState) : Prop :=
  (∀ url, RequestLine x.text url →
    ∃ m, x.reply st = .ok ⟨.noRequest, .header, m, [.methodIsGet, .urlIs url]⟩) ∧
  ((¬ ∃ url, RequestLine x.text url) → ∃ m out, x.reply st = .ok ⟨.badRequest, st, m, out⟩)

/-- The URL is not in absolute form where the version is HTTP/1.1, and where it is not,
seven bytes behind the beginning of the URL stands a C string without a slash. -/
def SchemeIrrelevant (x : Line) : Prop :=
  ∀ k : Tokens, k.line = x.text →
    (SameText k.version HTTP_1_1 → ∀ rest, ¬ AbsoluteForm k.url rest) ∧
    (¬ SameText k.version HTTP_1_1 → EndsWithout bufferSize
      (Function.update x.buffer (x.start + k.offset + k.url.length) 0)
      (x.start + k.offset + 7) SLASH)

theorem not_absoluteForm_of_slash {target rest : List UInt8} (h : target.headD 0 = SLASH) :
    ¬ AbsoluteForm target rest := by
  rintro ⟨scheme, rfl, hs, -⟩
  cases scheme with
  | nil => cases hs
  | cons b scheme =>
    have hb : tolower b = tolower 104 := (List.cons.inj hs).1
    obtain rfl : b = SLASH := h
    exact absurd hb (by decide)

/-- The URL of the grammar is that of the tokens. -/
theorem urlOf_tokens {x : Line} {k : Tokens} (hk : k.line = x.text) {url : List UInt8}
    (h : RequestLine x.text url) : SameText k.version HTTP_1_1 ∧ UrlOf k.url url := by
  obtain ⟨k', hk', hver', hurl⟩ := h.tokens
  have hsame := judge_tokens k' (hk' ▸ x.noNul)
  have htokens := judge_tokens k (hk ▸ x.noNul)
  rw [hk'] at hsame
  rw [hk] at htokens
  have e : k'.url = k.url := hsame.1.symm.trans htokens.1
  refine ⟨?_, e ▸ hurl⟩
  by_contra hver
  have hj := hsame.2.symm.trans htokens.2
  rw [if_pos hver', if_neg hver] at hj
  split at hj <;> cases hj

theorem followsGrammar_iff_of_tokens {x : Line} (st : CheckState) {k : Tokens}
    (hk : k.line = x.text) : FollowsGrammar x st ↔
      (SameText k.version HTTP_1_1 → ∀ rest, ¬ AbsoluteForm k.url rest) ∧
      (¬ SameText k.version HTTP_1_1 → EndsWithout bufferSize
        (Function.update x.buffer (x.start + k.offset + k.url.length) 0)
        (x.start + k.offset + 7) SLASH) := by
  obtain ⟨htarget, hj⟩ := judge_tokens k (hk ▸ x.noNul)
  rw [hk] at hj htarget
  by_cases hver : SameText k.version HTTP_1_1
  · simp only [hver, not_true_eq_false, false_implies, true_implies, and_true]
    rw [if_pos hver] at hj
    split at hj
    next hslash =>
      -- the URL begins with a slash, and is the only one that the grammar has
      obtain ⟨m, h⟩ := x.accept st hj
      have hline : RequestLine x.text k.url := by
        refine hk ▸ k.requestLine hver (.inl ⟨?_, rfl⟩)
        cases hu : k.url with
        | nil =>
          rw [hu] at hslash
          cases hslash
        | cons b t =>
          rw [hu] at hslash
          exact congrArg some hslash
      refine iff_of_true ⟨fun url hurl => ?_, fun hno => absurd ⟨_, hline⟩ hno⟩
        fun rest => not_absoluteForm_of_slash hslash
      rcases (urlOf_tokens hk hurl).2 with ⟨-, rfl⟩ | ⟨rest, habs, -⟩
      · exact ⟨m, htarget ▸ h⟩
      · exact absurd habs (not_absoluteForm_of_slash hslash)
    next hslash =>
      obtain ⟨m, out, h⟩ := x.reject st hj
      constructor
      · rintro ⟨haccept, -⟩ rest habs
        obtain ⟨m', h'⟩ := haccept _ (hk ▸ k.requestLine hver (.inr ⟨rest, habs, rfl⟩))
        rw [h] at h'
        cases h'
      · intro hno
        refine ⟨fun url hurl => ?_, fun _ => ⟨m, out, h⟩⟩
        rcases (urlOf_tokens hk hurl).2 with ⟨hhead, -⟩ | ⟨rest, habs, -⟩
        · refine absurd ?_ hslash
          rw [List.headD_eq_head?_getD, hhead]
          rfl
        · exact absurd habs (hno rest)
  · have hno : ¬ ∃ url, RequestLine x.text url := by
      rintro ⟨url, hurl⟩
      exact hver (urlOf_tokens hk hurl).1
    simp only [hver, false_implies, not_false_eq_true, true_implies, true_and]
    rw [← x.skip_reject_iff st hk hver]
    constructor
    · exact fun h => h.2 hno
    · exact fun h => ⟨fun url hurl => absurd ⟨url, hurl⟩ hno, fun _ => h⟩

/-- `parse_requestline` follows the grammar on exactly the lines where it does not matter
that the version decides what the scheme should. -/
theorem request_line_iff (x : Line) (st : CheckState) :
    FollowsGrammar x st ↔ SchemeIrrelevant x := by
  by_cases h : ∃ k : Tokens, k.line = x.text
  · obtain ⟨k, hk⟩ := h
    constructor
    · exact fun hf k' hk' => (followsGrammar_iff_of_tokens st hk').mp hf
    · exact fun hs => (followsGrammar_iff_of_tokens st hk).mpr (hs k hk)
  · have hj : judge x.text = .reject := by
      by_contra hj
      exact h (tokens_of_judge hj)
    refine iff_of_true ⟨fun url hurl => ?_, fun _ => x.reject st hj⟩ fun k hk => absurd ⟨k, hk⟩ h
    obtain ⟨k, hk, -⟩ := hurl.tokens
    exact absurd ⟨k, hk⟩ h

/-- `"GET http://a/ HTTP/1.1"` -/
def absoluteLine : Line where
  buffer p := [71, 69, 84, 32, 104, 116, 116, 112, 58, 47, 47, 97, 47, 32, 72, 84, 84, 80, 47, 49,
    46, 49].getD p 0
  start := 0
  text := [71, 69, 84, 32, 104, 116, 116, 112, 58, 47, 47, 97, 47, 32, 72, 84, 84, 80, 47, 49, 46, 49]
  held := by
    simp [Holds]
  fits := by decide
  noNul := by simp

/-- The line is in the grammar, with the URL `"/"`, and is rejected. -/
theorem absolute_form_rejected : ¬ ∀ x st, FollowsGrammar x st := by
  intro h
  obtain ⟨m, hreply⟩ := (h absoluteLine .requestline).1 [47] ⟨GET, 32, [],
    [104, 116, 116, 112, 58, 47, 47, 97, 47], 32, [], HTTP_1_1, rfl, rfl, by decide +kernel,
    by decide +kernel, by decide +kernel, rfl, .inr ⟨[97, 47], ⟨HTTP_SCHEME, rfl, rfl, by decide⟩, rfl⟩⟩
  have hcode : (absoluteLine.reply .requestline).map Reply.code = .ok .badRequest := by
    decide +kernel
  rw [hreply] at hcode
  cases hcode

/-! ## Framing -/

/-- What calls of `parse_line` may answer when the bytes `d` have arrived: LINE_OK with the
lines that end with CRLF, in order, up to the first stray CR or LF; LINE_BAD exactly at
this one; LINE_OPEN, or LINE_BAD, once there is no further line. -/
structure Framed (d : List UInt8) (answers : List Answer) : Prop where
  lines : ∃ lines rest, d = wire lines ++ rest ∧ (∀ l ∈ lines, CleanLine l) ∧
    answers.filterMap Answer.delivered? = lines.map (· ++ [0, 0]) ∧
    ∀ l more, CleanLine l → rest ≠ l ++ CR :: LF :: more
  bad : ∀ i, .lineBad i ∈ answers ↔ FirstStray CR LF d i
  last : ∀ a, answers.getLast? = some a → a.delivered? = none

theorem framed_of_answers {d : List UInt8} {answers : List Answer} {lines : List (List UInt8)}
    {t : List UInt8} (h : Answers 0 d answers lines t) : Framed d answers := by
  refine ⟨⟨lines, t, h.split.eq, h.split.clean, h.delivered, fun l more hl e => ?_⟩, fun i => ?_,
    h.last⟩
  · exact h.split.rest l more (e ▸ frame_line_of hl)
  · rw [h.bad, h.split.firstStray_iff, Nat.zero_add]

/-- However a stream arrives and whatever is made of the lines delivered, after any number
of chunks the calls have been answered as the bytes arrived by then are framed. -/
theorem parse_line_frames (s : Stream) (c : Cutting s) (r : Rewriting) (n : Nat) :
    ∃ answers later, frames r Session.init (c.chunks.take n) = .ok answers ∧
      frames r Session.init c.chunks = .ok (answers ++ later) ∧
      Framed (c.chunks.take n).flatten answers := by
  have hroom : c.chunks.flatten.length ≤ bufferSize := by
    rw [c.whole]
    exact s.fits
  have htake : (c.chunks.take n).flatten.length ≤ bufferSize := by
    have hsplit := congrArg (fun l => (List.flatten l).length) (List.take_append_drop n c.chunks)
    simp only [List.flatten_append, List.length_append] at hsplit
    omega
  have start : Session.init.readIndex = 0 := rfl
  obtain ⟨all, -, -, hall, -⟩ := frames_spec (r := r) c.chunks awaiting_init rfl
    (by rw [start]; omega)
  obtain ⟨answers, lines, t, hfirst, h⟩ := frames_spec (r := r) (c.chunks.take n) awaiting_init rfl
    (by rw [start]; omega)
  obtain ⟨answers', later, hfirst', rfl⟩ := frames_prefix (c.chunks.take n) (c.chunks.drop n)
    (by rw [List.take_append_drop]; exact hall)
  obtain rfl : answers = answers' := Except.ok.inj (hfirst.symm.trans hfirst')
  exact ⟨answers, later, hfirst, hall, framed_of_answers h⟩

/-- CR and LF of the first two bytes in two chunks, then a line, then a stray LF. -/
example : frames ⟨fun s => s.buffer, fun _ _ _ => rfl⟩ Session.init
    [[13], [10, 65, 13], [10, 10], [66]] =
      .ok [.lineOpen, .lineOk [0, 0], .lineOpen, .lineOk [65, 0, 0], .lineBad 5] := by
  decide +kernel

end LinuxDemo.Guarantees.HttpLines
