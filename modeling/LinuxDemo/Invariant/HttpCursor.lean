import LinuxDemo.Source.HttpRounds
import LinuxDemo.Invariant.HttpVerdict

/-!
# The cursors between two calls of `parse_content`

`Tracks stream s` says that the session has received `stream` and still holds the part of
it from `start_line` on as it came. A round of either loop keeps this, and where
`parse_content` returns NO_REQUEST its cursor has come to a stop at the end of the data.
-/
namespace LinuxDemo.Invariant.Http
open LinuxDemo.Lib LinuxDemo.Lib.CString LinuxDemo.Source.HttpParse

section Rounds

/-- The loop of `parse_content` is made of its rounds. -/
theorem parseContentLoop_succ (n : Nat) (s : Session) :
    parseContentLoop (n + 1) s = contentRound s >>= Sum.elim (parseContentLoop n) pure := by
  unfold contentRound
  conv => lhs; unfold parseContentLoop
  rw [Traced.bind_assoc]
  congr 1
  funext round
  obtain ⟨output, next⟩ := round
  cases next <;> rfl

theorem receiveRound_eq_ok {s s' : Session} {chunk : List UInt8} :
    receiveRound s chunk = .ok s' ↔ chunk.take (bufferSize - s.readIndex) ≠ [] ∧
      (parseContent (s.receive (chunk.take (bufferSize - s.readIndex)))).result =
        .ok (.noRequest, s') := by
  unfold receiveRound
  simp only
  split
  next hnil => simp [hnil]
  next hdata =>
    rw [bind_eq_ok_iff]
    constructor
    · rintro ⟨⟨code, s₁⟩, hparse, hcode⟩
      split at hcode
      next hno =>
        obtain rfl := Except.ok.inj hcode
        exact ⟨hdata, hno ▸ hparse⟩
      next => cases hcode
    · rintro ⟨-, hparse⟩
      exact ⟨_, hparse, rfl⟩

/-- The receive loop of `main` is made of its rounds. -/
theorem serve_of_rounds {s s' : Session} {chunks : List (List UInt8)}
    (h : run receiveRound s chunks = .ok s') (more : List (List UInt8)) :
    (serve s (chunks ++ more)).result = (serve s' more).result := by
  induction chunks generalizing s with
  | nil =>
    obtain rfl : s = s' := by simpa using h
    rfl
  | cons chunk chunks ih =>
    obtain ⟨s₁, hround, hrest⟩ := (bind_eq_ok_iff _ _ _).mp h
    obtain ⟨hdata, hparse⟩ := receiveRound_eq_ok.mp hround
    rw [List.cons_append, serve_cons _ hdata, Traced.result_bind, hparse, ok_bind]
    exact ih hrest

end Rounds

section Cursor
variable {s s' : Session} {stream d l rest : List UInt8}

/-- The session has received `stream`, and holds what it has not delivered as it came. -/
structure Tracks (stream : List UInt8) (s : Session) : Prop where
  awaiting : Awaiting s (stream.drop s.startLine)
  read : s.readIndex = stream.length

/-- `checked_index` is at the end of what was received, or at a CR that is the last byte. -/
def Stopped (s : Session) : Prop :=
  s.checkedIndex = s.readIndex ∨ s.checkedIndex + 1 = s.readIndex ∧ s.buffer s.checkedIndex = CR

theorem tracks_init : Tracks [] Session.init := ⟨awaiting_init, rfl⟩

theorem Tracks.receive (h : Tracks stream s) {data : List UInt8}
    (hroom : s.readIndex + data.length ≤ bufferSize) : Tracks (stream ++ data) (s.receive data) := by
  have hread := h.awaiting.read
  have hlen := h.read
  have hstart : s.startLine ≤ stream.length := by
    rw [List.length_drop] at hread
    omega
  constructor
  · have w := h.awaiting.receive hroom
    rwa [← List.drop_append_of_le_length hstart] at w
  · simp [Session.receive, hlen]

theorem Tracks.delivered (h : Tracks stream s)
    (hf : lineFrame (stream.drop s.startLine) = .line l rest) :
    Tracks stream (delivered s l) := by
  have hrest : rest = stream.drop (Http.delivered s l).startLine := by
    obtain ⟨e, -⟩ := frame_eq_line_iff.mp hf
    have tail := congrArg (List.drop (l.length + 2)) e
    rw [List.drop_drop] at tail
    simp only [Http.delivered, Nat.add_assoc, tail]
    simp [List.drop_append]
  exact ⟨hrest ▸ (h.awaiting.delivered hf).1, h.read⟩

/-- A parse that leaves the line open has come to a stop. -/
theorem parseLineLoop_open {m m' : Buffer} {r n c c' : Nat} (hn : c + n = r)
    (h : (parseLineLoop r n m c).result = .ok (.lineOpen, c', m')) :
    c' = r ∨ c' + 1 = r ∧ m c' = CR := by
  induction n generalizing c with
  | zero =>
    obtain ⟨rfl, -⟩ : c = c' ∧ m = m' := by simpa [parseLineLoop] using h
    exact Or.inl hn
  | succ n ih =>
    unfold parseLineLoop at h
    obtain ⟨b, hb, h⟩ := Traced.result_bind_eq_ok_iff.mp h
    have hb : m c = b := by
      unfold readByte at hb
      split at hb
      next => exact Except.ok.inj hb
      next => cases hb
    split at h
    next hcr =>
      split at h
      next hlast =>
        obtain ⟨rfl, -⟩ : c = c' ∧ m = m' := by simpa using h
        exact Or.inr ⟨hlast, hb.trans hcr⟩
      next =>
        obtain ⟨d, -, h⟩ := Traced.result_bind_eq_ok_iff.mp h
        split at h <;> simp [Traced.result_bind_eq_ok_iff] at h
    next =>
      split at h
      next =>
        split at h
        next =>
          obtain ⟨d, -, h⟩ := Traced.result_bind_eq_ok_iff.mp h
          split at h <;> simp [Traced.result_bind_eq_ok_iff] at h
        next => cases h
      next => exact ih (by omega) h

theorem not_takesLfBranch {m : Buffer} {c : Nat} (hlast : c ≤ 1 ∨ m (c - 1) ≠ CR) (n : Nat) :
    takesLfBranch n m c = false := by
  induction n generalizing c with
  | zero => rfl
  | succ n ih =>
    unfold takesLfBranch
    by_cases hcr : m c = CR
    · rw [if_pos hcr]
    · rw [if_neg hcr]
      split
      next =>
        rcases hlast with hsmall | hne
        · simp [hsmall]
        · simp [hne]
      next => exact ih (Or.inr hcr)

/-- What a round of the loop of `parse_content` leaves. -/
def Kept (stream : List UInt8) : Session ⊕ (HttpCode × Session) → Prop
  | .inl s => Tracks stream s
  | .inr (code, s) => code = .noRequest → Tracks stream s ∧ Stopped s

theorem contentRound_kept (h : Tracks stream s) :
    Ends (fun _ => True) (contentRound s).result (Kept stream) := by
  have spec := parseLine_spec h.awaiting
  unfold contentRound parseContentRound
  rw [Traced.bind_assoc, Traced.result_bind, Traced.result_relabel]
  cases hf : lineFrame (stream.drop s.startLine) with
  | bad =>
    rw [hf] at spec
    rw [spec.result, Traced.result_pure, ok_bind]
    exact fun hno => by cases hno
  | unfinished =>
    rw [hf] at spec
    obtain ⟨c, hopen, hw⟩ := spec
    obtain ⟨pre, t, hd, -, hc⟩ := h.awaiting.checked
    have hread := h.awaiting.read
    rw [hd, List.length_append] at hread
    have stopped := parseLineLoop_open (by omega) hopen.result
    rw [hopen.result, Traced.result_pure, ok_bind]
    exact fun _ => ⟨⟨hw, h.read⟩, stopped⟩
  | line l rest =>
    rw [hf] at spec
    have hnext := h.delivered hf
    obtain ⟨hw, hheld⟩ := h.awaiting.delivered hf
    have hbound : s.startLine + l.length < bufferSize := by
      have hread : s.readIndex = s.startLine + l.length + 2 + rest.length := hw.read
      have hroom := h.awaiting.bound
      omega
    rw [spec.result, Traced.result_pure, ok_bind]
    cases hst : s.checkstate with
    | requestline =>
      simp only
      rw [Traced.bind_assoc, Traced.result_bind, Traced.result_relabel]
      cases hreply : (parseRequestline (Http.delivered s l).buffer s.startLine .requestline).result with
      | error e => trivial
      | ok reply =>
        rw [ok_bind]
        rcases requestline_reply hheld hbound hreply with hbad | ⟨hcode, -, same⟩
        · rw [if_pos hbad]
          exact fun hno => by cases hno
        · rw [if_neg (by simp [hcode])]
          refine ⟨hnext.awaiting.rewrite ?_ reply.checkstate, hnext.read⟩
          intro p hp
          exact same p (Or.inr (by change s.startLine + l.length + 2 ≤ p + 1 at hp; omega))
    | header =>
      obtain ⟨out, hheader⟩ := parseHeaders_spec hheld hbound
      simp only
      rw [Traced.bind_assoc, Traced.result_bind, Traced.result_relabel, hheader.result, Traced.result_pure, ok_bind]
      by_cases hb : Blank l
      · simp only [if_pos hb, reduceCtorEq, if_false, if_true]
        exact fun hno => by cases hno
      · simp only [if_neg hb, reduceCtorEq, if_false]
        rw [← hst]
        exact hnext

theorem parseContentLoop_kept (h : Tracks stream s) (fuel : Nat) :
    Ends (fun _ => True) (parseContentLoop fuel s).result fun r =>
      r.1 = .noRequest → Tracks stream r.2 ∧ Stopped r.2 := by
  induction fuel generalizing s with
  | zero => trivial
  | succ fuel ih =>
    rw [parseContentLoop_succ, Traced.result_bind]
    refine (contentRound_kept h).bind fun r hr => ?_
    cases r with
    | inl s' => exact ih hr
    | inr r => exact hr

theorem receiveRound_kept (h : Tracks stream s) {chunk : List UInt8}
    (hround : receiveRound s chunk = .ok s') :
    Tracks (stream ++ chunk.take (bufferSize - s.readIndex)) s' ∧ Stopped s' := by
  obtain ⟨-, hparse⟩ := receiveRound_eq_ok.mp hround
  have hbound := h.awaiting.bound
  have arrived : Tracks (stream ++ chunk.take (bufferSize - s.readIndex))
      (s.receive (chunk.take (bufferSize - s.readIndex))) := by
    apply h.receive
    rw [List.length_take]
    omega
  exact (parseContentLoop_kept arrived _).of_ok hparse rfl

theorem rounds_kept (h : Tracks stream s) (hs : Stopped s) {chunks : List (List UInt8)}
    (hrun : run receiveRound s chunks = .ok s') :
    Tracks (stream ++ received (bufferSize - s.readIndex) chunks) s' ∧ Stopped s' := by
  induction chunks generalizing s stream with
  | nil =>
    obtain rfl : s = s' := by simpa using hrun
    simpa [received] using ⟨h, hs⟩
  | cons chunk chunks ih =>
    obtain ⟨s₁, hround, hrest⟩ := (bind_eq_ok_iff _ _ _).mp hrun
    obtain ⟨hdata, -⟩ := receiveRound_eq_ok.mp hround
    obtain ⟨h₁, hs₁⟩ := receiveRound_kept h hround
    have later := ih h₁ hs₁ hrest
    have room : bufferSize - s₁.readIndex =
        bufferSize - s.readIndex - (chunk.take (bufferSize - s.readIndex)).length := by
      rw [h₁.read, List.length_append, h.read]
      omega
    rw [received, if_neg hdata, ← List.append_assoc, ← room]
    exact later

/-- The sessions at the calls of `parse_line` hold what they have not delivered as it came. -/
theorem lineCall_tracks {t : Session} (hcall : LineCall s t) (h : Tracks stream s) :
    Tracks stream t := by
  induction hcall with
  | first s => exact h
  | next hround _ ih => exact ih ((contentRound_kept h).of_ok hround)

end Cursor
end LinuxDemo.Invariant.Http
