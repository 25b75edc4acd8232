import Mathlib.Data.List.Basic

/-!
# Framing by a two-symbol terminator

A stream over an arbitrary alphabet is cut into lines that end with `cr lf`. A `cr`
followed by anything else and a `lf` that follows no `cr` are malformed; a stream that
ends before its first line does is open. `frame` decides which of the three it is, and
the lemmas say how the answer changes when more of the stream arrives.
-/
namespace LinuxDemo.Lib

/-- The beginning of a stream: a complete line and what follows it, a malformed line, or
a line that is still open. -/
inductive Frame (α : Type) where
  | line (content rest : List α)
  | bad
  | unfinished
  deriving DecidableEq, Repr

namespace Frame
variable {α : Type}

/-- The frame of a stream that has `before` in front. -/
def prepend (before : List α) : Frame α → Frame α
  | line content rest => line (before ++ content) rest
  | bad => bad
  | unfinished => unfinished

@[simp] theorem prepend_nil (f : Frame α) : f.prepend [] = f := by
  cases f <;> rfl

theorem prepend_append (s t : List α) (f : Frame α) :
    f.prepend (s ++ t) = (f.prepend t).prepend s := by
  cases f <;> simp [prepend]

end Frame

/-- Neither symbol of the terminator occurs. -/
def Clean {α : Type} (cr lf : α) (s : List α) : Prop := ∀ b ∈ s, b ≠ cr ∧ b ≠ lf

@[simp] theorem clean_nil {α : Type} (cr lf : α) : Clean cr lf [] := by
  simp [Clean]

@[simp] theorem clean_cons {α : Type} (cr lf b : α) (s : List α) :
    Clean cr lf (b :: s) ↔ (b ≠ cr ∧ b ≠ lf) ∧ Clean cr lf s := by
  simp [Clean]

section Framing
variable {α : Type} [DecidableEq α] (cr lf : α)

/-- The frame of a stream whose first symbol was a `cr`. -/
def frameAfterCr : List α → Frame α
  | [] => .unfinished
  | c :: rest => if c = lf then .line [] rest else .bad

def frame : List α → Frame α
  | [] => .unfinished
  | b :: s =>
    if b = cr then frameAfterCr lf s
    else if b = lf then .bad
    else (frame s).prepend [b]

variable {cr lf}

@[simp] theorem frame_nil : frame cr lf [] = .unfinished := rfl

theorem frame_cons_clean {b : α} (hb : b ≠ cr ∧ b ≠ lf) (s : List α) :
    frame cr lf (b :: s) = (frame cr lf s).prepend [b] := by
  rw [frame, if_neg hb.1, if_neg hb.2]

@[simp] theorem frame_cr : frame cr lf [cr] = .unfinished := by
  simp [frame, frameAfterCr]

@[simp] theorem frame_cr_lf (rest : List α) : frame cr lf (cr :: lf :: rest) = .line [] rest := by
  simp [frame, frameAfterCr]

theorem frame_cr_other {c : α} (hc : c ≠ lf) (rest : List α) :
    frame cr lf (cr :: c :: rest) = .bad := by
  simp [frame, frameAfterCr, hc]

theorem frame_lf (h : lf ≠ cr) (rest : List α) : frame cr lf (lf :: rest) = .bad := by
  simp [frame, h]

/-- Clean symbols in front belong to the first line. -/
theorem frame_clean_append {s : List α} (hs : Clean cr lf s) (t : List α) :
    frame cr lf (s ++ t) = (frame cr lf t).prepend s := by
  induction s with
  | nil => simp
  | cons b s ih =>
    rw [clean_cons] at hs
    rw [List.cons_append, frame_cons_clean hs.1, ih hs.2, ← Frame.prepend_append]
    rfl

theorem frame_line_of {l rest : List α} (hl : Clean cr lf l) :
    frame cr lf (l ++ cr :: lf :: rest) = .line l rest := by
  rw [frame_clean_append hl, frame_cr_lf]
  simp [Frame.prepend]

/-- A terminator symbol that is not part of a terminator, behind clean symbols. -/
def Stray (cr lf : α) (s : List α) : Prop :=
  ∃ l rest, Clean cr lf l ∧ ((∃ b, b ≠ lf ∧ s = l ++ cr :: b :: rest) ∨ s = l ++ lf :: rest)

omit [DecidableEq α] in
theorem Stray.cons {b : α} {s : List α} (h : Stray cr lf s) (hb : b ≠ cr ∧ b ≠ lf) :
    Stray cr lf (b :: s) := by
  obtain ⟨l, rest, hl, h⟩ := h
  refine ⟨b :: l, rest, by simp [hb, hl], ?_⟩
  rcases h with ⟨c, hc, rfl⟩ | rfl
  · exact Or.inl ⟨c, hc, rfl⟩
  · exact Or.inr rfl

/-- The frame of a stream says how the stream reads. -/
theorem frame_shape (cr lf : α) (s : List α) :
    match frame cr lf s with
    | .line l rest => s = l ++ cr :: lf :: rest ∧ Clean cr lf l
    | .bad => Stray cr lf s
    | .unfinished => ∃ l, Clean cr lf l ∧ (s = l ∨ s = l ++ [cr]) := by
  induction s with
  | nil => exact ⟨[], by simp⟩
  | cons b s ih =>
    by_cases hcr : b = cr
    · subst hcr
      cases s with
      | nil => rw [frame_cr]; exact ⟨[], by simp⟩
      | cons c rest =>
        by_cases hlf : c = lf
        · subst hlf
          rw [frame_cr_lf]
          simp
        · rw [frame_cr_other hlf]
          exact ⟨[], rest, by simp, Or.inl ⟨c, hlf, rfl⟩⟩
    · by_cases hlf : b = lf
      · subst hlf
        rw [frame_lf hcr]
        exact ⟨[], s, by simp, Or.inr rfl⟩
      · rw [frame_cons_clean ⟨hcr, hlf⟩]
        cases hf : frame cr lf s with
        | line l rest =>
          rw [hf] at ih
          simpa [Frame.prepend, hcr, hlf] using ih
        | bad =>
          rw [hf] at ih
          exact ih.cons ⟨hcr, hlf⟩
        | unfinished =>
          rw [hf] at ih
          obtain ⟨l, hl, hs⟩ := ih
          refine ⟨b :: l, by simp [hcr, hlf, hl], ?_⟩
          rcases hs with hs | hs
          · exact Or.inl (by rw [hs])
          · exact Or.inr (by rw [hs]; rfl)

theorem frame_eq_line_iff {s l rest : List α} :
    frame cr lf s = .line l rest ↔ s = l ++ cr :: lf :: rest ∧ Clean cr lf l := by
  constructor
  · intro h
    have shape := frame_shape cr lf s
    rwa [h] at shape
  · rintro ⟨rfl, hl⟩
    exact frame_line_of hl

theorem frame_eq_bad_iff (h : lf ≠ cr) {s : List α} :
    frame cr lf s = .bad ↔ Stray cr lf s := by
  constructor
  · intro hs
    have shape := frame_shape cr lf s
    rwa [hs] at shape
  · rintro ⟨l, rest, hl, ⟨b, hb, rfl⟩ | rfl⟩
    · rw [frame_clean_append hl, frame_cr_other hb]
      rfl
    · rw [frame_clean_append hl, frame_lf h]
      rfl

theorem length_of_frame_line {s l rest : List α} (h : frame cr lf s = .line l rest) :
    s.length = l.length + 2 + rest.length := by
  obtain ⟨rfl, -⟩ := frame_eq_line_iff.mp h
  simp only [List.length_append, List.length_cons]
  omega

/-- A complete line stays the same line when more arrives. -/
theorem frame_line_append {s l rest : List α} (h : frame cr lf s = .line l rest)
    (t : List α) : frame cr lf (s ++ t) = .line l (rest ++ t) := by
  obtain ⟨rfl, hl⟩ := frame_eq_line_iff.mp h
  rw [List.append_assoc]
  exact frame_line_of hl

/-- A malformed line stays malformed when more arrives. -/
theorem frame_bad_append {s : List α} (h : frame cr lf s = .bad) (t : List α) :
    frame cr lf (s ++ t) = .bad := by
  induction s with
  | nil => cases h
  | cons b s ih =>
    by_cases hcr : b = cr
    · subst hcr
      cases s with
      | nil => simp at h
      | cons c rest =>
        by_cases hlf : c = lf
        · subst hlf
          simp at h
        · exact frame_cr_other hlf _
    · by_cases hlf : b = lf
      · subst hlf
        exact frame_lf hcr _
      · rw [frame_cons_clean ⟨hcr, hlf⟩] at h
        rw [List.cons_append, frame_cons_clean ⟨hcr, hlf⟩]
        rw [ih (by cases hf : frame cr lf s <;> simp [hf, Frame.prepend] at h ⊢)]
        rfl

/-- How many symbols stand in front of the first terminator symbol. -/
def cleanLength (cr lf : α) (s : List α) : Nat :=
  (s.takeWhile fun b => decide (b ≠ cr ∧ b ≠ lf)).length

@[simp] theorem cleanLength_cr (s : List α) : cleanLength cr lf (cr :: s) = 0 := by
  simp [cleanLength]

@[simp] theorem cleanLength_lf (s : List α) : cleanLength cr lf (lf :: s) = 0 := by
  simp [cleanLength]

theorem cleanLength_append {l : List α} (hl : Clean cr lf l) (s : List α) :
    cleanLength cr lf (l ++ s) = l.length + cleanLength cr lf s := by
  unfold cleanLength
  rw [List.takeWhile_append_of_pos fun b hb => by simpa using hl b hb, List.length_append]

theorem cleanLength_cons {b : α} (hb : b ≠ cr ∧ b ≠ lf) (s : List α) :
    cleanLength cr lf (b :: s) = cleanLength cr lf s + 1 := by
  have clean : Clean cr lf [b] := by simpa using hb
  have h := cleanLength_append clean s
  rw [List.singleton_append, List.length_singleton] at h
  omega

/-- What follows a malformed line does not move the symbol that makes it so. -/
theorem cleanLength_bad_append {s : List α} (h : frame cr lf s = .bad) (t : List α) :
    cleanLength cr lf (s ++ t) = cleanLength cr lf s := by
  have shape := frame_shape cr lf s
  rw [h] at shape
  obtain ⟨l, rest, hl, ⟨b, -, rfl⟩ | rfl⟩ := shape
  · rw [List.append_assoc, List.cons_append, cleanLength_append hl, cleanLength_append hl]
    simp
  · rw [List.append_assoc, List.cons_append, cleanLength_append hl, cleanLength_append hl]
    simp

/-! ### Stray symbols by position -/

/-- At `i` stands a `cr` that something other than `lf` follows, or a `lf` that follows no
`cr`. -/
def StrayAt (cr lf : α) (s : List α) (i : Nat) : Prop :=
  (s[i]? = some cr ∧ ∃ b, s[i + 1]? = some b ∧ b ≠ lf) ∨
    (s[i]? = some lf ∧ ∀ j, i = j + 1 → s[j]? ≠ some cr)

def FirstStray (cr lf : α) (s : List α) (i : Nat) : Prop :=
  StrayAt cr lf s i ∧ ∀ j < i, ¬ StrayAt cr lf s j

omit [DecidableEq α] in
theorem FirstStray.unique {s : List α} {i j : Nat} (h : FirstStray cr lf s i)
    (h' : FirstStray cr lf s j) : i = j := by
  rcases Nat.lt_trichotomy i j with hlt | rfl | hlt
  · exact absurd h.1 (h'.2 i hlt)
  · rfl
  · exact absurd h'.1 (h.2 j hlt)

omit [DecidableEq α] in
/-- A symbol in front of a stream is no stray one, and makes none, unless it is of the
terminator. -/
theorem strayAt_cons {b : α} (hb : b ≠ cr ∧ b ≠ lf) (s : List α) (i : Nat) :
    StrayAt cr lf (b :: s) i ↔ ∃ j, i = j + 1 ∧ StrayAt cr lf s j := by
  cases i with
  | zero => simp [StrayAt, hb]
  | succ i =>
    simp only [StrayAt, List.getElem?_cons_succ, Nat.add_right_cancel_iff, exists_eq_left']
    cases i with
    | zero => simp [hb]
    | succ i => simp

omit [DecidableEq α] in
theorem strayAt_append {l : List α} (hl : Clean cr lf l) (s : List α) (i : Nat) :
    StrayAt cr lf (l ++ s) i ↔ ∃ j, i = l.length + j ∧ StrayAt cr lf s j := by
  induction l generalizing i with
  | nil => simp
  | cons b l ih =>
    rw [clean_cons] at hl
    rw [List.cons_append, strayAt_cons hl.1]
    constructor
    · rintro ⟨j, rfl, hj⟩
      obtain ⟨k, rfl, hk⟩ := (ih hl.2 j).mp hj
      exact ⟨k, by simp only [List.length_cons]; omega, hk⟩
    · rintro ⟨k, rfl, hk⟩
      refine ⟨l.length + k, by simp only [List.length_cons]; omega, ?_⟩
      exact (ih hl.2 _).mpr ⟨k, rfl, hk⟩

omit [DecidableEq α] in
/-- Nor does a terminator. -/
theorem strayAt_terminator (h : lf ≠ cr) (s : List α) (i : Nat) :
    StrayAt cr lf (cr :: lf :: s) i ↔ ∃ j, i = j + 2 ∧ StrayAt cr lf s j := by
  match i with
  | 0 => simp [StrayAt, h.symm]
  | 1 => simp [StrayAt, h]
  | i + 2 =>
    simp only [StrayAt, List.getElem?_cons_succ, Nat.add_right_cancel_iff, exists_eq_left']
    cases i with
    | zero => simp [h]
    | succ i => simp

omit [DecidableEq α] in
theorem strayAt_line (h : lf ≠ cr) {l : List α} (hl : Clean cr lf l) (s : List α) (i : Nat) :
    StrayAt cr lf (l ++ cr :: lf :: s) i ↔ ∃ j, i = l.length + 2 + j ∧ StrayAt cr lf s j := by
  rw [strayAt_append hl]
  constructor
  · rintro ⟨j, rfl, hj⟩
    obtain ⟨k, rfl, hk⟩ := (strayAt_terminator h s j).mp hj
    exact ⟨k, by omega, hk⟩
  · rintro ⟨k, rfl, hk⟩
    exact ⟨k + 2, by omega, (strayAt_terminator h s (k + 2)).mpr ⟨k, rfl, hk⟩⟩

/-- In a stream without a complete line, `frame` says whether there is a stray symbol, and
the first one is the first symbol of the terminator. -/
theorem firstStray_iff (h : lf ≠ cr) {s : List α} (hline : ∀ l rest, frame cr lf s ≠ .line l rest)
    (i : Nat) : FirstStray cr lf s i ↔ frame cr lf s = .bad ∧ i = cleanLength cr lf s := by
  have shape := frame_shape cr lf s
  cases hf : frame cr lf s with
  | line l rest => exact absurd hf (hline l rest)
  | unfinished =>
    rw [hf] at shape
    obtain ⟨l, hl, hs⟩ := shape
    simp only [reduceCtorEq, false_and, iff_false]
    rintro ⟨hi, -⟩
    rcases hs with rfl | rfl
    · have := strayAt_append hl [] i
      rw [List.append_nil] at this
      obtain ⟨j, -, hj⟩ := this.mp hi
      simp [StrayAt] at hj
    · obtain ⟨j, -, hj⟩ := (strayAt_append hl [cr] i).mp hi
      cases j with
      | zero => simp [StrayAt, h.symm] at hj
      | succ j => simp [StrayAt] at hj
  | bad =>
    rw [hf] at shape
    obtain ⟨l, rest, hl, hs⟩ := shape
    have first : FirstStray cr lf s (cleanLength cr lf s) := by
      have at_end {u : List α} (hu : StrayAt cr lf u 0) (hn : cleanLength cr lf u = 0) :
          FirstStray cr lf (l ++ u) (cleanLength cr lf (l ++ u)) := by
        rw [cleanLength_append hl, hn]
        refine ⟨(strayAt_append hl u _).mpr ⟨0, rfl, hu⟩, fun j hj hstray => ?_⟩
        obtain ⟨k, rfl, -⟩ := (strayAt_append hl u j).mp hstray
        omega
      rcases hs with ⟨b, hb, rfl⟩ | rfl
      · exact at_end (by simp [StrayAt, hb]) (by simp)
      · exact at_end (by simp [StrayAt]) (by simp)
    simp only [true_and]
    constructor
    · exact fun hi => hi.unique first
    · rintro rfl
      exact first

end Framing
end LinuxDemo.Lib
