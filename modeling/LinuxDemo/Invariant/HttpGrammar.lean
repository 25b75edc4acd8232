import LinuxDemo.Invariant.HttpVerdict

/-!
# The header lines as a grammar

`headers` decides by the first line that is blank or malformed. Here its three answers are
put as what the stream looks like, and compared with the grammar of header lines, where
only a line of length zero ends the request.
-/
namespace LinuxDemo.Invariant.Http
open LinuxDemo.Lib LinuxDemo.Lib.CString LinuxDemo.Source.HttpParse

/-- The lines as they stand in a stream. -/
def wire (lines : List (List UInt8)) : List UInt8 := lines.flatMap (· ++ [CR, LF])

/-- Header lines that `parse_headers` does not take for the end of the request. -/
def HeaderLines (lines : List (List UInt8)) : Prop := ∀ l ∈ lines, CleanLine l ∧ ¬ Blank l

/-- A stray CR or LF stands behind header lines and in front of any blank line. -/
def Malformed (d : List UInt8) : Prop :=
  ∃ lines t, HeaderLines lines ∧ d = wire lines ++ t ∧ Stray CR LF t

/-- Lines of length at least one, and a line of length zero. -/
def HeaderPart (d : List UInt8) : Prop :=
  ∃ lines more, (∀ l ∈ lines, CleanLine l ∧ l ≠ []) ∧ d = wire lines ++ CR :: LF :: more

variable {d l rest : List UInt8}

theorem wire_cons_append (l : List UInt8) (lines : List (List UInt8)) (t : List UInt8) :
    wire (l :: lines) ++ t = l ++ CR :: LF :: (wire lines ++ t) := by
  simp [wire]

theorem headers_wire {lines : List (List UInt8)} (h : HeaderLines lines) (t : List UInt8) :
    headers (wire lines ++ t) = headers t := by
  induction lines with
  | nil => rfl
  | cons l lines ih =>
    obtain ⟨hclean, hblank⟩ := h l (by simp)
    rw [wire_cons_append, headers_line (frame_line_of hclean), if_neg hblank]
    exact ih fun l' hl' => h l' (by simp [hl'])

/-- Every stream is header lines and then something that is not one of them. -/
theorem exists_wire (d : List UInt8) :
    ∃ lines t, HeaderLines lines ∧ d = wire lines ++ t ∧
      ∀ l rest, lineFrame t = .line l rest → Blank l := by
  induction hn : d.length using Nat.strongRecOn generalizing d with
  | ind n ih =>
    by_cases h : ∃ l rest, lineFrame d = .line l rest ∧ ¬ Blank l
    · obtain ⟨l, rest, hf, hb⟩ := h
      have hlen := length_of_frame_line hf
      obtain ⟨hd, hclean⟩ := frame_eq_line_iff.mp hf
      obtain ⟨lines, t, hlines, hrest, ht⟩ := ih rest.length (by omega) rest rfl
      refine ⟨l :: lines, t, ?_, ?_, ht⟩
      · intro l' hl'
        rcases List.mem_cons.mp hl' with rfl | hl'
        · exact ⟨hclean, hb⟩
        · exact hlines l' hl'
      · rw [wire_cons_append, ← hrest]
        exact hd
    · refine ⟨[], d, by simp [HeaderLines], rfl, ?_⟩
      intro l rest hf
      by_contra hb
      exact h ⟨l, rest, hf, hb⟩

theorem headers_eq_get_iff :
    headers d = .getRequest ↔ ∃ lines l more, HeaderLines lines ∧ CleanLine l ∧ Blank l ∧
      d = wire lines ++ (l ++ CR :: LF :: more) := by
  constructor
  · intro h
    obtain ⟨lines, t, hlines, hd, ht⟩ := exists_wire d
    rw [hd, headers_wire hlines] at h
    cases hf : lineFrame t with
    | line l rest =>
      obtain ⟨e, hclean⟩ := frame_eq_line_iff.mp hf
      exact ⟨lines, l, rest, hlines, hclean, ht l rest hf, by rw [hd, e]⟩
    | bad =>
      rw [headers_bad hf] at h
      cases h
    | unfinished =>
      rw [headers_unfinished hf] at h
      cases h
  · rintro ⟨lines, l, more, hlines, hclean, hblank, rfl⟩
    rw [headers_wire hlines, headers_line (frame_line_of hclean), if_pos hblank]

theorem headers_eq_bad_iff : headers d = .badRequest ↔ Malformed d := by
  constructor
  · intro h
    obtain ⟨lines, t, hlines, hd, ht⟩ := exists_wire d
    refine ⟨lines, t, hlines, hd, ?_⟩
    rw [hd, headers_wire hlines] at h
    cases hf : lineFrame t with
    | line l rest =>
      rw [headers_line hf, if_pos (ht l rest hf)] at h
      cases h
    | bad => exact (frame_eq_bad_iff lf_ne_cr).mp hf
    | unfinished =>
      rw [headers_unfinished hf] at h
      cases h
  · rintro ⟨lines, t, hlines, rfl, hstray⟩
    rw [headers_wire hlines]
    exact headers_bad ((frame_eq_bad_iff lf_ne_cr).mpr hstray)

/-- A line of length at least one can be taken off and put back. -/
theorem headerPart_iff_of_line (hf : lineFrame d = .line l rest) :
    HeaderPart d ↔ l = [] ∨ HeaderPart rest := by
  constructor
  · rintro ⟨lines, more, hlines, rfl⟩
    cases lines with
    | nil =>
      have h : lineFrame (wire [] ++ CR :: LF :: more) = .line [] more := frame_cr_lf more
      rw [h] at hf
      cases hf
      exact Or.inl rfl
    | cons l' lines =>
      rw [wire_cons_append, lineFrame, frame_line_of (hlines l' (by simp)).1] at hf
      cases hf
      exact Or.inr ⟨lines, more, fun k hk => hlines k (by simp [hk]), rfl⟩
  · obtain ⟨rfl, hclean⟩ := frame_eq_line_iff.mp hf
    rintro (rfl | ⟨lines, more, hlines, rfl⟩)
    · exact ⟨[], rest, by simp, rfl⟩
    · by_cases h : l = []
      · subst h
        exact ⟨[], _, by simp, rfl⟩
      · refine ⟨l :: lines, more, ?_, (wire_cons_append l lines _).symm⟩
        intro k hk
        rcases List.mem_cons.mp hk with rfl | hk
        · exact ⟨hclean, h⟩
        · exact hlines k hk

theorem headerPart_wire {lines : List (List UInt8)} (h : HeaderLines lines) (t : List UInt8) :
    HeaderPart (wire lines ++ t) ↔ HeaderPart t := by
  induction lines with
  | nil => rfl
  | cons l lines ih =>
    obtain ⟨hclean, hblank⟩ := h l (by simp)
    have hne : l ≠ [] := by
      rintro rfl
      exact hblank rfl
    rw [wire_cons_append, headerPart_iff_of_line (frame_line_of hclean), or_iff_right hne]
    exact ih fun l' hl' => h l' (by simp [hl'])

/-- What the grammar accepts, `parse_headers` accepts. -/
theorem headers_of_headerPart (h : HeaderPart d) : headers d = .getRequest := by
  obtain ⟨lines, more, hlines, rfl⟩ := h
  induction lines with
  | nil =>
    have h : lineFrame (wire [] ++ CR :: LF :: more) = .line [] more := frame_cr_lf more
    rw [headers_line h]
    rfl
  | cons l lines ih =>
    rw [wire_cons_append, headers_line (frame_line_of (hlines l (by simp)).1)]
    split
    next => rfl
    next => exact ih fun l' hl' => hlines l' (by simp [hl'])

end LinuxDemo.Invariant.Http
