import LinuxDemo.Lib.Crlf
import LinuxDemo.Source.HttpParse

/-!
# Lines in the receive buffer

`Awaiting s d` relates the cursors and the buffer of a session to the bytes `d` that no
line has delivered yet. `parse_line` then answers as the framing of `d` says, and
`parse_headers` looks at nothing but the first byte of the line.
-/
namespace LinuxDemo.Invariant.Http
open LinuxDemo.Lib LinuxDemo.Lib.CString LinuxDemo.Source.HttpParse

/-- The framing of HTTP lines. -/
abbrev lineFrame (d : List UInt8) : Frame UInt8 := frame CR LF d

abbrev CleanLine (l : List UInt8) : Prop := Clean CR LF l

theorem lineFrame_of {d l rest : List UInt8} (e : d = l ++ CR :: LF :: rest) (hl : CleanLine l) :
    lineFrame d = .line l rest :=
  frame_eq_line_iff.mpr ⟨e, hl⟩

theorem lf_ne_cr : LF ≠ CR := by decide

/-- The buffer once the line that ends with a CR at `q` is cut. -/
def cutLine (m : Buffer) (q : Nat) : Buffer := Function.update (Function.update m q 0) (q + 1) 0

theorem cutLine_ne (m : Buffer) {q p : Nat} (h : p ≠ q) (h' : p ≠ q + 1) :
    cutLine m q p = m p := by
  unfold cutLine
  rw [Function.update_of_ne h', Function.update_of_ne h]

theorem cutLine_eq_zero (m : Buffer) {q p : Nat} (h : p = q ∨ p = q + 1) :
    cutLine m q p = 0 := by
  unfold cutLine
  rcases h with rfl | rfl
  · rw [Function.update_of_ne (by omega), Function.update_self]
  · rw [Function.update_self]

section Loop
variable {m : Buffer} {c r n : Nat}

/-- What the loop finds at `checked_index`. -/
theorem readByte_checked (hc : c < r) (hsize : r ≤ bufferSize) {b : UInt8} (hb : m c = b) :
    Traced.Leads (· < r) (readByte bufferSize m c) (pure b) := by
  rw [← hb]
  exact readByte_leads (by omega) hc

/-- A byte of the line. -/
theorem parseLineLoop_clean (hc : c < r) (hsize : r ≤ bufferSize) (hcr : m c ≠ CR) (hlf : m c ≠ LF)
    {y : Traced Nat (LineStatus × Nat × Buffer)}
    (h : Traced.Leads (· < r) (parseLineLoop r n m (c + 1)) y) :
    Traced.Leads (· < r) (parseLineLoop r (n + 1) m c) y := by
  unfold parseLineLoop
  apply Traced.Leads.bind (readByte_checked hc hsize rfl)
  rwa [if_neg hcr, if_neg hlf]

/-- A CR that is the last byte received. -/
theorem parseLineLoop_cr_last (hc : c + 1 = r) (hsize : r ≤ bufferSize) (hcr : m c = CR) :
    Traced.Leads (· < r) (parseLineLoop r (n + 1) m c) (pure (.lineOpen, c, m)) := by
  unfold parseLineLoop
  apply Traced.Leads.bind (readByte_checked (by omega) hsize hcr)
  rw [if_pos rfl, if_pos hc]
  exact Traced.Leads.refl _

/-- The end of a line, which is overwritten with NULs. -/
theorem parseLineLoop_cr_lf (hc : c + 1 < r) (hsize : r ≤ bufferSize) (hcr : m c = CR)
    (hlf : m (c + 1) = LF) :
    Traced.Leads (· < r) (parseLineLoop r (n + 1) m c) (pure (.lineOk, c + 2, cutLine m c)) := by
  unfold parseLineLoop
  apply Traced.Leads.bind (readByte_checked (by omega) hsize hcr)
  rw [if_pos rfl, if_neg (by omega)]
  apply Traced.Leads.bind (readByte_checked hc hsize hlf)
  rw [if_pos rfl]
  apply Traced.Leads.bind (writeByte_leads 0 (by omega) (by omega))
  apply Traced.Leads.bind (writeByte_leads 0 (by omega) (by omega))
  exact Traced.Leads.refl _

theorem parseLineLoop_cr_other (hc : c + 1 < r) (hsize : r ≤ bufferSize) (hcr : m c = CR)
    (hlf : m (c + 1) ≠ LF) :
    Traced.Leads (· < r) (parseLineLoop r (n + 1) m c) (pure (.lineBad, c, m)) := by
  unfold parseLineLoop
  apply Traced.Leads.bind (readByte_checked (by omega) hsize hcr)
  rw [if_pos rfl, if_neg (by omega)]
  apply Traced.Leads.bind (readByte_checked hc hsize rfl)
  rw [if_neg hlf]
  exact Traced.Leads.refl _

/-- A LF; the byte in front of it is known not to be a CR. -/
theorem parseLineLoop_lf (hc : c < r) (hsize : r ≤ bufferSize) (hlf : m c = LF)
    (hlast : c ≤ 1 ∨ m (c - 1) ≠ CR) :
    Traced.Leads (· < r) (parseLineLoop r (n + 1) m c) (pure (.lineBad, c, m)) := by
  unfold parseLineLoop
  apply Traced.Leads.bind (readByte_checked hc hsize hlf)
  rw [if_neg lf_ne_cr, if_pos rfl]
  split
  next hpos =>
    have hprev : m (c - 1) ≠ CR := hlast.resolve_left (by omega)
    apply Traced.Leads.bind (readByte_leads (by omega) (by omega))
    rw [if_neg hprev]
    exact Traced.Leads.refl _
  next => exact Traced.Leads.refl _

theorem parseLineLoop_spec {t : List UInt8} (hm : Holds m c t) (hr : r = c + t.length)
    (hsize : r ≤ bufferSize) (hlast : c ≤ 1 ∨ m (c - 1) ≠ CR) :
    match lineFrame t with
    | .line l _ => Traced.Leads (· < r) (parseLineLoop r t.length m c)
        (pure (.lineOk, c + l.length + 2, cutLine m (c + l.length)))
    | .bad => Traced.Leads (· < r) (parseLineLoop r t.length m c)
        (pure (.lineBad, c + cleanLength CR LF t, m))
    | .unfinished => ∃ l, CleanLine l ∧ (t = l ∨ t = l ++ [CR]) ∧
        Traced.Leads (· < r) (parseLineLoop r t.length m c)
          (pure (.lineOpen, c + l.length, m)) := by
  induction t generalizing c with
  | nil => exact ⟨[], by simp, Or.inl rfl, Traced.Leads.refl _⟩
  | cons b t ih =>
    obtain ⟨rfl, hm⟩ := hm
    simp only [List.length_cons] at hr
    by_cases hcr : m c = CR
    · rw [hcr]
      cases t with
      | nil =>
        rw [lineFrame, frame_cr]
        exact ⟨[], by simp, Or.inr rfl, parseLineLoop_cr_last (by simp [hr]) hsize hcr⟩
      | cons d rest =>
        obtain ⟨rfl, -⟩ := hm
        simp only [List.length_cons] at hr
        by_cases hlf : m (c + 1) = LF
        · rw [hlf, lineFrame, frame_cr_lf]
          exact parseLineLoop_cr_lf (by omega) hsize hcr hlf
        · rw [lineFrame, frame_cr_other hlf, cleanLength_cr]
          exact parseLineLoop_cr_other (by omega) hsize hcr hlf
    · by_cases hlf : m c = LF
      · rw [hlf, lineFrame, frame_lf lf_ne_cr, cleanLength_lf]
        exact parseLineLoop_lf (by omega) hsize hlf hlast
      · have ih' := ih (c := c + 1) hm (by omega) (Or.inr hcr)
        rw [lineFrame, frame_cons_clean ⟨hcr, hlf⟩]
        cases hf : frame CR LF t with
        | line l rest =>
          rw [lineFrame, hf] at ih'
          have e : c + ([m c] ++ l).length = c + 1 + l.length := by
            simp only [List.length_append, List.length_cons, List.length_nil]
            omega
          simp only [Frame.prepend, e]
          exact parseLineLoop_clean (by omega) hsize hcr hlf ih'
        | bad =>
          rw [lineFrame, hf] at ih'
          have e : c + cleanLength CR LF (m c :: t) = c + 1 + cleanLength CR LF t := by
            rw [cleanLength_cons ⟨hcr, hlf⟩]
            omega
          simp only [Frame.prepend, e]
          exact parseLineLoop_clean (by omega) hsize hcr hlf ih'
        | unfinished =>
          rw [lineFrame, hf] at ih'
          obtain ⟨l, hl, ht, h⟩ := ih'
          refine ⟨m c :: l, by simp [hcr, hlf, hl], ?_, ?_⟩
          · rcases ht with rfl | rfl
            · exact Or.inl rfl
            · exact Or.inr rfl
          · have e : c + (m c :: l).length = c + 1 + l.length := by
              simp only [List.length_cons]
              omega
            rw [e]
            exact parseLineLoop_clean (by omega) hsize hcr hlf h

end Loop

/-- The bytes `d` from `start_line` to `read_index` have not been delivered: a clean
part of them is checked, the buffer is zero behind them, and the byte in front of them
is no CR. -/
structure Awaiting (s : Session) (d : List UInt8) : Prop where
  holds : Holds s.buffer s.startLine d
  read : s.readIndex = s.startLine + d.length
  bound : s.readIndex ≤ bufferSize
  zero : ∀ p, s.readIndex ≤ p → s.buffer p = 0
  checked : ∃ pre t, d = pre ++ t ∧ CleanLine pre ∧ s.checkedIndex = s.startLine + pre.length
  before : s.startLine = 0 ∨ s.buffer (s.startLine - 1) ≠ CR

theorem awaiting_init : Awaiting Session.init [] :=
  ⟨trivial, rfl, by decide, fun _ _ => rfl, ⟨[], [], by simp, by simp, rfl⟩, Or.inl rfl⟩

theorem Awaiting.receive {s : Session} {d data : List UInt8} (w : Awaiting s d)
    (hroom : s.readIndex + data.length ≤ bufferSize) :
    Awaiting (s.receive data) (d ++ data) := by
  have hread := w.read
  obtain ⟨pre, t, hd, hpre, hc⟩ := w.checked
  constructor
  · rw [holds_append]
    constructor
    · apply holds_congr w.holds
      intro q hq hq'
      simp only [Session.receive] at hq hq' ⊢
      rw [if_pos (by omega)]
    · apply holds_of_getElem
      intro i hi
      simp only [Session.receive]
      rw [if_neg (by omega), show s.startLine + d.length + i - s.readIndex = i by omega]
      simp [List.getD_eq_getElem?_getD, List.getElem?_eq_getElem hi]
  · simp only [Session.receive, List.length_append]
    omega
  · exact hroom
  · intro p hp
    simp only [Session.receive] at hp ⊢
    rw [if_neg (by omega), List.getD_eq_getElem?_getD, List.getElem?_eq_none (by omega)]
    exact w.zero p (by omega)
  · exact ⟨pre, t ++ data, by rw [hd, List.append_assoc], hpre, hc⟩
  · rcases w.before with h | h
    · exact Or.inl h
    · by_cases h0 : s.startLine = 0
      · exact Or.inl h0
      · apply Or.inr
        simp only [Session.receive]
        rwa [if_pos (by omega)]

/-- What is left of the session's cursors when the line `l` has been delivered. -/
def delivered (s : Session) (l : List UInt8) : Session :=
  { s with
    buffer := cutLine s.buffer (s.startLine + l.length)
    checkedIndex := s.startLine + l.length + 2
    startLine := s.startLine + l.length + 2 }

variable {s : Session} {d l rest : List UInt8}

theorem Awaiting.delivered (w : Awaiting s d) (hf : lineFrame d = .line l rest) :
    Awaiting (delivered s l) rest ∧
      Holds (delivered s l).buffer s.startLine (l ++ [0, 0]) := by
  obtain ⟨rfl, hl⟩ := frame_eq_line_iff.mp hf
  have hread := w.read
  simp only [List.length_append, List.length_cons] at hread
  have hold := w.holds
  rw [holds_append] at hold
  have hkeep : ∀ p, p ≠ s.startLine + l.length → p ≠ s.startLine + l.length + 1 →
      (Http.delivered s l).buffer p = s.buffer p := fun p h h' => cutLine_ne _ h h'
  constructor
  · constructor
    · apply holds_congr (m := s.buffer) hold.2.2.2
      intro q (hq : s.startLine + l.length + 2 ≤ q) _
      exact hkeep q (by omega) (by omega)
    · simp only [Http.delivered]
      omega
    · exact w.bound
    · intro p hp
      change s.readIndex ≤ p at hp
      rw [hkeep p (by omega) (by omega)]
      exact w.zero p hp
    · exact ⟨[], rest, rfl, by simp, rfl⟩
    · apply Or.inr
      have h0 : (Http.delivered s l).buffer (s.startLine + l.length + 1) = 0 :=
        cutLine_eq_zero _ (Or.inr rfl)
      change (Http.delivered s l).buffer (s.startLine + l.length + 1) ≠ CR
      rw [h0]
      decide
  · rw [holds_append]
    constructor
    · apply holds_congr hold.1
      intro q hq hq'
      exact hkeep q (by omega) (by omega)
    · exact ⟨cutLine_eq_zero _ (Or.inl rfl), cutLine_eq_zero _ (Or.inr rfl), trivial⟩

/-- Rewriting what lies in front of the undelivered bytes changes nothing for them. -/
theorem Awaiting.rewrite (w : Awaiting s d) {m : Buffer}
    (hm : ∀ p, s.startLine ≤ p + 1 → m p = s.buffer p) (st : CheckState) :
    Awaiting { s with buffer := m, checkstate := st } d := by
  constructor
  · apply holds_congr w.holds
    intro q hq _
    exact hm q (Nat.le_succ_of_le hq)
  · exact w.read
  · exact w.bound
  · intro p hp
    have := w.read
    change s.readIndex ≤ p at hp
    exact (hm p (by omega)).trans (w.zero p hp)
  · exact w.checked
  · rcases w.before with h | h
    · exact Or.inl h
    · by_cases h0 : s.startLine = 0
      · exact Or.inl h0
      · apply Or.inr
        change m (s.startLine - 1) ≠ CR
        rwa [hm _ (by omega)]

/-- The byte in front of `checked_index` is no CR. -/
theorem Awaiting.last_ne_cr (w : Awaiting s d) :
    s.checkedIndex ≤ 1 ∨ s.buffer (s.checkedIndex - 1) ≠ CR := by
  obtain ⟨pre, t, rfl, hpre, hc⟩ := w.checked
  have hold := holds_append.mp w.holds
  by_cases hp : pre = []
  · subst hp
    rw [hc, List.length_nil, Nat.add_zero]
    rcases w.before with h | h
    · exact Or.inl (by omega)
    · exact Or.inr h
  · obtain ⟨front, b, rfl⟩ : ∃ front b, pre = front ++ [b] :=
      ⟨pre.dropLast, pre.getLast hp, (List.dropLast_concat_getLast hp).symm⟩
    apply Or.inr
    have hb : s.buffer (s.startLine + front.length) = b := (holds_append.mp hold.1).2.1
    rw [hc, List.length_append, List.length_singleton, ← Nat.add_assoc, Nat.add_sub_cancel, hb]
    exact (hpre b (by simp)).1

/-- `parse_line` answers as the framing of the undelivered bytes says. -/
theorem parseLine_spec (w : Awaiting s d) :
    match lineFrame d with
    | .line l _ => Traced.Leads (· < s.readIndex)
        (parseLine s.buffer s.checkedIndex s.readIndex)
        (pure (.lineOk, (delivered s l).checkedIndex, (delivered s l).buffer))
    | .bad => Traced.Leads (· < s.readIndex) (parseLine s.buffer s.checkedIndex s.readIndex)
        (pure (.lineBad, s.startLine + cleanLength CR LF d, s.buffer))
    | .unfinished => ∃ c, Traced.Leads (· < s.readIndex)
        (parseLine s.buffer s.checkedIndex s.readIndex) (pure (.lineOpen, c, s.buffer)) ∧
        Awaiting { s with checkedIndex := c } d := by
  obtain ⟨pre, t, rfl, hpre, hc⟩ := w.checked
  have hread := w.read
  rw [List.length_append] at hread
  have hold := holds_append.mp w.holds
  have hn : s.readIndex - s.checkedIndex = t.length := by omega
  have spec := parseLineLoop_spec (t := t) (hc ▸ hold.2) (by omega : s.readIndex = _) w.bound
    w.last_ne_cr
  rw [lineFrame, frame_clean_append hpre]
  unfold parseLine
  rw [hn]
  cases hf : frame CR LF t with
  | line l rest =>
    rw [lineFrame, hf] at spec
    simp only [Frame.prepend, Http.delivered, List.length_append]
    rw [← Nat.add_assoc, ← hc]
    exact spec
  | bad =>
    rw [lineFrame, hf] at spec
    simp only [Frame.prepend]
    rw [cleanLength_append hpre, ← Nat.add_assoc, ← hc]
    exact spec
  | unfinished =>
    rw [lineFrame, hf] at spec
    obtain ⟨l, hl, ht, h⟩ := spec
    refine ⟨_, h, w.holds, w.read, w.bound, w.zero, ?_, w.before⟩
    have hclean : CleanLine (pre ++ l) := by
      intro b hb
      rcases List.mem_append.mp hb with hb | hb
      · exact hpre b hb
      · exact hl b hb
    have e : s.checkedIndex + l.length = s.startLine + (pre ++ l).length := by
      rw [List.length_append, hc, Nat.add_assoc]
    rcases ht with rfl | rfl
    · exact ⟨pre ++ t, [], by simp, hclean, e⟩
    · exact ⟨pre ++ l, [CR], by simp, hclean, e⟩

/-- The bytes of a line that starts at `k`, its terminator included. -/
def InLine (k : Nat) (l : List UInt8) (p : Nat) : Prop := k ≤ p ∧ p ≤ k + l.length

/-- A line that `parse_headers` takes for the empty one: as a C string it is empty. -/
def Blank (l : List UInt8) : Prop := l.headD 0 = 0

instance (l : List UInt8) : Decidable (Blank l) := by
  unfold Blank
  infer_instance

end LinuxDemo.Invariant.Http
