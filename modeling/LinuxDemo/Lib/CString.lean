import LinuxDemo.Lib.Traced
import Mathlib.Data.List.TakeWhile
import Mathlib.Data.Nat.Find

/-!
# C strings in a buffer of fixed size

The string functions of `<cstring>` on a `char` buffer of `size` bytes. Each records every
position it reads or writes; a position outside of the buffer ends the computation with
the fault `outOfBounds`. `Holds m p s` says that the bytes of `s` stand in the buffer from
position `p` on, and the lemmas give each function on a buffer that holds a known text.
-/
namespace LinuxDemo.Lib.CString

/-- The bytes by position. -/
abbrev Buffer := Nat → UInt8

section Operations
variable (size : Nat)

def readByte (m : Buffer) (p : Nat) : Traced Nat UInt8 :=
  ⟨[p], if p < size then .ok (m p) else .error .outOfBounds⟩

def writeByte (m : Buffer) (p : Nat) (b : UInt8) : Traced Nat Buffer :=
  ⟨[p], if p < size then .ok (Function.update m p b) else .error .outOfBounds⟩

/-- The first position from `p` on whose byte `stop` accepts. -/
def scan (stop : UInt8 → Bool) (m : Buffer) : Nat → Nat → Traced Nat Nat
  | 0, _ => Traced.fault .fuel
  | fuel + 1, p => do
    let b ← readByte size m p
    if stop b then pure p else scan stop m fuel (p + 1)

def strpbrk (m : Buffer) (s : Nat) (accept : List UInt8) : Traced Nat (Option Nat) := do
  let p ← scan size (fun b => b = 0 ∨ b ∈ accept) m (size + 1) s
  pure (if m p = 0 then none else some p)

def strspn (m : Buffer) (s : Nat) (accept : List UInt8) : Traced Nat Nat := do
  let p ← scan size (fun b => b = 0 ∨ b ∉ accept) m (size + 1) s
  pure (p - s)

def strchr (m : Buffer) (s : Nat) (c : UInt8) : Traced Nat (Option Nat) := do
  let p ← scan size (fun b => b = 0 ∨ b = c) m (size + 1) s
  pure (if m p = c then some p else none)

/-- What `printf("%s", s)` prints. -/
def printString (m : Buffer) (s : Nat) : Traced Nat (List UInt8) := do
  let p ← scan size (fun b => b = 0) m (size + 1) s
  pure ((List.range (p - s)).map fun i => m (s + i))

/-- `tolower` in the C locale. -/
def tolower (b : UInt8) : UInt8 := if 65 ≤ b ∧ b ≤ 90 then b + 32 else b

/-- `strcasecmp(s, text)`, the text without its terminator. -/
def strcasecmp (m : Buffer) : Nat → List UInt8 → Traced Nat Int
  | s, [] => do
    let b ← readByte size m s
    pure b.toNat
  | s, t :: text => do
    let b ← readByte size m s
    if tolower b = tolower t then strcasecmp m (s + 1) text
    else pure ((tolower b).toNat - (tolower t).toNat)

/-- `strncasecmp(s, text, n)`, the text without its terminator. -/
def strncasecmp (m : Buffer) : Nat → List UInt8 → Nat → Traced Nat Int
  | _, _, 0 => pure 0
  | s, [], _ + 1 => do
    let b ← readByte size m s
    pure b.toNat
  | s, t :: text, n + 1 => do
    let b ← readByte size m s
    if tolower b = tolower t then strncasecmp m (s + 1) text n
    else pure ((tolower b).toNat - (tolower t).toNat)

end Operations

/-- The bytes of `s` stand from position `p` on. -/
def Holds (m : Buffer) : Nat → List UInt8 → Prop
  | _, [] => True
  | p, b :: s => m p = b ∧ Holds m (p + 1) s

/-- The bytes of `s` up to its first NUL. -/
def cstr (s : List UInt8) : List UInt8 := s.takeWhile (· ≠ 0)

/-- Equal up to the case of letters. -/
def SameText (s t : List UInt8) : Prop := s.map tolower = t.map tolower

instance (s t : List UInt8) : Decidable (SameText s t) := by
  unfold SameText
  infer_instance

/-- What stands in front of the first byte of `accept` and what stands behind it, if the
C string has one. -/
def cutAt (accept : List UInt8) : List UInt8 → Option (List UInt8 × List UInt8)
  | [] => none
  | b :: t =>
    if b = 0 then none
    else if b ∈ accept then some ([], t)
    else (cutAt accept t).map fun r => (b :: r.1, r.2)

theorem cstr_cons_zero (t : List UInt8) : cstr (0 :: t) = [] := by
  simp [cstr]

theorem cstr_cons {b : UInt8} (hb : b ≠ 0) (t : List UInt8) : cstr (b :: t) = b :: cstr t := by
  simp [cstr, hb]

theorem ne_zero_of_mem_cstr {t : List UInt8} {c : UInt8} (hc : c ∈ cstr t) : c ≠ 0 := by
  simpa using List.mem_takeWhile_imp hc

theorem length_cstr_le (t : List UInt8) : (cstr t).length ≤ t.length :=
  (List.takeWhile_sublist _).length_le

theorem cstr_of_ne_zero {a : List UInt8} (ha : ∀ c ∈ a, c ≠ 0) (t : List UInt8) :
    cstr (a ++ t) = a ++ cstr t := by
  induction a with
  | nil => rfl
  | cons b a ih =>
    rw [List.cons_append, cstr_cons (ha b (by simp)), ih fun c hc => ha c (by simp [hc])]
    rfl

theorem mem_cstr_append {t : List UInt8} {c : UInt8} (hc : c ∈ cstr t) (u : List UInt8) :
    c ∈ cstr (t ++ u) := by
  induction t with
  | nil => cases hc
  | cons b t ih =>
    by_cases hb : b = 0
    · subst hb
      rw [cstr_cons_zero] at hc
      cases hc
    · rw [cstr_cons hb] at hc
      rw [List.cons_append, cstr_cons hb]
      rcases List.mem_cons.mp hc with rfl | hc
      · exact List.mem_cons_self
      · exact List.mem_cons_of_mem b (ih hc)

/-- A text with a NUL is its C string, the NUL and the rest. -/
theorem exists_cstr_split {t : List UInt8} (h : 0 ∈ t) : ∃ more, t = cstr t ++ 0 :: more := by
  induction t with
  | nil => cases h
  | cons b t ih =>
    by_cases hb : b = 0
    · subst hb
      exact ⟨t, by rw [cstr_cons_zero]; rfl⟩
    · rcases List.mem_cons.mp h with h0 | h0
      · exact absurd h0.symm hb
      · obtain ⟨more, e⟩ := ih h0
        exact ⟨more, by rw [cstr_cons hb, List.cons_append, ← e]⟩

/-- A text without NUL is its own C string. -/
theorem cstr_eq_self {t : List UInt8} (ht : ∀ c ∈ t, c ≠ 0) : cstr t = t := by
  have h := cstr_of_ne_zero ht []
  rw [List.append_nil] at h
  rw [h]
  exact List.append_nil t

theorem cutAt_append {accept a : List UInt8} {b : UInt8} (ha : ∀ c ∈ a, c ≠ 0 ∧ c ∉ accept)
    (hb : b ≠ 0 ∧ b ∈ accept) (rest : List UInt8) :
    cutAt accept (a ++ b :: rest) = some (a, rest) := by
  induction a with
  | nil => simp [cutAt, hb]
  | cons c a ih =>
    have hc := ha c (by simp)
    rw [List.cons_append, cutAt, if_neg hc.1, if_neg hc.2, ih fun d hd => ha d (by simp [hd])]
    rfl

theorem cutAt_eq_some_iff {accept t a rest : List UInt8} :
    cutAt accept t = some (a, rest) ↔
      ∃ b, (b ≠ 0 ∧ b ∈ accept) ∧ t = a ++ b :: rest ∧ ∀ c ∈ a, c ≠ 0 ∧ c ∉ accept := by
  constructor
  · intro h
    induction t generalizing a with
    | nil => cases h
    | cons d t ih =>
      unfold cutAt at h
      split at h
      next => cases h
      next h0 =>
        split at h
        next hd =>
          cases h
          exact ⟨d, ⟨h0, hd⟩, rfl, by simp⟩
        next hd =>
          obtain ⟨r, hr, e⟩ := Option.map_eq_some_iff.mp h
          cases e
          obtain ⟨b, hb, rfl, ha⟩ := ih hr
          exact ⟨b, hb, rfl, by simpa [h0, hd] using ha⟩
  · rintro ⟨b, hb, rfl, ha⟩
    exact cutAt_append ha hb rest

theorem cutAt_eq_none_iff {accept t : List UInt8} :
    cutAt accept t = none ↔ ∀ c ∈ cstr t, c ∉ accept := by
  induction t with
  | nil => simp [cutAt, cstr]
  | cons b t ih =>
    unfold cutAt
    split
    next h0 =>
      subst h0
      simp [cstr_cons_zero]
    next h0 =>
      rw [cstr_cons h0]
      split
      next hb => simp [hb]
      next hb => simp [ih, hb]

section Holding
variable {m m' : Buffer} {p : Nat}

@[simp] theorem holds_nil : Holds m p [] := trivial

@[simp] theorem holds_cons {b : UInt8} {s : List UInt8} :
    Holds m p (b :: s) ↔ m p = b ∧ Holds m (p + 1) s := Iff.rfl

@[simp] theorem holds_append {s t : List UInt8} :
    Holds m p (s ++ t) ↔ Holds m p s ∧ Holds m (p + s.length) t := by
  induction s generalizing p with
  | nil => simp
  | cons b s ih =>
    have e : p + (b :: s).length = p + 1 + s.length := by
      simp only [List.length_cons]
      omega
    rw [List.cons_append, holds_cons, holds_cons, ih, and_assoc, e]

theorem holds_congr {s : List UInt8} (h : Holds m p s)
    (hm : ∀ q, p ≤ q → q < p + s.length → m' q = m q) : Holds m' p s := by
  induction s generalizing p with
  | nil => trivial
  | cons b s ih =>
    simp only [List.length_cons] at hm
    refine ⟨(hm p (by omega) (by omega)).trans h.1, ih h.2 ?_⟩
    intro q hq hq'
    exact hm q (by omega) (by omega)

theorem mem_of_holds {s : List UInt8} (h : Holds m p s) {q : Nat} (hq : p ≤ q)
    (hq' : q < p + s.length) : m q ∈ s := by
  induction s generalizing p with
  | nil => simp at hq'; omega
  | cons b s ih =>
    by_cases e : q = p
    · subst e
      rw [h.1]
      exact List.mem_cons_self
    · simp only [List.length_cons] at hq'
      exact List.mem_cons_of_mem b (ih h.2 (by omega) (by omega))

theorem holds_of_getElem {data : List UInt8}
    (h : ∀ i (hi : i < data.length), m (p + i) = data[i]) : Holds m p data := by
  induction data generalizing p with
  | nil => trivial
  | cons b data ih =>
    constructor
    · exact h 0 (Nat.succ_pos _)
    · apply ih
      intro i hi
      have e : p + 1 + i = p + (i + 1) := by omega
      rw [e]
      exact h (i + 1) (Nat.succ_lt_succ hi)

theorem getElem?_of_holds {s : List UInt8} {i : Nat} (h : Holds m p s) (hi : i < s.length) :
    s[i]? = some (m (p + i)) := by
  induction s generalizing p i with
  | nil => simp at hi
  | cons b s ih =>
    cases i with
    | zero => simp [h.1]
    | succ i =>
      rw [List.getElem?_cons_succ, ih h.2 (by simpa using hi)]
      congr 2
      omega

/-- The end of a held text is held. -/
theorem holds_drop {s t : List UInt8} {n : Nat} (h : Holds m p (s ++ t)) (hn : n ≤ s.length) :
    Holds m (p + n) (s.drop n ++ t) := by
  rw [← List.take_append_drop n s, List.append_assoc, holds_append, List.length_take,
    Nat.min_eq_left hn] at h
  exact h.2

/-- Two buffers that hold the same text agree there. -/
theorem eq_of_holds {s : List UInt8} (h : Holds m p s) (h' : Holds m' p s) {q : Nat} (hq : p ≤ q)
    (hq' : q < p + s.length) : m q = m' q := by
  induction s generalizing p with
  | nil => simp at hq'; omega
  | cons b s ih =>
    rcases Nat.eq_or_lt_of_le hq with rfl | hlt
    · rw [h.1, h'.1]
    · simp only [List.length_cons] at hq'
      exact ih h.2 h'.2 hlt (by omega)

/-- A write outside of a held text does not disturb it. -/
theorem holds_update {s : List UInt8} (h : Holds m p s) {q : Nat} (b : UInt8)
    (hq : q < p ∨ p + s.length ≤ q) : Holds (Function.update m q b) p s := by
  apply holds_congr h
  intro r hr hr'
  exact Function.update_of_ne (by omega) _ _

end Holding

/-- The C string at `p` ends inside of the buffer, and `c` does not occur in it. -/
def EndsWithout (size : Nat) (m : Buffer) (p : Nat) (c : UInt8) : Prop :=
  ∃ q, (p ≤ q ∧ q < size) ∧ m q = 0 ∧ ∀ r, p ≤ r → r < q → m r ≠ c

theorem EndsWithout.congr {size p : Nat} {m m' : Buffer} {c : UInt8} (h : EndsWithout size m p c)
    (same : ∀ q, p ≤ q → m' q = m q) : EndsWithout size m' p c := by
  obtain ⟨q, hq, h0, hbefore⟩ := h
  refine ⟨q, hq, (same q hq.1).trans h0, fun r hr hr' => ?_⟩
  rw [same r hr]
  exact hbefore r hr hr'

section Specifications
variable {size : Nat} {m : Buffer} {p : Nat} {S : Nat → Prop} {t more : List UInt8}

theorem readByte_leads (hp : p < size) (hS : S p) :
    Traced.Leads S (readByte size m p) (pure (m p)) := by
  refine ⟨[p], ?_, ?_⟩
  · simpa using hS
  · simp [readByte, hp]

theorem writeByte_leads (b : UInt8) (hp : p < size) (hS : S p) :
    Traced.Leads S (writeByte size m p b) (pure (Function.update m p b)) := by
  refine ⟨[p], ?_, ?_⟩
  · simpa using hS
  · simp [writeByte, hp]

/-- A scan of a text passes over the bytes that do not stop it. -/
theorem scan_leads (stop : UInt8 → Bool) (h0 : stop 0 = true) {fuel : Nat}
    (hm : Holds m p (t ++ 0 :: more)) (hfuel : t.length < fuel) (hsize : p + t.length < size)
    (hS : ∀ q, p ≤ q → q ≤ p + t.length → S q) :
    Traced.Leads S (scan size stop m fuel p)
      (pure (p + (t.takeWhile fun b => !stop b).length)) := by
  induction t generalizing p fuel with
  | nil =>
    obtain ⟨n, rfl⟩ : ∃ n, fuel = n + 1 := ⟨fuel - 1, by simp at hfuel; omega⟩
    have e : m p = 0 := hm.1
    unfold scan
    apply Traced.Leads.bind (readByte_leads (by simpa using hsize) (hS p (by omega) (by simp)))
    rw [e, if_pos h0]
    exact Traced.Leads.refl _
  | cons c t ih =>
    simp only [List.length_cons] at hfuel hsize hS
    obtain ⟨n, rfl⟩ : ∃ n, fuel = n + 1 := ⟨fuel - 1, by omega⟩
    have e : m p = c := hm.1
    have hlen : t.length < n := by omega
    unfold scan
    apply Traced.Leads.bind (readByte_leads (by omega) (hS p (by omega) (by omega)))
    rw [e]
    cases hc : stop c with
    | true =>
      simp only [List.takeWhile_cons, hc, Bool.not_true, Bool.false_eq_true, if_false, if_true]
      exact Traced.Leads.refl _
    | false =>
      simp only [List.takeWhile_cons, hc, Bool.not_false, Bool.false_eq_true, if_false, if_true,
        List.length_cons]
      have h := ih hm.2 hlen (by omega : p + 1 + t.length < size)
        (fun q hq hq' => hS q (by omega) (by omega))
      rwa [Nat.add_assoc, Nat.add_comm 1] at h

/-- A scan ends exactly at the first byte that stops it, if this is inside of the buffer. -/
theorem scan_eq_ok_iff {stop : UInt8 → Bool} {fuel q : Nat} :
    (scan size stop m fuel p).result = .ok q ↔ (p ≤ q ∧ q < p + fuel ∧ q < size) ∧
      stop (m q) = true ∧ ∀ r, p ≤ r → r < q → stop (m r) = false := by
  induction fuel generalizing p with
  | zero =>
    constructor
    · intro h
      cases h
    · intro h
      omega
  | succ n ih =>
    unfold scan
    rw [Traced.result_bind]
    by_cases hp : p < size
    · simp only [readByte, if_pos hp, ok_bind]
      split
      next hs =>
        constructor
        · intro h
          cases h
          exact ⟨⟨Nat.le_refl _, by omega, hp⟩, hs, fun r hr hr' => by omega⟩
        · rintro ⟨⟨hle, -, -⟩, -, hbefore⟩
          rcases Nat.eq_or_lt_of_le hle with rfl | hlt
          · rfl
          · rw [hbefore p (Nat.le_refl p) hlt] at hs
            cases hs
      next hs =>
        rw [ih]
        constructor
        · rintro ⟨hrange, hq, hbefore⟩
          refine ⟨by omega, hq, fun r hr hr' => ?_⟩
          rcases Nat.eq_or_lt_of_le hr with rfl | hlt
          · simpa using hs
          · exact hbefore r hlt hr'
        · rintro ⟨hrange, hq, hbefore⟩
          have hne : p ≠ q := by
            rintro rfl
            exact hs hq
          exact ⟨by omega, hq, fun r hr hr' => hbefore r (by omega) hr'⟩
    · simp only [readByte, if_neg hp, error_bind, reduceCtorEq, false_iff]
      intro h
      omega

/-- A scan touches its first position before anything else. -/
theorem mem_log_scan (stop : UInt8 → Bool) (fuel : Nat) :
    p ∈ (scan size stop m (fuel + 1) p).log := by
  unfold scan
  apply Traced.log_subset_bind
  simp [readByte]

/-- The bytes of a text at which neither a NUL nor a byte of `accept` stands. -/
theorem takeWhile_of_cutAt {accept a rest : List UInt8} (h : cutAt accept t = some (a, rest)) :
    (t.takeWhile fun b => !decide (b = 0 ∨ b ∈ accept)) = a := by
  obtain ⟨b, hb, rfl, ha⟩ := cutAt_eq_some_iff.mp h
  rw [List.takeWhile_append_of_pos (by simpa using ha)]
  simp [hb.2]

theorem takeWhile_of_cutAt_none {accept : List UInt8} (h : cutAt accept t = none) :
    (t.takeWhile fun b => !decide (b = 0 ∨ b ∈ accept)) = cstr t := by
  induction t with
  | nil => rfl
  | cons b t ih =>
    have hn := cutAt_eq_none_iff.mp h
    by_cases hb : b = 0
    · subst hb
      simp [cstr]
    · rw [cstr_cons hb] at hn ⊢
      have ht := ih (cutAt_eq_none_iff.mpr fun c hc => hn c (List.mem_cons_of_mem b hc))
      have hacc : b ∉ accept := hn b (by simp)
      rw [List.takeWhile_cons, if_pos (by simp [hb, hacc]), ht]

/-- The byte behind a C string is its terminator. -/
theorem holds_cstr (hm : Holds m p (t ++ 0 :: more)) : Holds m p (cstr t ++ [0]) := by
  induction t generalizing p with
  | nil => exact ⟨hm.1, trivial⟩
  | cons b t ih =>
    by_cases hb : b = 0
    · subst hb
      rw [cstr_cons_zero]
      exact ⟨hm.1, trivial⟩
    · rw [cstr_cons hb]
      exact ⟨hm.1, ih hm.2⟩

/-- Where a scan for the bytes of `accept` stops: at the end of the C string, or at the cut. -/
theorem cutAt_stop (accept : List UInt8) (hm : Holds m p (t ++ 0 :: more)) :
    (cutAt accept t = none ∧
      m (p + (t.takeWhile fun b => !decide (b = 0 ∨ b ∈ accept)).length) = 0) ∨
    ∃ a rest, cutAt accept t = some (a, rest) ∧
      (t.takeWhile fun b => !decide (b = 0 ∨ b ∈ accept)) = a ∧
      m (p + a.length) ≠ 0 ∧ m (p + a.length) ∈ accept := by
  cases h : cutAt accept t with
  | none =>
    rw [takeWhile_of_cutAt_none h]
    exact .inl ⟨rfl, (holds_append.mp (holds_cstr hm)).2.1⟩
  | some r =>
    obtain ⟨a, rest⟩ := r
    obtain ⟨b, hb, rfl, -⟩ := cutAt_eq_some_iff.mp h
    rw [List.append_assoc, holds_append] at hm
    refine .inr ⟨a, rest, rfl, takeWhile_of_cutAt h, ?_⟩
    rw [hm.2.1]
    exact hb

theorem strpbrk_leads (accept : List UInt8) (hm : Holds m p (t ++ 0 :: more))
    (hsize : p + t.length < size) (hS : ∀ q, p ≤ q → q ≤ p + t.length → S q) :
    Traced.Leads S (strpbrk size m p accept)
      (pure ((cutAt accept t).map fun r => p + r.1.length)) := by
  unfold strpbrk
  apply Traced.Leads.bind (scan_leads _ (by simp) hm (by omega) hsize hS)
  rcases cutAt_stop accept hm with ⟨hcut, hend⟩ | ⟨a, rest, hcut, ha, hne, -⟩
  · rw [hcut, hend]
    exact Traced.Leads.refl _
  · rw [hcut, ha, if_neg hne]
    exact Traced.Leads.refl _

theorem strchr_leads {c : UInt8} (hc : c ≠ 0) (hm : Holds m p (t ++ 0 :: more))
    (hsize : p + t.length < size) (hS : ∀ q, p ≤ q → q ≤ p + t.length → S q) :
    Traced.Leads S (strchr size m p c)
      (pure ((cutAt [c] t).map fun r => p + r.1.length)) := by
  unfold strchr
  apply Traced.Leads.bind (scan_leads _ (by simp) hm (by omega) hsize hS)
  have hstop : (fun b => !decide (b = 0 ∨ b = c)) = fun b => !decide (b = 0 ∨ b ∈ [c]) := by
    simp
  rw [hstop]
  rcases cutAt_stop [c] hm with ⟨hcut, hend⟩ | ⟨a, rest, hcut, ha, -, hmem⟩
  · rw [hcut, hend, if_neg hc.symm]
    exact Traced.Leads.refl _
  · rw [hcut, ha, if_pos (List.mem_singleton.mp hmem)]
    exact Traced.Leads.refl _

/-- `strchr` finds nothing exactly in a C string without the byte. -/
theorem strchr_eq_none_iff {c : UInt8} (hc : c ≠ 0) :
    (strchr size m p c).result = .ok none ↔ EndsWithout size m p c := by
  unfold strchr
  rw [Traced.result_bind, bind_eq_ok_iff]
  constructor
  · rintro ⟨q, hq, hfound⟩
    obtain ⟨hrange, hstop, hbefore⟩ := scan_eq_ok_iff.mp hq
    have hne : m q ≠ c := by
      intro e
      simp [e] at hfound
    have h0 : m q = 0 := by
      have hor : m q = 0 ∨ m q = c := by simpa using hstop
      exact hor.resolve_right hne
    refine ⟨q, ⟨hrange.1, hrange.2.2⟩, h0, fun r hr hr' e => ?_⟩
    have := hbefore r hr hr'
    simp [e] at this
  · rintro ⟨q, hq, h0, hbefore⟩
    -- the first NUL is where the scan ends
    classical
    have hex : ∃ q, p ≤ q ∧ m q = 0 := ⟨q, hq.1, h0⟩
    have hfind := Nat.find_spec hex
    have hle : Nat.find hex ≤ q := Nat.find_min' hex ⟨hq.1, h0⟩
    refine ⟨Nat.find hex, scan_eq_ok_iff.mpr ⟨by omega, by simp [hfind.2], ?_⟩, ?_⟩
    · intro r hr hr'
      have hz : m r ≠ 0 := fun e => Nat.find_min hex hr' ⟨hr, e⟩
      simp [hz, hbefore r hr (by omega)]
    · simp [hfind.2, hc.symm]

theorem strspn_leads {accept : List UInt8} (h0 : 0 ∉ accept) (hm : Holds m p (t ++ 0 :: more))
    (hsize : p + t.length < size) (hS : ∀ q, p ≤ q → q ≤ p + t.length → S q) :
    Traced.Leads S (strspn size m p accept)
      (pure (t.takeWhile (· ∈ accept)).length) := by
  unfold strspn
  apply Traced.Leads.bind (scan_leads _ (by simp) hm (by omega) hsize hS)
  have hstop : (fun b => !decide (b = 0 ∨ b ∉ accept)) = fun b => decide (b ∈ accept) := by
    funext b
    by_cases hb : b ∈ accept
    · have : b ≠ 0 := fun e => h0 (e ▸ hb)
      simp [hb, this]
    · simp [hb]
  rw [hstop, Nat.add_sub_cancel_left]
  exact Traced.Leads.refl _

theorem map_of_holds {s : List UInt8} (hm : Holds m p s) :
    ((List.range s.length).map fun i => m (p + i)) = s := by
  induction s generalizing p with
  | nil => rfl
  | cons b s ih =>
    rw [List.length_cons, List.range_succ_eq_map, List.map_cons, List.map_map]
    have h := ih hm.2
    have e : ((fun i => m (p + i)) ∘ Nat.succ) = fun i => m (p + 1 + i) := by
      funext i
      simp only [Function.comp_apply]
      congr 1
      omega
    rw [e, h, Nat.add_zero, hm.1]

theorem printString_leads (hm : Holds m p (t ++ 0 :: more)) (hsize : p + t.length < size)
    (hS : ∀ q, p ≤ q → q ≤ p + t.length → S q) :
    Traced.Leads S (printString size m p) (pure (cstr t)) := by
  unfold printString
  apply Traced.Leads.bind (scan_leads _ (by simp) hm (by omega) hsize hS)
  have hstop : (t.takeWhile fun b => !decide (b = 0)) = cstr t := by
    simp [cstr]
  rw [hstop, Nat.add_sub_cancel_left, map_of_holds (holds_append.mp (holds_cstr hm)).1]
  exact Traced.Leads.refl _

theorem tolower_eq_zero_iff (b : UInt8) : tolower b = 0 ↔ b = 0 := by
  unfold tolower
  split
  next h =>
    simp only [← UInt8.toNat_inj, UInt8.le_iff_toNat_le, UInt8.toNat_add] at h ⊢
    simp at h ⊢
    omega
  next => rfl

theorem SameText.length_eq {s t : List UInt8} (h : SameText s t) : s.length = t.length := by
  have hlen := congrArg List.length h
  rwa [List.length_map, List.length_map] at hlen

/-- A text that equals one without NUL up to case has none either. -/
theorem SameText.ne_zero {s t : List UInt8} (h : SameText s t) (h0 : ∀ c ∈ t, c ≠ 0) :
    ∀ c ∈ s, c ≠ 0 := by
  rintro c hc rfl
  have hmem : tolower 0 ∈ t.map tolower := by
    rw [← h]
    exact List.mem_map_of_mem hc
  obtain ⟨d, hd, e⟩ := List.mem_map.mp hmem
  exact h0 d hd ((tolower_eq_zero_iff d).mp e)

/-- A difference of two bytes is zero only for equal bytes. -/
theorem toNat_sub_eq_zero_iff (a b : UInt8) : ((a.toNat : Int) - b.toNat = 0) ↔ a = b := by
  rw [← UInt8.toNat_inj]
  omega

/-- A byte that equals a letter of the text up to its case is not the terminator. -/
theorem exists_cons_of_tolower {u : UInt8} (hu : u ≠ 0) (hm : Holds m p (t ++ 0 :: more))
    (he : tolower (m p) = tolower u) :
    ∃ c t', t = c :: t' ∧ c ≠ 0 ∧ tolower c = tolower u ∧ Holds m (p + 1) (t' ++ 0 :: more) := by
  have hmp : m p ≠ 0 := by
    intro h
    rw [h] at he
    exact hu ((tolower_eq_zero_iff u).mp (by rw [← he]; decide))
  cases t with
  | nil => exact absurd hm.1 hmp
  | cons c t =>
    rw [hm.1] at he hmp
    exact ⟨c, t, rfl, hmp, he, hm.2⟩

/-- The C string is empty or begins with the byte at its position. -/
theorem cstr_of_holds (hm : Holds m p (t ++ 0 :: more)) :
    cstr t = [] ∨ ∃ s, cstr t = m p :: s := by
  cases t with
  | nil => exact Or.inl rfl
  | cons c t =>
    by_cases hc : c = 0
    · subst hc
      exact Or.inl (cstr_cons_zero t)
    · rw [hm.1]
      exact Or.inr ⟨_, cstr_cons hc t⟩

theorem strcasecmp_leads {text : List UInt8} (htext : ∀ c ∈ text, c ≠ 0)
    (hm : Holds m p (t ++ 0 :: more)) (hsize : p + t.length < size)
    (hS : ∀ q, p ≤ q → q ≤ p + t.length → S q) :
    ∃ v, Traced.Leads S (strcasecmp size m p text) (pure v) ∧
      (v = 0 ↔ SameText (cstr t) text) := by
  induction text generalizing p t with
  | nil =>
    unfold strcasecmp
    refine ⟨((m p).toNat : Int), ?_, ?_⟩
    · exact Traced.Leads.bind (readByte_leads (by omega) (hS p (by omega) (by omega)))
        (Traced.Leads.refl _)
    · have hz : ((m p).toNat : Int) = 0 ↔ m p = 0 := by
        rw [← UInt8.toNat_inj]
        simp
      rw [hz, SameText, List.map_nil, List.map_eq_nil_iff]
      cases t with
      | nil => simp [hm.1, cstr]
      | cons c t =>
        rw [hm.1]
        by_cases hc : c = 0
        · subst hc
          simp [cstr]
        · simp [cstr, hc]
  | cons u text ih =>
    unfold strcasecmp
    have hread : Traced.Leads S (readByte size m p) (pure (m p)) :=
      readByte_leads (by omega) (hS p (by omega) (by omega))
    by_cases he : tolower (m p) = tolower u
    · obtain ⟨c, t, rfl, hc, he', hm⟩ := exists_cons_of_tolower (htext u (by simp)) hm he
      simp only [List.length_cons] at hsize hS
      obtain ⟨v, hv, hv0⟩ := ih (fun d hd => htext d (List.mem_cons_of_mem u hd)) hm
        (by omega) (fun q hq hq' => hS q (by omega) (by omega))
      refine ⟨v, Traced.Leads.bind hread ?_, ?_⟩
      · rwa [if_pos he]
      · rw [hv0, cstr_cons hc]
        simp [SameText, he']
    · refine ⟨((tolower (m p)).toNat : Int) - (tolower u).toNat, Traced.Leads.bind hread ?_, ?_⟩
      · rw [if_neg he]
        exact Traced.Leads.refl _
      · rw [toNat_sub_eq_zero_iff]
        rcases cstr_of_holds hm with h | ⟨s, h⟩
        · simp [h, he, SameText]
        · simp [h, he, SameText]

theorem strncasecmp_leads {text : List UInt8} {n : Nat} (htext : ∀ c ∈ text, c ≠ 0)
    (hn : n ≤ text.length) (hm : Holds m p (t ++ 0 :: more)) (hsize : p + t.length < size)
    (hS : ∀ q, p ≤ q → q ≤ p + t.length → S q) :
    ∃ v, Traced.Leads S (strncasecmp size m p text n) (pure v) ∧
      (v = 0 ↔ SameText ((cstr t).take n) (text.take n)) := by
  induction n generalizing p t text with
  | zero =>
    refine ⟨0, ?_, by simp [SameText]⟩
    unfold strncasecmp
    exact Traced.Leads.refl _
  | succ n ih =>
    cases text with
    | nil => simp at hn
    | cons u text =>
      unfold strncasecmp
      have hread : Traced.Leads S (readByte size m p) (pure (m p)) :=
        readByte_leads (by omega) (hS p (by omega) (by omega))
      by_cases he : tolower (m p) = tolower u
      · obtain ⟨c, t, rfl, hc, he', hm⟩ := exists_cons_of_tolower (htext u (by simp)) hm he
        simp only [List.length_cons] at hsize hS hn
        obtain ⟨v, hv, hv0⟩ := ih (fun d hd => htext d (List.mem_cons_of_mem u hd)) (by omega)
          hm (by omega) (fun q hq hq' => hS q (by omega) (by omega))
        refine ⟨v, Traced.Leads.bind hread ?_, ?_⟩
        · rwa [if_pos he]
        · rw [hv0, cstr_cons hc]
          simp [SameText, he']
      · refine ⟨((tolower (m p)).toNat : Int) - (tolower u).toNat,
          Traced.Leads.bind hread ?_, ?_⟩
        · rw [if_neg he]
          exact Traced.Leads.refl _
        · rw [toNat_sub_eq_zero_iff]
          rcases cstr_of_holds hm with h | ⟨s, h⟩
          · simp [h, he, SameText]
          · simp [h, he, SameText]

end Specifications
end LinuxDemo.Lib.CString
