import Mathlib.Data.List.TakeWhile
import Mathlib.Data.List.Permutation
import Mathlib.Order.Basic
import Mathlib.Tactic.Order

/-!
# Lists kept in order of a key

Insertion in front of the first element with a strictly larger key, for any key into a
linear order. In a list in order, nothing up to a bound stands behind an element above it.
-/
namespace LinuxDemo.Lib
variable {α β : Type} [LinearOrder β]

/-- `key` does not decrease along the list. -/
def InOrder (key : α → β) (l : List α) : Prop := l.Pairwise fun a b => key a ≤ key b

/-- Insert `t` in front of the first element with a larger key. -/
def insertByKey (key : α → β) (t : α) (l : List α) : List α :=
  l.takeWhile (fun a => decide (key a ≤ key t)) ++ t :: l.dropWhile fun a => decide (key a ≤ key t)

@[simp] theorem insertByKey_nil (key : α → β) (t : α) : insertByKey key t [] = [t] := rfl

theorem insertByKey_cons (key : α → β) (t a : α) (l : List α) :
    insertByKey key t (a :: l) =
      if key t < key a then t :: a :: l else a :: insertByKey key t l := by
  unfold insertByKey
  by_cases h : key a ≤ key t
  · simp [h, not_lt.mpr h]
  · simp [h, lt_of_not_ge h]

theorem insertByKey_perm (key : α → β) (t : α) (l : List α) :
    (insertByKey key t l).Perm (t :: l) := by
  have h : l = l.takeWhile (fun a => decide (key a ≤ key t)) ++
      l.dropWhile (fun a => decide (key a ≤ key t)) := List.takeWhile_append_dropWhile.symm
  exact List.perm_middle.trans (h ▸ List.Perm.refl _)

theorem mem_insertByKey (key : α → β) (t b : α) (l : List α) :
    b ∈ insertByKey key t l ↔ b = t ∨ b ∈ l :=
  (insertByKey_perm key t l).mem_iff.trans List.mem_cons

theorem InOrder.congr {key key' : α → β} {l : List α} (h : InOrder key l)
    (hl : ∀ a ∈ l, key' a = key a) : InOrder key' l := by
  refine List.Pairwise.imp_of_mem ?_ h
  intro a b ha hb hab
  rw [hl a ha, hl b hb]
  exact hab

theorem InOrder.insert {key : α → β} {t : α} {l : List α} (h : InOrder key l) :
    InOrder key (insertByKey key t l) := by
  induction l with
  | nil => simp [InOrder]
  | cons a l ih =>
    have ⟨hal, hl⟩ := List.pairwise_cons.mp h
    rw [insertByKey_cons]
    split
    next hlt =>
      refine List.pairwise_cons.mpr ⟨fun b hb => ?_, h⟩
      rcases List.mem_cons.mp hb with rfl | hb
      · exact hlt.le
      · exact hlt.le.trans (hal b hb)
    next hge =>
      refine List.pairwise_cons.mpr ⟨fun b hb => ?_, ih hl⟩
      rcases (mem_insertByKey key t b l).mp hb with rfl | hb
      · exact not_lt.mp hge
      · exact hal b hb

/-- A relation that the new element has to the others on either side of its place. -/
theorem InOrder.pairwise_insert {key : α → β} {t : α} {l : List α} {R : α → α → Prop}
    (h : InOrder key l) (old : l.Pairwise R) (before : ∀ a ∈ l, key a ≤ key t → R a t)
    (after : ∀ a ∈ l, key t < key a → R t a) : (insertByKey key t l).Pairwise R := by
  induction l with
  | nil => simp
  | cons a l ih =>
    have ⟨hal, hl⟩ := List.pairwise_cons.mp h
    have ⟨hRa, hRl⟩ := List.pairwise_cons.mp old
    rw [insertByKey_cons]
    split
    next hlt =>
      refine List.pairwise_cons.mpr ⟨fun b hb => after b hb ?_, old⟩
      rcases List.mem_cons.mp hb with rfl | hb
      · exact hlt
      · exact hlt.trans_le (hal b hb)
    next hge =>
      refine List.pairwise_cons.mpr ⟨fun b hb => ?_, ih hl hRl
        (fun b hb => before b (by simp [hb])) fun b hb => after b (by simp [hb])⟩
      rcases (mem_insertByKey key t b l).mp hb with rfl | hb
      · exact before a (by simp) (not_lt.mp hge)
      · exact hRa b hb

/-- Elements no larger than the new one may be skipped before the search starts. -/
theorem insertByKey_append {key : α → β} {t : α} {xs : List α} (h : ∀ a ∈ xs, key a ≤ key t)
    (ys : List α) : insertByKey key t (xs ++ ys) = xs ++ insertByKey key t ys := by
  induction xs with
  | nil => rfl
  | cons a xs ih =>
    rw [List.cons_append, insertByKey_cons, if_neg (not_lt.mpr (h a (by simp))),
      ih fun b hb => h b (by simp [hb])]
    rfl

/-- What stands behind a larger element does not matter. -/
theorem insertByKey_left {key : α → β} {t a : α} (h : key t < key a) (xs ys : List α) :
    insertByKey key t (xs ++ a :: ys) = insertByKey key t xs ++ a :: ys := by
  induction xs with
  | nil => simp [insertByKey_cons, h]
  | cons b xs ih =>
    rw [List.cons_append, insertByKey_cons, insertByKey_cons, ih]
    split <;> rfl

/-- In a list in order, what stands in front of a smaller element does not matter either. -/
theorem InOrder.insertByKey_right {key : α → β} {t a : α} {xs ys : List α}
    (h : InOrder key (xs ++ a :: ys)) (ha : key a ≤ key t) :
    insertByKey key t (xs ++ a :: ys) = xs ++ a :: insertByKey key t ys := by
  have skipped : ∀ b ∈ xs ++ [a], key b ≤ key t := by
    intro b hb
    rcases List.mem_append.mp hb with hb | hb
    · exact ((List.pairwise_append.mp h).2.2 b hb a (by simp)).trans ha
    · exact List.mem_singleton.mp hb ▸ ha
  have e := insertByKey_append skipped ys
  simpa only [List.append_assoc, List.cons_append, List.nil_append] using e

/-- An element with a key that no other exceeds goes to the end. -/
theorem insertByKey_of_le {key : α → β} {t : α} {l : List α} (h : ∀ a ∈ l, key a ≤ key t) :
    insertByKey key t l = l ++ [t] := by
  have e := insertByKey_append h []
  rwa [List.append_nil, insertByKey_nil] at e

/-- Nothing up to a bound hides behind the first element above it. -/
theorem InOrder.lt_of_head {key : α → β} {l : List α} (h : InOrder key l) {k : β}
    (hk : ∀ a, l.head? = some a → k < key a) : ∀ a ∈ l, k < key a := by
  cases l with
  | nil => simp
  | cons b l =>
    have hb := hk b rfl
    intro a ha
    rcases List.mem_cons.mp ha with rfl | ha
    · exact hb
    · exact lt_of_lt_of_le hb (List.rel_of_pairwise_cons h ha)

/-- A split of a list where a test starts to fail. -/
theorem takeWhile_dropWhile_of_split {p : α → Bool} {xs ys : List α} (hx : ∀ a ∈ xs, p a = true)
    (hy : ∀ a, ys.head? = some a → p a = false) :
    (xs ++ ys).takeWhile p = xs ∧ (xs ++ ys).dropWhile p = ys := by
  have hys : ys.takeWhile p = [] ∧ ys.dropWhile p = ys := by
    cases ys with
    | nil => simp
    | cons a ys => simp [hy a rfl]
  rw [List.takeWhile_append_of_pos hx, List.dropWhile_append_of_pos hx, hys.1, hys.2]
  simp

/-- The place of a new element is the only one with keys up to its own in front of it and
a larger key behind it. -/
theorem insertByKey_of_split {key : α → β} {t : α} {before after : List α}
    (hb : ∀ a ∈ before, key a ≤ key t) (ha : ∀ a, after.head? = some a → key t < key a) :
    insertByKey key t (before ++ after) = before ++ t :: after := by
  have split := takeWhile_dropWhile_of_split (p := fun a => decide (key a ≤ key t))
    (fun a h => decide_eq_true (hb a h)) fun a h => decide_eq_false (not_le.mpr (ha a h))
  rw [insertByKey, split.1, split.2]

section Update
variable [DecidableEq α] {key : α → β} {t : α} {e : β} {xs ys : List α}

omit [LinearOrder β] in
theorem update_eq_of_mem {l : List α} (absent : t ∉ l) :
    ∀ a ∈ l, Function.update key t e a = key a := by
  intro a ha
  refine Function.update_of_ne ?_ _ _
  rintro rfl
  exact absent ha

/-- An element whose key went up belongs behind everything it stood behind. -/
theorem InOrder.raise (h : InOrder key (xs ++ t :: ys)) (absent : t ∉ xs ++ ys) (he : key t ≤ e) :
    xs ++ insertByKey (Function.update key t e) t ys =
        insertByKey (Function.update key t e) t (xs ++ ys) ∧
      InOrder (Function.update key t e) (xs ++ ys) := by
  have others : ∀ a ∈ xs ++ ys, Function.update key t e a = key a := update_eq_of_mem absent
  constructor
  · refine (insertByKey_append (fun a ha => ?_) ys).symm
    rw [others a (by simp [ha]), Function.update_self]
    exact ((List.pairwise_append.mp h).2.2 a ha t (by simp)).trans he
  · refine InOrder.congr ?_ others
    exact h.sublist ((List.sublist_cons_self t ys).append_left xs)

/-- An element whose key went down has nothing behind it to change places with. -/
theorem InOrder.lower (h : InOrder key (xs ++ t :: ys)) (absent : t ∉ xs ++ ys) (he : e < key t) :
    insertByKey (Function.update key t e) t ys = t :: ys := by
  refine @insertByKey_of_split _ _ _ (Function.update key t e) t [] ys (by simp) fun a ha => ?_
  have hmem := List.mem_of_head? ha
  rw [update_eq_of_mem absent a (by simp [hmem]), Function.update_self]
  exact he.trans_le ((List.pairwise_cons.mp (List.pairwise_append.mp h).2.1).1 a hmem)

/-- Left in place, it keeps the list in order exactly if nothing in front of it is larger. -/
theorem InOrder.lower_iff (h : InOrder key (xs ++ t :: ys)) (absent : t ∉ xs ++ ys)
    (he : e < key t) :
    InOrder (Function.update key t e) (xs ++ t :: ys) ↔ ∀ a ∈ xs, key a ≤ e := by
  have others : ∀ a ∈ xs ++ ys, Function.update key t e a = key a := update_eq_of_mem absent
  obtain ⟨hx, hty, hcross⟩ := List.pairwise_append.mp h
  obtain ⟨ht, hy⟩ := List.pairwise_cons.mp hty
  have rest : InOrder (Function.update key t e) (xs ++ ys) :=
    InOrder.congr (h.sublist ((List.sublist_cons_self t ys).append_left xs)) others
  obtain ⟨hx', hy', hcross'⟩ := List.pairwise_append.mp rest
  constructor
  · intro h' a ha
    have hat := (List.pairwise_append.mp h').2.2 a ha t (by simp)
    rwa [others a (by simp [ha]), Function.update_self] at hat
  · intro hfront
    refine List.pairwise_append.mpr ⟨hx', List.pairwise_cons.mpr ⟨?_, hy'⟩, ?_⟩
    · intro b hb
      rw [Function.update_self, others b (by simp [hb])]
      exact he.le.trans (ht b hb)
    · intro a ha b hb
      rcases List.mem_cons.mp hb with rfl | hb
      · rw [Function.update_self, others a (by simp [ha])]
        exact hfront a ha
      · exact hcross' a ha b hb

end Update

theorem InOrder.dropWhile {key : α → β} {l : List α} (h : InOrder key l) (p : α → Bool) :
    InOrder key (l.dropWhile p) :=
  h.sublist (List.dropWhile_sublist p)

/-- In a list in order, the elements up to a bound are a prefix. -/
theorem InOrder.takeWhile_eq_filter {key : α → β} {l : List α} (h : InOrder key l) (k : β) :
    l.takeWhile (fun a => decide (key a ≤ k)) = l.filter fun a => decide (key a ≤ k) := by
  induction l with
  | nil => rfl
  | cons a l ih =>
    have ⟨hal, hl⟩ := List.pairwise_cons.mp h
    by_cases hk : key a ≤ k
    · simp [hk, ih hl]
    · have none : ∀ b ∈ l, ¬ key b ≤ k := fun b hb hbk => hk ((hal b hb).trans hbk)
      simpa [hk] using none

/-- And those above it are the rest. -/
theorem InOrder.dropWhile_eq_filter {key : α → β} {l : List α} (h : InOrder key l) (k : β) :
    l.dropWhile (fun a => decide (key a ≤ k)) = l.filter fun a => decide (k < key a) := by
  induction l with
  | nil => rfl
  | cons a l ih =>
    have ⟨hal, hl⟩ := List.pairwise_cons.mp h
    by_cases hk : key a ≤ k
    · simp [hk, ih hl, not_lt.mpr hk]
    · have above : ∀ b ∈ a :: l, k < key b :=
        h.lt_of_head fun b hb => by
          obtain rfl : a = b := by simpa using hb
          exact not_le.mp hk
      rw [List.filter_eq_self.mpr fun b hb => decide_eq_true (above b hb)]
      simp [hk]

end LinuxDemo.Lib
