import Mathlib.Algebra.BigOperators.Group.Finset.Basic
import Mathlib.Algebra.Order.BigOperators.Group.Finset
import Mathlib.Data.Nat.Count
import Mathlib.Logic.Function.Basic

/-!
# Counting the entries of a table

How many of the first entries have a property, or how much they weigh together, and how
that changes when one entry does.
-/
namespace LinuxDemo.Lib
variable {α : Type} (p : α → Bool) (f : Nat → α)

/-- How many of the first `n` entries of `f` have `p`. -/
def tally (n : Nat) : Nat := Nat.count (fun i => p (f i)) n

@[simp] theorem tally_zero : tally p f 0 = 0 := by simp [tally]

theorem tally_succ (n : Nat) : tally p f (n + 1) = tally p f n + if p (f n) then 1 else 0 := by
  simp [tally, Nat.count_succ]

theorem tally_eq_zero_iff (n : Nat) : tally p f n = 0 ↔ ∀ i < n, p (f i) = false := by
  simp [tally, Nat.count_iff_forall_not]

theorem tally_ne_zero_iff (n : Nat) : tally p f n ≠ 0 ↔ ∃ i < n, p (f i) = true :=
  Nat.count_ne_iff_exists

theorem tally_update_ge {i n : Nat} (hi : n ≤ i) (v : α) :
    tally p (Function.update f i v) n = tally p f n := by
  induction n with
  | zero => simp
  | succ n ih =>
    have hne : n ≠ i := by omega
    simp only [tally_succ, ih (by omega), Function.update_of_ne hne]

theorem tally_update {i n : Nat} (hi : i < n) (v : α) :
    tally p (Function.update f i v) n + (if p (f i) then 1 else 0) =
      tally p f n + if p v then 1 else 0 := by
  induction n with
  | zero => omega
  | succ n ih =>
    simp only [tally_succ]
    by_cases e : i = n
    · subst e
      rw [tally_update_ge p f (le_refl i) v, Function.update_self]
      omega
    · have hn := ih (by omega)
      rw [Function.update_of_ne (Ne.symm e)]
      omega

/-- An entry is replaced by one that is alike. -/
theorem tally_update_alike {i : Nat} {v : α} (h : p v = p (f i)) (n : Nat) :
    tally p (Function.update f i v) n = tally p f n := by
  rcases Nat.lt_or_ge i n with hi | hi
  · have hn := tally_update p f hi v
    rw [h] at hn
    omega
  · exact tally_update_ge p f hi v

/-- What the first `n` entries of `f` weigh. -/
def weigh (w : α → Nat) (f : Nat → α) (n : Nat) : Nat := ∑ i ∈ Finset.range n, w (f i)

theorem weigh_update (w : α → Nat) (f : Nat → α) {i n : Nat} (hi : i < n) (v : α) :
    weigh w (Function.update f i v) n + w (f i) = weigh w f n + w v := by
  have others : ∑ j ∈ (Finset.range n).erase i, w (Function.update f i v j) =
      ∑ j ∈ (Finset.range n).erase i, w (f j) :=
    Finset.sum_congr rfl fun j hj => by rw [Function.update_of_ne (Finset.ne_of_mem_erase hj)]
  unfold weigh
  rw [← Finset.add_sum_erase _ _ (Finset.mem_range.mpr hi), others,
    ← Finset.add_sum_erase _ (fun j => w (f j)) (Finset.mem_range.mpr hi), Function.update_self]
  omega

/-- Every entry gains at most `c`. -/
theorem weigh_le_add (w : α → Nat) {f g : Nat → α} {n c : Nat}
    (h : ∀ i < n, w (g i) ≤ w (f i) + c) : weigh w g n ≤ weigh w f n + n * c := by
  calc weigh w g n ≤ ∑ i ∈ Finset.range n, (w (f i) + c) :=
        Finset.sum_le_sum fun i hi => h i (Finset.mem_range.mp hi)
    _ = weigh w f n + n * c := by simp [weigh, Finset.sum_add_distrib]

end LinuxDemo.Lib
