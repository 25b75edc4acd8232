import Mathlib.Data.List.Infix
import Mathlib.Data.List.Induction
import Mathlib.Algebra.BigOperators.Group.List.Basic
import Mathlib.Algebra.GroupWithZero.Nat

/-!
# What is left of what arrives

Things arrive in rounds, and in each round at most `c` of those that are there are taken.
What is left in the end is what the worst of the last rounds brought too much: some number
of last rounds that had more than they could take.
-/
namespace LinuxDemo.Lib

def left (c : Nat) (arrivals : List Nat) : Nat :=
  arrivals.foldl (fun waiting new => waiting + new - c) 0

@[simp] theorem left_nil (c : Nat) : left c [] = 0 := rfl

@[simp] theorem left_concat (c : Nat) (arrivals : List Nat) (new : Nat) :
    left c (arrivals ++ [new]) = left c arrivals + new - c := by
  simp [left]

/-- At most `k` are left exactly if no number of last rounds brought over `k` too much. -/
theorem left_le_iff (c : Nat) (arrivals : List Nat) (k : Nat) :
    left c arrivals ≤ k ↔ ∀ last, last <:+ arrivals → last.sum ≤ c * last.length + k := by
  induction arrivals using List.reverseRecOn generalizing k with
  | nil =>
    refine iff_of_true (Nat.zero_le k) fun last hlast => ?_
    rw [List.suffix_nil.mp hlast]
    exact Nat.zero_le _
  | append_singleton arrivals new ih =>
    rw [left_concat]
    constructor
    · intro h last hlast
      rcases List.suffix_concat_iff.mp hlast with rfl | ⟨earlier, rfl, hearlier⟩
      · exact Nat.zero_le _
      · have before := (ih (left c arrivals)).mp (Nat.le_refl _) earlier hearlier
        rw [List.sum_append, List.length_append, List.sum_singleton, List.length_singleton,
          Nat.mul_add]
        omega
    · intro h
      have none_before := h [new] (List.suffix_append _ _)
      have before : left c arrivals ≤ c + k - new := by
        refine (ih _).mpr fun last hlast => ?_
        obtain ⟨early, rfl⟩ := hlast
        have here := h (last ++ [new]) ⟨early, (List.append_assoc _ _ _).symm⟩
        rw [List.sum_append, List.length_append, List.sum_singleton, List.length_singleton,
          Nat.mul_add] at here
        simp only [List.sum_singleton, List.length_singleton] at none_before
        omega
      simp only [List.sum_singleton, List.length_singleton] at none_before
      omega

/-- What is left where each round brings so many and takes so many. -/
def remaining (rounds : List (Nat × Nat)) : Nat :=
  rounds.foldl (fun waiting round => waiting + round.1 - round.2) 0

@[simp] theorem remaining_nil : remaining [] = 0 := rfl

@[simp] theorem remaining_concat (rounds : List (Nat × Nat)) (new taken : Nat) :
    remaining (rounds ++ [(new, taken)]) = remaining rounds + new - taken := by
  simp [remaining]

/-- Each round takes all that is there, or `c`. -/
def TakesAll (c : Nat) (rounds : List (Nat × Nat)) : Prop :=
  ∀ before new taken, before ++ [(new, taken)] <+: rounds → taken = min c (remaining before + new)

/-- Then it is a matter of what arrives. -/
theorem TakesAll.remaining_eq {c : Nat} {rounds : List (Nat × Nat)} (h : TakesAll c rounds) :
    remaining rounds = left c (rounds.map Prod.fst) := by
  induction rounds using List.reverseRecOn with
  | nil => rfl
  | append_singleton rounds round ih =>
    have earlier : TakesAll c rounds := fun before new taken hpre =>
      h before new taken (hpre.trans (List.prefix_append rounds [round]))
    have last := h rounds round.1 round.2 List.prefix_rfl
    rw [remaining_concat, last, List.map_append, List.map_singleton, left_concat, ← ih earlier]
    omega

end LinuxDemo.Lib
