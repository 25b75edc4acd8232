import Mathlib.Logic.Function.Basic
import Mathlib.Data.List.Induction

/-!
# Countdown timers

What a timer facility is for, without slots, rotations or lists: every running timer
has a number of ticks it still lets pass, and the tick that finds none left fires it.
An implementation that maintains this table fires every timer at its own time,
whatever happens to the others (`table_at`, `fires_at`).
-/
namespace LinuxDemo.Lib.Countdown
variable {ι : Type} [DecidableEq ι]

/-- The ticks each running timer still lets pass. -/
abbrev Table (ι : Type) := ι → Option ℕ

inductive Event (ι : Type) where
  | start (a : ι) (wait : ℕ)
  | cancel (a : ι)
  | tick

/-- One tick of one timer; a timer with nothing left is fired and gone. -/
def down : Option ℕ → Option ℕ
  | some (n + 1) => some n
  | _ => none

def next (T : Table ι) : Event ι → Table ι
  | .start a n => Function.update T a (some n)
  | .cancel a => Function.update T a none
  | .tick => fun a => down (T a)

/-- The timers the next tick fires. -/
def Due (T : Table ι) (a : ι) : Prop := T a = some 0

def Event.isTick : Event ι → Bool
  | .tick => true
  | _ => false

def ticks (evs : List (Event ι)) : ℕ := evs.countP Event.isTick

theorem down_eq_ite (n k : ℕ) :
    down (if k ≤ n then some (n - k) else none) = if k + 1 ≤ n then some (n - (k + 1)) else none := by
  by_cases h : k + 1 ≤ n
  · obtain ⟨m, rfl⟩ := Nat.exists_eq_add_of_le h
    rw [if_pos (by omega), if_pos h, show k + 1 + m - k = m + 1 by omega,
      show k + 1 + m - (k + 1) = m by omega]
    rfl
  · rw [if_neg h]
    split
    · rw [show n - k = 0 by omega]
      rfl
    · rfl

/-- The entry of a timer over any run that does not start it again: it went down once
for every tick, whatever other timers were started, cancelled or fired. -/
theorem table_at (T : Table ι) (a : ι) (n : ℕ) (ha : T a = some n) (evs : List (Event ι))
    (once : ∀ k, Event.start a k ∉ evs) :
    (Event.cancel a ∈ evs → evs.foldl next T a = none) ∧
    (Event.cancel a ∉ evs →
      evs.foldl next T a = if ticks evs ≤ n then some (n - ticks evs) else none) := by
  induction evs using List.reverseRecOn with
  | nil => simp [ticks, ha]
  | append_singleton evs e ih =>
    have ih := ih fun k hk => once k (by simp [hk])
    rw [List.foldl_append]
    cases e with
    | start b k =>
      have hba : a ≠ b := by
        intro h
        exact once k (by simp [h])
      have hticks : ticks (evs ++ [Event.start b k]) = ticks evs := by simp [ticks, Event.isTick]
      simpa [next, Function.update_of_ne hba, hticks] using ih
    | cancel b =>
      have hticks : ticks (evs ++ [Event.cancel b]) = ticks evs := by simp [ticks, Event.isTick]
      by_cases hba : a = b
      · subst hba
        simp [next]
      · simpa [next, Function.update_of_ne hba, hticks, hba] using ih
    | tick =>
      have hticks : ticks (evs ++ [Event.tick]) = ticks evs + 1 := by simp [ticks, Event.isTick]
      simp only [List.foldl_cons, List.foldl_nil, next, hticks, List.mem_append,
        List.mem_singleton, reduceCtorEq, or_false]
      constructor
      · intro h
        rw [ih.1 h]
        rfl
      · intro h
        rw [ih.2 h]
        exact down_eq_ite n (ticks evs)

/-- A timer started with `n` is due at the tick that `n` others precede, and at no other. -/
theorem fires_at (T : Table ι) (a : ι) (n : ℕ) (ha : T a = some n) (evs : List (Event ι))
    (once : ∀ k, Event.start a k ∉ evs) :
    Due (evs.foldl next T) a ↔ ticks evs = n ∧ Event.cancel a ∉ evs := by
  obtain ⟨cancelled, running⟩ := table_at T a n ha evs once
  unfold Due
  by_cases h : Event.cancel a ∈ evs
  · simp [cancelled h, h]
  · rw [running h]
    split
    · simp only [Option.some.injEq, h, not_false_eq_true, and_true]
      omega
    · simp only [reduceCtorEq, false_iff, not_and]
      omega

end LinuxDemo.Lib.Countdown
