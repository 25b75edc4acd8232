import Mathlib.Data.Nat.Find
import Mathlib.Logic.Function.Basic

/-!
# Descriptor tables

A process has finitely many descriptors open, so there is always a lowest free number. A
limit, if there is one, is what no new descriptor may reach.
-/
namespace LinuxDemo.Lib
variable {φ : Type}

structure FdTable (φ : Type) where
  file : Nat → Option φ
  bound : Nat
  above : ∀ fd, bound ≤ fd → file fd = none

namespace FdTable

def close (t : FdTable φ) (fd : Nat) : FdTable φ where
  file := Function.update t.file fd none
  bound := t.bound
  above fd' h := by
    by_cases e : fd' = fd
    · simp [e]
    · simp [e, t.above fd' h]

/-- `fd` is made to stand for `f`. -/
def put (t : FdTable φ) (fd : Nat) (f : φ) : FdTable φ where
  file := Function.update t.file fd (some f)
  bound := max t.bound (fd + 1)
  above fd' h := by
    rw [Function.update_of_ne (by omega)]
    exact t.above fd' (by omega)

/-- The first `n` numbers from `fd` on are closed. -/
def closeRange (t : FdTable φ) : Nat → Nat → FdTable φ
  | _, 0 => t
  | fd, n + 1 => closeRange (t.close fd) (fd + 1) n

theorem exists_free (t : FdTable φ) : ∃ fd, (t.file fd).isNone = true :=
  ⟨t.bound, by simp [t.above t.bound (le_refl _)]⟩

def lowestFree (t : FdTable φ) : Nat := Nat.find t.exists_free

/-- The number is below the limit. -/
def Allowed (limit : Option Nat) (fd : Nat) : Prop := ∀ n, limit = some n → fd < n

instance (limit : Option Nat) (fd : Nat) : Decidable (Allowed limit fd) :=
  match limit with
  | none => .isTrue fun _ h => by cases h
  | some n => decidable_of_iff (fd < n) ⟨fun h _ e => Option.some.inj e ▸ h, fun h => h n rfl⟩

/-- `open`, for a file that can be opened. -/
def openFile (limit : Option Nat) (t : FdTable φ) (f : φ) : Option (Nat × FdTable φ) :=
  if Allowed limit t.lowestFree then some (t.lowestFree, t.put t.lowestFree f) else none

/-- `dup2`. -/
def dup2 (limit : Option Nat) (t : FdTable φ) (old new : Nat) : Option (FdTable φ) :=
  match t.file old with
  | some f => if Allowed limit new then some (t.put new f) else none
  | none => none

@[simp] theorem file_close (t : FdTable φ) (fd fd' : Nat) :
    (t.close fd).file fd' = if fd' = fd then none else t.file fd' := by
  by_cases e : fd' = fd <;> simp [close, e]

@[simp] theorem file_put (t : FdTable φ) (fd : Nat) (f : φ) (fd' : Nat) :
    (t.put fd f).file fd' = if fd' = fd then some f else t.file fd' := by
  by_cases e : fd' = fd <;> simp [put, e]

theorem file_closeRange (n : Nat) : ∀ (t : FdTable φ) (fd fd' : Nat),
    (t.closeRange fd n).file fd' = if fd ≤ fd' ∧ fd' < fd + n then none else t.file fd' := by
  induction n with
  | zero =>
    intro t fd fd'
    rw [if_neg (by omega)]
    rfl
  | succ n ih =>
    intro t fd fd'
    rw [closeRange, ih, file_close]
    by_cases e : fd' = fd
    · subst e
      rw [if_pos rfl, ite_self, if_pos (by omega)]
    · have same : fd + 1 ≤ fd' ∧ fd' < fd + 1 + n ↔ fd ≤ fd' ∧ fd' < fd + (n + 1) := by omega
      simp only [same, if_neg e]

theorem lowestFree_eq_zero {t : FdTable φ} (h : t.file 0 = none) : t.lowestFree = 0 :=
  (Nat.find_eq_zero _).mpr (by simp [h])

end FdTable
end LinuxDemo.Lib
