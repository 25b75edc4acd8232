import Mathlib.Logic.Function.Basic
import Mathlib.Data.Option.Basic

/-!
# Heap cells, pointers and memory faults

`new` hands out a block number that was never used before and `delete` retires it,
so a pointer kept past `delete` cannot be mistaken for a later object: any access
through it is the fault `dangling`. The payload type is arbitrary.
-/
namespace LinuxDemo.Lib

/-- Ways a run leaves the defined behaviour. `contract` marks a caller that breaks
the stated conditions of use; every other constructor is the code's own fault. -/
inductive Fault where
  | nullPointer | dangling | outOfBounds | overflow | assertion | fuel | contract
  deriving DecidableEq, Repr

/-- A C pointer: `NULL`, or the number of the block it points to. -/
abbrev Ptr := Option Nat

@[simp] theorem ok_bind {ε α β : Type} (a : α) (f : α → Except ε β) :
    ((Except.ok a : Except ε α) >>= f) = f a := rfl

@[simp] theorem error_bind {ε α β : Type} (e : ε) (f : α → Except ε β) :
    ((Except.error e : Except ε α) >>= f) = .error e := rfl

@[simp] theorem pure_ok {ε α : Type} (a : α) : (pure a : Except ε α) = .ok a := rfl

theorem bind_eq_ok_iff {ε α β : Type} (x : Except ε α) (f : α → Except ε β) (b : β) :
    (x >>= f) = .ok b ↔ ∃ a, x = .ok a ∧ f a = .ok b := by
  cases x <;> simp

/-- Live cells by block number. No block at or above `fresh` was ever allocated. -/
structure Heap (ν : Type) where
  cell : Nat → Option ν
  fresh : Nat
  bounded : ∀ a, fresh ≤ a → cell a = none

namespace Heap
variable {ν : Type}

def empty : Heap ν := ⟨fun _ => none, 0, fun _ _ => rfl⟩

/-- The cells after `new`: the new object is block `h.fresh`. -/
def alloc (h : Heap ν) (v : ν) : Heap ν where
  cell := Function.update h.cell h.fresh (some v)
  fresh := h.fresh + 1
  bounded a ha := by
    rw [Function.update_of_ne (by omega)]
    exact h.bounded a (by omega)

/-- Rewrite one cell, if it is live. -/
def adjust (h : Heap ν) (a : Nat) (f : ν → ν) : Heap ν where
  cell := Function.update h.cell a ((h.cell a).map f)
  fresh := h.fresh
  bounded b hb := by
    by_cases e : b = a
    · subst e
      simp [h.bounded b hb]
    · rw [Function.update_of_ne e]
      exact h.bounded b hb

def retire (h : Heap ν) (a : Nat) : Heap ν where
  cell := Function.update h.cell a none
  fresh := h.fresh
  bounded b hb := by
    by_cases e : b = a
    · subst e
      simp
    · rw [Function.update_of_ne e]
      exact h.bounded b hb

/-- `*p` for reading. -/
def load (h : Heap ν) : Ptr → Except Fault ν
  | none => .error .nullPointer
  | some a => match h.cell a with
    | some v => .ok v
    | none => .error .dangling

/-- An assignment to a field of `*p`. -/
def modify (h : Heap ν) (p : Ptr) (f : ν → ν) : Except Fault (Heap ν) :=
  match p with
  | none => .error .nullPointer
  | some a => if (h.cell a).isSome then .ok (h.adjust a f) else .error .dangling

/-- `if (p) p->field = ...`. -/
def modifyNonNull (h : Heap ν) (p : Ptr) (f : ν → ν) : Except Fault (Heap ν) :=
  if p.isSome then h.modify p f else .ok h

/-- `delete p`: nothing for `NULL`, a fault for a block that is not live. -/
def free (h : Heap ν) : Ptr → Except Fault (Heap ν)
  | none => .ok h
  | some a => if (h.cell a).isSome then .ok (h.retire a) else .error .dangling

@[simp] theorem cell_alloc_self (h : Heap ν) (v : ν) : (h.alloc v).cell h.fresh = some v := by
  simp [alloc]

theorem cell_alloc_ne (h : Heap ν) (v : ν) {a : Nat} (ha : a ≠ h.fresh) :
    (h.alloc v).cell a = h.cell a := by
  simp [alloc, Function.update_of_ne ha]

@[simp] theorem cell_adjust_self (h : Heap ν) (a : Nat) (f : ν → ν) :
    (h.adjust a f).cell a = (h.cell a).map f := by
  simp [adjust]

theorem cell_adjust_ne (h : Heap ν) (f : ν → ν) {a b : Nat} (hb : b ≠ a) :
    (h.adjust a f).cell b = h.cell b := by
  simp [adjust, Function.update_of_ne hb]

@[simp] theorem cell_retire_self (h : Heap ν) (a : Nat) : (h.retire a).cell a = none := by
  simp [retire]

theorem cell_retire_ne (h : Heap ν) {a b : Nat} (hb : b ≠ a) :
    (h.retire a).cell b = h.cell b := by
  simp [retire, Function.update_of_ne hb]

@[simp] theorem fresh_alloc (h : Heap ν) (v : ν) : (h.alloc v).fresh = h.fresh + 1 := rfl
@[simp] theorem fresh_adjust (h : Heap ν) (a : Nat) (f : ν → ν) :
    (h.adjust a f).fresh = h.fresh := rfl
@[simp] theorem fresh_retire (h : Heap ν) (a : Nat) : (h.retire a).fresh = h.fresh := rfl

@[simp] theorem isSome_adjust (h : Heap ν) (a b : Nat) (f : ν → ν) :
    ((h.adjust a f).cell b).isSome = (h.cell b).isSome := by
  by_cases e : b = a
  · subst e
    simp
  · rw [cell_adjust_ne h f e]

/-- Rewrites of different cells commute. -/
theorem adjust_comm (h : Heap ν) {a b : Nat} (f g : ν → ν) (hab : a ≠ b) :
    (h.adjust a f).adjust b g = (h.adjust b g).adjust a f := by
  simp only [adjust, Heap.mk.injEq, and_true]
  rw [Function.update_of_ne hab.symm, Function.update_of_ne hab, Function.update_comm hab]

/-- Rewriting one cell and retiring another one commute. -/
theorem adjust_retire (h : Heap ν) {a b : Nat} (f : ν → ν) (hab : a ≠ b) :
    (h.retire b).adjust a f = (h.adjust a f).retire b := by
  simp only [adjust, retire, Heap.mk.injEq, and_true]
  rw [Function.update_of_ne hab, Function.update_comm hab]

theorem lt_fresh_of_cell (h : Heap ν) {a : Nat} {v : ν} (hv : h.cell a = some v) :
    a < h.fresh := by
  by_contra hn
  rw [h.bounded a (by omega)] at hv
  cases hv

theorem ne_fresh_of_cell (h : Heap ν) {a : Nat} {v : ν} (hv : h.cell a = some v) :
    a ≠ h.fresh := by
  have := h.lt_fresh_of_cell hv
  omega

theorem load_some (h : Heap ν) {a : Nat} {v : ν} (hv : h.cell a = some v) :
    h.load (some a) = .ok v := by
  simp [load, hv]

theorem modify_some (h : Heap ν) {a : Nat} (f : ν → ν) (hv : (h.cell a).isSome) :
    h.modify (some a) f = .ok (h.adjust a f) := by
  simp [modify, hv]

@[simp] theorem modifyNonNull_none (h : Heap ν) (f : ν → ν) :
    h.modifyNonNull none f = .ok h := rfl

theorem modifyNonNull_some (h : Heap ν) {a : Nat} (f : ν → ν) (hv : (h.cell a).isSome) :
    h.modifyNonNull (some a) f = .ok (h.adjust a f) := by
  simp [modifyNonNull, modify_some h f hv]

theorem free_some (h : Heap ν) {a : Nat} (hv : (h.cell a).isSome) :
    h.free (some a) = .ok (h.retire a) := by
  simp [free, hv]

end Heap
end LinuxDemo.Lib
