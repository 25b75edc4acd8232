import LinuxDemo.Lib.Run

/-!
# Machines in lockstep

Two computations agree if both end, in related results, or both stop with the same fault.
Machines whose steps agree on related states agree on every run, fault for fault, and
agreement with a common third machine is agreement.
-/
namespace LinuxDemo.Lib
variable {α β γ : Type}

def Agree (R : α → β → Prop) : Except Fault α → Except Fault β → Prop
  | .ok a, .ok b => R a b
  | .error f, .error g => f = g
  | _, _ => False

namespace Agree
variable {R : α → β → Prop} {x : Except Fault α} {y : Except Fault β}

@[simp] theorem ok_iff (R : α → β → Prop) (a : α) (b : β) : Agree R (.ok a) (.ok b) ↔ R a b := Iff.rfl

@[simp] theorem error_iff (R : α → β → Prop) (f g : Fault) :
    Agree R (.error f) (.error g) ↔ f = g := Iff.rfl

theorem mono {S : α → β → Prop} (h : Agree R x y) (hRS : ∀ a b, R a b → S a b) : Agree S x y := by
  cases x with
  | error f => cases y <;> exact h
  | ok a =>
    cases y with
    | error g => exact h
    | ok b => exact hRS a b h

theorem symm (h : Agree R x y) : Agree (fun b a => R a b) y x := by
  cases x with
  | error f =>
    cases y with
    | error g => exact Eq.symm h
    | ok b => exact h
  | ok a => cases y <;> exact h

theorem trans {S : β → γ → Prop} {z : Except Fault γ} (h : Agree R x y) (h' : Agree S y z) :
    Agree (fun a c => ∃ b, R a b ∧ S b c) x z := by
  cases y with
  | error g =>
    cases x with
    | ok a => exact h.elim
    | error f =>
      cases z with
      | ok c => exact h'.elim
      | error k => exact Eq.trans h h'
  | ok b =>
    cases x with
    | error f => exact h.elim
    | ok a =>
      cases z with
      | error k => exact h'.elim
      | ok c => exact ⟨b, h, h'⟩

theorem bind {α' β' : Type} {S : α' → β' → Prop} {f : α → Except Fault α'} {g : β → Except Fault β'}
    (h : Agree R x y) (hfg : ∀ a b, R a b → Agree S (f a) (g b)) : Agree S (x >>= f) (y >>= g) := by
  cases x with
  | error e =>
    cases y with
    | error e' => exact h
    | ok b => exact h.elim
  | ok a =>
    cases y with
    | error e => exact h.elim
    | ok b => exact hfg a b h

/-- A computation that cannot fault agrees with the result it is required to have. -/
theorem of_total (h : Total x fun a => ∀ b, y = .ok b → R a b) (hy : ∃ b, y = .ok b) :
    Agree R x y := by
  obtain ⟨a, rfl, ha⟩ := h.result
  obtain ⟨b, rfl⟩ := hy
  exact ha b rfl

end Agree

section Machines
variable {σ τ ο : Type} {step : σ → ο → Except Fault σ} {step' : τ → ο → Except Fault τ}
  {R : σ → τ → Prop}

/-- Steps that agree make runs that agree. -/
theorem run_agree (h : ∀ s t op, R s t → Agree R (step s op) (step' t op)) {s : σ} {t : τ}
    (hR : R s t) (ops : List ο) : Agree R (run step s ops) (run step' t ops) := by
  induction ops generalizing s t with
  | nil => exact hR
  | cons op ops ih => exact (h s t op hR).bind fun s' t' h' => ih h'

end Machines
end LinuxDemo.Lib
