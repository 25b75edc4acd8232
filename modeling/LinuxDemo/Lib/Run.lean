import LinuxDemo.Lib.Heap

/-!
# Computations and runs that may fault

`Ends E x P` is the judgement used for every operation and every run: unless the
computation stops with a fault that `E` excuses, it ends in a result with `P`. `Safe`
excuses a caller that broke a contract and nothing else; `Total` excuses nothing. The
rules follow the structure of the computation, and the induction over a whole run is
done once.
-/
namespace LinuxDemo.Lib

/-- No fault but those `E` excuses, and `P` of the result. -/
def Ends {α : Type} (E : Fault → Prop) (x : Except Fault α) (P : α → Prop) : Prop :=
  match x with
  | .ok a => P a
  | .error f => E f

abbrev Safe {α : Type} (x : Except Fault α) (P : α → Prop) : Prop := Ends (· = .contract) x P

abbrev Total {α : Type} (x : Except Fault α) (P : α → Prop) : Prop := Ends (fun _ => False) x P

namespace Ends
variable {α β : Type} {E : Fault → Prop} {x : Except Fault α} {P Q : α → Prop}

@[simp] theorem ok_iff (a : α) (P : α → Prop) : Ends E (.ok a) P ↔ P a := Iff.rfl

@[simp] theorem error_iff (f : Fault) (P : α → Prop) : Ends E (.error f) P ↔ E f := Iff.rfl

theorem mono (h : Ends E x P) (hPQ : ∀ a, P a → Q a) : Ends E x Q := by
  cases x with
  | error f => exact h
  | ok a => exact hPQ a h

theorem bind {f : α → Except Fault β} {R : β → Prop} (h : Ends E x P)
    (hf : ∀ a, P a → Ends E (f a) R) : Ends E (x >>= f) R := by
  cases x with
  | error e => exact h
  | ok a => exact hf a h

theorem and (h : Ends E x P) (h' : Ends E x Q) : Ends E x fun a => P a ∧ Q a := by
  cases x with
  | error e => exact h
  | ok a => exact ⟨h, h'⟩

/-- Where the faults are excused already, only the results matter. -/
theorem of_result (h : Ends E x P) (hPQ : ∀ a, x = .ok a → P a → Q a) : Ends E x Q := by
  cases x with
  | error f => exact h
  | ok a => exact hPQ a rfl h

theorem of_ok {a : α} (h : Ends E x P) (hx : x = .ok a) : P a := by
  subst hx
  exact h

/-- A computation none of whose excuses applies does produce a result. -/
theorem exists_ok (h : Ends E x P) (hx : ∀ f, E f → x ≠ .error f) : ∃ a, x = .ok a ∧ P a := by
  cases x with
  | error f => exact absurd rfl (hx f h)
  | ok a => exact ⟨a, rfl, h⟩

end Ends

/-- A safe run whose callers keep their contracts does produce a result. -/
theorem Safe.result {α : Type} {x : Except Fault α} {P : α → Prop} (h : Safe x P)
    (kept : x ≠ .error .contract) : ∃ a, x = .ok a ∧ P a :=
  h.exists_ok fun _ hf => hf ▸ kept

theorem Total.result {α : Type} {x : Except Fault α} {P : α → Prop} (h : Total x P) :
    ∃ a, x = .ok a ∧ P a :=
  h.exists_ok fun _ hf => hf.elim

theorem Total.safe {α : Type} {x : Except Fault α} {P : α → Prop} (h : Total x P) : Safe x P := by
  obtain ⟨a, rfl, ha⟩ := h.result
  exact ha

section Runs
variable {σ ο : Type} (step : σ → ο → Except Fault σ)

/-- The operations `ops` one after another. -/
def run (s : σ) : List ο → Except Fault σ
  | [] => .ok s
  | op :: ops => do
    let s ← step s op
    run s ops

@[simp] theorem run_nil (s : σ) : run step s [] = .ok s := rfl

@[simp] theorem run_cons (s : σ) (op : ο) (ops : List ο) :
    run step s (op :: ops) = (step s op >>= fun s => run step s ops) := rfl

theorem run_singleton (s : σ) (op : ο) : run step s [op] = step s op := by
  cases h : step s op <;> simp [run, h]

theorem run_append (s : σ) (ops ops' : List ο) :
    run step s (ops ++ ops') = (run step s ops >>= fun s => run step s ops') := by
  induction ops generalizing s with
  | nil => rfl
  | cons op ops ih =>
    simp only [List.cons_append, run_cons]
    cases step s op with
    | error f => rfl
    | ok s' => exact ih s'

theorem run_append_eq_ok {s s' : σ} {ops ops' : List ο} :
    run step s (ops ++ ops') = .ok s' ↔ ∃ s₁, run step s ops = .ok s₁ ∧ run step s₁ ops' = .ok s' := by
  rw [run_append, bind_eq_ok_iff]

/-- Some operations lead from `s` to `s'`. -/
def Reaches (s s' : σ) : Prop := ∃ ops, run step s ops = .ok s'

namespace Reaches
variable {step} {s s' s'' : σ}

theorem refl (s : σ) : Reaches step s s := ⟨[], rfl⟩

theorem of_run {ops : List ο} (h : run step s ops = .ok s') : Reaches step s s' := ⟨ops, h⟩

theorem trans (h : Reaches step s s') (h' : Reaches step s' s'') : Reaches step s s'' := by
  obtain ⟨ops, hops⟩ := h
  obtain ⟨ops', hops'⟩ := h'
  exact ⟨ops ++ ops', (run_append_eq_ok step).mpr ⟨s', hops, hops'⟩⟩

theorem step_to {op : ο} (h : Reaches step s s') (hop : step s' op = .ok s'') :
    Reaches step s s'' :=
  h.trans ⟨[op], by rw [run_singleton, hop]⟩

/-- What every run ends in holds of what is reached. -/
theorem of_ends {E : Fault → Prop} {P : σ → Prop} (h : Reaches step s s')
    (hP : ∀ ops, Ends E (run step s ops) P) : P s' := by
  obtain ⟨ops, hops⟩ := h
  exact (hP ops).of_ok hops

end Reaches

/-- What every step keeps, every run keeps. -/
theorem run_ends {E : Fault → Prop} {I : σ → Prop} (hstep : ∀ s op, I s → Ends E (step s op) I)
    {s : σ} (hs : I s) (ops : List ο) : Ends E (run step s ops) I := by
  induction ops generalizing s with
  | nil => exact hs
  | cons op ops ih => exact (hstep s op hs).bind fun s' h => ih h

/-- If some steps of another system match every step, some match every run. -/
theorem run_simulated {τ κ : Type} {step' : τ → κ → Except Fault τ} {E : Fault → Prop}
    {R : σ → τ → Prop}
    (hstep : ∀ s op t, R s t → Ends E (step s op) fun s' => ∃ t', Reaches step' t t' ∧ R s' t')
    {s : σ} {t : τ} (h : R s t) (ops : List ο) :
    Ends E (run step s ops) fun s' => ∃ t', Reaches step' t t' ∧ R s' t' := by
  refine run_ends step (I := fun s => ∃ t', Reaches step' t t' ∧ R s t') ?_ ⟨t, .refl t, h⟩ ops
  rintro s op ⟨t', reached, related⟩
  refine (hstep s op t' related).mono ?_
  rintro s' ⟨t'', more, related'⟩
  exact ⟨t'', reached.trans more, related'⟩

/-- The same with an invariant that looks back at the operations done. -/
theorem run_ends_history {E : Fault → Prop} {I : List ο → σ → Prop}
    (hstep : ∀ done s op, I done s → Ends E (step s op) (I (done ++ [op])))
    {done : List ο} {s : σ} (hs : I done s) (ops : List ο) :
    Ends E (run step s ops) (I (done ++ ops)) := by
  induction ops generalizing s done with
  | nil => simpa using hs
  | cons op ops ih =>
    refine (hstep done s op hs).bind fun s' h => ?_
    simpa using ih h

/-- Every step of the run, as far as it gets, meets a condition on the state before it. -/
def Along (cond : σ → ο → Prop) (s : σ) : List ο → Prop
  | [] => True
  | op :: ops => cond s op ∧
    match step s op with
    | .ok s' => Along cond s' ops
    | .error _ => True

/-- A condition on the operations alone. -/
theorem along_iff_forall {c : ο → Prop} {s : σ} {ops : List ο}
    (ok : ∃ s', run step s ops = .ok s') :
    Along step (fun _ op => c op) s ops ↔ ∀ op ∈ ops, c op := by
  induction ops generalizing s with
  | nil => simp [Along]
  | cons op ops ih =>
    obtain ⟨s₂, h₂⟩ := ok
    obtain ⟨s₁, h₁, hrest⟩ := (bind_eq_ok_iff _ _ _).mp h₂
    simp only [Along, h₁, List.forall_mem_cons]
    rw [ih ⟨s₂, hrest⟩]

/-- What every step that meets the condition keeps, a run of such steps keeps. -/
theorem run_ends_along {E : Fault → Prop} {cond : σ → ο → Prop} {I : σ → Prop}
    (hstep : ∀ s op, I s → cond s op → Ends E (step s op) I) {s : σ} (hs : I s) (ops : List ο)
    (h : Along step cond s ops) : Ends E (run step s ops) I := by
  induction ops generalizing s with
  | nil => exact hs
  | cons op ops ih =>
    obtain ⟨hcond, hrest⟩ := h
    have hnext := hstep s op hs hcond
    rw [run_cons]
    cases hop : step s op with
    | error e =>
      rw [hop] at hnext
      exact hnext
    | ok s' =>
      rw [hop] at hnext hrest
      exact ih hnext hrest

/-- Conditions that agree on the states of an invariant agree along a run, if the steps that
meet them keep the invariant. -/
theorem along_iff_along {E : Fault → Prop} {cond P : σ → ο → Prop} {I : σ → Prop}
    (hiff : ∀ s op, I s → (P s op ↔ cond s op))
    (hstep : ∀ s op, I s → cond s op → Ends E (step s op) I) {s : σ} (hs : I s) (ops : List ο) :
    Along step P s ops ↔ Along step cond s ops := by
  induction ops generalizing s with
  | nil => exact Iff.rfl
  | cons op ops ih =>
    simp only [Along, hiff s op hs]
    refine and_congr_right fun hcond => ?_
    have hnext := hstep s op hs hcond
    cases hop : step s op with
    | error e => exact Iff.rfl
    | ok s' =>
      rw [hop] at hnext
      exact ih hnext

/-- Where a step keeps `P` exactly if the condition is met, a run reaches states with `P`
only exactly if the condition is met along it. -/
theorem along_iff_reached {E : Fault → Prop} {cond : σ → ο → Prop} {I P : σ → Prop}
    (hstep : ∀ s op, I s → P s → Ends E (step s op) fun s' => I s' ∧ (P s' ↔ cond s op))
    {s : σ} (hI : I s) (hP : P s) (ops : List ο)
    (ok : ∃ s', run step s ops = .ok s') :
    (∀ pre post s', ops = pre ++ post → run step s pre = .ok s' → P s') ↔
      Along step cond s ops := by
  induction ops generalizing s with
  | nil =>
    simp only [Along, iff_true]
    intro pre post s' hops hrun
    obtain ⟨rfl, rfl⟩ := List.append_eq_nil_iff.mp hops.symm
    obtain rfl : s = s' := by simpa using hrun
    exact hP
  | cons op ops ih =>
    obtain ⟨s₂, h₂⟩ := ok
    obtain ⟨s₁, h₁, hrest⟩ := (bind_eq_ok_iff _ _ _).mp h₂
    obtain ⟨hI₁, hkeep⟩ := (hstep s op hI hP).of_ok h₁
    constructor
    · intro h
      have hP₁ : P s₁ := h [op] ops s₁ rfl (by simp [h₁])
      refine ⟨hkeep.mp hP₁, ?_⟩
      rw [h₁]
      refine (ih hI₁ hP₁ ⟨s₂, hrest⟩).mp fun pre post s' hops hrun => h (op :: pre) post s' ?_ ?_
      · simp [hops]
      · simp [h₁, hrun]
    · rintro ⟨hcond, hlater⟩ pre post s' hops hrun
      cases pre with
      | nil =>
        obtain rfl : s = s' := by simpa using hrun
        exact hP
      | cons first pre =>
        obtain ⟨rfl, rfl⟩ := by simpa using hops
        rw [run_cons, h₁] at hrun
        rw [h₁] at hlater
        exact (ih hI₁ (hkeep.mpr hcond) ⟨s₂, hrest⟩).mpr hlater pre post s' rfl hrun

end Runs
end LinuxDemo.Lib
