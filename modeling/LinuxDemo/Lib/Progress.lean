import LinuxDemo.Lib.Run

/-!
# Runs that come to an end

A system whose steps are chosen from outside completes from a state if no run from there is
longer than some bound and every run that cannot go on has ended as it should. Nobody has
to be fair for that. The rule asks for an invariant and a measure that every step lowers.
-/
namespace LinuxDemo.Lib
variable {σ ο : Type} (step : σ → ο → Except Fault σ)

/-- No step is possible. -/
def Stuck (s : σ) : Prop := ∀ op s', step s op ≠ .ok s'

structure Completes (s : σ) (P : σ → Prop) : Prop where
  bounded : ∃ n, ∀ ops s', run step s ops = .ok s' → ops.length ≤ n
  ended : ∀ s', Reaches step s s' → Stuck step s' → P s'

variable {step} {s : σ} {I P Q : σ → Prop}

/-- What every possible step keeps holds of whatever is reached. -/
theorem Reaches.keeps {s' : σ} (hstep : ∀ s op s', I s → step s op = .ok s' → I s') (hs : I s)
    (h : Reaches step s s') : I s' := by
  obtain ⟨ops, hops⟩ := h
  induction ops generalizing s with
  | nil =>
    obtain rfl : s = s' := by simpa using hops
    exact hs
  | cons op ops ih =>
    obtain ⟨s₁, hop, hrest⟩ := (bind_eq_ok_iff _ _ _).mp hops
    exact ih (hstep s op s₁ hs hop) hrest

/-- A run is a run with more steps to choose from as well. -/
theorem run_with_more {step' : σ → ο → Except Fault σ} {s' : σ} {ops : List ο}
    (more : ∀ s op s', step s op = .ok s' → step' s op = .ok s') (h : run step s ops = .ok s') :
    run step' s ops = .ok s' := by
  induction ops generalizing s with
  | nil => exact h
  | cons op ops ih =>
    obtain ⟨s₁, hop, hrest⟩ := (bind_eq_ok_iff _ _ _).mp h
    exact (bind_eq_ok_iff _ _ _).mpr ⟨s₁, more s op s₁ hop, ih hrest⟩

theorem Reaches.with_more {step' : σ → ο → Except Fault σ} {s' : σ}
    (more : ∀ s op s', step s op = .ok s' → step' s op = .ok s') (h : Reaches step s s') :
    Reaches step' s s' := by
  obtain ⟨ops, hops⟩ := h
  exact ⟨ops, run_with_more more hops⟩

namespace Completes

/-- A run is no longer than the measure it started with. -/
theorem length_le (m : σ → Nat) (hstep : ∀ s op s', I s → step s op = .ok s' → I s' ∧ m s' < m s)
    (hs : I s) (ops : List ο) : ∀ s', run step s ops = .ok s' → ops.length + m s' ≤ m s := by
  induction ops generalizing s with
  | nil => simp
  | cons op ops ih =>
    intro s' hrun
    obtain ⟨s₁, hop, hrest⟩ := (bind_eq_ok_iff _ _ _).mp hrun
    obtain ⟨hs₁, hlt⟩ := hstep s op s₁ hs hop
    have := ih hs₁ s' hrest
    rw [List.length_cons]
    omega

theorem of_measure (m : σ → Nat) (hstep : ∀ s op s', I s → step s op = .ok s' → I s' ∧ m s' < m s)
    (hend : ∀ s, I s → Stuck step s → P s) (hs : I s) : Completes step s P where
  bounded := by
    refine ⟨m s, fun ops s' hrun => ?_⟩
    have := length_le m hstep hs ops s' hrun
    omega
  ended s' hreach hstuck :=
    hend s' (hreach.keeps (fun s op s' h hop => (hstep s op s' h hop).1) hs) hstuck

/-- Only the possible steps matter. -/
theorem of_same_steps {step' : σ → ο → Except Fault σ}
    (same : ∀ s op s', step s op = .ok s' ↔ step' s op = .ok s') (h : Completes step s P) :
    Completes step' s P where
  bounded := by
    obtain ⟨n, hn⟩ := h.bounded
    exact ⟨n, fun ops s' hrun =>
      hn ops s' (run_with_more (fun s op s' hs => (same s op s').mpr hs) hrun)⟩
  ended s' hreach hstuck :=
    h.ended s' (hreach.with_more fun s op s' hs => (same s op s').mpr hs)
      fun op s'' hs => hstuck op s'' ((same s' op s'').mp hs)

theorem mono (h : Completes step s P) (hPQ : ∀ a, P a → Q a) : Completes step s Q :=
  ⟨h.bounded, fun s' hreach hstuck => hPQ s' (h.ended s' hreach hstuck)⟩

end Completes
end LinuxDemo.Lib
