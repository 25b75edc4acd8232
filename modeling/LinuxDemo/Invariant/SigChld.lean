import LinuxDemo.Source.SigChld
import LinuxDemo.Lib.Counting
import LinuxDemo.Lib.Progress

/-!
# Zombies and the pending signal

With the loop of `waitpid`, a zombie is always announced: the signal is pending, or the
handler is running and has not asked for the last time. What the handler does next lowers a
measure, so left to itself it comes to its end, and there it has reaped all there was.
-/
namespace LinuxDemo.Invariant.SigChld
open LinuxDemo.Lib LinuxDemo.Source.SigChld

structure Kept (s : State) : Prop where
  unborn : ∀ i, s.forked ≤ i → s.child i = .unborn
  waited : ∀ i, i ∈ s.waited ↔ s.child i = .reaped
  once : s.waited.Nodup
  announced : someZombie s → s.pending = true ∨ s.handler ≠ none
  lines : s.waited.length = s.lines + if s.handler = some .printing then 1 else 0

theorem kept_init : Kept State.init := by
  constructor <;> simp [State.init, someZombie]

theorem someZombie_iff {s : State} (unborn : ∀ i, s.forked ≤ i → s.child i = .unborn) :
    someZombie s ↔ ∃ i, s.child i = .zombie := by
  constructor
  · rintro ⟨i, -, hi⟩
    exact ⟨i, hi⟩
  · rintro ⟨i, hi⟩
    refine ⟨i, ?_, hi⟩
    by_contra hle
    simp [unborn i (by omega)] at hi

/-- A change of one child that is neither reaped now nor before leaves the books alone. -/
theorem waited_update {s : State} {i : Nat} {c : Child} (h : Kept s) (old : s.child i ≠ .reaped)
    (new : c ≠ .reaped) (j : Nat) :
    j ∈ s.waited ↔ Function.update s.child i c j = .reaped := by
  by_cases e : j = i
  · subst e
    simp [h.waited, old, new]
  · rw [Function.update_of_ne e]
    exact h.waited j

theorem fork_kept {s : State} (h : Kept s) : Safe (step .waitpidLoop s .fork) Kept := by
  simp only [step]
  split
  next idle =>
    have fresh : s.child s.forked = .unborn := h.unborn _ (le_refl _)
    constructor
    · intro i hi
      simp only at hi ⊢
      rw [Function.update_of_ne (by omega)]
      exact h.unborn i (by omega)
    · exact waited_update h (by simp [fresh]) (by simp)
    · exact h.once
    · rintro ⟨i, hi, hz⟩
      refine h.announced ⟨i, ?_, ?_⟩
      · simp only at hi hz
        by_contra hle
        simp [show i = s.forked by omega] at hz
      · by_cases e : i = s.forked
        · simp [e] at hz
        · simpa [Function.update_of_ne e] using hz
    · exact h.lines
  next => simp

theorem exit_kept {s : State} (h : Kept s) (i : Nat) : Safe (step .waitpidLoop s (.exit i)) Kept := by
  simp only [step]
  split
  next running =>
    constructor
    · intro j hj
      have hne : j ≠ i := by
        rintro rfl
        simp [h.unborn j hj] at running
      simp only [Function.update_of_ne hne]
      exact h.unborn j hj
    · exact waited_update h (by simp [running]) (by simp)
    · exact h.once
    · exact fun _ => .inl rfl
    · exact h.lines
  next => simp

theorem reap_kept {s : State} (h : Kept s) (i : Nat) :
    Safe (handle .waitpidLoop s (.reap i)) Kept := by
  simp only [handle]
  split
  next hi =>
    obtain ⟨at_wait, hlt, zombie⟩ := hi
    have unreaped : i ∉ s.waited := by simp [h.waited, zombie]
    constructor
    · intro j hj
      simp only at hj ⊢
      rw [Function.update_of_ne (by omega)]
      exact h.unborn j hj
    · intro j
      by_cases e : j = i
      · simp [e]
      · simpa [e] using h.waited j
    · exact List.nodup_append.mpr ⟨h.once, by simp, by
        intro a ha b hb
        obtain rfl := List.mem_singleton.mp hb
        exact fun e => unreaped (e ▸ ha)⟩
    · simp
    · simpa [at_wait] using h.lines
  next => simp

theorem handle_kept {s : State} (h : Kept s) (hd : Handling) :
    Safe (handle .waitpidLoop s hd) Kept := by
  cases hd with
  | reap i => exact reap_kept h i
  | deliver =>
    simp only [handle]
    split
    next hp =>
      refine ⟨h.unborn, h.waited, h.once, by simp, ?_⟩
      simpa [hp.2] using h.lines
    next => simp
  | noChild =>
    simp only [handle]
    split
    next hz =>
      refine ⟨h.unborn, h.waited, h.once, fun hs => absurd hs hz.2, ?_⟩
      simpa [hz.1] using h.lines
    next => simp
  | print =>
    simp only [handle]
    split
    next hp =>
      refine ⟨h.unborn, h.waited, h.once, by simp [afterPrint], ?_⟩
      simpa [hp, afterPrint] using h.lines
    next => simp

theorem step_kept (s : State) (op : Op) (h : Kept s) : Safe (step .waitpidLoop s op) Kept := by
  cases op with
  | fork => exact fork_kept h
  | exit i => exact exit_kept h i
  | handler hd => exact handle_kept h hd

theorem run_kept (ops : List Op) : Safe (run (step .waitpidLoop) .init ops) Kept :=
  run_ends _ step_kept kept_init ops

/-- What is left for the handler to do. -/
def todo (s : State) : Nat :=
  3 * tally (fun c => decide (c = .zombie)) s.child s.forked + (if s.pending then 2 else 0) +
    match s.handler with
    | none => 0
    | some .waiting => 1
    | some .printing => 2

theorem handle_lowers {s s' : State} {hd : Handling} (h : handle .waitpidLoop s hd = .ok s') :
    todo s' < todo s := by
  cases hd with
  | reap i =>
    simp only [handle] at h
    split at h
    next hi =>
      obtain ⟨at_wait, hlt, zombie⟩ := hi
      obtain rfl := Except.ok.inj h
      have fewer := tally_update (fun c => decide (c = .zombie)) s.child hlt .reaped
      simp only [zombie, reduceCtorEq, decide_true, decide_false, if_true, Bool.false_eq_true,
        if_false] at fewer
      simp only [todo, at_wait]
      omega
    next => cases h
  | deliver =>
    simp only [handle] at h
    split at h
    next hp =>
      obtain rfl := Except.ok.inj h
      simp [todo, hp.1, hp.2]
    next => cases h
  | noChild =>
    simp only [handle] at h
    split at h
    next hz =>
      obtain rfl := Except.ok.inj h
      simp [todo, hz.1]
    next => cases h
  | print =>
    simp only [handle] at h
    split at h
    next hp =>
      obtain rfl := Except.ok.inj h
      simp [todo, hp, afterPrint]
    next => cases h

/-- The handler turns zombies into reaped children and does nothing else to anybody. -/
def Reaps (s s' : State) : Prop :=
  s'.forked = s.forked ∧ ∀ i, s'.child i = s.child i ∨ s.child i = .zombie ∧ s'.child i = .reaped

theorem handle_reaps {s₀ s s' : State} {hd : Handling} (h : handle .waitpidLoop s hd = .ok s')
    (old : Reaps s₀ s) : Reaps s₀ s' := by
  have same : (∀ i, s'.child i = s.child i) → s'.forked = s.forked → Reaps s₀ s' := by
    intro hchild hforked
    refine ⟨hforked.trans old.1, fun i => ?_⟩
    rw [hchild]
    exact old.2 i
  cases hd with
  | reap i =>
    simp only [handle] at h
    split at h
    next hi =>
      obtain rfl := Except.ok.inj h
      refine ⟨old.1, fun j => ?_⟩
      by_cases e : j = i
      · subst e
        have := old.2 j
        simp_all
      · simpa [Function.update_of_ne e] using old.2 j
    next => cases h
  | deliver =>
    simp only [handle] at h
    split at h
    next =>
      obtain rfl := Except.ok.inj h
      exact same (fun _ => rfl) rfl
    next => cases h
  | noChild =>
    simp only [handle] at h
    split at h
    next =>
      obtain rfl := Except.ok.inj h
      exact same (fun _ => rfl) rfl
    next => cases h
  | print =>
    simp only [handle] at h
    split at h
    next =>
      obtain rfl := Except.ok.inj h
      exact same (fun _ => rfl) rfl
    next => cases h

/-- Where the handler cannot go on, it is not running and nothing is pending. -/
theorem idle_of_stuck {s : State} (h : Stuck (handle .waitpidLoop) s) :
    s.handler = none ∧ s.pending = false := by
  cases hh : s.handler with
  | none =>
    refine ⟨rfl, ?_⟩
    by_contra hp
    exact h .deliver _ (by simp [handle, hh, hp]; rfl)
  | some place =>
    cases place with
    | printing => exact absurd (by simp [handle, hh]; rfl) (h .print _)
    | waiting =>
      by_cases hz : someZombie s
      · obtain ⟨i, hlt, hi⟩ := hz
        exact absurd (by simp [handle, hh, hlt, hi]; rfl) (h (.reap i) _)
      · exact absurd (by simp [handle, hh, hz]; rfl) (h .noChild _)

/-- Left to itself the handler ends, with every zombie reaped. -/
theorem handler_completes {s : State} (h : Kept s) :
    Completes (handle .waitpidLoop) s fun s' =>
      Kept s' ∧ s'.handler = none ∧ s'.pending = false ∧
      ∀ i, s'.child i = if s.child i = .zombie then .reaped else s.child i := by
  refine Completes.of_measure (I := fun s' => Kept s' ∧ Reaps s s') todo ?_ ?_
    ⟨h, rfl, fun i => .inl rfl⟩
  · intro s₁ hd s₂ hs₁ hstep
    exact ⟨⟨(handle_kept hs₁.1 hd).of_ok hstep, handle_reaps hstep hs₁.2⟩, handle_lowers hstep⟩
  · intro s' hs' hstuck
    obtain ⟨kept, -, reaps⟩ := hs'
    obtain ⟨idle, quiet⟩ := idle_of_stuck hstuck
    have none_left : ¬ ∃ i, s'.child i = .zombie := by
      rw [← someZombie_iff kept.unborn]
      intro hz
      simpa [idle, quiet] using kept.announced hz
    refine ⟨kept, idle, quiet, fun i => ?_⟩
    rcases reaps i with same | ⟨hz, hr⟩
    · have : s.child i ≠ .zombie := fun hz => none_left ⟨i, same.trans hz⟩
      rw [if_neg this, same]
    · rw [if_pos hz, hr]

end LinuxDemo.Invariant.SigChld
