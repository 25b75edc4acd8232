import LinuxDemo.Invariant.SigChld

/-!
# No child stays a zombie

`my_echo_ser` with any number of children that end at any time, before, during and between
runs of the handler of a signal that is not queued.
-/
namespace LinuxDemo.Guarantees.SigChld
open LinuxDemo.Lib LinuxDemo.Source.SigChld LinuxDemo.Invariant.SigChld

/-- `waitpid` gives every child at most once, and only children that have ended; there is a
line for each, the one about to be printed aside; a zombie is never left without a pending
signal or a running handler; and, whatever has happened, the handler left to itself is done
in a bounded number of steps, with every zombie reaped, no other child touched and no line
missing. -/
theorem zombies_are_reaped (ops : List Op) :
    Safe (run (step .waitpidLoop) .init ops) fun s =>
      s.waited.Nodup ∧ (∀ i, i ∈ s.waited ↔ s.child i = .reaped) ∧
      s.waited.length = s.lines + (if s.handler = some .printing then 1 else 0) ∧
      ((∃ i, s.child i = .zombie) → s.pending = true ∨ s.handler ≠ none) ∧
      Completes (handle .waitpidLoop) s fun s' =>
        s'.handler = none ∧ s'.pending = false ∧ s'.lines = s'.waited.length ∧
        ∀ i, s'.child i = if s.child i = .zombie then .reaped else s.child i := by
  refine (run_kept ops).mono fun s h => ⟨h.once, h.waited, h.lines, ?_, ?_⟩
  · exact fun hz => h.announced ((someZombie_iff h.unborn).mpr hz)
  · refine (handler_completes h).mono fun s' hs' => ?_
    obtain ⟨kept, idle, quiet, children⟩ := hs'
    have lines := kept.lines
    rw [idle] at lines
    exact ⟨idle, quiet, by simpa using lines.symm, children⟩

/-- With nothing pending and the handler not running, nobody is left to be reaped. -/
def NeverForgets (body : Reaping) : Prop :=
  ∀ ops, Safe (run (step body) .init ops) fun s =>
    s.pending = false → s.handler = none → ∀ i, s.child i ≠ .zombie

/-- Two children end before the handler is entered. -/
def twoAtOnce : List Op :=
  [.fork, .fork, .exit 0, .exit 1, .handler .deliver, .handler (.reap 0), .handler .print]

/-- The remark of the source: signals are not queued, hence the loop. -/
theorem never_forgets_iff (body : Reaping) : NeverForgets body ↔ body = .waitpidLoop := by
  constructor
  · intro h
    cases body with
    | waitpidLoop => rfl
    | waitOnce =>
      have forgotten := (h twoAtOnce).of_ok rfl
      exact absurd rfl (forgotten rfl rfl 1)
  · rintro rfl ops
    refine (run_kept ops).mono fun s h quiet idle i hz => ?_
    simpa [quiet, idle] using h.announced ((someZombie_iff h.unborn).mpr ⟨i, hz⟩)

end LinuxDemo.Guarantees.SigChld
