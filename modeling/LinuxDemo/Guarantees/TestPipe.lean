import LinuxDemo.Invariant.TestPipe

/-!
# The argument comes out of the pipe

`test_pipe` with an argument and a pipe of any size, under every schedule and every way in
which the kernel cuts up the `write` and the `read`s.
-/
namespace LinuxDemo.Guarantees.TestPipe
open LinuxDemo.Lib LinuxDemo.Source.TestPipe LinuxDemo.Invariant.TestPipe

theorem stdout_prefix {env : Env} {s : State} (h : Flows env s) : s.stdout <+: message env ++ bye := by
  cases hp : parted s.child with
  | true => exact (h.parted hp) ▸ List.prefix_rfl
  | false =>
    by_cases hf : s.parent = .forking
    · simp [(h.nothing hf).1]
    · rw [← h.conserved hf hp]
      simp only [List.append_assoc]
      exact List.prefix_append _ _

/-- The parent is never killed by its `write`, and standard output only ever shows the
beginning of the argument and the farewell. No schedule goes on for ever or gets stuck half
way: at the end all of it is there and the child is waited for. Where `fork` fails, a
complaint and the farewell are all, and nobody is waited for; the complaint is shown on a
terminal, and otherwise lost by `_exit` in the buffer that it waits in. -/
theorem argument_comes_out (env : Env) :
    (∀ ops, Safe (run (step env) .init ops) fun s =>
      s.parent ≠ .killed ∧
      s.stdout <+:
        (if env.forks then env.arg else if env.terminal then errorFork else []) ++ bye ∧
      s.buffer = if s.parent = .fellThrough ∧ s.child ≠ .exited ∧ env.terminal = false
        then errorFork else []) ∧
    Completes (step env) .init fun s =>
      s.stdout =
        (if env.forks then env.arg else if env.terminal then errorFork else []) ++ bye ∧
      s.buffer = [] ∧
      if env.forks then s.parent = .returned ∧ s.child = .reaped
      else s.parent = .fellThrough ∧ s.child = .exited := by
  constructor
  · intro ops
    exact (run_flows ops).mono fun s h => ⟨h.alive, stdout_prefix h, h.buffer⟩
  · exact run_completes env

end LinuxDemo.Guarantees.TestPipe
