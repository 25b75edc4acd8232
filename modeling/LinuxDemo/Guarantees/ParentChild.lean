import LinuxDemo.Invariant.ParentChild

/-!
# Guarantees of the upper-casing pipeline

For every input, every chunking of the reads and every interleaving of the two processes.
-/
namespace LinuxDemo.Guarantees.ParentChild
open LinuxDemo.Lib LinuxDemo.Source.ParentChild LinuxDemo.Invariant.ParentChild

/-- When the parent returns it has read all of its input and printed the upper-casing of a
part from its start; of all of it, with nothing left on the way, exactly if its reads of the
reply pipe returned as many bytes as its reads of standard input. -/
theorem upper_cased_iff (stdin : List UInt8) (ops : List Op) :
    Safe (run step (State.init stdin) ops) fun s => s.parent = .returned →
      s.input = stdin ∧ s.stdout <+: s.input.map toupper ∧
      ((s.stdout = s.input.map toupper ∧ s.pipe1 = [] ∧ s.pipe2 = [] ∧ held s.child = []) ↔
        answered ops = asked ops) := by
  apply (run_relayed stdin ops).mono
  intro s h hreturned
  have conserved := h.conserved
  have hgot : gotBack s = s.stdout := by simp [gotBack, unprinted, hreturned]
  have howed : owed s = s.pipe2 ++ held s.child ++ s.pipe1.map toupper := by
    simp [owed, unsent, hreturned]
  rw [hgot] at conserved
  refine ⟨?_, ⟨owed s, conserved⟩, ?_⟩
  · have consumed := h.consumed
    rwa [h.returned hreturned, List.append_nil] at consumed
  · rw [← owed_eq_nil_iff h]
    constructor
    · rintro ⟨-, h1, h2, h3⟩
      simp [howed, h1, h2, h3]
    · intro hnone
      rw [hnone, List.append_nil] at conserved
      rw [howed] at hnone
      simp only [List.append_eq_nil_iff, List.map_eq_nil_iff] at hnone
      exact ⟨conserved, hnone.2, hnone.1.1, hnone.1.2⟩

/-- The child takes `ab` in two pieces, and the parent reads one reply before the input ends. -/
theorem second_piece_is_lost : ¬ ∀ stdin ops, Safe (run step (State.init stdin) ops) fun s =>
    s.parent = .returned →
      s.stdout = s.input.map toupper ∧ s.pipe1 = [] ∧ s.pipe2 = [] ∧ held s.child = [] := by
  intro h
  have returned := (h [97, 98] [.parentRead 2, .parentSend, .childRead 1, .childReply,
    .parentAwait 1, .parentPrint, .parentRead 0]).of_ok rfl rfl
  exact absurd returned.1 (by decide)

end LinuxDemo.Guarantees.ParentChild
