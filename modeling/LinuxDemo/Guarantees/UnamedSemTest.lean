import LinuxDemo.Invariant.UnamedSemTest

/-!
# The semaphore makes the increments count

`unamed_sem_test` with any number of rounds of which an `int` holds twice as many, in any
interleaving of `main` and its threads.
-/
namespace LinuxDemo.Guarantees.UnamedSemTest
open LinuxDemo.Lib LinuxDemo.Source.UnamedSemTest LinuxDemo.Invariant.UnamedSemTest

/-- The two threads are never both between `sem_wait` and `sem_post`, the semaphore is 1
exactly if neither is, and no increment is lost or overflows. The program always ends, however
it is scheduled, and what it prints depends on its library calls alone. -/
theorem no_increment_is_lost (env : Env) (loop : Nat) (fits : 2 * loop ≤ INT_MAX) :
    (∀ ops, Safe (run (step env loop) .init ops) fun s =>
      inside (s.thread .pid1) + inside (s.thread .pid2) ≤ 1 ∧
      (s.main ≠ .initialising → s.main ≠ .exited →
        (s.sem = 1 ↔ inside (s.thread .pid1) = 0 ∧ inside (s.thread .pid2) = 0)) ∧
      s.global = increments loop (s.thread .pid1) + increments loop (s.thread .pid2)) ∧
    Completes (step env loop) .init fun s =>
      s.printed = if env.initialises ∧ env.creates .pid1 ∧ env.creates .pid2 then
        ["global is " ++ toString (2 * loop : Int) ++ "\n"] else ["error\n"] := by
  constructor
  · intro ops
    refine (run_guarded fits ops).mono fun s h => ⟨h.exclusive, fun running alive => ?_, h.counted⟩
    have permit := h.permit running alive
    omega
  · refine (run_completes env fits).mono fun s h => ?_
    simpa [works, total, and_assoc] using h

/-- All calls of `main` succeed. -/
def succeeding : Env := ⟨true, fun _ => true⟩

/-- The program itself, with its 1000 rounds. -/
theorem no_increment_is_lost_1000 :
    (∀ ops, Safe (run (step succeeding loop) .init ops) fun s =>
      inside (s.thread .pid1) + inside (s.thread .pid2) ≤ 1 ∧
      (s.main ≠ .initialising → s.main ≠ .exited →
        (s.sem = 1 ↔ inside (s.thread .pid1) = 0 ∧ inside (s.thread .pid2) = 0)) ∧
      s.global = increments loop (s.thread .pid1) + increments loop (s.thread .pid2)) ∧
    Completes (step succeeding loop) .init fun s => s.printed = ["global is 2000\n"] :=
  no_increment_is_lost succeeding loop (by decide)

end LinuxDemo.Guarantees.UnamedSemTest
