import LinuxDemo.Invariant.SelectServer

/-!
# Guarantees of the select server

About every run of its loop with fewer than `FD_SETSIZE` descriptors in use, whatever
connects, sends and leaves, and in whatever order.
-/
namespace LinuxDemo.Guarantees.SelectServer
open LinuxDemo.Lib LinuxDemo.Source.SelectServer LinuxDemo.Invariant.SelectServer

/-- The tables agree at every call of `select` exactly in the runs in which no client that
is read from has closed its connection: such a client is taken out of `rset`, not out of
`allset`. -/
theorem consistent_iff_none_leaves (env : Env) (rounds : List Round) :
    Safe (run (step env) env.start rounds) fun _ =>
      (∀ pre post s, rounds = pre ++ post → run (step env) env.start pre = .ok s →
        Consistent env s) ↔
      Along (step env) NoneLeaves env.start rounds := by
  have reached := run_ends (step env) step_tables (tables_start env)
  refine (reached rounds).of_result ?_
  intro s hrun _
  rw [← along_iff_reached (step env) step_noStale_iff (tables_start env) (noStale_start env) rounds
    ⟨s, hrun⟩]
  constructor
  · intro h pre post s' hrounds hpre
    exact ((reached pre).of_ok hpre).consistent_iff.mp (h pre post s' hrounds hpre)
  · intro h pre post s' hrounds hpre
    exact ((reached pre).of_ok hpre).consistent_iff.mpr (h pre post s' hrounds hpre)

/-- Client 4 connects and leaves; `select` is then called with the closed descriptor. -/
theorem client_that_left_stays_in_allset :
    ¬ ∀ env rounds, Safe (run (step env) env.start rounds) (Consistent env) := by
  intro h
  have consistent := (h ⟨3, {0, 1, 2, 3}, by decide, by decide⟩
    [⟨{3}, 4, 0, fun _ => 0⟩, ⟨{4}, 5, 0, fun _ => 0⟩]).of_ok rfl
  exact absurd (consistent.opened 4 (by decide)) (by decide)

end LinuxDemo.Guarantees.SelectServer
