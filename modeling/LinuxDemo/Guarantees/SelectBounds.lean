import LinuxDemo.Invariant.SelectBounds

/-!
# Bounds of the select server

About every run of the program, however many clients are connected and whatever descriptors
`socket` and `accept` return.
-/
namespace LinuxDemo.Guarantees.SelectBounds
open LinuxDemo.Lib LinuxDemo.Source.SelectServer LinuxDemo.Invariant.SelectServer

/-- Every round of a run stays within the bounds of `client[]` and of the `fd_set`s exactly if
the descriptors of the listening socket and of every connection taken are below `FD_SETSIZE`. -/
theorem bounds_hold_iff (listenfd : Int) (others : Finset Int) (rounds : List Round) :
    (∃ s, boot listenfd (insert listenfd others) = .ok s ∧
        Along (anyStep listenfd) (Bounded listenfd) s rounds) ↔
      fdInRange listenfd ∧ Along (anyStep listenfd) (AcceptsInRange listenfd)
        (Server.init listenfd (insert listenfd others)) rounds := by
  by_cases hrange : fdInRange listenfd
  · let env : Env := ⟨listenfd, insert listenfd others, Finset.mem_insert_self _ _, hrange⟩
    have hiff : Along (anyStep listenfd) (Bounded listenfd) env.start rounds ↔
        Along (anyStep listenfd) (AcceptsInRange listenfd) env.start rounds :=
      along_iff_along (I := Tables env) _ (fun s r t => t.bounded_iff) anyStep_tables
        (tables_start env) rounds
    rw [boot_of_inRange hrange]
    constructor
    · rintro ⟨s, hs, h⟩
      cases hs
      exact ⟨hrange, hiff.mp h⟩
    · rintro ⟨-, h⟩
      exact ⟨_, rfl, hiff.mpr h⟩
  · rw [boot_out_of_range hrange]
    constructor
    · rintro ⟨s, hs, -⟩
      cases hs
    · rintro ⟨h, -⟩
      exact absurd h hrange

/-- The descriptors below 1024 are taken, and a client connects. -/
theorem large_descriptor_is_set : ¬ ∀ listenfd others rounds, fdInRange listenfd →
    ∃ s, boot listenfd (insert listenfd others) = .ok s ∧
      Along (anyStep listenfd) (Bounded listenfd) s rounds := by
  intro h
  obtain ⟨s, hs, hbounded, -⟩ := h 3 (Finset.Icc 0 1023) [⟨{3}, 1024, 0, fun _ => 1⟩] (by decide)
  rw [boot_of_inRange (by decide)] at hs
  cases hs
  refine hbounded.inside (anyStep_out_of_range (by decide) fun haccepts => ?_)
  have hlarge := haccepts ⟨by simp [Allowed, Server.init], by decide, (1, {3}),
    by simp [select, Server.init], by decide⟩
  exact absurd hlarge (by decide)

end LinuxDemo.Guarantees.SelectBounds
