import LinuxDemo.Invariant.PthreadTest

/-!
# When a thread is not created

`main` counts it in `numlive` all the same, so it goes round once more when every other
thread is joined, and waits for ever. One interleaving that gets there: every thread ends
before the next one is created.
-/
namespace LinuxDemo.Invariant.PthreadTest
open LinuxDemo.Lib LinuxDemo.Source.PthreadTest

section Creation
variable {n : Nat} {creates : Nat → Bool} {s s' : State}

/-- A state that the program can get to. -/
abbrev Reachable (n : Nat) (creates : Nat → Bool) (s : State) : Prop :=
  Reaches (step n creates) .init s

theorem Reachable.reaping (h : Reachable n creates s) : Reaping n creates s :=
  h.of_ends run_reaping

/-- Every thread created so far has ended, and nobody holds the mutex. -/
structure Quiet (creates : Nat → Bool) (k : Nat) (s : State) : Prop where
  free : s.mutex = none
  finished : ∀ i < k, creates i → s.worker i = .finished

/-- A thread that runs to its end while nobody else does anything. -/
theorem run_worker (n : Nat) (creates : Nat → Bool) {i : Nat} (hw : s.worker i = .sleeping) (free : s.mutex = none)
    (hm : s.main ≠ .waiting) :
    run (step n creates) s (List.replicate 7 (.worker i)) = .ok { s with
      worker := Function.update s.worker i .finished
      state := Function.update s.state i .terminated
      numunjoin := s.numunjoin + 1 } := by
  simp [List.replicate, run, step, workerStep, hw, free, hm]

theorem exists_creating (k : Nat) (hk : k ≤ n) :
    ∃ s, Reachable n creates s ∧ s.main = .creating k ∧ Quiet creates k s := by
  induction k with
  | zero => exact ⟨.init, .refl _, rfl, rfl, by simp⟩
  | succ k ih =>
    obtain ⟨s, reach, hm, quiet⟩ := ih (by omega)
    have hround : step n creates s .main = .ok (createThread k (creates k) s) := by
      simp [step, mainStep, hm, Nat.lt_of_succ_le hk]
    have created := reach.step_to hround
    cases hc : creates k with
    | false =>
      refine ⟨_, created, rfl, quiet.free, fun i hi hci => ?_⟩
      have hne : i ≠ k := by
        rintro rfl
        simp [hc] at hci
      have earlier := quiet.finished i (by omega) hci
      simpa [createThread, hc] using earlier
    | true =>
      rw [hc] at created
      have ends := run_worker n creates (s := createThread k true s) (i := k) (by simp [createThread])
        quiet.free (by simp [createThread])
      refine ⟨_, created.trans (.of_run ends), rfl, quiet.free, fun i hi hci => ?_⟩
      by_cases hik : i = k
      · simp [hik]
      · have earlier := quiet.finished i (by omega) hci
        simpa [createThread, hik] using earlier

/-- In front of the loop, every thread that was created has ended. -/
theorem exists_testing (n : Nat) (creates : Nat → Bool) :
    ∃ s, Reachable n creates s ∧ s.main = .testing ∧ Quiet creates n s := by
  obtain ⟨s, reach, hm, quiet⟩ := exists_creating n (le_refl n)
  have setting : run (step n creates) s [.main, .main, .main] =
      .ok { s with main := .testing, totThreads := n, numlive := n } := by
    simp [run, step, mainStep, hm]
  exact ⟨_, reach.trans (.of_run setting), rfl, quiet.free, quiet.finished⟩

/-- A thread that was not created stays in state `TS_ALIVE`. -/
theorem Reachable.alive (h : Reachable n creates s) {i : Nat} (hi : creates i = false) :
    s.worker i = .absent ∧ s.state i = .alive := by
  have absent : s.worker i = .absent := (h.reaping.control.absent i).mpr (.inr hi)
  refine ⟨absent, (h.reaping.record.alive i).mpr ?_⟩
  rw [absent]
  rfl

/-- A thread that has ended is joined, or is yet to be. -/
theorem Reachable.ended (h : Reachable n creates s) {i : Nat} (hw : s.worker i = .finished) :
    s.state i = .joined ∨ s.state i = .terminated := by
  have alive : s.state i ≠ .alive := by
    rw [Ne, h.reaping.record.alive i, hw]
    simp [unrecorded]
  cases hs : s.state i with
  | alive => exact absurd hs alive
  | terminated => exact .inr rfl
  | joined => exact .inl rfl

/-- Where a thread was not created, `main` does not find `numlive` zero. -/
theorem Reachable.numlive_pos (h : Reachable n creates s) (hfail : ∃ i < n, creates i = false)
    (hm : s.main = .testing) : 0 < s.numlive := by
  obtain ⟨i, hi, hci⟩ := hfail
  have live := h.reaping.count.live
  have some : unjoined s.state n ≠ 0 :=
    (tally_ne_zero_iff _ _ n).mpr ⟨i, hi, by simp [(h.alive hci).2]⟩
  rw [hm] at live
  have counted := live rfl
  omega

/-- `main` from the test of `numlive` to that of `numunjoin`. -/
theorem Reachable.testingUnjoin (h : Reachable n creates s) (hfail : ∃ i < n, creates i = false)
    (hm : s.main = .testing) (free : s.mutex = none) :
    Reachable n creates { s with main := .testingUnjoin, mutex := some .main } := by
  have live := h.numlive_pos hfail hm
  have locking : run (step n creates) s [.main, .main] =
      .ok { s with main := .testingUnjoin, mutex := some .main } := by
    simp [run, step, mainStep, hm, live, free]
  exact h.trans (.of_run locking)

/-- With nothing left to join, `main` waits. -/
theorem Reachable.waiting (h : Reachable n creates s) (hm : s.main = .testingUnjoin)
    (finished : ∀ i < n, creates i → s.worker i = .finished) (zero : s.numunjoin = 0) :
    ∃ s', Reachable n creates s' ∧ s'.main = .waiting ∧
      ∀ i < n, creates i → s'.state i = .joined := by
  have wait : step n creates s .main = .ok { s with main := .waiting, mutex := none } := by
    simp [step, mainStep, hm, zero]
  have unjoin := h.reaping.count.unjoin
  have none : terminated s.state n = 0 := by omega
  refine ⟨_, h.step_to wait, rfl, fun i hi hci => ?_⟩
  have passed := (tally_eq_zero_iff _ _ n).mp none i hi
  exact (h.ended (finished i hi hci)).resolve_right (by simpa using passed)

/-- The loop over `thread` from `idx` on joins every thread that has ended. -/
theorem Reachable.scan {m idx : Nat} (hidx : idx + m = n) (h : Reachable n creates s)
    (hm : s.main = .scanning idx) (finished : ∀ i < n, creates i → s.worker i = .finished)
    (done : ∀ i < idx, creates i → s.state i = .joined) :
    ∃ s', Reachable n creates s' ∧ s'.main = .unlocking ∧
      (∀ i < n, creates i → s'.worker i = .finished) ∧ ∀ i < n, creates i → s'.state i = .joined := by
  have tot : s.totThreads = n := h.reaping.control.tot (by rw [hm]; rfl)
  induction m generalizing idx s with
  | zero =>
    obtain rfl : idx = n := by omega
    have leave : step idx creates s .main = .ok { s with main := .unlocking } := by
      simp [step, mainStep, hm, tot]
    exact ⟨_, h.step_to leave, rfl, finished, done⟩
  | succ m ih =>
    have hlt : idx < n := by omega
    by_cases ht : s.state idx = .terminated
    · have created : creates idx = true := by
        by_contra hc
        have alive := (h.alive (by simpa using hc)).2
        simp [ht] at alive
      have join : run (step n creates) s (List.replicate 5 .main) = .ok { s with
          main := .scanning (idx + 1)
          state := Function.update s.state idx .joined
          numlive := s.numlive - 1
          numunjoin := s.numunjoin - 1
          joins := Function.update s.joins idx (s.joins idx + 1) } := by
        simp [List.replicate, run, step, mainStep, hm, tot, hlt, ht, finished idx hlt created]
      refine ih (by omega) (h.trans (.of_run join)) rfl finished ?_ tot
      intro i hi hci
      by_cases hii : i = idx
      · simp [hii]
      · simpa [hii] using done i (by omega) hci
    · have skip : step n creates s .main = .ok { s with main := .scanning (idx + 1) } := by
        simp [step, mainStep, hm, tot, hlt, ht]
      refine ih (by omega) (h.step_to skip) rfl finished ?_ tot
      intro i hi hci
      by_cases hii : i = idx
      · subst hii
        exact (h.ended (finished i hlt hci)).resolve_right ht
      · exact done i (by omega) hci

/-- With every thread that was created joined, `numunjoin` is zero. -/
theorem Reachable.numunjoin_eq_zero (h : Reachable n creates s) (hm : s.main = .testingUnjoin)
    (finished : ∀ i < n, creates i → s.worker i = .finished)
    (joined : ∀ i < n, creates i → s.state i = .joined) : s.numunjoin = 0 := by
  have states : terminated s.state n = 0 := by
    refine (tally_eq_zero_iff _ _ n).mpr fun i hi => ?_
    cases hci : creates i with
    | false => simp [(h.alive hci).2]
    | true => simp [joined i hi hci]
  have pcs : ahead s.worker n = 0 := by
    refine (tally_eq_zero_iff _ _ n).mpr fun i hi => ?_
    cases hci : creates i with
    | false => simp [(h.alive hci).1]
    | true => simp [finished i hi hci]
  have unjoin := h.reaping.count.unjoin
  rw [states, pcs, hm] at unjoin
  exact unjoin

/-- Where a thread was not created, `main` can get to wait with all the others joined. -/
theorem exists_starved (hfail : ∃ i < n, creates i = false) :
    ∃ s, Reachable n creates s ∧ s.main = .waiting ∧ ∀ i < n, creates i → s.state i = .joined := by
  obtain ⟨s, reach, hm, quiet⟩ := exists_testing n creates
  have first := reach.testingUnjoin hfail hm quiet.free
  by_cases zero : s.numunjoin = 0
  · exact first.waiting rfl quiet.finished zero
  · have enter : step n creates { s with main := .testingUnjoin, mutex := some .main } .main =
        .ok { s with main := .scanning 0, mutex := some .main } := by
      simp [step, mainStep, zero]
    have entered : Reachable n creates { s with main := .scanning 0, mutex := some .main } :=
      first.step_to enter
    obtain ⟨s₁, scanned, hm₁, finished, joined⟩ :=
      entered.scan (Nat.zero_add n) rfl quiet.finished (by simp)
    have unlock : step n creates s₁ .main = .ok { s₁ with main := .testing, mutex := none } := by
      simp [step, mainStep, hm₁]
    have again : Reachable n creates { s₁ with main := .testing, mutex := none } :=
      scanned.step_to unlock
    have second := again.testingUnjoin hfail rfl rfl
    exact second.waiting rfl finished (second.numunjoin_eq_zero rfl finished joined)

end Creation
end LinuxDemo.Invariant.PthreadTest
