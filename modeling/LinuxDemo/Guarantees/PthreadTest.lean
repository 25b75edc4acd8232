import LinuxDemo.Invariant.PthreadCreation

/-!
# Every thread is reaped

`pthread_test` with every thread created: in any interleaving, with wake-ups of the
condition variable without a signal anywhere, the counts agree with the recorded states
whenever the mutex is free, nothing is joined twice or too early, nobody gets stuck, and
`main` leaves its loop with everything joined. Where a thread is not created, `main` may
wait for ever.
-/
namespace LinuxDemo.Guarantees.PthreadTest
open LinuxDemo.Lib LinuxDemo.Source.PthreadTest LinuxDemo.Invariant.PthreadTest

/-- The parts are, in order: the counts; the calls of `pthread_join`; the wake-ups; a thread
being joined has ended after two more steps of its own at most; somebody can move, without
a wake-up out of nowhere; and what is left when `main` leaves. -/
theorem every_thread_is_reaped (n : Nat) (ops : List Op) :
    Safe (run (step n fun _ => true) .init ops) fun s =>
      (s.mutex = none →
        s.numunjoin = terminated s.state n ∧ (liveSet s.main → s.numlive = unjoined s.state n)) ∧
      (∀ i, s.joins i ≤ 1 ∧ (0 < s.joins i → i < n ∧ released (s.worker i))) ∧
      (s.main = .waiting → terminated s.state n = 0 ∨ signalDue s.worker) ∧
      (∀ i, s.main = .joining i → ∃ k ≤ 2, ∃ s',
        run (step n fun _ => true) s (List.replicate k (.worker i) ++ [.main]) = .ok s') ∧
      (s.main ≠ .left → ∃ op, op ≠ .wakeUp ∧ ∃ s', step n (fun _ => true) s op = .ok s') ∧
      (s.main = .left →
        (∀ i < n, s.state i = .joined ∧ s.joins i = 1) ∧ s.numlive = 0 ∧ s.numunjoin = 0) := by
  refine (run_reaping ops).mono fun s h => ⟨h.counts, ?_, h.signal.waiting, ?_, ?_, ?_⟩
  · intro i
    refine ⟨?_, h.released⟩
    have once := h.record.once i
    grind
  · exact fun i hm => join_returns h hm
  · exact no_deadlock h fun i _ => rfl
  · intro hl
    obtain ⟨all, live, unjoin⟩ := h.all_joined hl
    refine ⟨fun i hi => ⟨all i hi, ?_⟩, live, unjoin⟩
    have once := h.record.once i
    simpa [all i hi] using once

/-- One thread that is through before `main` has set `numlive`. -/
example :
    (run (step 1 fun _ => true) .init
      (.main :: List.replicate 7 (.worker 0) ++ List.replicate 14 .main)).map
        (fun s => (s.main, s.numlive, s.numunjoin, s.joins 0)) = .ok (.left, 0, 0, 1) := rfl

/-- What reaping is, whichever calls of `pthread_create` succeed. In every state: nothing is
joined twice, and nothing that was not created; `main` has not left without joining every
thread that was; somebody can move; and `main` does not wait with none left to join. -/
def ReapsCreated (n : Nat) (creates : Nat → Bool) : Prop :=
  ∀ ops, Safe (run (step n creates) .init ops) fun s =>
    (∀ i, s.joins i ≤ 1 ∧ (0 < s.joins i → i < n ∧ creates i)) ∧
    (s.main = .left → ∀ i < n, creates i → s.joins i = 1) ∧
    (s.main ≠ .left → ∃ op, op ≠ .wakeUp ∧ ∃ s', step n creates s op = .ok s') ∧
    ¬ (s.main = .waiting ∧ ∀ i < n, creates i → s.state i = .joined)

theorem reaps_created_iff (n : Nat) (creates : Nat → Bool) :
    ReapsCreated n creates ↔ ∀ i < n, creates i := by
  constructor
  · intro h
    by_contra hall
    have hfail : ∃ i < n, creates i = false := by simpa using hall
    obtain ⟨s, reach, waits, joined⟩ := exists_starved hfail
    exact (reach.of_ends h).2.2.2 ⟨waits, joined⟩
  · intro all ops
    refine (run_reaping ops).mono fun s h => ⟨fun i => ⟨?_, ?_⟩, ?_, no_deadlock h all, ?_⟩
    · have once := h.record.once i
      grind
    · intro hi
      obtain ⟨hn, -⟩ := h.released hi
      exact ⟨hn, all i hn⟩
    · intro hl i hi _
      have once := h.record.once i
      simpa [h.all_joined hl |>.1 i hi] using once
    · rintro ⟨waits, joined⟩
      obtain ⟨i, hi, left⟩ := h.some_unjoined waits
      exact left (joined i hi (all i hi))

/-- Two threads, the second of which is not created. -/
theorem second_thread_not_created : ¬ ReapsCreated 2 fun i => i = 0 := by
  intro h
  have stuck := (h (.main :: .main :: List.replicate 7 (.worker 0) ++ List.replicate 17 .main)).of_ok rfl
  exact stuck.2.2.2 ⟨rfl, by decide⟩

end LinuxDemo.Guarantees.PthreadTest
