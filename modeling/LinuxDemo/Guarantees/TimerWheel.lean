import LinuxDemo.Invariant.WheelRearm
import LinuxDemo.Invariant.WheelSchedule

/-!
# Guarantees of the timing wheel

All are about every run from the zero-initialised wheel, at any length. `Safe` rules
out every fault but a client that breaks its own contract; a read through the pointer
of a deleted timer would be such a fault.
-/
namespace LinuxDemo.Guarantees.TimerWheel
open LinuxDemo.Lib LinuxDemo.Source.TimerWheel LinuxDemo.Invariant.Wheel

/-- Every timer fires at its own time. After any `pre`, a timer is added; after any
further `mid`, the next tick invokes its callback once if exactly `max 1 timeout` ticks
went by since (so that this is tick number `max 1 timeout + 1`) and nobody deleted it,
and otherwise not at all. What else was added, deleted or fired does not matter. -/
theorem timer_fires_on_time (pre mid : List Op) (timeout : Nat)
    (quiet : ∀ op ∈ pre ++ mid, op.Quiet)
    (kept : run step World.init (pre ++ .call (.addTimer timeout) :: mid) ≠ .error .contract) :
    ∃ before timer wheel after final fired,
      run step World.init pre = .ok before ∧
      addTimer before.2 timeout = .ok (some timer, wheel) ∧
      (∀ f ∈ before.1.fired, timer ∉ f) ∧
      run step World.init (pre ++ .call (.addTimer timeout) :: mid) = .ok after ∧
      step after (.tick fun _ => []) = .ok final ∧
      final.1.fired = after.1.fired ++ [fired] ∧
      (ticks mid = max 1 timeout ∧ Op.call (.deleteTimer timer) ∉ mid → fired.count timer = 1) ∧
      (¬(ticks mid = max 1 timeout ∧ Op.call (.deleteTimer timer) ∉ mid) → timer ∉ fired) := by
  have hpre := quiet_run_refines pre (fun op h => quiet op (by simp [h])) World.init sound_init
    (by simp [World.init])
  cases hb : run step World.init pre with
  | error f =>
    rw [hb] at hpre
    exact absurd (by rw [run_append, hb, hpre]; rfl) kept
  | ok before =>
    rw [run_append, hb, ok_bind] at kept ⊢
    have rpre := hpre.of_ok hb
    obtain ⟨chain, r, -⟩ := rpre.sound
    have hadd := addTimer_eq r (Int.natCast_nonneg timeout)
    -- the timer is on the table from its start on
    have hstart := quiet_step_refines before (.call (.addTimer timeout)) trivial rpre.sound
    have hsound := step_sound before (.call (.addTimer timeout)) rpre.sound
    cases hs : step before (.call (.addTimer timeout)) with
    | error f =>
      rw [hs] at hsound
      exact absurd (by rw [run_cons, hs, hsound]; rfl) kept
    | ok started =>
      rw [run_cons, hs, ok_bind] at kept ⊢
      have rstart := hstart.of_ok hs
      have ht : schedule started.2 before.2.heap.fresh = some (max 1 timeout) := by
        rw [rstart.schedule_eq]
        simp [eventOf, Countdown.next]
      have hlt := (rstart.start_lt _ _ rfl).2
      obtain ⟨after, ha, rmid⟩ := (quiet_run_refines mid (fun op h => quiet op (by simp [h])) started
        (hsound.of_ok hs) (fired_lt_step rstart rpre.fired_lt)).result kept
      obtain ⟨evs, hsch, hticks, hcancel, honce⟩ := rmid.events
      let silent : Nat → List Call := fun _ => []
      have hsilent : ∀ a, silent a = [] := fun _ => rfl
      obtain ⟨final, hf, rfinal⟩ := (quiet_tick_refines after hsilent rmid.sound).result
      obtain ⟨fired, hlog, hnodup, hdue⟩ := by simpa [Op.isTick] using rfinal.log
      have key := Countdown.fires_at (schedule started.2) _ _ ht evs fun k => honce _ k hlt
      rw [← hsch, hticks, hcancel, ← hdue] at key
      refine ⟨before, before.2.heap.fresh, _, after, final, fired, rfl, hadd, ?_, ha, hf, hlog, ?_, ?_⟩
      · intro f hf hm
        exact absurd (rpre.fired_lt f hf _ hm) (lt_irrefl _)
      · intro h
        exact List.count_eq_one_of_mem hnodup (key.mpr h)
      · intro h hm
        exact h (key.mp hm)

/-- A timer added for one second is fired by the second tick. -/
theorem timer_of_one_second_fires :
    ∃ after final fired timer,
      run step World.init [.call (.addTimer 1), .tick fun _ => []] = .ok after ∧
      step after (.tick fun _ => []) = .ok final ∧
      final.1.fired = after.1.fired ++ [fired] ∧ fired.count timer = 1 := by
  obtain ⟨_, timer, _, after, final, fired, -, -, -, ha, hf, hlog, hone, -⟩ :=
    timer_fires_on_time [] [.tick fun _ => []] 1 (by simp [Op.Quiet]) nofun
  exact ⟨after, final, fired, timer, ha, hf, hlog, hone ⟨rfl, by simp⟩⟩

/-- The representation invariant, with callbacks that call back into the wheel. -/
theorem wheel_invariant (ops : List Op) :
    Safe (run step World.init ops) fun (client, w) =>
      0 ≤ w.curSlot ∧ w.curSlot < N ∧ client.live.Nodup ∧
      ∃ chain : Int → List Nat,
        (∀ i, 0 ≤ i → i < N → Chain w.heap.links (w.slot i) (chain i) ∧
          ∀ a ∈ chain i, ∃ t, w.heap.cell a = some t ∧ t.timeSlot = i ∧ 0 ≤ t.rotation) ∧
        (∀ a, a ∈ client.live ↔ ∃ i, 0 ≤ i ∧ i < N ∧ a ∈ chain i) ∧
        ∀ i j a, 0 ≤ i → i < N → 0 ≤ j → j < N → a ∈ chain i → a ∈ chain j → i = j := by
  refine (run_sound ops).mono ?_
  rintro ⟨client, w⟩ ⟨chain, r, o⟩
  refine ⟨r.cur.1, r.cur.2, o.nodup, chain, ?_, ?_, ?_⟩
  · intro i h0 hN
    exact ⟨r.linked i ⟨h0, hN⟩, fun a ha => r.cell_of_mem ⟨h0, hN⟩ ha⟩
  · intro a
    constructor
    · intro ha
      obtain ⟨i, hi, hmem⟩ := r.slot_of_owned o ha
      exact ⟨i, hi.1, hi.2, hmem⟩
    · rintro ⟨i, h0, hN, hmem⟩
      obtain ⟨n, hd, -⟩ := r.placed i ⟨h0, hN⟩ a hmem
      exact (o.mem_iff a).mpr (by simp [hd])
  · intro i j a hi hi' hj hj' ha hb
    by_contra hne
    exact r.disjoint ⟨hi, hi'⟩ ⟨hj, hj'⟩ hne ha hb

/-- A timer made by a callback fires in the `max 1 timeout`-th tick after the running one,
and only then, exactly if that number is not a multiple of the 60 slots: about every timer
nobody deleted, in every run, once that tick is over. -/
theorem rearmed_timer_fires_iff (ops : List Op) :
    Safe (run diaryStep (Diary.init, TimeWheel.init) ops) fun (d, _) =>
      ∀ m ∈ d.made, m.inTick = true → m.timer ∉ d.deleted →
        m.begun + max 1 m.timeout ≤ d.begun →
        (d.firesOf m.timer = [m.begun + max 1 m.timeout] ↔ ¬ 60 ∣ max 1 m.timeout) := by
  refine (diary_sound ops).mono ?_
  rintro ⟨d, w⟩ h m hm hin kept hlater
  rw [Resting.firesOf_eq h hm kept]
  simp only [Made.due, hin, if_true]
  by_cases hslots : 60 ∣ max 1 m.timeout
  · simp only [hslots, if_true, not_true, iff_false]
    split
    next => simp
    next => simp
  · simp [hslots, hlater]

/-- The callback of timer 0 adds one for 60 ticks in tick 2; after tick 62 it has not run. -/
theorem rearmed_for_sixty_is_late :
    ¬ ∀ ops, Safe (run diaryStep (Diary.init, TimeWheel.init) ops) fun (d, _) =>
      ∀ m ∈ d.made, m.inTick = true → m.timer ∉ d.deleted →
        m.begun + max 1 m.timeout ≤ d.begun →
        d.firesOf m.timer = [m.begun + max 1 m.timeout] := by
  intro h
  obtain ⟨ops, hrun⟩ : ∃ ops, (run diaryStep (Diary.init, TimeWheel.init) ops).map
      (fun (d, _) => (d.made.head?, d.begun, d.deleted, d.firesOf 1)) =
        .ok (some ⟨1, 60, 2, true⟩, 62, [], []) :=
    ⟨.call (.addTimer 1) :: .tick (fun _ => []) ::
      .tick (fun a => if a = 0 then [.addTimer 60] else []) :: List.replicate 60 (.tick fun _ => []),
      by decide +kernel⟩
  cases hops : run diaryStep (Diary.init, TimeWheel.init) ops with
  | error f =>
    rw [hops] at hrun
    cases hrun
  | ok world =>
    rw [hops] at hrun
    obtain ⟨hmade, hbegun, hdeleted, hfires⟩ :
        world.1.made.head? = some ⟨1, 60, 2, true⟩ ∧ world.1.begun = 62 ∧ world.1.deleted = [] ∧
          world.1.firesOf 1 = [] := by
      simpa [Except.map] using hrun
    have late := (h ops).of_ok hops ⟨1, 60, 2, true⟩ (List.mem_of_head? hmade) rfl
      (by simp [hdeleted]) (by simp [hbegun])
    simp [hfires] at late

end LinuxDemo.Guarantees.TimerWheel
