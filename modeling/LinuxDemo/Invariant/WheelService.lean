import LinuxDemo.Invariant.WheelSchedule
import LinuxDemo.Lib.Lockstep
import LinuxDemo.Lib.TimerService

/-!
# The timing wheel as a timer service

Every slot holds its timers newest first, whatever was added, deleted and fired, so the
wheel fires the timers due in the reverse of the order they were added in.
-/
namespace LinuxDemo.Invariant.Wheel
open LinuxDemo.Lib LinkNode LinuxDemo.Source.TimerWheel

def request (world : World) : TimerService.Request → Except Fault World
  | .start timeout => step world (.call (.addTimer timeout))
  | .cancel timer => step world (.call (.deleteTimer timer))
  | .tick => step world (.tick fun _ => [])

/-- The slots hold their timers newest first. -/
def Newest (chain : Int → List Nat) : Prop := ∀ i, IsSlot i → (chain i).Pairwise (· > ·)

section Effects
variable {w : TimeWheel} {chain : Int → List Nat}

theorem Newest.added (n : Newest chain) (r : Repr w chain) (ts : Int) :
    Newest (Function.update chain ts (w.heap.fresh :: chain ts)) := by
  intro i hi
  by_cases e : i = ts
  · subst e
    rw [Function.update_self]
    refine List.pairwise_cons.mpr ⟨fun a ha => ?_, n i hi⟩
    obtain ⟨v, hv, -⟩ := r.cell_of_mem hi ha
    exact w.heap.lt_fresh_of_cell hv
  · rw [Function.update_of_ne e]
    exact n i hi

theorem Newest.without {i : Int} {xs ys : List Nat} {a : Nat} (n : Newest chain)
    (hc : chain i = xs ++ a :: ys) : Newest (Function.update chain i (xs ++ ys)) := by
  intro j hj
  by_cases e : j = i
  · subst e
    have old := n j hj
    rw [hc] at old
    rw [Function.update_self]
    exact old.sublist ((List.sublist_cons_self a ys).append_left xs)
  · rw [Function.update_of_ne e]
    exact n j hj

/-- A quiet tick takes timers out of their slots and does nothing else to the order. -/
theorem quiet_tick_newest {script : Nat → List Call} (quiet : ∀ a, script a = []) {s : Client}
    (r : Repr w chain) (n : Newest chain) :
    Total (tick (callback script) s w) fun (_, w') => ∃ chain', Repr w' chain' ∧ Newest chain' := by
  rw [tick_eq r]
  refine (tickLoop_rule (fun _ _ chain _ => Newest chain) ?_ ?_ w.heap.fresh s w chain []
    (chain w.curSlot) (r.length_le r.cur) r rfl n).bind ?_
  · intro s w chain xs a ys k r hc hd hk n
    exact n
  · intro s w chain xs a ys r hc hd n
    simp only [callback, quiet, run_nil, Ends.ok_iff]
    exact ⟨chain, xs, ys, ⟨r, rfl, hc, le_refl _⟩, n.without hc⟩
  · rintro ⟨s', w'⟩ ⟨chain', r', -, n'⟩
    exact ⟨chain', r'.advance, n'⟩

end Effects

/-- The wheel and the client's books are in the state `t` of the service. -/
structure Implements (world : World) (t : TimerService.State) : Prop where
  slots : ∃ chain, Repr world.2 chain ∧ Newest chain
  owns : Owns world.2 world.1.live
  table : schedule world.2 = t.table
  fresh : world.2.heap.fresh = t.fresh
  fired : world.1.fired = t.fired.map List.reverse

theorem implements_init : Implements World.init TimerService.State.init where
  slots := ⟨_, repr_init, fun _ _ => List.Pairwise.nil⟩
  owns := owns_init
  table := by
    funext a
    simp [schedule, World.init, TimeWheel.init, Heap.data, Heap.empty, TimerService.State.init]
  fresh := rfl
  fired := rfl

namespace Implements
variable {s : Client} {w : TimeWheel} {t : TimerService.State}

theorem running_iff (h : Implements (s, w) t) (a : Nat) : a ∈ s.live ↔ (t.table a).isSome := by
  rw [h.owns.mem_iff a, ← h.table]
  simp [schedule]

theorem start (h : Implements (s, w) t) (timeout : Nat) :
    Agree Implements (request (s, w) (.start timeout)) (TimerService.step t (.start timeout)) := by
  obtain ⟨chain, r, n⟩ := h.slots
  simp only [request, step, call, addTimer_eq r (Int.natCast_nonneg timeout), ok_bind, pure_ok,
    TimerService.step, Agree.ok_iff]
  constructor
  · exact ⟨_, r.added (isSlot_slotOf _ _) (rotationOf_nonneg _), n.added r _⟩
  · exact h.owns.added _ _
  · rw [schedule_added, h.table, h.fresh]
    rfl
  · simpa using h.fresh
  · exact h.fired

theorem cancel (h : Implements (s, w) t) (timer : Nat) :
    Agree Implements (request (s, w) (.cancel timer)) (TimerService.step t (.cancel timer)) := by
  obtain ⟨chain, r, n⟩ := h.slots
  simp only [request, step, call, TimerService.step]
  by_cases ha : timer ∈ s.live
  · obtain ⟨i, xs, ys, hi, hc, he⟩ := deleteTimer_spec r h.owns ha
    rw [if_pos ha, if_pos ((h.running_iff timer).mp ha), he]
    constructor
    · exact ⟨_, r.without hi hc, n.without hc⟩
    · exact h.owns.without i xs timer ys
    · rw [schedule_without, h.table]
      rfl
    · simpa [Wheel.without] using h.fresh
    · exact h.fired
  · rw [if_neg ha, if_neg fun hs => ha ((h.running_iff timer).mpr hs)]
    rfl

/-- What fires is a part of one slot, so it fires newest first. -/
theorem tick (h : Implements (s, w) t) :
    Agree Implements (request (s, w) .tick) (TimerService.step t .tick) := by
  obtain ⟨chain, r, n⟩ := h.slots
  have quiet : ∀ a : Nat, (fun _ => [] : Nat → List Call) a = [] := fun _ => rfl
  have exact_tick := (quiet_tick quiet (s := { s with firing := [] }) r).and
    (quiet_tick_newest quiet (s := { s with firing := [] }) r n)
  have sound := tick_sound (fun _ => []) { s with firing := [] } w ⟨chain, r, h.owns⟩
  refine Agree.of_total ?_ ⟨_, rfl⟩
  simp only [request, step]
  refine (exact_tick.of_result fun world' hrun hworld => And.intro hworld (sound.of_ok hrun)).bind ?_
  rintro ⟨s', w'⟩ ⟨⟨⟨hfired, hfiring, hfresh, hsch⟩, hslots⟩, chain', r', owns'⟩ t' ht'
  obtain rfl := Except.ok.inj ht'
  have hdue : s'.firing.reverse = TimerService.due t := by
    refine TimerService.eq_due ?_ (fun a => ?_) fun a ha => ?_
    · rw [hfiring, List.pairwise_reverse]
      simpa using (n _ r.cur).filter _
    · rw [← h.table, due_iff r, List.mem_reverse, hfiring]
      simp [firesNow]
    · rw [← h.table] at ha
      exact h.fresh ▸ lt_fresh_of_due ha
  constructor
  · exact hslots
  · simpa using owns'
  · rw [hsch, h.table]
  · exact hfresh.trans h.fresh
  · have hlog : s.fired = t.fired.map List.reverse := h.fired
    simp [hfired, hlog, ← hdue]

end Implements

/-- Request by request, the wheel is the service, newest timer first. -/
theorem request_agree (world : World) (t : TimerService.State) (req : TimerService.Request)
    (h : Implements world t) : Agree Implements (request world req) (TimerService.step t req) := by
  obtain ⟨s, w⟩ := world
  cases req with
  | start timeout => exact h.start timeout
  | cancel timer => exact h.cancel timer
  | tick => exact h.tick

theorem request_sound (world : World) (req : TimerService.Request) (h : Sound [] world) :
    Safe (request world req) (Sound []) := by
  cases req with
  | start timeout => exact step_sound world (.call (.addTimer timeout)) h
  | cancel timer => exact step_sound world (.call (.deleteTimer timer)) h
  | tick => exact step_sound world (.tick fun _ => []) h

end LinuxDemo.Invariant.Wheel
