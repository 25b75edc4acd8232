import LinuxDemo.Invariant.WheelService
import LinuxDemo.Invariant.ListService

/-!
# Guarantees of the two timer containers together

The timing wheel and the sorted list are two implementations of one timer service: given
the same requests in the same order, they cannot be told apart by which callbacks run at
which tick. The order within one tick tells them apart.
-/
namespace LinuxDemo.Guarantees.TimersAgree
open LinuxDemo.Lib LinuxDemo.Invariant

variable {υ : Type}

/-- Over every sequence of additions, deletions and ticks: both containers hold the same
timers, every tick invokes the same callbacks, the wheel in the reverse order, and a
request the one must refuse is a request the other must refuse. -/
theorem wheel_and_list_agree (userData : υ) (reqs : List TimerService.Request) :
    Safe (run Wheel.request Wheel.World.init reqs) (fun _ => True) ∧
      Agree (fun (wheel : Wheel.World) (list : TimerList.Clocked υ) =>
          wheel.1.fired = list.world.1.fired.map List.reverse ∧
          ∀ timer, timer ∈ wheel.1.live ↔ timer ∈ list.world.1.listed)
        (run Wheel.request Wheel.World.init reqs)
        (run (TimerList.request userData) TimerList.Clocked.init reqs) := by
  have wheel := run_agree Wheel.request_agree Wheel.implements_init reqs
  have list := run_agree (TimerList.request_agree userData) ⟨[], TimerList.implements_init⟩ reqs
  constructor
  · exact (run_ends Wheel.request Wheel.request_sound Wheel.sound_init reqs).mono fun _ _ => trivial
  · refine (wheel.trans list.symm).mono ?_
    rintro ⟨client, w⟩ c ⟨t, hw, l, hl⟩
    refine ⟨?_, fun timer => ?_⟩
    · rw [hl.fired]
      exact hw.fired
    · rw [hl.running_iff]
      exact hw.running_iff timer

/-- Timers 0 and 1 are due together; the list fires 0 first, the wheel 1. -/
example : ∃ wheel list,
    run Wheel.request Wheel.World.init [.start 2, .start 2, .tick, .tick, .tick] = .ok wheel ∧
    run (TimerList.request ()) TimerList.Clocked.init
      [.start 2, .start 2, .tick, .tick, .tick] = .ok list ∧
    wheel.1.fired = [[], [], [1, 0]] ∧ list.world.1.fired = [[], [], [0, 1]] :=
  ⟨_, _, rfl, rfl, rfl, rfl⟩

end LinuxDemo.Guarantees.TimersAgree
