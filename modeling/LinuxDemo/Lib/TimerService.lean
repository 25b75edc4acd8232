import LinuxDemo.Lib.Countdown
import LinuxDemo.Lib.Run
import Mathlib.Data.List.Sort

/-!
# What a timer facility is asked for

Timers are numbered in the order they are started. The service holds a countdown table and
the numbers given out; a tick fires the timers due, in the order they were started. To
cancel a timer that is not running is the caller's fault, and no wait is shorter than a tick.
-/
namespace LinuxDemo.Lib.TimerService
open Countdown

inductive Request where
  | start (timeout : ℕ)
  | cancel (timer : ℕ)
  | tick

structure State where
  table : Table ℕ
  fresh : ℕ
  /-- the timers each tick fired -/
  fired : List (List ℕ)

def State.init : State := ⟨fun _ => none, 0, []⟩

def due (s : State) : List ℕ := (List.range s.fresh).filter fun a => decide (s.table a = some 0)

def step (s : State) : Request → Except Fault State
  | .start timeout =>
    .ok { s with table := next s.table (.start s.fresh (max 1 timeout)), fresh := s.fresh + 1 }
  | .cancel timer =>
    if (s.table timer).isSome then .ok { s with table := next s.table (.cancel timer) }
    else .error .contract
  | .tick => .ok { s with table := next s.table .tick, fired := s.fired ++ [due s] }

/-- Only one list has the timers due in the order they were started. -/
theorem eq_due {s : State} {f : List ℕ} (sorted : f.Pairwise (· < ·))
    (mem : ∀ a, a ∈ f ↔ Due s.table a) (bounded : ∀ a, Due s.table a → a < s.fresh) : f = due s := by
  refine sorted.eq_of_mem_iff (List.pairwise_lt_range.filter _) fun a => ?_
  simp only [due, List.mem_filter, List.mem_range, decide_eq_true_eq, mem]
  exact ⟨fun h => ⟨bounded a h, h⟩, fun h => h.2⟩

end LinuxDemo.Lib.TimerService
