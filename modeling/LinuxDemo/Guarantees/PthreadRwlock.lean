import LinuxDemo.Invariant.PthreadRwlock

/-!
# One writer is enough

`pthread_rwlock` with each of the two threads locking for reading or for writing, under every
schedule.
-/
namespace LinuxDemo.Guarantees.PthreadRwlock
open LinuxDemo.Lib LinuxDemo.Source.PthreadRwlock LinuxDemo.Invariant.PthreadRwlock

def mainFirst : List String :=
  ["main pthread begin,readlock\n", "value of a 0\n", "main pthread end,read unlock\n",
    "son pthread begin,writelock\n", "value of a 1\n", "son pthread end,write unlock\n"]

def sonFirst : List String :=
  ["son pthread begin,writelock\n", "value of a 2\n", "son pthread end,write unlock\n",
    "main pthread begin,readlock\n", "value of a 1\n", "main pthread end,read unlock\n"]

/-- What the source shows for two readers. -/
def bothReading : List Thread :=
  [.main, .main, .main, .son, .son, .main, .main, .main, .son, .son, .son, .son, .son, .main,
    .son, .main, .main, .main]

example : (run (step fun _ => .read) .init bothReading).map (fun s => s.shared.printed) =
    .ok ["main pthread begin,readlock\n", "son pthread begin,writelock\n", "value of a 1\n",
      "son pthread end,write unlock\n", "value of a 0\n", "main pthread end,read unlock\n"] := by
  decide

/-- The remark of the source: with two readers the result is not determined, and it is if one
of the two is a writer. Whatever they are, every schedule ends. -/
theorem in_turn_iff_some_writer (mode : Thread → Mode) :
    (Completes (step mode) .init fun s => s.place .main = .ended) ∧
    ((∀ ops, Safe (run (step mode) .init ops) fun s => s.place .main = .ended →
      s.shared.a = 1 ∧ (s.shared.printed = mainFirst ∨ s.shared.printed = sonFirst)) ↔
    ∃ t, mode t = .write) := by
  refine ⟨run_completes mode, fun h => ?_, fun writer ops => ?_⟩
  · by_contra none
    have readers : mode = fun _ => .read := by
      funext t
      cases hm : mode t with
      | read => rfl
      | write => exact absurd ⟨t, hm⟩ none
    subst readers
    have mixed := (h bothReading).of_ok rfl rfl
    exact absurd mixed (by decide)
  · refine (run_oneByOne writer ops).mono ?_
    rintro s ⟨placed, serial⟩ ended
    rcases serial.result placed ended with shared | shared
    · exact ⟨by rw [shared]; rfl, .inl (by rw [shared]; decide)⟩
    · exact ⟨by rw [shared]; rfl, .inr (by rw [shared]; decide)⟩

end LinuxDemo.Guarantees.PthreadRwlock
