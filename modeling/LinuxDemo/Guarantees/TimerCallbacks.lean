import LinuxDemo.Invariant.TimerCallbacks

/-!
# Guarantee of a tick whose callbacks use the list

About the loop of `tick` with any number of rounds allowed, since callbacks that add
expired timers may keep it busy for ever. It uses up its rounds only if the callbacks it
has called made that many timers.
-/
namespace LinuxDemo.Guarantees.TimerCallbacks
open LinuxDemo.Lib LinuxDemo.Source.ListTimer LinuxDemo.Invariant.TimerList
open LinuxDemo.Invariant.TimerCallbacks

variable {υ : Type}

/-- After a tick the list is in order, and every timer listed before or made by a callback
was fired, or deleted, or is listed, just one of these and once, exactly if every callback
deleted again what it had added with an earlier `expire` than that of its own timer. -/
theorem callbacks_lose_nothing_iff {s : SortTimeList υ} {l : List Nat} (wf : Repr s l)
    (sorted : InOrder (key s.heap) l) (scripts : Nat → List (Action υ)) (cur : Int) (fuel : Nat) :
    Ends (fun f => f = .contract ∨ f = .fuel ∧ fuel < l.length + makes scripts fuel)
      (tickLoop (scripted scripts) cur fuel [] s s.head) fun (done, s') =>
        (∃ l', Repr s' l' ∧ InOrder (key s'.heap) l' ∧
          ∀ t, t ∈ l ∨ t ∈ done.flatMap Firing.made →
            (done.map Firing.timer).count t + (done.flatMap Firing.deleted).count t +
              l'.count t = 1) ↔
        ∀ f ∈ done, Quiet f := by
  refine (tick_scripted wf sorted fuel).mono ?_
  rintro ⟨done, s'⟩ ⟨l', r', sorted', books⟩
  constructor
  · rintro ⟨l₁, r₁, -, accounted⟩ f hf
    obtain rfl := r₁.unique r'
    rw [← lost_eq_nil_iff, List.eq_nil_iff_forall_not_mem]
    -- a lost timer was made, so it would be accounted for a second time
    intro t ht
    have hlost : t ∈ done.flatMap Firing.lost := List.mem_flatMap.mpr ⟨f, hf, ht⟩
    have hmade : t ∈ done.flatMap Firing.made := List.mem_flatMap.mpr ⟨f, hf, lost_subset_made f ht⟩
    have hcount := List.count_pos_iff.mpr hlost
    have one := accounted t (.inr hmade)
    have sum := books.sum t
    have once := books.le_one t
    omega
  · intro quiet
    refine ⟨l', r', sorted', fun t ht => ?_⟩
    have hlost : done.flatMap Firing.lost = [] := by
      rw [List.flatMap_eq_nil_iff]
      intro f hf
      exact (lost_eq_nil_iff f).mpr (quiet f hf)
    have known : 0 < l.count t + (done.flatMap Firing.made).count t := by
      rcases ht with ht | ht
      · exact Nat.add_pos_left (List.count_pos_iff.mpr ht) _
      · exact Nat.add_pos_right _ (List.count_pos_iff.mpr ht)
    have sum := books.sum t
    have once := books.le_one t
    rw [hlost, List.count_nil] at sum
    omega

/-- The one timer 0, expiring at 5. -/
def oneTimer : SortTimeList Unit where
  heap := Heap.empty.alloc ⟨5, (), none, none⟩
  head := some 0
  tail := some 0

theorem oneTimer_repr : Repr oneTimer [0] := ⟨⟨rfl, by decide, rfl, trivial⟩, fun _ ha => ha⟩

/-- A callback that takes its earlier timer back and leaves a later one. -/
theorem later_timer_is_kept :
    Ends (fun f => f = .contract ∨
        f = .fuel ∧ 4 < [0].length + makes (fun _ => [Action.add 3 (), .del 1, .add 9 ()]) 4)
      (tickLoop (scripted fun _ => [.add 3 (), .del 1, .add 9 ()]) 5 4 [] oneTimer oneTimer.head)
      fun (done, s') =>
        (∃ l', Repr s' l' ∧ InOrder (key s'.heap) l' ∧
          ∀ t, t ∈ [0] ∨ t ∈ done.flatMap Firing.made →
            (done.map Firing.timer).count t + (done.flatMap Firing.deleted).count t +
              l'.count t = 1) ↔
        ∀ f ∈ done, Quiet f :=
  callbacks_lose_nothing_iff oneTimer_repr (List.pairwise_singleton _ _) _ 5 4

/-- The callback of timer 0 adds timer 1, which expires at 3. The tick neither fires timer 1
nor leaves it on the list. -/
theorem earlier_timer_is_dropped :
    Repr oneTimer [0] ∧ InOrder (key oneTimer.heap) [0] ∧
      ∃ done s', tick (scripted fun _ => [.add 3 ()]) 5 [] oneTimer = .ok (done, s') ∧
        done.flatMap Firing.made = [1] ∧ done.map Firing.timer = [0] ∧
        done.flatMap Firing.deleted = [] ∧ Repr s' [] :=
  ⟨oneTimer_repr, List.pairwise_singleton _ _, _, _, rfl, rfl, rfl, rfl,
    ⟨Chain.nil _, fun _ ha => by cases ha⟩⟩

end LinuxDemo.Guarantees.TimerCallbacks
