import LinuxDemo.Invariant.TimerListLedger

/-!
# Guarantees of the sorted timer list

About every run from an empty list, at any length. `Safe` rules out every fault but a
client that breaks its own contract.
-/
namespace LinuxDemo.Guarantees.TimerList
open LinuxDemo.Lib LinuxDemo.Source.ListTimer LinuxDemo.Invariant.TimerList

variable {υ : Type}

/-- The representation invariant: the nodes reached from `head` are the timers added
and not since deleted or fired, each once; in a list that is not empty the chain ends
at `tail` and is linked both ways; and `expire` does not decrease along it. -/
theorem list_invariant (ops : List (Op υ)) :
    Safe (run step World.init ops) fun (client, s) =>
      ∃ l : List Nat, s.head = l.head? ∧ l.Nodup ∧ (∀ a, a ∈ l ↔ a ∈ client.listed) ∧
        client.listed.Nodup ∧
        (∀ xs a ys, l = xs ++ a :: ys → ∃ t, s.heap.cell a = some t ∧
          t.prev = xs.getLast? ∧ t.next = ys.head?) ∧
        (s.head ≠ none → s.tail = l.getLast?) ∧
        ∀ xs a b ys t u, l = xs ++ a :: b :: ys → s.heap.cell a = some t →
          s.heap.cell b = some u → t.expire ≤ u.expire := by
  refine (run_sound ops).mono ?_
  rintro ⟨client, s⟩ ⟨l, w⟩
  refine ⟨l, w.repr.chain.head_eq, w.repr.chain.nodup, fun a => w.perm.mem_iff,
    w.perm.nodup_iff.mp w.repr.chain.nodup, ?_, ?_, ?_⟩
  · rintro xs a ys rfl
    exact w.repr.node
  · intro hne
    cases hlast : l.getLast? with
    | none =>
      obtain rfl := List.getLast?_eq_none_iff.mp hlast
      exact absurd w.repr.chain.head_eq hne
    | some a => exact w.repr.tail_eq a hlast
  · rintro xs a b ys t u rfl ht hu
    have h := (List.pairwise_cons.mp (List.pairwise_append.mp w.inOrder).2.1).1 b (by simp)
    rwa [key_of_cell ht, key_of_cell hu] at h

/-- Firing, over a run of any length that adds no timer twice. No callback is invoked
twice, none of a timer that `del_timer` was called on; a timer stays listed exactly as
long as no tick finds it expired; and from the state reached every tick invokes the
callbacks of the expired timers, each once and in order, and leaves the others. -/
theorem due_timers_fire (ops : List (Op υ)) :
    Safe (run ownedStep Owned.init ops) fun o =>
      o.2.1.fired.flatten.Nodup ∧
      (∀ t, Op.del t ∈ ops → t ∉ o.2.1.fired.flatten) ∧
      (∀ pre t mid o₁, ops = pre ++ .add t :: mid → Op.del t ∉ mid →
        run ownedStep Owned.init (pre ++ [.add t]) = .ok o₁ →
        (t ∈ o.2.1.listed ↔ Along ownedStep (Waits t) o₁ mid)) ∧
      ∀ cur, ∃ l, Sound o.2 l ∧ l.Nodup ∧ Total (step o.2 (.tick cur)) fun (client, s) =>
        client.fired = o.2.1.fired ++ [l.filter fun t => decide (key o.2.2.heap t ≤ cur)] ∧
        InOrder (key o.2.2.heap) (l.filter fun t => decide (key o.2.2.heap t ≤ cur)) ∧
        Sound (client, s) (l.filter fun t => decide (cur < key o.2.2.heap t)) := by
  refine (fired_sound ops).of_result ?_
  rintro o hrun ⟨⟨l, h⟩, once⟩
  refine ⟨once.nodup, ?_, ?_, ?_⟩
  · intro t ht
    obtain ⟨pre, post, rfl⟩ := List.append_of_mem ht
    obtain ⟨o₁, hpre, hrest⟩ := (run_append_eq_ok _).mp hrun
    obtain ⟨o₂, hdel, hpost⟩ := (bind_eq_ok_iff _ _ _).mp hrest
    exact (deleted_silent post ((fired_sound pre).of_ok hpre) hdel).of_ok hpost
  · intro pre t mid o₁ hops kept hadd
    obtain rfl : ops = (pre ++ [.add t]) ++ mid := by simpa using hops
    obtain ⟨o₁', hadd', hmid⟩ := (run_append_eq_ok _).mp hrun
    obtain rfl : o₁ = o₁' := by simpa [hadd] using hadd'
    obtain ⟨o₀, hpre, hstep⟩ := (run_append_eq_ok _).mp hadd
    obtain ⟨l₀, h₀⟩ := (owned_sound pre).of_ok hpre
    rw [run_singleton] at hstep
    obtain ⟨h₁, effect, added⟩ := (ownedStep_accounted o₀ (.add t) h₀).of_ok hstep
    have listed : t ∈ o₁.2.1.listed := (effect.listed t).mpr (.inr rfl)
    simpa [listed] using (listed_iff_waits kept h₁ (by simp [added])).of_ok hmid
  · intro cur
    refine ⟨l, h.sound, h.sound.repr.chain.nodup, (tick_sound h.sound).mono ?_⟩
    rintro ⟨client, s⟩ ⟨sound, fired, -⟩
    have hdue := h.sound.takeWhile_due cur
    rw [h.sound.dropWhile_due] at sound
    refine ⟨hdue ▸ fired, ?_, sound⟩
    exact h.sound.inOrder.sublist List.filter_sublist

/-- Which runs delete every timer added exactly once, by the operation that takes it off
the list or by the destructor, and never leave `head` or `tail` at a deleted one. -/
theorem deleted_once_iff (ops : List (Op υ)) :
    Safe (run ownedStep Owned.init ops) fun o => Total (ownedDestroy o) fun after =>
      ((∀ pre post o', ops = pre ++ post → run ownedStep Owned.init pre = .ok o' →
          Settled o' ∧ EndsLive o'.2.2) ∧
        ∀ t ∈ after.1.added, after.1.deleted.count t = 1) ↔
      Along ownedStep (fun o op => Spares o.2 op) Owned.init ops := by
  refine (owned_sound ops).of_result ?_
  rintro o hrun ⟨l, h⟩
  have init : Settled (Owned.init (υ := υ)) ∧ EndsLive (Owned.init (υ := υ)).2.2 := by
    simp [Settled, EndsLive, Owned.init, World.init, SortTimeList.init]
  have reached := along_iff_reached ownedStep (I := fun o => ∃ l, Accounted o l)
    (P := fun o => Settled o ∧ EndsLive o.2.2)
    (fun o op accounted kept => by
      obtain ⟨_, h⟩ := accounted
      exact ownedStep_kept_iff o op h kept.1 kept.2)
    ⟨[], accounted_init⟩ init ops ⟨o, hrun⟩
  refine (ownedDestroy_spec h).mono fun after hafter => ?_
  rw [← reached]
  refine and_iff_left_of_imp fun kept => hafter (kept ops [] o ?_ hrun).1
  simp

/-- Deleted from the middle, timer 1 is never freed; fired as the last one, timer 0 is what
`tail` still points to. -/
theorem middle_leaks_and_tail_dangles :
    (∃ after, (run ownedStep (Owned.init (υ := Unit)) [.new 1 (), .new 2 (), .new 3 (),
        .add 0, .add 1, .add 2, .del 1] >>= ownedDestroy) = .ok after ∧
      1 ∈ after.1.added ∧ after.1.deleted.count 1 = 0) ∧
    ∃ o, run ownedStep (Owned.init (υ := Unit)) [.new 1 (), .add 0, .tick 1] = .ok o ∧
      ¬ EndsLive o.2.2 :=
  ⟨⟨_, rfl, by decide, by decide⟩, _, rfl, fun h => absurd (h 0 (.inr rfl)) (by decide)⟩

end LinuxDemo.Guarantees.TimerList
