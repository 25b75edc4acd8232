import LinuxDemo.Invariant.TimerListLedger
import LinuxDemo.Lib.Lockstep
import LinuxDemo.Lib.TimerService

/-!
# The sorted timer list as a timer service

The clock counts the ticks made, and a timer is given the reading at which its wait is
over. Timers with one `expire` stand on the list in the order they were added, and none of
a past reading is left, so a tick fires the timers due in the order they were added.
-/
namespace LinuxDemo.Invariant.TimerList
open LinuxDemo.Lib LinkNode LinuxDemo.Source.ListTimer

variable {υ : Type}

structure Clocked (υ : Type) where
  world : World υ
  /-- ticks made -/
  now : Int

def Clocked.init : Clocked υ := ⟨World.init, 0⟩

def request (userData : υ) (c : Clocked υ) : TimerService.Request → Except Fault (Clocked υ)
  | .start timeout => do
    let timer := c.world.2.heap.fresh
    let world ← step c.world (.new (c.now + (max 1 timeout : Nat)) userData)
    let world ← step world (.add timer)
    return ⟨world, c.now⟩
  | .cancel timer => do
    let world ← step c.world (.del timer)
    return ⟨world, c.now⟩
  | .tick => do
    let world ← step c.world (.tick c.now)
    return ⟨world, c.now + 1⟩

/-- The list `l` and the client's books are in the state `t` of the service. -/
structure Implements (c : Clocked υ) (t : TimerService.State) (l : List Nat) : Prop where
  sound : Sound c.world l
  later : ∀ a ∈ l, c.now ≤ key c.world.2.heap a
  first : l.Pairwise fun a b => key c.world.2.heap a = key c.world.2.heap b → a < b
  table : ∀ a, t.table a = if a ∈ l then some (key c.world.2.heap a - c.now).toNat else none
  fresh : c.world.2.heap.fresh = t.fresh
  fired : c.world.1.fired = t.fired

theorem implements_init : Implements (Clocked.init (υ := υ)) TimerService.State.init [] where
  sound := sound_init
  later := by simp
  first := List.Pairwise.nil
  table := by simp [TimerService.State.init]
  fresh := rfl
  fired := rfl

section Effects
variable {c : Client} {s : SortTimeList υ} {l : List Nat}

/-- A new timer, added at once. -/
theorem new_add (w : Sound (c, s) l) (expire : Int) (userData : υ) :
    ∃ s', (step (c, s) (.new expire userData) >>= fun world => step world (.add s.heap.fresh)) =
        .ok ({ c with listed := s.heap.fresh :: c.listed }, s') ∧
      Sound ({ c with listed := s.heap.fresh :: c.listed }, s')
        (insertByKey (key s'.heap) s.heap.fresh l) ∧
      s'.heap.fresh = s.heap.fresh + 1 ∧ key s'.heap s.heap.fresh = expire ∧
      ∀ a ∈ l, key s'.heap a = key s.heap a := by
  obtain ⟨r, hkey⟩ := w.repr.alloc ⟨expire, userData, none, none⟩
  have absent : s.heap.fresh ∉ l := fun h => lt_irrefl _ (w.lt_fresh h)
  have hv := s.heap.cell_alloc_self ⟨expire, userData, none, none⟩
  obtain ⟨s', he, r', same⟩ := addTimer_spec r absent hv rfl rfl
  have keys : key s'.heap = key (s.heap.alloc ⟨expire, userData, none, none⟩) := key_eq same.data
  have order : InOrder (key s'.heap) l := w.inOrder.congr fun a ha => by rw [keys, hkey a ha]
  refine ⟨s', ?_, ⟨?_, ?_, order.insert⟩, by simp [same.fresh], ?_,
    fun a ha => by rw [keys, hkey a ha]⟩
  · have hlinks := Heap.links_of_cell _ hv
    have hnot : s.heap.fresh ∉ c.listed := fun h => absent (w.perm.mem_iff.mpr h)
    simp [step, hlinks, hnot, he, LinkNode.prev, LinkNode.next]
  · rw [keys]
    exact r'
  · exact (insertByKey_perm _ _ l).trans (w.perm.cons _)
  · rw [keys, key_of_cell hv]

theorem tick_fresh {cur : Int} (w : Sound (c, s) l) :
    Total (step (c, s) (.tick cur)) fun w' => w'.2.heap.fresh = s.heap.fresh := by
  refine (tick_exact (f := fun a b => (b.1.erase a, b.2 ++ [a])) (c := (c.listed, []))
    (fun _ _ _ _ => rfl) w.repr).bind ?_
  rintro ⟨⟨listed, firing⟩, s'⟩ ⟨-, -, hfresh, -⟩
  exact hfresh

/-- The list without one of its timers. -/
theorem mem_rest_iff {xs ys : List Nat} {t a : Nat} (nodup : (xs ++ t :: ys).Nodup) :
    a ∈ xs ++ ys ↔ a ≠ t ∧ a ∈ xs ++ t :: ys := by
  have absent : t ∉ xs ++ ys := (List.nodup_middle.mp nodup).notMem
  constructor
  · intro ha
    exact ⟨fun e => absent (e ▸ ha), ((List.sublist_cons_self t ys).append_left xs).subset ha⟩
  · rintro ⟨hne, ha⟩
    simpa [hne] using ha

end Effects

namespace Implements
variable {c : Clocked υ} {t : TimerService.State} {l : List Nat}

theorem running_iff (h : Implements c t l) (a : Nat) : a ∈ c.world.1.listed ↔ (t.table a).isSome := by
  rw [h.table a, ← h.sound.perm.mem_iff]
  split <;> simp_all

theorem start (userData : υ) (h : Implements c t l) (timeout : Nat) :
    Agree (fun c t => ∃ l, Implements c t l) (request userData c (.start timeout))
      (TimerService.step t (.start timeout)) := by
  obtain ⟨⟨client, s⟩, now⟩ := c
  obtain ⟨s', he, sound, hfresh, hnew, hold⟩ :=
    new_add h.sound (now + (max 1 timeout : Nat)) userData
  have hlt : ∀ a ∈ l, a < s.heap.fresh := fun a ha => h.sound.lt_fresh ha
  have same : s.heap.fresh = t.fresh := h.fresh
  have hreq : request userData ⟨(client, s), now⟩ (.start timeout) =
      .ok ⟨({ client with listed := s.heap.fresh :: client.listed }, s'), now⟩ := by
    have := congrArg (· >>= fun world => Except.ok (Clocked.mk world now)) he
    simpa [request, bind_assoc] using this
  rw [hreq]
  refine ⟨_, sound, ?_, ?_, ?_, ?_, h.fired⟩
  · intro a ha
    rcases (mem_insertByKey _ _ a l).mp ha with rfl | ha
    · simp only [hnew]
      omega
    · simp only [hold a ha]
      exact h.later a ha
  · have order : InOrder (key s'.heap) l := h.sound.inOrder.congr hold
    refine order.pairwise_insert ?_ (fun a ha _ _ => hlt a ha) fun a ha hlt' e => absurd e hlt'.ne
    refine List.Pairwise.imp_of_mem ?_ h.first
    intro a b ha hb hab e
    rw [hold a ha, hold b hb] at e
    exact hab e
  · intro a
    simp only [Countdown.next, mem_insertByKey, ← same]
    by_cases e : a = s.heap.fresh
    · subst e
      simp only [Function.update_self, true_or, if_true, hnew, Option.some.injEq]
      omega
    · rw [Function.update_of_ne e, h.table a]
      by_cases ha : a ∈ l
      · simp [e, ha, hold a ha]
      · simp [e, ha]
  · simp [hfresh, same]

theorem cancel (userData : υ) (h : Implements c t l) (timer : Nat) :
    Agree (fun c t => ∃ l, Implements c t l) (request userData c (.cancel timer))
      (TimerService.step t (.cancel timer)) := by
  obtain ⟨⟨client, s⟩, now⟩ := c
  simp only [request, step, TimerService.step]
  by_cases ht : timer ∈ client.listed
  · have hmem := h.sound.perm.mem_iff.mpr ht
    have sound := (del_sound (t := timer) h.sound)
    obtain ⟨xs, ys, rfl⟩ := List.append_of_mem hmem
    obtain ⟨s', he, del⟩ := delTimer_spec h.sound.repr
    have nodup := h.sound.repr.chain.nodup
    have hkey : ∀ a ∈ xs ++ ys, key s'.heap a = key s.heap a := by
      intro a ha
      exact key_congr (del.others a ((mem_rest_iff nodup).mp ha).1)
    have sub : (xs ++ ys).Sublist (xs ++ timer :: ys) :=
      (List.sublist_cons_self timer ys).append_left xs
    rw [if_pos ht, if_pos ((h.running_iff timer).mp ht), he]
    refine ⟨xs ++ ys, ⟨del.repr, ?_, ?_⟩, ?_, ?_, ?_, ?_, h.fired⟩
    · have hperm : (timer :: (xs ++ ys)).Perm (timer :: client.listed.erase timer) :=
        List.perm_middle.symm.trans (h.sound.perm.trans (List.perm_cons_erase ht))
      exact hperm.cons_inv
    · exact InOrder.congr (h.sound.inOrder.sublist sub) hkey
    · intro a ha
      simp only [hkey a ha]
      exact h.later a (sub.subset ha)
    · refine List.Pairwise.imp_of_mem ?_ (h.first.sublist sub)
      intro a b ha hb hab e
      rw [hkey a ha, hkey b hb] at e
      exact hab e
    · intro a
      simp only [Countdown.next, mem_rest_iff nodup]
      by_cases e : a = timer
      · simp [e]
      · rw [Function.update_of_ne e, h.table a]
        simp only [ne_eq, e, not_false_eq_true, true_and]
        split
        next ha => rw [hkey a ((mem_rest_iff nodup).mpr ⟨e, ha⟩)]
        next => rfl
    · simpa [del.fresh] using h.fresh
  · rw [if_neg ht, if_neg fun hs => ht ((h.running_iff timer).mpr hs)]
    rfl

theorem due_eq (h : Implements c t l) :
    l.takeWhile (due c.world.2.heap c.now) = TimerService.due t := by
  have hmem : ∀ a, a ∈ l.takeWhile (due c.world.2.heap c.now) ↔
      a ∈ l ∧ key c.world.2.heap a ≤ c.now := by
    intro a
    rw [h.sound.takeWhile_due]
    simp
  refine TimerService.eq_due ?_ (fun a => ?_) fun a ha => ?_
  · refine List.Pairwise.imp_of_mem ?_ (h.first.sublist (List.takeWhile_sublist _))
    intro a b ha hb hab
    obtain ⟨ha, hka⟩ := (hmem a).mp ha
    obtain ⟨hb, hkb⟩ := (hmem b).mp hb
    have hla := h.later a ha
    have hlb := h.later b hb
    exact hab (by omega)
  · rw [hmem, Countdown.Due, h.table a]
    split
    next ha => simp [ha]
    next ha => simp [ha]
  · rw [Countdown.Due, h.table a] at ha
    split at ha
    next hl => exact h.fresh ▸ h.sound.lt_fresh hl
    next => cases ha

theorem tick (userData : υ) (h : Implements c t l) :
    Agree (fun c t => ∃ l, Implements c t l) (request userData c .tick)
      (TimerService.step t .tick) := by
  obtain ⟨⟨client, s⟩, now⟩ := c
  have sub := List.dropWhile_sublist (l := l) (due s.heap now)
  refine Agree.of_total ?_ ⟨_, rfl⟩
  refine ((tick_sound h.sound).and (tick_fresh h.sound)).bind ?_
  rintro ⟨client', s'⟩ ⟨⟨sound, hfired, hdata⟩, hfresh⟩ t' ht'
  obtain rfl := Except.ok.inj ht'
  have hkey : ∀ a ∈ l.dropWhile (due s.heap now), key s'.heap a = key s.heap a :=
    fun a ha => key_congr (hdata a ha)
  have hmem : ∀ a, a ∈ l.dropWhile (due s.heap now) ↔ a ∈ l ∧ now < key s.heap a := by
    intro a
    rw [h.sound.dropWhile_due]
    simp
  refine ⟨_, sound, ?_, ?_, ?_, ?_, ?_⟩
  · intro a ha
    have := ((hmem a).mp ha).2
    simp only [hkey a ha]
    omega
  · refine List.Pairwise.imp_of_mem ?_ (h.first.sublist sub)
    intro a b ha hb hab e
    rw [hkey a ha, hkey b hb] at e
    exact hab e
  · intro a
    simp only [Countdown.next, h.table a, hmem]
    by_cases ha : a ∈ l
    · have hla : now ≤ key s.heap a := h.later a ha
      by_cases hlt : now < key s.heap a
      · obtain ⟨k, hk⟩ := Int.eq_ofNat_of_zero_le (show 0 ≤ key s.heap a - now - 1 by omega)
        rw [if_pos ha, if_pos ⟨ha, hlt⟩, hkey a ((hmem a).mpr ⟨ha, hlt⟩),
          show key s.heap a - now = (k + 1 : Nat) by omega]
        simp only [Int.toNat_natCast, Countdown.down, Option.some.injEq]
        omega
      · rw [if_pos ha, if_neg fun h => hlt h.2, show key s.heap a - now = 0 by omega]
        rfl
    · simp [ha, Countdown.down]
  · exact hfresh.trans h.fresh
  · have hlog : client.fired = t.fired := h.fired
    rw [hfired, hlog, ← h.due_eq]

end Implements

/-- Request by request, the list is the service. -/
theorem request_agree (userData : υ) (c : Clocked υ) (t : TimerService.State)
    (req : TimerService.Request) (h : ∃ l, Implements c t l) :
    Agree (fun c t => ∃ l, Implements c t l) (request userData c req) (TimerService.step t req) := by
  obtain ⟨l, h⟩ := h
  cases req with
  | start timeout => exact h.start userData timeout
  | cancel timer => exact h.cancel userData timer
  | tick => exact h.tick userData

end LinuxDemo.Invariant.TimerList
