import LinuxDemo.Invariant.TimerListAdjust

/-!
# Callbacks that use the list during a tick

The callback of a fired timer may add timers it has just made and delete other timers of
the list. It runs while the fired timer is still listed, and `tick` goes on behind that
timer afterwards: what the callback has put in front of it, and left there, is lost.
-/
namespace LinuxDemo.Invariant.TimerCallbacks
open LinuxDemo.Lib LinuxDemo.Source.ListTimer LinuxDemo.Invariant.TimerList

variable {υ : Type}

/-- The timers met from `head` on. -/
def timers (s : SortTimeList υ) : List Nat := s.heap.links.walk s.heap.fresh s.head

/-- A call that a callback makes. -/
inductive Action (υ : Type) where
  /-- `add_timer` of a timer it has just made -/
  | add (expire : Int) (userData : υ)
  /-- `del_timer` of another listed timer -/
  | del (timer : Nat)

/-- What a callback did: the timer it was called for with its `expire`, the timers it made
with theirs, and those it deleted. -/
structure Firing where
  timer : Nat
  expire : Int
  added : List (Nat × Int)
  deleted : List Nat

def Action.isAdd : Action υ → Bool
  | .add _ _ => true
  | .del _ => false

def act : Firing × SortTimeList υ → Action υ → Except Fault (Firing × SortTimeList υ)
  | (f, s), .add expire userData => do
    let timer := s.heap.fresh
    let s ← addTimer { s with heap := s.heap.alloc ⟨expire, userData, none, none⟩ } (some timer)
    return ({ f with added := f.added ++ [(timer, expire)] }, s)
  | (f, s), .del timer =>
    if timer ≠ f.timer ∧ timer ∈ timers s then do
      let s ← delTimer s (some timer)
      return ({ f with deleted := f.deleted ++ [timer] }, s)
    else .error .contract

/-- The callback of every timer. The `k`-th one called in a tick makes the calls `scripts k`. -/
def scripted (scripts : Nat → List (Action υ)) : Callback (List Firing) υ := fun timer _ done s => do
  let t ← s.heap.load (some timer)
  let (f, s) ← run act (⟨timer, t.expire, [], []⟩, s) (scripts done.length)
  return (done ++ [f], s)

/-- How many timers the first `n` callbacks make. -/
def makes (scripts : Nat → List (Action υ)) (n : Nat) : Nat :=
  ((List.range n).map fun k => (scripts k).countP Action.isAdd).sum

theorem makes_succ (scripts : Nat → List (Action υ)) (n : Nat) :
    makes scripts (n + 1) = makes scripts n + (scripts n).countP Action.isAdd := by
  simp [makes, List.range_succ]

/-- Every timer the callback made with an earlier `expire` than the fired one's, it deleted. -/
def Quiet (f : Firing) : Prop := ∀ p ∈ f.added, p.2 < f.expire → p.1 ∈ f.deleted

def Firing.made (f : Firing) : List Nat := f.added.map Prod.fst

/-- The timers made that went in front of the fired one. -/
def Firing.early (f : Firing) : List Nat :=
  (f.added.filter fun p => decide (p.2 < f.expire)).map Prod.fst

/-- And stayed there. -/
def Firing.lost (f : Firing) : List Nat := f.early.filter fun t => decide (t ∉ f.deleted)

theorem lost_eq_nil_iff (f : Firing) : f.lost = [] ↔ Quiet f := by
  simp [Firing.lost, Firing.early, Quiet, List.filter_eq_nil_iff]

theorem lost_subset_made (f : Firing) : f.lost ⊆ f.made := by
  intro t ht
  obtain ⟨p, hp, rfl⟩ := List.mem_map.mp (List.mem_filter.mp ht).1
  exact List.mem_map.mpr ⟨p, (List.mem_filter.mp hp).1, rfl⟩

theorem count_lost (f : Firing) (t : Nat) :
    f.lost.count t = if t ∈ f.deleted then 0 else f.early.count t := by
  unfold Firing.lost
  split
  next h => simp [List.count_eq_zero, h]
  next h => exact List.count_filter (by simpa using h)

/-- Books kept over a tick: every timer there ever was is on the list, or its callback was
called, or it was deleted, or lost, just once. `left` are the timers `tick` can reach. -/
structure Account (start : List Nat) (done : List Firing) (fresh : Nat) (left : List Nat) : Prop where
  sum : ∀ t, (done.map Firing.timer).count t + (done.flatMap Firing.deleted).count t +
    (done.flatMap Firing.lost).count t + left.count t =
      start.count t + (done.flatMap Firing.made).count t
  once : ∀ t, start.count t + (done.flatMap Firing.made).count t ≤ if t < fresh then 1 else 0

/-- While the callback of `f.timer` runs: what stands in front of that timer is what the
callback has put there. -/
structure During (start : List Nat) (done : List Firing) (w : Firing × SortTimeList υ)
    (front back : List Nat) : Prop where
  repr : Repr w.2 (front ++ w.1.timer :: back)
  inOrder : InOrder (key w.2.heap) (front ++ w.1.timer :: back)
  expire : key w.2.heap w.1.timer = w.1.expire
  front_lost : ∀ t, front.count t = w.1.lost.count t
  account : Account start (done ++ [w.1]) w.2.heap.fresh back

section Callback
variable {start : List Nat} {done : List Firing} {f : Firing} {s : SortTimeList υ}
  {front back : List Nat}

/-- A block that was never handed out is on no book. -/
theorem Account.unused {fresh : Nat} {left : List Nat} (h : Account start done fresh left) :
    (done.flatMap Firing.deleted).count fresh = 0 ∧ left.count fresh = 0 ∧
      start.count fresh + (done.flatMap Firing.made).count fresh = 0 := by
  have sum := h.sum fresh
  have once := h.once fresh
  rw [if_neg (Nat.lt_irrefl fresh)] at once
  omega

theorem Account.le_one {fresh : Nat} {left : List Nat} (h : Account start done fresh left) (t : Nat) :
    start.count t + (done.flatMap Firing.made).count t ≤ 1 := by
  refine (h.once t).trans ?_
  split <;> omega

theorem Account.not_deleted {fresh : Nat} {left : List Nat}
    (h : Account start (done ++ [f]) fresh left) : fresh ∉ f.deleted := by
  have unused := h.unused.1
  simp only [List.flatMap_append, List.flatMap_singleton, List.count_append] at unused
  exact List.count_eq_zero.mp (by omega)

theorem early_added (f : Firing) (t : Nat) (e : Int) :
    ({ f with added := f.added ++ [(t, e)] } : Firing).early =
      f.early ++ if e < f.expire then [t] else [] := by
  by_cases h : e < f.expire <;> simp [Firing.early, h]

/-- What is lost if a timer is made that no callback has deleted. -/
theorem count_lost_added {t : Nat} {e : Int} (kept : t ∉ f.deleted) (u : Nat) :
    ({ f with added := f.added ++ [(t, e)] } : Firing).lost.count u =
      f.lost.count u + if e < f.expire ∧ u = t then 1 else 0 := by
  rw [count_lost, count_lost, early_added]
  by_cases hu : u = t
  · subst hu
    by_cases he : e < f.expire <;> simp [kept, he]
  · have single : [t].count u = 0 := List.count_eq_zero.mpr (by simpa using hu)
    by_cases he : e < f.expire <;> simp [hu, he, single]

theorem count_lost_deleted (f : Firing) (t u : Nat) :
    ({ f with deleted := f.deleted ++ [t] } : Firing).lost.count u =
      if u = t then 0 else f.lost.count u := by
  rw [count_lost, count_lost]
  have same : ({ f with deleted := f.deleted ++ [t] } : Firing).early = f.early := rfl
  by_cases hu : u = t <;> simp [hu, same]

theorem count_cons_eq (t u : Nat) (l : List Nat) :
    (t :: l).count u = l.count u + if u = t then 1 else 0 := by
  by_cases h : u = t
  · simp [h]
  · rw [List.count_cons_of_ne (Ne.symm h), if_neg h, Nat.add_zero]

/-- The books after a timer was made: it is lost or it is among those `tick` can reach. -/
theorem Account.add {fresh : Nat} {e : Int} {back' : List Nat}
    (h : Account start (done ++ [f]) fresh back)
    (hback : ∀ u, back'.count u + (if e < f.expire ∧ u = fresh then 1 else 0) =
      back.count u + if u = fresh then 1 else 0) :
    Account start (done ++ [{ f with added := f.added ++ [(fresh, e)] }]) (fresh + 1) back' := by
  have unused := h.unused
  have kept := h.not_deleted
  have hmade : ∀ u, ({ f with added := f.added ++ [(fresh, e)] } : Firing).made.count u =
      f.made.count u + if u = fresh then 1 else 0 := by
    intro u
    simp only [Firing.made, List.map_append, List.map_singleton, List.count_append, count_cons_eq,
      List.count_nil, Nat.zero_add]
  constructor
  · intro u
    have sum := h.sum u
    have back_u := hback u
    simp only [List.map_append, List.map_singleton, List.flatMap_append, List.flatMap_singleton,
      List.count_append, hmade, count_lost_added kept] at sum ⊢
    omega
  · intro u
    have once := h.once u
    have := unused.2.2
    simp only [List.flatMap_append, List.flatMap_singleton, List.count_append, hmade] at this once ⊢
    by_cases hu : u = fresh
    · subst hu
      rw [if_pos rfl, if_pos (Nat.lt_succ_self u)]
      omega
    · rw [if_neg hu]
      refine le_trans (by omega) (once.trans ?_)
      split <;> split <;> omega

/-- The books after a timer was deleted, which was lost so far or in reach of `tick`. -/
theorem Account.delete {fresh t : Nat} {back' : List Nat}
    (h : Account start (done ++ [f]) fresh back)
    (hback : ∀ u, back'.count u + ({ f with deleted := f.deleted ++ [t] } : Firing).lost.count u +
      (if u = t then 1 else 0) = back.count u + f.lost.count u) :
    Account start (done ++ [{ f with deleted := f.deleted ++ [t] }]) fresh back' := by
  constructor
  · intro u
    have sum := h.sum u
    have back_u := hback u
    have made : ({ f with deleted := f.deleted ++ [t] } : Firing).made = f.made := rfl
    simp only [List.map_append, List.map_singleton, List.flatMap_append, List.flatMap_singleton,
      List.count_append, count_cons_eq, List.count_nil, Nat.zero_add, made] at sum ⊢
    omega
  · intro u
    simpa only [List.flatMap_append, List.flatMap_singleton, Firing.made] using h.once u

/-- A timer just made goes in front of the fired one if it expires earlier, behind it
otherwise. -/
theorem act_add (expire : Int) (userData : υ) (d : During start done (f, s) front back) :
    Safe (act (f, s) (.add expire userData)) fun w =>
      ∃ front back, During start done w front back := by
  obtain ⟨r, hkey⟩ := d.repr.alloc ⟨expire, userData, none, none⟩
  have absent : s.heap.fresh ∉ front ++ f.timer :: back := by
    intro hm
    obtain ⟨v, hv⟩ := Option.isSome_iff_exists.mp (d.repr.isSome hm)
    exact s.heap.ne_fresh_of_cell hv rfl
  have hcell := s.heap.cell_alloc_self ⟨expire, userData, none, none⟩
  obtain ⟨s', he, r', same⟩ := addTimer_spec r absent hcell rfl rfl
  have hself := (hkey f.timer (by simp)).trans d.expire
  have hnew := key_of_cell hcell
  have hkeys := key_eq same.data
  have sorted : InOrder (key s'.heap) (insertByKey (key (s.heap.alloc ⟨expire, userData, none, none⟩))
      s.heap.fresh (front ++ f.timer :: back)) := by
    rw [hkeys]
    exact (d.inOrder.congr hkey).insert
  have hperm := fun l u =>
    (insertByKey_perm (key (s.heap.alloc ⟨expire, userData, none, none⟩)) s.heap.fresh l).count_eq u
  have kept := d.account.not_deleted
  dsimp only at he r' same hself hkeys sorted
  simp only [act]
  rw [he]
  rw [← hkeys] at hself
  by_cases hlt : expire < f.expire
  · rw [insertByKey_left (by rw [hnew, ← hkeys, hself]; exact hlt)] at r' sorted
    refine ⟨_, back, r', sorted, hself, fun u => ?_, ?_⟩
    · rw [hperm, count_cons_eq, d.front_lost, count_lost_added kept]
      simp [hlt]
    · dsimp only
      rw [same.fresh]
      exact d.account.add fun u => by simp [hlt]
  · have hle : key (s.heap.alloc ⟨expire, userData, none, none⟩) f.timer ≤
        key (s.heap.alloc ⟨expire, userData, none, none⟩) s.heap.fresh := by
      rw [hnew, ← hkeys, hself]
      exact not_lt.mp hlt
    rw [(d.inOrder.congr hkey).insertByKey_right hle] at r' sorted
    refine ⟨front, _, r', sorted, hself, fun u => ?_, ?_⟩
    · rw [d.front_lost, count_lost_added kept]
      simp [hlt]
    · dsimp only
      rw [same.fresh]
      refine d.account.add fun u => ?_
      rw [hperm, count_cons_eq]
      simp [hlt]

theorem erase_around {t a : Nat} (nodup : (front ++ a :: back).Nodup) (hne : t ≠ a) :
    (front ++ a :: back).erase t = front.erase t ++ a :: back.erase t := by
  have apart := (List.nodup_append.mp nodup).2.2
  by_cases hf : t ∈ front
  · have hb : t ∉ back := fun hb => apart t hf t (by simp [hb]) rfl
    rw [List.erase_append_left _ hf, List.erase_of_not_mem hb]
  · rw [List.erase_append_right _ hf, List.erase_of_not_mem hf,
      List.erase_cons_tail (by simpa using hne.symm)]

/-- Another timer that is deleted stood in front of the fired one, and is not lost any more,
or behind it. -/
theorem act_del (t : Nat) (d : During start done (f, s) front back) :
    Safe (act (f, s) (.del t)) fun w => ∃ front back, During start done w front back := by
  simp only [act]
  split
  next h =>
    obtain ⟨hne, hmem⟩ := h
    rw [timers, d.repr.chain.walk_eq d.repr.length_le] at hmem
    have nodup := d.repr.chain.nodup
    have hone : front.count t + back.count t = 1 := by
      have := List.count_eq_one_of_mem nodup hmem
      rw [List.count_append, List.count_cons_of_ne hne.symm] at this
      exact this
    obtain ⟨xs, ys, hl⟩ := List.append_of_mem hmem
    have r : Repr s (xs ++ t :: ys) := hl ▸ d.repr
    obtain ⟨s', he, r', fresh, others, -⟩ := delTimer_spec r
    have hrest : xs ++ ys = front.erase t ++ f.timer :: back.erase t := by
      rw [← r.chain.erase_mid, ← hl, erase_around nodup hne]
    have hkeep : ∀ a ∈ xs ++ ys, key s'.heap a = key s.heap a := fun a ha =>
      key_congr (others a (r.of_mem_rest ha).1)
    have sorted : InOrder (key s'.heap) (xs ++ ys) := by
      refine InOrder.congr ?_ hkeep
      exact (hl ▸ d.inOrder).sublist ((List.sublist_cons_self t ys).append_left xs)
    rw [hrest] at r' sorted hkeep
    rw [he]
    refine ⟨_, _, r', sorted, (hkeep f.timer (by simp)).trans d.expire, fun u => ?_, ?_⟩
    · rw [List.count_erase, count_lost_deleted, ← d.front_lost]
      by_cases hu : u = t
      · subst hu
        simp
        omega
      · simp [hu, Ne.symm hu]
    · dsimp only
      rw [fresh]
      refine d.account.delete fun u => ?_
      rw [List.count_erase, count_lost_deleted, ← d.front_lost]
      by_cases hu : u = t
      · subst hu
        simp
        omega
      · simp [hu, Ne.symm hu]
  next => simp

/-- Whatever the callback does, the books stay right. -/
theorem act_during (w : Firing × SortTimeList υ) (op : Action υ)
    (h : ∃ front back, During start done w front back) :
    Safe (act w op) fun w' => ∃ front back, During start done w' front back := by
  obtain ⟨f, s⟩ := w
  obtain ⟨front, back, d⟩ := h
  cases op with
  | add expire userData => exact act_add expire userData d
  | del timer => exact act_del timer d

theorem act_record {w w' : Firing × SortTimeList υ} {op : Action υ} (h : act w op = .ok w') :
    w'.1.timer = w.1.timer ∧ w'.1.added.length = w.1.added.length + if op.isAdd then 1 else 0 := by
  obtain ⟨f, s⟩ := w
  cases op with
  | add expire userData =>
    obtain ⟨s', -, hw⟩ := (bind_eq_ok_iff _ _ _).mp h
    obtain rfl := Except.ok.inj hw
    simp [Action.isAdd]
  | del timer =>
    simp only [act] at h
    split at h
    next =>
      obtain ⟨s', -, hw⟩ := (bind_eq_ok_iff _ _ _).mp h
      obtain rfl := Except.ok.inj hw
      simp [Action.isAdd]
    next => cases h

/-- A whole callback. -/
theorem run_during {w : Firing × SortTimeList υ} (h : During start done w front back)
    (ops : List (Action υ)) :
    Safe (run act w ops) fun w' => (∃ front back, During start done w' front back) ∧
      w'.1.timer = w.1.timer ∧
      w'.1.added.length = w.1.added.length + ops.countP Action.isAdd := by
  let I : List (Action υ) → Firing × SortTimeList υ → Prop := fun sofar w' =>
    (∃ front back, During start done w' front back) ∧ w'.1.timer = w.1.timer ∧
      w'.1.added.length = w.1.added.length + sofar.countP Action.isAdd
  have init : I [] w := ⟨⟨front, back, h⟩, rfl, rfl⟩
  refine run_ends_history act (I := I) ?_ init ops
  rintro sofar w' op ⟨hd, htimer, hadded⟩
  refine (act_during w' op hd).of_result fun w'' hop hd' => ?_
  obtain ⟨htimer', hadded'⟩ := act_record hop
  refine ⟨hd', htimer'.trans htimer, ?_⟩
  rw [hadded', hadded, List.countP_append, List.countP_singleton, Nat.add_assoc]

end Callback

section Tick
variable {start : List Nat} {scripts : Nat → List (Action υ)} {cur : Int} {fuel n : Nat}
  {done : List Firing} {s : SortTimeList υ} {l : List Nat}

/-- Between two rounds of the loop, of which `n` more may follow. -/
structure Between (start : List Nat) (scripts : Nat → List (Action υ)) (fuel n : Nat)
    (done : List Firing) (s : SortTimeList υ) (l : List Nat) : Prop where
  inOrder : InOrder (key s.heap) l
  account : Account start done s.heap.fresh l
  rounds : done.length + n = fuel
  made : (done.flatMap Firing.made).length = makes scripts done.length

theorem between_init (r : Repr s l) (sorted : InOrder (key s.heap) l) :
    Between l scripts fuel fuel [] s l := by
  refine ⟨sorted, ⟨by simp, fun t => ?_⟩, by simp, rfl⟩
  have hone := List.nodup_iff_count_le_one.mp r.chain.nodup t
  by_cases hm : t ∈ l
  · obtain ⟨v, hv⟩ := Option.isSome_iff_exists.mp (r.isSome hm)
    simpa [s.heap.lt_fresh_of_cell hv] using hone
  · simp [List.count_eq_zero.mpr hm]

/-- The loop is cut short only if the callbacks have made too many timers for it. -/
theorem Between.out {a : Nat} {ys : List Nat} (b : Between start scripts fuel 0 done s (a :: ys)) :
    fuel < start.length + makes scripts fuel := by
  have perm : (done.map Firing.timer ++ done.flatMap Firing.deleted ++ done.flatMap Firing.lost ++
      a :: ys).Perm (start ++ done.flatMap Firing.made) :=
    List.perm_iff_count.mpr fun t => by simpa only [List.count_append] using b.account.sum t
  have lengths := perm.length_eq
  have rounds := b.rounds
  have made := b.made
  simp only [List.length_append, List.length_map, List.length_cons, Nat.add_zero] at lengths rounds
  subst rounds
  omega

/-- The callback of the timer at the head. -/
theorem Between.fire {a : Nat} {ys : List Nat} {e : Int} {u : υ} (r : Repr s (a :: ys))
    (hd : s.heap.data a = some (e, u)) (b : Between start scripts fuel (n + 1) done s (a :: ys)) :
    Safe (scripted scripts a u done s) fun (done', s') => ∃ front back,
      Repr s' (front ++ a :: back) ∧
        Between start scripts fuel n done' (popped s' a back) back := by
  obtain ⟨v, hv, hdv⟩ := Option.map_eq_some_iff.mp hd
  obtain ⟨rfl, rfl⟩ : v.expire = e ∧ v.userData = u := by simpa [LinkNode.data] using hdv
  have d : During start done (⟨a, v.expire, [], []⟩, s) [] ys := by
    refine ⟨r, b.inOrder, key_of_cell hv, fun t => rfl, fun t => ?_, fun t => ?_⟩
    · have sum := b.account.sum t
      rw [count_cons_eq] at sum
      simp only [List.map_append, List.map_singleton, List.flatMap_append, List.flatMap_singleton,
        List.count_append, count_cons_eq, List.count_nil, Nat.zero_add, Firing.lost, Firing.early,
        Firing.made, List.filter_nil, List.map_nil, Nat.add_zero] at sum ⊢
      omega
    · simpa [Firing.made] using b.account.once t
  simp only [scripted]
  rw [Heap.load_some _ hv, ok_bind]
  refine (run_during d (scripts done.length)).bind ?_
  rintro ⟨f, s'⟩ ⟨⟨front, back, d'⟩, htimer, hadded⟩
  obtain rfl : f.timer = a := htimer
  refine ⟨front, back, d'.repr, ?_, by simpa [popped] using d'.account, ?_, ?_⟩
  · have hback := (List.pairwise_cons.mp (List.pairwise_append.mp d'.inOrder).2.1).2
    have absent := (List.nodup_cons.mp (List.nodup_append.mp d'.repr.chain.nodup).2.1).1
    refine InOrder.congr hback fun t ht => key_congr ?_
    rw [data_popped, Function.update_of_ne]
    rintro rfl
    exact absent ht
  · have rounds := b.rounds
    simp only [List.length_append, List.length_singleton]
    omega
  · have made := b.made
    simp only [List.length_nil, Nat.zero_add] at hadded
    simp only [List.flatMap_append, List.flatMap_singleton, List.length_append, made, Firing.made,
      List.length_map, hadded, List.length_singleton, makes_succ]

/-- A tick over a list in order whose callbacks use the list. -/
theorem tick_scripted (r : Repr s l) (sorted : InOrder (key s.heap) l) (fuel : Nat) :
    Ends (fun f => f = .contract ∨ f = .fuel ∧ fuel < l.length + makes scripts fuel)
      (tickLoop (scripted scripts) cur fuel [] s s.head) fun (done, s') =>
        ∃ l', Repr s' l' ∧ InOrder (key s'.heap) l' ∧ Account l done s'.heap.fresh l' := by
  rw [r.chain.head_eq]
  refine (tickLoop_ends (fun n done s l' => Between l scripts fuel n done s l') ?_ ?_ fuel [] s l r
    (between_init r sorted)).mono ?_
  · intro done s a ys b
    exact .inr ⟨rfl, b.out⟩
  · intro n done s a ys e u r hd _ b
    have safe := Between.fire r hd b
    cases hcb : scripted scripts a u done s with
    | error e =>
      rw [hcb] at safe
      exact .inl safe
    | ok w =>
      rw [hcb] at safe
      exact safe
  · rintro ⟨done, s'⟩ ⟨n, l', r', b, -⟩
    exact ⟨l', r', b.inOrder, b.account⟩

end Tick
end LinuxDemo.Invariant.TimerCallbacks
