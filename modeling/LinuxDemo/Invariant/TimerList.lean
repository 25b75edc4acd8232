import LinuxDemo.Source.ListTimer
import LinuxDemo.Lib.SortedList
import LinuxDemo.Lib.Run
import Mathlib.Tactic

/-!
# Representation of the sorted timer list

`Repr s l` says which timers the list holds, in which order. It does not ask for the
order of `expire`: every operation keeps the links whatever the keys are, and what it
does to `l` is stated exactly. That the list stays in order is then a fact about `l`.
-/
namespace LinuxDemo.Invariant.TimerList
open LinuxDemo.Lib LinkNode LinuxDemo.Source.ListTimer

variable {υ : Type}

/-- The `expire` of a timer. -/
def key (h : Heap (UtilTimer υ)) (a : Nat) : Int := ((h.data a).map Prod.fst).getD 0

theorem key_of_cell {h : Heap (UtilTimer υ)} {a : Nat} {v : UtilTimer υ} (hv : h.cell a = some v) :
    key h a = v.expire := by
  simp [key, Heap.data, hv, LinkNode.data]

theorem key_eq {h h' : Heap (UtilTimer υ)} (e : h'.data = h.data) : key h' = key h := by
  funext a
  simp [key, e]

theorem key_congr {h h' : Heap (UtilTimer υ)} {a : Nat} (e : h'.data a = h.data a) :
    key h' a = key h a := by
  simp [key, e]

structure Repr (s : SortTimeList υ) (l : List Nat) : Prop where
  chain : Chain s.heap.links s.head l
  tail_eq : ∀ a, l.getLast? = some a → s.tail = some a

theorem repr_init : Repr (SortTimeList.init (υ := υ)) [] :=
  ⟨Chain.nil _, fun a h => by cases h⟩

variable {s : SortTimeList υ} {xs ys l : List Nat} {p t : Nat}

theorem Repr.node (r : Repr s (xs ++ t :: ys)) :
    ∃ v, s.heap.cell t = some v ∧ v.prev = xs.getLast? ∧ v.next = ys.head? := by
  obtain ⟨v, hv, hp, hn⟩ := s.heap.cell_of_links r.chain.links_mid
  exact ⟨v, hv, hp, hn⟩

theorem Repr.isSome (r : Repr s l) {a : Nat} (ha : a ∈ l) : (s.heap.cell a).isSome := by
  obtain ⟨xs, ys, rfl⟩ := List.append_of_mem ha
  obtain ⟨v, hv, -⟩ := r.node
  simp [hv]

/-- The list without one of its timers. -/
theorem Repr.of_mem_rest (r : Repr s (xs ++ t :: ys)) {a : Nat} (ha : a ∈ xs ++ ys) :
    a ≠ t ∧ a ∈ xs ++ t :: ys := by
  constructor
  · intro e
    exact r.chain.not_mem_of_mid (e ▸ ha)
  · exact ((List.sublist_cons_self t ys).append_left xs).subset ha

theorem Repr.length_le (r : Repr s l) : l.length ≤ s.heap.fresh := by
  have sub : l ⊆ List.range s.heap.fresh := by
    intro a ha
    obtain ⟨v, hv⟩ := Option.isSome_iff_exists.mp (r.isSome ha)
    exact List.mem_range.mpr (s.heap.lt_fresh_of_cell hv)
  simpa using (r.chain.nodup.subperm sub).length_le

/-- Everything an operation on the links leaves alone. -/
structure SameData (s s' : SortTimeList υ) : Prop where
  data : s'.heap.data = s.heap.data
  fresh : s'.heap.fresh = s.heap.fresh

/-- The three assignments at the end of the list. -/
theorem Repr.append (r : Repr s (xs ++ [p])) (absent : t ∉ xs ++ [p]) (live : (s.heap.cell t).isSome) :
    Repr { s with
      heap := ((s.heap.adjust p (setNext (some t))).adjust t (setPrev (some p))).adjust t (setNext none)
      tail := some t } (xs ++ [p] ++ [t]) := by
  have hpt : p ≠ t := fun e => absent (by simp [e])
  obtain ⟨v, hv⟩ := Option.isSome_iff_exists.mp live
  have c : Chain s.heap.links s.head ((xs ++ [p]) ++ []) := by simpa using r.chain
  refine ⟨c.insert (by simpa using absent) ?_ ?_ ?_ (by simp) ?_, by simp⟩
  · rw [r.chain.head_eq]
    cases xs <;> simp
  · simp [Heap.links_adjust_setPrev, Heap.links_adjust_setNext, Links.setNext_ne _ _ hpt.symm,
      Heap.links_of_cell _ hv]
  · intro q hq
    obtain rfl : p = q := by simpa using hq
    simp [Heap.links_adjust_setPrev, Heap.links_adjust_setNext, Links.setNext_ne _ _ hpt,
      Links.setPrev_ne _ _ hpt]
  · intro a ha hl _
    have hat : a ≠ t := fun e => absent (by simpa [e] using ha)
    have hap : a ≠ p := fun e => hl (by simp [e])
    simp [Heap.links_adjust_setPrev, Heap.links_adjust_setNext, Links.setNext_ne _ _ hat,
      Links.setPrev_ne _ _ hat, Links.setNext_ne _ _ hap]

/-- The four assignments between two neighbours. -/
theorem Repr.between {q : Nat} (r : Repr s (xs ++ p :: q :: ys)) (absent : t ∉ xs ++ p :: q :: ys)
    (live : (s.heap.cell t).isSome) :
    Repr { s with
      heap := (((s.heap.adjust p (setNext (some t))).adjust t (setNext (some q))).adjust q
        (setPrev (some t))).adjust t (setPrev (some p)) } (xs ++ p :: t :: q :: ys) := by
  have hpt : p ≠ t := fun e => absent (by simp [e])
  have hqt : q ≠ t := fun e => absent (by simp [e])
  have hpq : p ≠ q := by
    have := (List.nodup_append.mp r.chain.nodup).2.1
    simp only [List.nodup_cons, List.mem_cons, not_or] at this
    exact this.1.1
  obtain ⟨v, hv⟩ := Option.isSome_iff_exists.mp live
  have c : Chain s.heap.links s.head ((xs ++ [p]) ++ q :: ys) := by simpa using r.chain
  have hsplit : xs ++ p :: t :: q :: ys = (xs ++ [p]) ++ t :: q :: ys := by simp
  rw [hsplit]
  refine ⟨c.insert (by simpa using absent) ?_ ?_ ?_ ?_ ?_, ?_⟩
  · rw [r.chain.head_eq]
    cases xs <;> simp
  · simp [Heap.links_adjust_setPrev, Heap.links_adjust_setNext, Links.setNext_ne _ _ hpt.symm,
      Links.setPrev_ne _ _ hqt.symm, Heap.links_of_cell _ hv]
  · intro b hb
    obtain rfl : p = b := by simpa using hb
    simp [Heap.links_adjust_setPrev, Heap.links_adjust_setNext, Links.setNext_ne _ _ hpt,
      Links.setPrev_ne _ _ hpt, Links.setPrev_ne _ _ hpq]
  · intro b hb
    obtain rfl : q = b := by simpa using hb
    simp [Heap.links_adjust_setPrev, Heap.links_adjust_setNext, Links.setNext_ne _ _ hqt,
      Links.setPrev_ne _ _ hqt, Links.setNext_ne _ _ hpq.symm]
  · intro a ha hl hr
    have hat : a ≠ t := by
      rintro rfl
      exact absent (by simpa using ha)
    have hap : a ≠ p := fun e => hl (by simp [e])
    have haq : a ≠ q := fun e => hr (by simp [e])
    simp [Heap.links_adjust_setPrev, Heap.links_adjust_setNext, Links.setNext_ne _ _ hat,
      Links.setPrev_ne _ _ hat, Links.setNext_ne _ _ hap, Links.setPrev_ne _ _ haq]
  · intro a ha
    refine r.tail_eq a ?_
    simpa [List.getLast?_append, List.getLast?_cons] using ha

/-- The two assignments in front of the list. -/
theorem Repr.front {q : Nat} (r : Repr s (q :: ys)) (absent : t ∉ q :: ys) {v : UtilTimer υ}
    (hv : s.heap.cell t = some v) (hprev : v.prev = none) :
    Repr { s with
      heap := (s.heap.adjust t (setNext (some q))).adjust q (setPrev (some t))
      head := some t } (t :: q :: ys) := by
  have hqt : q ≠ t := fun e => absent (by simp [e])
  have c : Chain s.heap.links s.head ([] ++ q :: ys) := r.chain
  refine ⟨c.insert absent rfl ?_ (by simp) ?_ ?_, ?_⟩
  · simp [Heap.links_adjust_setPrev, Heap.links_adjust_setNext, Links.setPrev_ne _ _ hqt.symm,
      Heap.links_of_cell _ hv, LinkNode.prev, hprev]
  · intro b hb
    obtain rfl : q = b := by simpa using hb
    simp [Heap.links_adjust_setPrev, Heap.links_adjust_setNext, Links.setNext_ne _ _ hqt]
  · intro a ha _ hr
    have hat : a ≠ t := by
      rintro rfl
      exact absent ha
    have haq : a ≠ q := fun e => hr (by simp [e])
    simp [Heap.links_adjust_setPrev, Heap.links_adjust_setNext, Links.setNext_ne _ _ hat,
      Links.setPrev_ne _ _ haq]
  · intro a ha
    refine r.tail_eq a ?_
    simpa [List.getLast?_cons] using ha

/-- The loop of the private `add_timer`: the timer lands in front of the first one behind
`p` that expires strictly later. -/
theorem insertLoop_spec (r : Repr s (xs ++ p :: ys)) (absent : t ∉ xs ++ p :: ys)
    (live : (s.heap.cell t).isSome) {fuel : Nat} (hfuel : ys.length ≤ fuel) :
    ∃ s', insertLoop s (some t) fuel (some p) ys.head? = .ok s' ∧
      Repr s' (xs ++ p :: insertByKey (key s.heap) t ys) ∧ SameData s s' := by
  induction ys generalizing xs p fuel with
  | nil =>
    have hp := r.isSome (a := p) (by simp)
    have happ := r.append absent live
    simp only [List.append_assoc, List.cons_append, List.nil_append] at happ
    refine ⟨_, ?_, happ, ⟨by simp, by simp⟩⟩
    simp [insertLoop, Heap.modify_some _ _ hp, Heap.modify_some, live]
  | cons q ys ih =>
    obtain ⟨fuel, rfl⟩ : ∃ n, fuel = n + 1 := ⟨fuel - 1, by simp at hfuel; omega⟩
    have hp := r.isSome (a := p) (by simp)
    have hq := r.isSome (a := q) (by simp)
    obtain ⟨v, hv⟩ := Option.isSome_iff_exists.mp live
    have rq : Repr s ((xs ++ [p]) ++ q :: ys) := by simpa using r
    obtain ⟨u, hu, -, hnext⟩ := rq.node
    simp only [List.head?_cons, insertLoop, Heap.load_some _ hv, Heap.load_some _ hu, ok_bind]
    rw [insertByKey_cons, key_of_cell hv, key_of_cell hu]
    split
    next hlt =>
      refine ⟨_, ?_, r.between absent live, ⟨by simp, by simp⟩⟩
      simp [Heap.modify_some _ _ hp, Heap.modify_some, live, hq]
    next hge =>
      rw [hnext]
      have hlen : ys.length ≤ fuel := by simpa using hfuel
      obtain ⟨s', he, hr, hs⟩ := ih rq (by simpa using absent) hlen
      exact ⟨s', he, by simpa using hr, hs⟩

/-- The private `add_timer`. -/
theorem addTimerAfter_spec (r : Repr s (xs ++ p :: ys)) (absent : t ∉ xs ++ p :: ys)
    (live : (s.heap.cell t).isSome) :
    ∃ s', addTimerAfter s (some t) (some p) = .ok s' ∧
      Repr s' (xs ++ p :: insertByKey (key s.heap) t ys) ∧ SameData s s' := by
  obtain ⟨v, hv, -, hnext⟩ := r.node
  have hlen : ys.length ≤ s.heap.fresh := by
    have := r.length_le
    simp only [List.length_append, List.length_cons] at this
    omega
  simpa only [addTimerAfter, Heap.load_some _ hv, ok_bind, hnext] using
    insertLoop_spec r absent live hlen

/-- The public `add_timer` puts a timer with `NULL` links where its key belongs. -/
theorem addTimer_spec (r : Repr s l) (absent : t ∉ l) {v : UtilTimer υ} (hv : s.heap.cell t = some v)
    (hprev : v.prev = none) (hnext : v.next = none) :
    ∃ s', addTimer s (some t) = .ok s' ∧ Repr s' (insertByKey (key s.heap) t l) ∧ SameData s s' := by
  have live : (s.heap.cell t).isSome := by simp [hv]
  cases l with
  | nil =>
    have hhead : s.head = none := r.chain.head_eq
    refine ⟨{ s with head := some t, tail := some t }, by simp [addTimer, hhead], ?_, rfl, rfl⟩
    refine ⟨⟨rfl, by simp, ?_, trivial⟩, by simp⟩
    simp [Heap.links_of_cell _ hv, LinkNode.prev, LinkNode.next, hprev, hnext]
  | cons q ys =>
    have hhead : s.head = some q := r.chain.head_eq
    have r0 : Repr s ([] ++ q :: ys) := r
    obtain ⟨u, hu, -⟩ := r0.node
    rw [insertByKey_cons, key_of_cell hv, key_of_cell hu]
    simp only [addTimer, hhead, reduceCtorEq, if_false, Heap.load_some _ hv, Heap.load_some _ hu, ok_bind]
    split
    next hlt =>
      refine ⟨_, ?_, r.front absent hv hprev, ⟨by simp, by simp⟩⟩
      simp [Heap.modify_some _ _ live, Heap.modify_some, hu]
    next hge => exact addTimerAfter_spec r0 absent live

/-- Taking a timer out of the list, wherever it stands. -/
theorem Repr.unlink (r : Repr s (xs ++ t :: ys)) {tail : Ptr}
    (htail : ∀ a, (xs ++ ys).getLast? = some a → tail = some a) :
    Repr ⟨s.heap.splice xs.getLast? ys.head?, (xs ++ ys).head?, tail⟩ (xs ++ ys) :=
  ⟨r.chain.splice, htail⟩

/-- The old tail still is the last timer if something stood behind the one taken out. -/
theorem Repr.tail_of_ne_nil (r : Repr s (xs ++ t :: ys)) (hys : ys ≠ []) :
    ∀ a, (xs ++ ys).getLast? = some a → s.tail = some a := by
  intro a ha
  refine r.tail_eq a ?_
  obtain ⟨q, ys, rfl⟩ := List.exists_cons_of_ne_nil hys
  simpa [List.getLast?_append, List.getLast?_cons] using ha

theorem Repr.head_iff (r : Repr s (xs ++ t :: ys)) : some t = s.head ↔ xs = [] := by
  rw [r.chain.head_eq]
  constructor
  · intro e
    cases xs with
    | nil => rfl
    | cons x xs =>
      obtain rfl : t = x := by simpa using e
      exact absurd (by simp) r.chain.not_mem_of_mid
  · rintro rfl
    rfl

theorem Repr.tail_iff (r : Repr s (xs ++ t :: ys)) : some t = s.tail ↔ ys = [] := by
  constructor
  · intro e
    rcases List.eq_nil_or_concat ys with rfl | ⟨ys, q, rfl⟩
    · rfl
    · have hq : s.tail = some q := r.tail_eq q (by simp [List.getLast?_append, List.getLast?_cons])
      obtain rfl : t = q := by simpa [hq] using e
      exact absurd (by simp) r.chain.not_mem_of_mid
  · rintro rfl
    exact (r.tail_eq t (by simp)).symm

/-- The timer in front of `t` stays the first one reached from `head`. -/
theorem Repr.head_of_concat {front : List Nat} (r : Repr s (front ++ [p] ++ t :: ys)) :
    (front ++ [p] ++ ys).head? = s.head := by
  rw [r.chain.head_eq]
  cases front <;> simp

/-- Links of a timer that is not on the list do not matter. -/
theorem Repr.retire {h : Heap (UtilTimer υ)} {head tail : Ptr} (r : Repr ⟨h, head, tail⟩ l)
    (absent : t ∉ l) : Repr ⟨h.retire t, head, tail⟩ l := by
  refine ⟨r.chain.congr fun b hb => Heap.links_retire_ne _ ?_, r.tail_eq⟩
  intro e
  exact absent (e ▸ hb)

/-- A timer made by the client changes nothing on the list. -/
theorem Repr.alloc (r : Repr s l) (v : UtilTimer υ) :
    Repr { s with heap := s.heap.alloc v } l ∧
      ∀ a ∈ l, key (s.heap.alloc v) a = key s.heap a := by
  have old : ∀ a ∈ l, a ≠ s.heap.fresh := by
    intro a ha
    obtain ⟨u, hu⟩ := Option.isSome_iff_exists.mp (r.isSome ha)
    exact s.heap.ne_fresh_of_cell hu
  refine ⟨⟨r.chain.congr fun a ha => Heap.links_alloc_ne _ _ (old a ha), r.tail_eq⟩, fun a ha => ?_⟩
  exact key_congr (Heap.data_alloc_ne _ _ (old a ha))

/-- The head is cut off and inserted behind the new head. -/
theorem adjustTimer_head {y : Nat} (r : Repr s (t :: y :: ys)) (hle : ¬ key s.heap t < key s.heap y) :
    ∃ s', adjustTimer s (some t) = .ok s' ∧ Repr s' (y :: insertByKey (key s.heap) t ys) ∧
      SameData s s' := by
  have rt : Repr s ([] ++ t :: y :: ys) := r
  have ry : Repr s ([t] ++ y :: ys) := r
  obtain ⟨v, hv, -, hnext⟩ := rt.node
  obtain ⟨u, hu, -⟩ := ry.node
  have absent := rt.chain.not_mem_of_mid
  have ht : (s.heap.cell t).isSome := by simp [hv]
  have hy : (s.heap.cell y).isSome := by simp [hu]
  have hhead : s.head = some t := r.chain.head_eq
  rw [key_of_cell hv, key_of_cell hu] at hle
  have htail := rt.tail_of_ne_nil (by simp)
  have r1 : Repr (υ := υ) ⟨(s.heap.adjust y (setPrev none)).adjust t (setNext none), some y, s.tail⟩
      ([] ++ y :: ys) := by
    refine ⟨(rt.unlink htail).chain.congr fun b hb => ?_, htail⟩
    rw [Heap.links_adjust_setNext, Links.setNext_ne]
    · rfl
    · intro e
      exact absent (e ▸ hb)
  obtain ⟨s', he, hr, hs⟩ := addTimerAfter_spec r1 absent (by simpa using ht)
  refine ⟨s', ?_, ?_, ?_, ?_⟩
  · simpa [adjustTimer, hle, hhead, Heap.load_some _ hv, Heap.load_some _ hu, hnext,
      Heap.modify_some _ _ hy, Heap.modify_some, ht] using he
  · rwa [key_eq (h := s.heap) (by simp)] at hr
  · rw [hs.data]
    simp
  · rw [hs.fresh]
    simp

/-- A timer behind `p` is taken out and inserted behind its old successor. -/
theorem adjustTimer_inner {front : List Nat} {y : Nat} (r : Repr s (front ++ [p] ++ t :: y :: ys))
    (hle : ¬ key s.heap t < key s.heap y) :
    ∃ s', adjustTimer s (some t) = .ok s' ∧
      Repr s' (front ++ [p] ++ y :: insertByKey (key s.heap) t ys) ∧ SameData s s' := by
  have ry : Repr s ((front ++ [p] ++ [t]) ++ y :: ys) := by simpa using r
  obtain ⟨v, hv, hprev, hnext⟩ := r.node
  obtain ⟨u, hu, -⟩ := ry.node
  have absent := r.chain.not_mem_of_mid
  have ht : (s.heap.cell t).isSome := by simp [hv]
  have hy : (s.heap.cell y).isSome := by simp [hu]
  have hyt : y ≠ t := fun e => absent (by simp [e])
  have hpt : p ≠ t := fun e => absent (by simp [e])
  have hne : some t ≠ s.head := fun e => absurd (r.head_iff.mp e) (by simp)
  rw [key_of_cell hv, key_of_cell hu] at hle
  rw [List.getLast?_concat] at hprev
  obtain ⟨s1, s2, s3, s4⟩ := s.heap.unlink_steps (t := t) (p := p) (q := some y) hv
    (r.isSome (by simp)) (by simpa using hy) hpt (by simpa using hyt)
  have hmod : (s.heap.adjust p (setNext (some y))).modify (some y) (setPrev (some p)) =
      .ok (s.heap.splice (some p) (some y)) := by
    rw [← s3, Heap.modifyNonNull_some _ _ (by simpa using hy), Heap.modify_some _ _ (by simpa using hy)]
  have r1 := r.unlink (r.tail_of_ne_nil (by simp))
  rw [List.getLast?_concat, List.head?_cons, r.head_of_concat] at r1
  obtain ⟨s', he, hr, hs⟩ := addTimerAfter_spec r1 absent (by simpa using ht)
  refine ⟨s', ?_, ?_, ?_, ?_⟩
  · simpa [adjustTimer, hle, hne, Heap.load_some _ hv, Heap.load_some _ hu, hprev, hnext, s1, s2, s4,
      hmod] using he
  · rwa [key_eq (h := s.heap) (by simp)] at hr
  · rw [hs.data]
    simp
  · rw [hs.fresh]
    simp

/-- `adjust_timer` moves the timer back to where its key belongs among those behind it;
the ones in front of it are not looked at. -/
theorem adjustTimer_spec (r : Repr s (xs ++ t :: ys)) :
    ∃ s', adjustTimer s (some t) = .ok s' ∧ Repr s' (xs ++ insertByKey (key s.heap) t ys) ∧
      SameData s s' := by
  obtain ⟨v, hv, hprev, hnext⟩ := r.node
  cases ys with
  | nil =>
    refine ⟨s, ?_, by simpa using r, rfl, rfl⟩
    simp [adjustTimer, Heap.load_some _ hv, hnext]
  | cons y ys =>
    rw [insertByKey_cons]
    split
    next hlt =>
      have ry : Repr s ((xs ++ [t]) ++ y :: ys) := by simpa using r
      obtain ⟨u, hu, -⟩ := ry.node
      rw [key_of_cell hv, key_of_cell hu] at hlt
      refine ⟨s, ?_, r, rfl, rfl⟩
      simp [adjustTimer, Heap.load_some _ hv, hnext, Heap.load_some _ hu, hlt]
    next hle =>
      rcases List.eq_nil_or_concat xs with rfl | ⟨front, p, rfl⟩
      · exact adjustTimer_head r hle
      · rw [List.concat_eq_append] at r ⊢
        exact adjustTimer_inner r hle

/-- What `del_timer` does to the list, and what it leaves of the timer. -/
structure Deleted (s s' : SortTimeList υ) (t : Nat) (l : List Nat) (left : Option (Int × υ)) :
    Prop where
  repr : Repr s' l
  fresh : s'.heap.fresh = s.heap.fresh
  others : ∀ b, b ≠ t → s'.heap.data b = s.heap.data b
  self : s'.heap.data t = left

theorem Deleted.of_retire {h : Heap (UtilTimer υ)} {head tail : Ptr} (r : Repr ⟨h, head, tail⟩ l)
    (absent : t ∉ l) (hfresh : h.fresh = s.heap.fresh)
    (hothers : ∀ b, b ≠ t → h.data b = s.heap.data b) :
    Deleted s ⟨h.retire t, head, tail⟩ t l none := by
  constructor
  · exact r.retire absent
  · exact hfresh
  · intro b hb
    rw [Heap.data_retire_ne _ hb]
    exact hothers b hb
  · simp [Heap.data]

theorem delTimer_only (r : Repr s [t]) :
    ∃ s', delTimer s (some t) = .ok s' ∧ Deleted s s' t [] none := by
  have rt : Repr s ([] ++ t :: []) := r
  have ht : (s.heap.cell t).isSome := r.isSome (by simp)
  refine ⟨⟨s.heap.retire t, none, none⟩, ?_, ?_⟩
  · simp [delTimer, rt.head_iff, rt.tail_iff, Heap.free_some _ ht]
  · refine Deleted.of_retire ⟨Chain.nil _, fun a ha => ?_⟩ (by simp) rfl fun b _ => rfl
    cases ha

theorem delTimer_head {y : Nat} (r : Repr s (t :: y :: ys)) :
    ∃ s', delTimer s (some t) = .ok s' ∧ Deleted s s' t (y :: ys) none := by
  have rt : Repr s ([] ++ t :: y :: ys) := r
  obtain ⟨v, hv, -, hnext⟩ := rt.node
  have ht : (s.heap.cell t).isSome := by simp [hv]
  have hy : (s.heap.cell y).isSome := r.isSome (by simp)
  have hhead : s.head = some t := r.chain.head_eq
  refine ⟨_, ?_, Deleted.of_retire (rt.unlink (rt.tail_of_ne_nil (by simp)))
    rt.chain.not_mem_of_mid (by simp) fun b _ => by simp⟩
  simp [delTimer, rt.tail_iff, hhead, Heap.load_some _ hv, hnext, Heap.modify_some _ _ hy,
    Heap.free_some, ht, Heap.splice]

theorem delTimer_tail {front : List Nat} (r : Repr s (front ++ [p] ++ t :: [])) :
    ∃ s', delTimer s (some t) = .ok s' ∧ Deleted s s' t (front ++ [p] ++ []) none := by
  obtain ⟨v, hv, hprev, -⟩ := r.node
  rw [List.getLast?_concat] at hprev
  have ht : (s.heap.cell t).isSome := by simp [hv]
  have hp : (s.heap.cell p).isSome := r.isSome (by simp)
  have htail : s.tail = some t := (r.tail_iff.mpr rfl).symm
  have hlast : ∀ a, (front ++ [p] ++ []).getLast? = some a → some p = some a := by simp
  have r1 := r.unlink hlast
  rw [r.head_of_concat] at r1
  refine ⟨_, ?_, Deleted.of_retire r1 r.chain.not_mem_of_mid (by simp) fun b _ => by simp⟩
  simp [delTimer, r.head_iff, htail, Heap.load_some _ hv, hprev, Heap.modify_some _ _ hp,
    Heap.free_some, ht, Heap.splice]

/-- Between two others the timer is unlinked and not freed. -/
theorem delTimer_inner {front : List Nat} {y : Nat} (r : Repr s (front ++ [p] ++ t :: y :: ys)) :
    ∃ s', delTimer s (some t) = .ok s' ∧
      Deleted s s' t (front ++ [p] ++ y :: ys) (s.heap.data t) := by
  obtain ⟨v, hv, hprev, hnext⟩ := r.node
  rw [List.getLast?_concat] at hprev
  have absent := r.chain.not_mem_of_mid
  have hp : (s.heap.cell p).isSome := r.isSome (by simp)
  have hy : (s.heap.cell y).isSome := r.isSome (by simp)
  have hyt : y ≠ t := fun e => absent (by simp [e])
  have hpy : y ≠ p := by
    have := (List.nodup_append.mp r.chain.nodup).2.2 p (by simp) y (by simp)
    exact this.symm
  have r1 := r.unlink (r.tail_of_ne_nil (by simp))
  rw [r.head_of_concat] at r1
  have hload : (s.heap.adjust y (setPrev (some p))).cell t = some v := by
    rw [Heap.cell_adjust_ne _ _ hyt.symm, hv]
  have hp' : ((s.heap.adjust y (setPrev (some p))).cell p).isSome := by simpa using hp
  refine ⟨_, ?_, r1, by simp, fun b _ => by simp, by simp⟩
  simp only [delTimer, reduceCtorEq, if_false, r.head_iff, r.tail_iff, List.append_eq_nil_iff,
    List.cons_ne_nil, and_false, Heap.load_some _ hv, ok_bind, hnext, hprev, List.head?_cons,
    Heap.modify_some _ _ hy, Heap.load_some _ hload, Heap.modify_some _ _ hp',
    Heap.adjust_comm _ _ _ hpy, pure_ok]
  simp [Heap.splice]

/-- `del_timer` takes out the timer and nothing else. It frees it, unless the timer
stood between two others. -/
theorem delTimer_spec (r : Repr s (xs ++ t :: ys)) :
    ∃ s', delTimer s (some t) = .ok s' ∧
      Deleted s s' t (xs ++ ys) (if xs = [] ∨ ys = [] then none else s.heap.data t) := by
  rcases List.eq_nil_or_concat xs with rfl | ⟨front, p, rfl⟩
  · rw [if_pos (Or.inl rfl)]
    cases ys with
    | nil => exact delTimer_only r
    | cons y ys => exact delTimer_head r
  · rw [List.concat_eq_append] at r ⊢
    cases ys with
    | nil =>
      rw [if_pos (Or.inr rfl)]
      exact delTimer_tail r
    | cons y ys =>
      rw [if_neg (by simp)]
      exact delTimer_inner r

/-- The list after its first timer was fired. -/
def popped (s : SortTimeList υ) (a : Nat) (ys : List Nat) : SortTimeList υ :=
  ⟨(s.heap.splice none ys.head?).retire a, ys.head?, s.tail⟩

/-- Firing cuts the list right behind the fired timer. Firing the last one leaves `tail`
behind, which only matters in a list that is not empty. -/
theorem Repr.popped_behind {front : List Nat} {a : Nat} (r : Repr s (front ++ a :: ys)) :
    Repr (popped s a ys) ys := by
  have nodup := (List.nodup_append.mp r.chain.nodup).2.1
  refine ⟨r.chain.behind.congr fun b hb => Heap.links_retire_ne _ ?_, ?_⟩
  · rintro rfl
    exact (List.nodup_cons.mp nodup).1 hb
  · intro b hb
    exact r.tail_eq b (by simp [List.getLast?_append, List.getLast?_cons, hb])

theorem Repr.popped {a : Nat} (r : Repr s (a :: ys)) : Repr (popped s a ys) ys :=
  Repr.popped_behind (s := s) (show Repr s ([] ++ a :: ys) from r)

theorem data_popped (s : SortTimeList υ) (a : Nat) (ys : List Nat) :
    (popped s a ys).heap.data = Function.update s.heap.data a none := by
  funext b
  by_cases e : b = a
  · subst e
    simp [TimerList.popped, Heap.data]
  · rw [Function.update_of_ne e]
    simp [TimerList.popped, Heap.data_retire_ne _ e]

section Tick
variable {σ : Type} {cb : Callback σ υ} {cur : Int}

/-- The rule for the loop of `tick`, `n` being the rounds it still may do: a callback may
put timers in front of the fired one and behind it, and the list goes on behind it. -/
theorem tickLoop_ends {E : Fault → Prop} (I : Nat → σ → SortTimeList υ → List Nat → Prop)
    (out : ∀ c s a ys, I 0 c s (a :: ys) → E .fuel)
    (fire : ∀ n c s a ys e u, Repr s (a :: ys) → s.heap.data a = some (e, u) → e ≤ cur →
      I (n + 1) c s (a :: ys) → Ends E (cb a u c s) fun (c₁, s₁) =>
        ∃ front back, Repr s₁ (front ++ a :: back) ∧ I n c₁ (popped s₁ a back) back) :
    ∀ (fuel : Nat) c s l, Repr s l → I fuel c s l →
      Ends E (tickLoop cb cur fuel c s l.head?) fun (c', s') => ∃ n l', Repr s' l' ∧ I n c' s' l' ∧
        ∀ a, l'.head? = some a → cur < key s'.heap a := by
  intro fuel
  induction fuel with
  | zero =>
    intro c s l r hI
    cases l with
    | nil => exact ⟨0, [], r, hI, by simp⟩
    | cons a ys => exact out c s a ys hI
  | succ fuel ih =>
    intro c s l r hI
    cases l with
    | nil => exact ⟨fuel + 1, [], r, hI, by simp⟩
    | cons a ys =>
      have r0 : Repr s ([] ++ a :: ys) := r
      obtain ⟨v, hv, -, -⟩ := r0.node
      simp only [List.head?_cons, tickLoop, Heap.load_some _ hv, ok_bind]
      split
      next hlate =>
        refine ⟨fuel + 1, a :: ys, r, hI, fun b hb => ?_⟩
        obtain rfl : a = b := by simpa using hb
        rwa [key_of_cell hv]
      next hdue =>
        refine (fire fuel c s a ys v.expire v.userData r (Heap.data_of_cell _ hv) (by omega) hI).bind ?_
        rintro ⟨c₁, s₁⟩ ⟨front, back, r₁, hI₁⟩
        obtain ⟨v₁, hv₁, -, hnext⟩ := r₁.node
        have ha : (s₁.heap.cell a).isSome := by simp [hv₁]
        have next := ih c₁ (popped s₁ a back) back r₁.popped_behind hI₁
        have hpop : (do
            let heap ← s₁.heap.modifyNonNull back.head? (setPrev none)
            heap.free (some a)) = .ok (popped s₁ a back).heap := by
          cases back with
          | nil => simp [Heap.free_some _ ha, TimerList.popped, Heap.splice]
          | cons y back =>
            have hy := r₁.isSome (a := y) (by simp)
            simp [Heap.modifyNonNull_some _ _ hy, Heap.free_some, ha, TimerList.popped, Heap.splice]
        simp only [Heap.load_some _ hv₁, ok_bind, hnext]
        obtain ⟨h₁, e₁, e₂⟩ := (bind_eq_ok_iff _ _ _).mp hpop
        rw [e₁, ok_bind, e₂, ok_bind]
        exact next

/-- The rule with callbacks that leave the list alone: one round for every timer suffices. -/
theorem tickLoop_rule {E : Fault → Prop} (I : σ → SortTimeList υ → List Nat → Prop)
    (fire : ∀ c s a ys e u, Repr s (a :: ys) → s.heap.data a = some (e, u) → e ≤ cur →
      I c s (a :: ys) → Ends E (cb a u c s) fun (c₁, s₁) => s₁ = s ∧ I c₁ (popped s a ys) ys)
    (fuel : Nat) (c : σ) (s : SortTimeList υ) (l : List Nat) (hlen : l.length ≤ fuel)
    (r : Repr s l) (hI : I c s l) :
    Ends E (tickLoop cb cur fuel c s l.head?) fun (c', s') => ∃ l', Repr s' l' ∧ I c' s' l' ∧
      ∀ a, l'.head? = some a → cur < key s'.heap a := by
  refine (tickLoop_ends (fun n c s l => l.length ≤ n ∧ I c s l) ?_ ?_ fuel c s l r ⟨hlen, hI⟩).mono ?_
  · rintro c s a ys ⟨hlen, -⟩
    simp at hlen
  · rintro n c s a ys e u r hd hdue ⟨hlen, hI⟩
    refine (fire c s a ys e u r hd hdue hI).mono ?_
    rintro ⟨c₁, s₁⟩ ⟨rfl, hI₁⟩
    exact ⟨[], ys, r, by simpa using hlen, hI₁⟩
  · rintro ⟨c', s'⟩ ⟨-, l', r', ⟨-, hI'⟩, hlate⟩
    exact ⟨l', r', hI', hlate⟩

theorem tick_rule {E : Fault → Prop} (I : σ → SortTimeList υ → List Nat → Prop)
    (fire : ∀ c s a ys e u, Repr s (a :: ys) → s.heap.data a = some (e, u) → e ≤ cur →
      I c s (a :: ys) → Ends E (cb a u c s) fun (c₁, s₁) => s₁ = s ∧ I c₁ (popped s a ys) ys)
    {c : σ} (r : Repr s l) (hI : I c s l) :
    Ends E (tick cb cur c s) fun (c', s') => ∃ l', Repr s' l' ∧ I c' s' l' ∧
      ∀ a, l'.head? = some a → cur < key s'.heap a := by
  have loop := tickLoop_rule I fire s.heap.fresh c s l r.length_le r hI
  unfold tick
  rw [r.chain.head_eq]
  split
  next hnil =>
    obtain rfl : l = [] := by simpa using hnil
    exact ⟨[], r, hI, by simp⟩
  next => exact loop

/-- The timers of a list that have expired at `cur`, seen from its front. -/
def due (h : Heap (UtilTimer υ)) (cur : Int) (a : Nat) : Bool := decide (key h a ≤ cur)

/-- A tick whose callbacks only change the client's state, exactly: it fires the prefix
of expired timers, in order, and leaves the rest. -/
theorem tick_exact (f : Nat → σ → σ) (hcb : ∀ a u c s, cb a u c s = .ok (f a c, s)) {c : σ}
    (r : Repr s l) :
    Total (tick cb cur c s) fun (c', s') =>
      c' = (l.takeWhile (due s.heap cur)).foldl (fun c a => f a c) c ∧
      Repr s' (l.dropWhile (due s.heap cur)) ∧ s'.heap.fresh = s.heap.fresh ∧
      ∀ a, s'.heap.data a = if a ∈ l.takeWhile (due s.heap cur) then none else s.heap.data a := by
  -- `ps` has been fired, `ys` is what is left
  let I : σ → SortTimeList υ → List Nat → Prop := fun c' s' ys =>
    ∃ ps, l = ps ++ ys ∧ (∀ a ∈ ps, due s.heap cur a = true) ∧ c' = ps.foldl (fun c a => f a c) c ∧
      s'.heap.fresh = s.heap.fresh ∧
      ∀ a, s'.heap.data a = if a ∈ ps then none else s.heap.data a
  have hnot : ∀ ps a ys, l = ps ++ a :: ys → a ∉ ps := by
    rintro ps a ys rfl ha
    exact r.chain.not_mem_of_mid (by simp [ha])
  refine (tick_rule I ?_ r ⟨[], by simp⟩).mono ?_
  · rintro c' s' a ys e u - hd hdue ⟨ps, hl, hps, hc, hfresh, hdata⟩
    have hold : s.heap.data a = some (e, u) := by
      rw [← hd, hdata, if_neg (hnot ps a ys hl)]
    simp only [hcb, Ends.ok_iff, true_and]
    refine ⟨ps ++ [a], by simp [hl], ?_, by simp [hc], by simpa [TimerList.popped] using hfresh, ?_⟩
    · intro b hb
      rcases List.mem_append.mp hb with hb | hb
      · exact hps b hb
      · obtain rfl : b = a := by simpa using hb
        simpa [due, key, hold] using hdue
    · intro b
      rw [data_popped]
      by_cases e : b = a
      · simp [e]
      · simp [hdata, e]
  · rintro ⟨c', s'⟩ ⟨l', r', ⟨ps, hl, hps, hc, hfresh, hdata⟩, hlate⟩
    have hstop : ∀ a, l'.head? = some a → due s.heap cur a = false := by
      intro a ha
      have hlt := hlate a ha
      obtain ⟨ys, rfl⟩ : ∃ ys, l' = a :: ys := by
        cases l' with
        | nil => cases ha
        | cons b ys => exact ⟨ys, by simp at ha; rw [ha]⟩
      rw [key_congr (h := s.heap) (by rw [hdata, if_neg (hnot ps a ys hl)])] at hlt
      simpa [due] using hlt
    have hsplit := takeWhile_dropWhile_of_split hps hstop
    rw [← hl] at hsplit
    rw [hsplit.1, hsplit.2]
    exact ⟨hc, r', hfresh, hdata⟩

end Tick
end LinuxDemo.Invariant.TimerList
