import LinuxDemo.Source.TimerWheel
import LinuxDemo.Lib.Run
import Mathlib.Tactic

/-!
# Representation of the timing wheel

`Repr w chain` says that slot `i` of the wheel is the chain `chain i`, that a timer
stands in the slot it names and that the wheel owns every live block. Each operation
is evaluated once, to a closed form or to its effect on the chains and on the
timers' data; nothing below it unfolds the source again.
-/
namespace LinuxDemo.Invariant.Wheel
open LinuxDemo.Lib LinkNode LinuxDemo.Source.TimerWheel

/-- The indices of the slots. -/
abbrev IsSlot (i : Int) : Prop := 0 ≤ i ∧ i < N

structure Repr (w : TimeWheel) (chain : Int → List Nat) : Prop where
  cur : IsSlot w.curSlot
  linked : ∀ i, IsSlot i → Chain w.heap.links (w.slot i) (chain i)
  placed : ∀ i, IsSlot i → ∀ a ∈ chain i, ∃ r, w.heap.data a = some (r, i) ∧ 0 ≤ r
  owned : ∀ a r i, w.heap.data a = some (r, i) → IsSlot i ∧ a ∈ chain i

theorem repr_init : Repr TimeWheel.init fun _ => [] where
  cur := by decide
  linked _ _ := Chain.nil _
  placed _ _ a ha := by cases ha
  owned a r i h := by simp [TimeWheel.init, Heap.data, Heap.empty] at h

theorem slotAt_ok (w : TimeWheel) {i : Int} (hi : IsSlot i) : w.slotAt i = .ok (w.slot i) := by
  simp [TimeWheel.slotAt, hi.1, hi.2]

theorem setSlot_ok (w : TimeWheel) {i : Int} (p : Ptr) (hi : IsSlot i) :
    w.setSlot i p = .ok { w with slot := Function.update w.slot i p } := by
  simp [TimeWheel.setSlot, hi.1, hi.2]

/-- The wheel after the node `a` between `xs` and `ys` of slot `i` was taken out and freed. -/
def without (w : TimeWheel) (i : Int) (xs : List Nat) (a : Nat) (ys : List Nat) : TimeWheel :=
  { w with
    heap := (w.heap.splice xs.getLast? ys.head?).retire a
    slot := Function.update w.slot i (xs ++ ys).head? }

section Effects
variable {w : TimeWheel} {chain : Int → List Nat}

theorem Repr.cell_of_mem (r : Repr w chain) {i : Int} (hi : IsSlot i) {a : Nat} (ha : a ∈ chain i) :
    ∃ v, w.heap.cell a = some v ∧ v.timeSlot = i ∧ 0 ≤ v.rotation := by
  obtain ⟨n, hd, hn⟩ := r.placed i hi a ha
  obtain ⟨v, hv, he⟩ := Option.map_eq_some_iff.mp hd
  obtain ⟨rfl, rfl⟩ := Prod.mk.injEq _ _ _ _ ▸ he
  exact ⟨v, hv, rfl, hn⟩

/-- Slots share no timer. -/
theorem Repr.disjoint (r : Repr w chain) {i j : Int} (hi : IsSlot i) (hj : IsSlot j) (hij : i ≠ j)
    {a : Nat} (ha : a ∈ chain i) : a ∉ chain j := by
  intro hb
  obtain ⟨_, h1, -⟩ := r.placed i hi a ha
  obtain ⟨_, h2, -⟩ := r.placed j hj a hb
  rw [h1] at h2
  simp only [Option.some.injEq, Prod.mk.injEq] at h2
  exact hij h2.2

theorem data_without (w : TimeWheel) (i : Int) (xs : List Nat) (a : Nat) (ys : List Nat) :
    (without w i xs a ys).heap.data = Function.update w.heap.data a none := by
  funext b
  by_cases e : b = a
  · subst e
    simp [without, Heap.data]
  · rw [Function.update_of_ne e]
    simp [without, Heap.data_retire_ne _ e]

/-- The timers left when `a` is taken out of slot `i`. -/
theorem Repr.mem_without (r : Repr w chain) {i j : Int} (hi : IsSlot i) (hj : IsSlot j)
    {xs ys : List Nat} {a b : Nat} (hc : chain i = xs ++ a :: ys) :
    b ∈ Function.update chain i (xs ++ ys) j ↔ b ∈ chain j ∧ b ≠ a := by
  have c := hc ▸ r.linked i hi
  by_cases e : j = i
  · subst e
    rw [Function.update_self, hc]
    constructor
    · intro hb
      refine ⟨?_, fun e => c.not_mem_of_mid (e ▸ hb)⟩
      exact ((List.sublist_cons_self a ys).append_left xs).subset hb
    · rintro ⟨hb, hne⟩
      simp only [List.mem_append, List.mem_cons, hne, false_or] at hb ⊢
      exact hb
  · rw [Function.update_of_ne e]
    constructor
    · intro hb
      exact ⟨hb, fun h => r.disjoint hj hi e hb (by rw [hc, h]; simp)⟩
    · exact fun h => h.1

/-- Taking one node out of one slot leaves a wheel. -/
theorem Repr.without (r : Repr w chain) {i : Int} (hi : IsSlot i) {xs ys : List Nat} {a : Nat}
    (hc : chain i = xs ++ a :: ys) :
    Repr (without w i xs a ys) (Function.update chain i (xs ++ ys)) := by
  have c := hc ▸ r.linked i hi
  have hdata := data_without w i xs a ys
  have frame : ∀ b, b ∉ chain i → (Wheel.without w i xs a ys).heap.links b = w.heap.links b := by
    intro b hb
    rw [hc] at hb
    have hba : b ≠ a := fun e => hb (by simp [e])
    refine (Heap.links_retire_ne _ hba).trans (Heap.links_splice_ne _ ?_ ?_)
    · exact fun e => hb (by simp [List.mem_of_getLast? e])
    · exact fun e => hb (by simp [List.mem_of_head? e])
  constructor
  · exact r.cur
  · intro j hj
    by_cases e : j = i
    · subst e
      simp only [Function.update_self, Wheel.without]
      refine c.splice.congr fun b hb => Heap.links_retire_ne _ ?_
      exact fun e => c.not_mem_of_mid (e ▸ hb)
    · simp only [Function.update_of_ne e, Wheel.without]
      exact (r.linked j hj).congr fun b hb => frame b (r.disjoint hj hi e hb)
  · intro j hj b hb
    obtain ⟨hmem, hba⟩ := (r.mem_without hi hj hc).mp hb
    rw [hdata, Function.update_of_ne hba]
    exact r.placed j hj b hmem
  · intro b n j hb
    rw [hdata] at hb
    have hba : b ≠ a := by
      intro e
      simp [e] at hb
    rw [Function.update_of_ne hba] at hb
    obtain ⟨hj, hmem⟩ := r.owned b n j hb
    exact ⟨hj, (r.mem_without hi hj hc).mpr ⟨hmem, hba⟩⟩

/-- The parts of the loop and of `delete_timer` that need a node of slot `i`. -/
theorem Repr.node (r : Repr w chain) {i : Int} (hi : IsSlot i) {xs ys : List Nat} {a : Nat}
    (hc : chain i = xs ++ a :: ys) :
    ∃ v, w.heap.cell a = some v ∧ v.timeSlot = i ∧ 0 ≤ v.rotation ∧ v.prev = xs.getLast? ∧
      v.next = ys.head? ∧ a ∉ xs ++ ys ∧ w.slot i = (xs ++ a :: ys).head? ∧
      ∀ b ∈ xs ++ ys, (w.heap.cell b).isSome := by
  have c := hc ▸ r.linked i hi
  obtain ⟨v, hv, hts, hrot⟩ := r.cell_of_mem hi (a := a) (by simp [hc])
  have hl := c.links_mid
  rw [Heap.links_of_cell _ hv] at hl
  simp only [Option.some.injEq, Prod.mk.injEq] at hl
  refine ⟨v, hv, hts, hrot, hl.1, hl.2, c.not_mem_of_mid, c.head_eq, fun b hb => ?_⟩
  have hb' : b ∈ chain i := by
    rw [hc]
    simp only [List.mem_append, List.mem_cons] at hb ⊢
    tauto
  obtain ⟨u, hu, -⟩ := r.cell_of_mem hi hb'
  simp [hu]

/-- The four assignments that take out a node which is not the head of its slot. -/
theorem Repr.unlink_steps (r : Repr w chain) {i : Int} (hi : IsSlot i) {xs ys : List Nat} {a p : Nat}
    (hc : chain i = (xs ++ [p]) ++ a :: ys) {v : TwTimer} (hv : w.heap.cell a = some v) :
    w.heap.modify (some p) (setNext ys.head?) = .ok (w.heap.adjust p (setNext ys.head?)) ∧
    (w.heap.adjust p (setNext ys.head?)).load (some a) = .ok v ∧
    (w.heap.adjust p (setNext ys.head?)).modifyNonNull ys.head? (setPrev (some p)) =
      .ok (w.heap.splice (some p) ys.head?) ∧
    (w.heap.splice (some p) ys.head?).load (some a) = .ok v := by
  obtain ⟨_, -, -, -, -, -, absent, -, live⟩ := r.node hi hc
  simp only [List.mem_append, List.mem_singleton, not_or] at absent live
  refine w.heap.unlink_steps hv (live p (by simp)) ?_ (fun e => absent.1.2 e.symm) ?_
  · intro b hb
    exact live b (Or.inr (List.mem_of_head? hb))
  · intro e
    exact absent.2 (List.mem_of_head? e)

/-- `delete_timer` on any timer of the wheel takes out exactly that timer. -/
theorem deleteTimer_eq (r : Repr w chain) {i : Int} (hi : IsSlot i) {xs ys : List Nat} {a : Nat}
    (hc : chain i = xs ++ a :: ys) : deleteTimer w (some a) = .ok (without w i xs a ys) := by
  obtain ⟨v, hv, rfl, -, hprev, hnext, absent, hslot, live⟩ := r.node hi hc
  simp only [deleteTimer, reduceCtorEq, if_false, Heap.load_some _ hv, ok_bind, slotAt_ok w hi]
  rcases List.eq_nil_or_concat xs with rfl | ⟨front, p, rfl⟩
  · -- the head of its slot
    rw [hslot]
    simp only [List.nil_append, List.head?_cons, if_true, Heap.load_some _ hv, ok_bind,
      setSlot_ok w _ hi, slotAt_ok _ hi, Function.update_self, hnext]
    cases ys with
    | nil =>
      simp [Heap.free_some _ (show (w.heap.cell a).isSome by simp [hv]), Wheel.without, Heap.splice]
    | cons q ys =>
      have hq : (w.heap.cell q).isSome := live q (by simp)
      have ha : ((w.heap.adjust q (setPrev none)).cell a).isSome := by simp [hv]
      simp [Heap.modifyNonNull_some _ _ hq, Heap.free_some _ ha, Wheel.without, Heap.splice]
  · have hne : some a ≠ w.slot v.timeSlot := by
      rw [hslot]
      intro e
      have := List.mem_of_head? (l := front.concat p) (a := a) (by cases front <;> simp_all)
      exact absent (List.mem_append_left _ this)
    rw [List.concat_eq_append] at hc hprev hslot absent
    obtain ⟨s1, s2, s3, -⟩ := r.unlink_steps hi hc hv
    rw [List.getLast?_concat] at hprev
    have ha : ((w.heap.splice (some p) ys.head?).cell a).isSome := by simp [hv]
    have hsame : Function.update w.slot v.timeSlot (front ++ [p] ++ ys).head? = w.slot := by
      rw [← Function.update_eq_self v.timeSlot w.slot, hslot]
      cases front <;> simp
    rw [if_neg hne]
    simp only [ok_bind, hprev, hnext, s1, s2, s3, Heap.free_some _ ha, pure_ok]
    simp only [Wheel.without, List.concat_eq_append, List.getLast?_concat, hsame]

/-- The number of slots `add_timer` looks ahead. -/
def ticksOf (timeout : Int) : Int := max 1 timeout

def rotationOf (timeout : Int) : Int := ticksOf timeout / N

def slotOf (cur timeout : Int) : Int := (cur + ticksOf timeout % N) % N

theorem isSlot_slotOf (cur timeout : Int) : IsSlot (slotOf cur timeout) := by
  unfold IsSlot slotOf N
  omega

theorem rotationOf_nonneg (timeout : Int) : 0 ≤ rotationOf timeout := by
  unfold rotationOf ticksOf N
  omega

/-- The wheel after a new timer was put in front of slot `ts`. -/
def added (w : TimeWheel) (rotation ts : Int) : TimeWheel :=
  let heap := w.heap.alloc ⟨rotation, ts, none, none⟩
  { w with
    heap := match w.slot ts with
      | none => heap
      | some q => heap.splice (some w.heap.fresh) (some q)
    slot := Function.update w.slot ts (some w.heap.fresh) }

theorem data_added (w : TimeWheel) (rotation ts : Int) :
    (added w rotation ts).heap.data =
      Function.update w.heap.data w.heap.fresh (some (rotation, ts)) := by
  have h : (added w rotation ts).heap.data = (w.heap.alloc ⟨rotation, ts, none, none⟩).data := by
    unfold added
    split <;> simp_all
  rw [h]
  funext b
  by_cases e : b = w.heap.fresh
  · subst e
    simp [Heap.data, LinkNode.data]
  · rw [Function.update_of_ne e, Heap.data_alloc_ne _ _ e]

@[simp] theorem fresh_added (w : TimeWheel) (rotation ts : Int) :
    (added w rotation ts).heap.fresh = w.heap.fresh + 1 := by
  unfold added
  split <;> simp_all

theorem Repr.fresh_not_mem (r : Repr w chain) {i : Int} (hi : IsSlot i) : w.heap.fresh ∉ chain i := by
  intro h
  obtain ⟨v, hv, -⟩ := r.cell_of_mem hi h
  exact w.heap.ne_fresh_of_cell hv rfl

theorem links_added_ne (rotation : Int) {ts : Int} {b : Nat} (hb : b ≠ w.heap.fresh)
    (hq : w.slot ts ≠ some b) : (added w rotation ts).heap.links b = w.heap.links b := by
  unfold added
  split
  · exact Heap.links_alloc_ne _ _ hb
  next q hs =>
    rw [Heap.links_splice_ne _ (by simpa using hb.symm) (hs ▸ hq)]
    exact Heap.links_alloc_ne _ _ hb

/-- The slot that gets the new timer. -/
theorem chain_added (rotation : Int) {i : Int} {l : List Nat}
    (c : Chain w.heap.links (w.slot i) l) (absent : w.heap.fresh ∉ l) :
    Chain (added w rotation i).heap.links ((added w rotation i).slot i) (w.heap.fresh :: l) := by
  have c0 : Chain w.heap.links (w.slot i) ([] ++ l) := c
  have hfirst : ∀ q, w.slot i = some q → q ≠ w.heap.fresh := by
    intro q hs e
    exact absent (e ▸ c.head_mem hs)
  refine c0.insert absent ?_ ?_ (by simp) ?_ ?_
  · simp [added]
  · rw [← c.head_eq]
    unfold added
    split
    next hs => simp [Heap.links, LinkNode.prev, LinkNode.next, hs]
    next q hs =>
      rw [Heap.links_splice_left _ (by simpa using hfirst q hs)]
      simp [Heap.links, LinkNode.prev, LinkNode.next, hs]
  · intro q hq
    have hs : w.slot i = some q := c.head_eq.trans hq
    simp only [added, hs]
    rw [Heap.links_splice_right _ (by simpa using (hfirst q hs).symm),
      Heap.links_alloc_ne _ _ (hfirst q hs)]
  · intro a ha _ hne
    exact links_added_ne rotation (fun e => absent (e ▸ ha)) (c.head_eq ▸ hne)

theorem mem_chain_added {t : Nat} {i j : Int} {b : Nat} :
    b ∈ Function.update chain i (t :: chain i) j ↔ b ∈ chain j ∨ j = i ∧ b = t := by
  by_cases h : j = i
  · subst h
    simp [or_comm]
  · simp [h]

/-- A new timer in front of one slot leaves a wheel. -/
theorem Repr.added (r : Repr w chain) {i : Int} (hi : IsSlot i) {rotation : Int} (hr : 0 ≤ rotation) :
    Repr (added w rotation i) (Function.update chain i (w.heap.fresh :: chain i)) := by
  have hdata := data_added w rotation i
  constructor
  · exact r.cur
  · intro j hj
    by_cases e : j = i
    · subst e
      rw [Function.update_self]
      exact chain_added rotation (r.linked j hj) (r.fresh_not_mem hj)
    · rw [Function.update_of_ne e]
      have hslot : (Wheel.added w rotation i).slot j = w.slot j := by
        simp [Wheel.added, Function.update_of_ne e]
      rw [hslot]
      refine (r.linked j hj).congr fun b hb => links_added_ne rotation ?_ ?_
      · exact fun h => r.fresh_not_mem hj (h ▸ hb)
      · exact fun h => r.disjoint hj hi e hb ((r.linked i hi).head_mem h)
  · intro j hj b hb
    rw [hdata]
    rcases mem_chain_added.mp hb with hb | ⟨rfl, rfl⟩
    · have hne : b ≠ w.heap.fresh := fun e => r.fresh_not_mem hj (e ▸ hb)
      rw [Function.update_of_ne hne]
      exact r.placed j hj b hb
    · exact ⟨rotation, Function.update_self _ _ _, hr⟩
  · intro b n j hb
    rw [hdata] at hb
    rw [mem_chain_added]
    by_cases e : b = w.heap.fresh
    · subst e
      simp only [Function.update_self, Option.some.injEq, Prod.mk.injEq] at hb
      obtain ⟨-, rfl⟩ := hb
      exact ⟨hi, Or.inr ⟨rfl, rfl⟩⟩
    · rw [Function.update_of_ne e] at hb
      obtain ⟨hj, hmem⟩ := r.owned b n j hb
      exact ⟨hj, Or.inl hmem⟩

/-- `add_timer` puts the new timer in front of its slot. -/
theorem addTimer_eq (r : Repr w chain) {timeout : Int} (ht : 0 ≤ timeout) :
    addTimer w timeout = .ok (some w.heap.fresh,
      added w (rotationOf timeout) (slotOf w.curSlot timeout)) := by
  have hticks : (if timeout < SI then 1 else timeout.tdiv SI) = ticksOf timeout := by
    unfold SI ticksOf
    simp only [Int.tdiv_one]
    split <;> omega
  have hpos : 0 ≤ ticksOf timeout := by unfold ticksOf; omega
  have hrot : (ticksOf timeout).tdiv N = rotationOf timeout :=
    Int.tdiv_eq_ediv_of_nonneg hpos
  have hmod : (w.curSlot + (ticksOf timeout).tmod N).tmod N = slotOf w.curSlot timeout := by
    rw [Int.tmod_eq_emod_of_nonneg hpos, Int.tmod_eq_emod_of_nonneg, slotOf]
    have := r.cur
    unfold IsSlot N at *
    omega
  have hi := isSlot_slotOf w.curSlot timeout
  have c := r.linked _ hi
  have absent := r.fresh_not_mem hi
  simp only [addTimer, if_neg (show ¬ timeout < 0 by omega), hticks, hrot, hmod, slotAt_ok w hi, ok_bind,
    setSlot_ok _ _ hi]
  cases hs : w.slot (slotOf w.curSlot timeout) with
  | none => simp [Wheel.added, hs]
  | some q =>
    have hq := c.head_mem hs
    have hqf : q ≠ w.heap.fresh := fun e => absent (e ▸ hq)
    obtain ⟨v, hv, -⟩ := r.cell_of_mem hi hq
    rw [if_neg (by simp), Heap.modify_some _ _ (by simp), ok_bind,
      Heap.modify_some _ _ (by simp [Heap.cell_alloc_ne _ _ hqf, hv])]
    simp [Wheel.added, hs, Heap.splice]

/-- The wheel after `rotation--` on `a`. -/
def decremented (w : TimeWheel) (a : Nat) : TimeWheel :=
  { w with heap := w.heap.adjust a fun t => { t with rotation := t.rotation - 1 } }

theorem data_decremented (w : TimeWheel) {a : Nat} {n i : Int} (h : w.heap.data a = some (n, i)) :
    (decremented w a).heap.data = Function.update w.heap.data a (some (n - 1, i)) := by
  obtain ⟨v, hv, he⟩ := Option.map_eq_some_iff.mp h
  obtain ⟨rfl, rfl⟩ := Prod.mk.injEq _ _ _ _ ▸ he
  funext b
  by_cases e : b = a
  · subst e
    simp [decremented, Heap.data, hv, LinkNode.data]
  · simp [decremented, Heap.data, Heap.cell_adjust_ne _ _ e, Function.update_of_ne e]

theorem Repr.decremented (r : Repr w chain) {a : Nat} {n i : Int}
    (h : w.heap.data a = some (n, i)) (hn : 0 < n) : Repr (decremented w a) chain := by
  have hdata := data_decremented w h
  have hlinks : (Wheel.decremented w a).heap.links = w.heap.links :=
    w.heap.links_adjust a _ (fun _ => rfl) (fun _ => rfl)
  constructor
  · exact r.cur
  · intro j hj
    rw [hlinks]
    exact r.linked j hj
  · intro j hj b hb
    rw [hdata]
    obtain ⟨m, hm, hpos⟩ := r.placed j hj b hb
    by_cases e : b = a
    · subst e
      rw [h] at hm
      simp only [Option.some.injEq, Prod.mk.injEq] at hm
      exact ⟨n - 1, by simp [hm.2], by omega⟩
    · exact ⟨m, by rw [Function.update_of_ne e, hm], hpos⟩
  · intro b m j hb
    rw [hdata] at hb
    by_cases e : b = a
    · subst e
      simp only [Function.update_self, Option.some.injEq, Prod.mk.injEq] at hb
      exact hb.2 ▸ r.owned b n i h
    · rw [Function.update_of_ne e] at hb
      exact r.owned b m j hb

theorem cell_of_data {h : Heap TwTimer} {a : Nat} {n i : Int} (hd : h.data a = some (n, i)) :
    ∃ v, h.cell a = some v ∧ v.rotation = n ∧ v.timeSlot = i := by
  simpa [Heap.data, Option.map_eq_some_iff, LinkNode.data] using hd

variable {σ : Type} {cb : Callback σ} {s : σ} {xs ys : List Nat} {a : Nat}

/-- A round on a timer with rotations left. -/
theorem visit_keep (r : Repr w chain) (hc : chain w.curSlot = xs ++ a :: ys) {n : Int}
    (hd : w.heap.data a = some (n, w.curSlot)) (hn : 0 < n) :
    visit cb a s w = .ok (s, decremented w a, ys.head?) := by
  obtain ⟨v, hv, -, -, -, hnext, -⟩ := r.node r.cur hc
  obtain ⟨u, hu, rfl, -⟩ := cell_of_data hd
  obtain rfl : v = u := by simpa [hv] using hu
  have hv' : (w.heap.adjust a fun t => { t with rotation := t.rotation - 1 }).cell a =
      some { v with rotation := v.rotation - 1 } := by simp [hv]
  simp [visit, Heap.load_some _ hv, hn, Heap.modify_some _ _ (show (w.heap.cell a).isSome by simp [hv]),
    Heap.load_some _ hv', hnext, Wheel.decremented]

/-- A round on a timer that fires: whatever the callback did to the wheel, exactly the
fired timer is taken out, and the loop goes on with its successor. -/
theorem visit_fire (hd : w.heap.data a = some (0, w.curSlot)) {s₁ : σ} {w₁ : TimeWheel}
    {chain₁ : Int → List Nat} (hcb : cb a s w = .ok (s₁, w₁)) (r : Repr w₁ chain₁)
    (hc : chain₁ w₁.curSlot = xs ++ a :: ys) :
    visit cb a s w = .ok (s₁, without w₁ w₁.curSlot xs a ys, ys.head?) := by
  obtain ⟨u, hu, hrot, -⟩ := cell_of_data hd
  obtain ⟨v, hv, -, -, hprev, hnext, absent, hslot, live⟩ := r.node r.cur hc
  simp only [visit, Heap.load_some _ hu, ok_bind, hrot, gt_iff_lt, lt_self_iff_false, if_false, hcb,
    slotAt_ok _ r.cur, Heap.load_some _ hv]
  rcases List.eq_nil_or_concat xs with rfl | ⟨front, p, rfl⟩
  · -- the head of the slot: freed first, then the new head is cut loose
    rw [hslot]
    simp only [List.nil_append, List.head?_cons, if_true, ok_bind, setSlot_ok w₁ _ r.cur, hnext,
      Heap.free_some _ (show (w₁.heap.cell a).isSome by simp [hv]),
      slotAt_ok { w₁ with slot := Function.update w₁.slot w₁.curSlot ys.head? } r.cur,
      Function.update_self]
    cases ys with
    | nil => simp [Wheel.without, Heap.splice]
    | cons q ys =>
      have hqa : q ≠ a := fun e => absent (by simp [e])
      have hq : ((w₁.heap.retire a).cell q).isSome := by
        rw [Heap.cell_retire_ne _ hqa]
        exact live q (by simp)
      simp [Heap.modifyNonNull_some _ _ hq, Heap.adjust_retire _ _ hqa, Wheel.without, Heap.splice]
  · have hne : some a ≠ w₁.slot w₁.curSlot := by
      rw [hslot]
      intro e
      have := List.mem_of_head? (l := front.concat p) (a := a) (by cases front <;> simp_all)
      exact absent (List.mem_append_left _ this)
    rw [List.concat_eq_append] at hc hprev hslot absent
    obtain ⟨s1, s2, s3, s4⟩ := r.unlink_steps r.cur hc hv
    rw [List.getLast?_concat] at hprev
    have ha : ((w₁.heap.splice (some p) ys.head?).cell a).isSome := by simp [hv]
    have hsame : Function.update w₁.slot w₁.curSlot (front ++ [p] ++ ys).head? = w₁.slot := by
      rw [← Function.update_eq_self w₁.curSlot w₁.slot, hslot]
      cases front <;> simp
    rw [if_neg hne]
    simp only [ok_bind, hprev, hnext, s1, s2, s3, s4, Heap.free_some _ ha, pure_ok]
    simp only [Wheel.without, List.concat_eq_append, List.getLast?_concat, hsame]

end Effects

/-- What a callback may do while the timer `a` of the slot being traversed fires: the
wheel stays a wheel in the same position, `a` stays in its slot, and no more timers are
left behind `a` than before (`ys`). -/
structure Tame (w w₁ : TimeWheel) (chain₁ : Int → List Nat) (xs₁ : List Nat) (a : Nat)
    (ys ys₁ : List Nat) : Prop where
  repr : Repr w₁ chain₁
  cur : w₁.curSlot = w.curSlot
  split : chain₁ w₁.curSlot = xs₁ ++ a :: ys₁
  shorter : ys₁.length ≤ ys.length

section Loop
variable {σ : Type} {cb : Callback σ}

/-- The rule for the loop of `tick`. `I s w chain ys` holds when the timers `ys` of the
current slot are still to be visited. Enough rounds for `ys` are enough rounds. -/
theorem tickLoop_rule {E : Fault → Prop} (I : σ → TimeWheel → (Int → List Nat) → List Nat → Prop)
    (keep : ∀ s w chain xs a ys n, Repr w chain → chain w.curSlot = xs ++ a :: ys →
      w.heap.data a = some (n, w.curSlot) → 0 < n → I s w chain (a :: ys) →
      I s (decremented w a) chain ys)
    (fire : ∀ s w chain xs a ys, Repr w chain → chain w.curSlot = xs ++ a :: ys →
      w.heap.data a = some (0, w.curSlot) → I s w chain (a :: ys) →
      Ends E (cb a s w) fun (s₁, w₁) => ∃ chain₁ xs₁ ys₁, Tame w w₁ chain₁ xs₁ a ys ys₁ ∧
        I s₁ (without w₁ w₁.curSlot xs₁ a ys₁)
          (Function.update chain₁ w₁.curSlot (xs₁ ++ ys₁)) ys₁) :
    ∀ (fuel : Nat) s w chain xs ys, ys.length ≤ fuel → Repr w chain →
      chain w.curSlot = xs ++ ys → I s w chain ys →
      Ends E (tickLoop cb fuel s w ys.head?) fun (s', w') => ∃ chain', Repr w' chain' ∧
        w'.curSlot = w.curSlot ∧ I s' w' chain' [] := by
  intro fuel
  induction fuel with
  | zero =>
    intro s w chain xs ys hlen r hc hI
    obtain rfl := List.length_eq_zero_iff.mp (Nat.le_zero.mp hlen)
    exact ⟨chain, r, rfl, hI⟩
  | succ fuel ih =>
    intro s w chain xs ys hlen r hc hI
    cases ys with
    | nil => exact ⟨chain, r, rfl, hI⟩
    | cons a ys =>
      have hlen' : ys.length ≤ fuel := by simpa using hlen
      obtain ⟨n, hd, hn⟩ := r.placed _ r.cur a (by simp [hc])
      simp only [List.head?_cons, tickLoop]
      rcases lt_or_eq_of_le hn with hpos | rfl
      · rw [visit_keep r hc hd hpos]
        exact ih s _ chain (xs ++ [a]) ys hlen' (r.decremented hd hpos) (by simp [decremented, hc])
          (keep s w chain xs a ys n r hc hd hpos hI)
      · have hfire := fire s w chain xs a ys r hc hd hI
        cases hcb : cb a s w with
        | error f =>
          obtain ⟨u, hu, hrot, -⟩ := cell_of_data hd
          rw [hcb] at hfire
          simpa [visit, Heap.load_some _ hu, hrot, hcb] using hfire
        | ok p =>
          obtain ⟨chain₁, xs₁, ys₁, t, hI₁⟩ := hfire.of_ok hcb
          rw [visit_fire hd hcb t.repr t.split, ok_bind]
          have next := ih p.1 _ _ xs₁ ys₁ (by have := t.shorter; omega)
            (t.repr.without t.repr.cur t.split) (by simp [without]) hI₁
          simpa only [without, t.cur] using next

/-- A slot never holds more timers than were ever made. -/
theorem Repr.length_le {w : TimeWheel} {chain : Int → List Nat} (r : Repr w chain) {i : Int}
    (hi : IsSlot i) : (chain i).length ≤ w.heap.fresh := by
  have sub : chain i ⊆ List.range w.heap.fresh := by
    intro a ha
    obtain ⟨v, hv, -⟩ := r.cell_of_mem hi ha
    exact List.mem_range.mpr (w.heap.lt_fresh_of_cell hv)
  simpa using ((r.linked i hi).nodup.subperm sub).length_le

theorem isSlot_succ {i : Int} (hi : IsSlot i) : IsSlot ((i + 1).tmod N) := by
  rw [Int.tmod_eq_emod_of_nonneg (by have := hi.1; omega)]
  unfold IsSlot N
  omega

/-- `tick` as its loop and the step to the next slot. -/
theorem tick_eq {w : TimeWheel} {chain : Int → List Nat} (r : Repr w chain) (s : σ) :
    tick cb s w = (do
      let (s, w) ← tickLoop cb w.heap.fresh s w (chain w.curSlot).head?
      return (s, { w with curSlot := (w.curSlot + 1).tmod N })) := by
  simp only [tick, slotAt_ok w r.cur, ok_bind, (r.linked _ r.cur).head_eq]

theorem Repr.advance {w : TimeWheel} {chain : Int → List Nat} (r : Repr w chain) :
    Repr { w with curSlot := (w.curSlot + 1).tmod N } chain :=
  ⟨isSlot_succ r.cur, r.linked, r.placed, r.owned⟩

end Loop
end LinuxDemo.Invariant.Wheel
