import LinuxDemo.Invariant.WheelRun

/-!
# When a timer fires, callbacks that add timers included

A client that keeps a diary: for every timer the tick it was made in or after, for every
callback the tick it ran in. While `tick` runs, `cur_slot` names the slot being
traversed, and a timer made then goes in front of the timers still to be visited.
-/
namespace LinuxDemo.Invariant.Wheel
open LinuxDemo.Lib LinkNode LinuxDemo.Source.TimerWheel

structure Made where
  timer : Nat
  timeout : Nat
  /-- calls of `tick` begun before -/
  begun : Nat
  /-- the last of them was still running -/
  inTick : Bool
  deriving DecidableEq

structure Diary where
  /-- timers added and not since deleted or fired -/
  live : List Nat
  begun : Nat
  inTick : Bool
  made : List Made
  /-- callbacks invoked, each with the number of the tick that did it -/
  fires : List (Nat × Nat)
  deleted : List Nat

def Diary.init : Diary := ⟨[], 0, false, [], [], []⟩

def diaryCall : Diary × TimeWheel → Call → Except Fault (Diary × TimeWheel)
  | (d, w), .addTimer timeout => do
    let (timer, w) ← addTimer w timeout
    let made := timer.toList.map fun a => ⟨a, timeout, d.begun, d.inTick⟩
    return ({ d with live := timer.toList ++ d.live, made := made ++ d.made }, w)
  | (d, w), .deleteTimer timer =>
    if timer ∈ d.live then do
      let w ← deleteTimer w (some timer)
      return ({ d with live := d.live.erase timer, deleted := timer :: d.deleted }, w)
    else .error .contract

/-- The entry made when the callback of `timer` starts. -/
def Diary.fire (d : Diary) (timer : Nat) : Diary :=
  { d with live := d.live.erase timer, fires := d.fires ++ [(timer, d.begun)] }

def diaryCallback (script : Nat → List Call) : Callback Diary := fun timer d w =>
  run diaryCall (d.fire timer, w) (script timer)

def diaryStep : Diary × TimeWheel → Op → Except Fault (Diary × TimeWheel)
  | world, .call c => diaryCall world c
  | (d, w), .tick script => do
    let (d, w) ← tick (diaryCallback script) { d with begun := d.begun + 1, inTick := true } w
    return ({ d with inTick := false }, w)

/-- The ticks that invoked the callback of `a`. -/
def Diary.firesOf (d : Diary) (a : Nat) : List Nat := (d.fires.filter fun f => f.1 = a).map Prod.snd

/-- The tick a timer fires in. One made in a tick for a multiple of the 60 slots lands in
the slot being traversed, with a rotation that this visit does not count. -/
def Made.due (m : Made) : Nat :=
  m.begun + max 1 m.timeout + if m.inTick then (if 60 ∣ max 1 m.timeout then 60 else 0) else 1

/-- The tick that will fire a timer with `n` rotations in slot `i`. -/
def Diary.fireTick (d : Diary) (cur n i : Int) (visited : Bool) : Int :=
  if d.inTick then d.begun + N * n + if visited then N else (i - cur) % N
  else d.begun + 1 + N * n + (i - cur) % N

theorem Diary.fireTick_congr {d d' : Diary} {cur n i : Int} {p q : Prop} [Decidable p] [Decidable q]
    (hbegun : d'.begun = d.begun) (hin : d'.inTick = d.inTick) (h : q ↔ p) :
    d.fireTick cur n i (decide p) = d'.fireTick cur n i (decide q) := by
  rw [decide_eq_decide.mpr h, fireTick, fireTick, hbegun, hin]

/-- Every timer made is on the wheel and due, or has fired when it was, or was deleted.
`ys` are the timers of the current slot still to be visited, `extra` the one firing. -/
structure Timely (extra : List Nat) (d : Diary) (w : TimeWheel) (ys : List Nat) : Prop where
  owns : Owns w (extra ++ d.live)
  nodup : (d.made.map Made.timer).Nodup
  old : ∀ m ∈ d.made, m.timer < w.heap.fresh
  firesOld : ∀ f ∈ d.fires, f.1 < w.heap.fresh
  pending : ∀ m ∈ d.made, m.timer ∈ d.live → d.firesOf m.timer = [] ∧ ∃ n i,
    w.heap.data m.timer = some (n, i) ∧
    (m.due : Int) = d.fireTick w.curSlot n i (decide (i = w.curSlot ∧ m.timer ∉ ys))
  settled : ∀ m ∈ d.made, m.timer ∉ d.live → m.timer ∈ d.deleted ∨
    d.firesOf m.timer = [m.due] ∧ m.due ≤ d.begun

theorem timely_init : Timely [] Diary.init TimeWheel.init [] := by
  constructor
  · exact owns_init
  all_goals simp [Diary.init]

section Calls
variable {extra : List Nat} {d : Diary} {w : TimeWheel} {chain : Int → List Nat} {ys : List Nat}

theorem firesOf_eq_nil {a : Nat} (h : ∀ f ∈ d.fires, f.1 ≠ a) : d.firesOf a = [] := by
  simpa [Diary.firesOf] using h

/-- Where `add_timer` puts a timer is where it has to be for its due tick. -/
theorem due_added (d : Diary) {cur : Int} (hcur : IsSlot cur) (a timeout : Nat) (absent : a ∉ ys) :
    ((Made.mk a timeout d.begun d.inTick).due : Int) =
      d.fireTick cur (rotationOf timeout) (slotOf cur timeout)
        (decide (slotOf cur timeout = cur ∧ a ∉ ys)) := by
  obtain ⟨h0, h60⟩ := hcur
  unfold N at h60
  have hcast : ((max 1 timeout : Nat) : Int) = max 1 (timeout : Int) := by simp
  generalize ht : (max 1 timeout : Nat) = t at *
  simp only [Made.due, Diary.fireTick, rotationOf, slotOf, ticksOf, ← hcast, N, absent, not_false_eq_true,
    and_true, ht]
  cases d.inTick
  · simp
    omega
  · simp
    split <;> split <;> omega

theorem Timely.added (h : Timely extra d w ys) (r : Repr w chain) (timeout : Nat)
    (absent : w.heap.fresh ∉ ys) :
    Timely extra { d with
      live := w.heap.fresh :: d.live
      made := ⟨w.heap.fresh, timeout, d.begun, d.inTick⟩ :: d.made }
      (Wheel.added w (rotationOf timeout) (slotOf w.curSlot timeout)) ys := by
  have hdata := data_added w (rotationOf timeout) (slotOf w.curSlot timeout)
  have hfresh : w.heap.fresh < (Wheel.added w (rotationOf timeout) (slotOf w.curSlot timeout)).heap.fresh := by
    rw [fresh_added]
    exact Nat.lt_succ_self _
  have old : ∀ m ∈ d.made, m.timer ≠ w.heap.fresh := fun m hm => ne_of_lt (h.old m hm)
  constructor
  · have o := h.owns.added (rotationOf timeout) (slotOf w.curSlot timeout)
    refine ⟨(List.perm_middle.symm.nodup_iff).mp o.nodup, fun b => ?_⟩
    rw [← o.mem_iff]
    exact List.perm_middle.mem_iff
  · refine List.nodup_cons.mpr ⟨?_, h.nodup⟩
    simpa using old
  · intro m hm
    rcases List.mem_cons.mp hm with rfl | hm
    · exact hfresh
    · exact (h.old m hm).trans hfresh
  · intro f hf
    exact (h.firesOld f hf).trans hfresh
  · intro m hm hlive
    rcases List.mem_cons.mp hm with rfl | hm
    · refine ⟨firesOf_eq_nil fun f hf => ne_of_lt (h.firesOld f hf), rotationOf timeout,
        slotOf w.curSlot timeout, by simp [hdata], due_added d r.cur _ timeout absent⟩
    · have hlive : m.timer ∈ d.live := by simpa [old m hm] using hlive
      obtain ⟨hfires, n, i, hd, hdue⟩ := h.pending m hm hlive
      exact ⟨hfires, n, i, by rw [hdata, Function.update_of_ne (old m hm), hd], hdue⟩
  · intro m hm hoff
    simp only [List.mem_cons, not_or] at hoff
    rcases List.mem_cons.mp hm with rfl | hm
    · exact absurd rfl hoff.1
    · exact h.settled m hm hoff.2

theorem fresh_without (w : TimeWheel) (i : Int) (xs : List Nat) (a : Nat) (ys : List Nat) :
    (Wheel.without w i xs a ys).heap.fresh = w.heap.fresh := by
  simp [Wheel.without]

theorem Timely.without (h : Timely extra d w ys) {b : Nat} (hb : b ∈ d.live) (i : Int)
    (us vs : List Nat) :
    Timely extra { d with live := d.live.erase b, deleted := b :: d.deleted }
      (Wheel.without w i us b vs) (ys.erase b) := by
  have hdata := data_without w i us b vs
  have hfresh := fresh_without w i us b vs
  have nodup := List.nodup_append.mp h.owns.nodup
  have hextra : b ∉ extra := fun he => nodup.2.2 b he b hb rfl
  constructor
  · have o := h.owns.without i us b vs
    rwa [List.erase_append_right _ hextra] at o
  · exact h.nodup
  · exact hfresh ▸ h.old
  · exact hfresh ▸ h.firesOld
  · intro m hm hlive
    rw [nodup.2.1.mem_erase_iff] at hlive
    obtain ⟨hfires, n, j, hd, hdue⟩ := h.pending m hm hlive.2
    refine ⟨hfires, n, j, by rw [hdata, Function.update_of_ne hlive.1, hd], ?_⟩
    exact hdue.trans (Diary.fireTick_congr rfl rfl (by simp [Wheel.without, List.mem_erase_of_ne hlive.1]))
  · intro m hm hoff
    by_cases e : m.timer = b
    · exact .inl (by simp [e])
    · rw [nodup.2.1.mem_erase_iff, not_and] at hoff
      exact (h.settled m hm (hoff e)).imp_left (by simp +contextual)

/-- The view from the callback of `a`, with at most `n` timers still behind it. -/
def Rearming (cur : Int) (a n : Nat) (world : Diary × TimeWheel) : Prop :=
  ∃ chain xs ys, Repr world.2 chain ∧ world.2.curSlot = cur ∧ chain cur = xs ++ a :: ys ∧
    ys.length ≤ n ∧ Timely [a] world.1 world.2 ys ∧ world.1.inTick = true

theorem diaryCall_rearming (cur : Int) (a n : Nat) (world : Diary × TimeWheel) (c : Call)
    (h : Rearming cur a n world) : Safe (diaryCall world c) (Rearming cur a n) := by
  obtain ⟨d, w⟩ := world
  obtain ⟨chain, xs, ys, r, rfl, hc, hn, t, hin⟩ := h
  have hfresh := r.fresh_not_mem r.cur
  simp only [hc, List.mem_append, List.mem_cons, not_or] at hfresh
  cases c with
  | addTimer timeout =>
    have hi := isSlot_slotOf w.curSlot timeout
    simp only [diaryCall, addTimer_eq r (Int.natCast_nonneg timeout), ok_bind, pure_ok, Ends.ok_iff]
    refine ⟨_, if slotOf w.curSlot timeout = w.curSlot then w.heap.fresh :: xs else xs, ys,
      r.added hi (rotationOf_nonneg timeout), rfl, ?_, hn,
      t.added r timeout hfresh.2.2, hin⟩
    split
    next e => rw [e, Function.update_self, hc, List.cons_append]
    next e => rw [Function.update_of_ne (Ne.symm e), hc]
  | deleteTimer b =>
    simp only [diaryCall]
    split
    next hb =>
      have hba : b ≠ a := by
        rintro rfl
        exact (List.nodup_cons.mp t.owns.nodup).1 hb
      obtain ⟨i, hi, hmem⟩ := r.slot_of_owned t.owns (List.mem_cons_of_mem a hb)
      obtain ⟨us, vs, xs', hcut, hcur⟩ := r.cut hi hmem hba hc
      rw [deleteTimer_eq r hi hcut]
      exact ⟨_, xs', ys.erase b, r.without hi hcut, rfl, hcur, List.length_erase_le.trans hn,
        t.without hb i us vs, hin⟩
    next => simp

end Calls

/-! ## Ticks -/

section Tick
variable {d : Diary} {w : TimeWheel} {chain : Int → List Nat} {xs ys : List Nat} {a : Nat}

/-- A timer with rotations left has been visited, and is due as before. -/
theorem Timely.visited (h : Timely [] d w (a :: ys)) (absent : a ∉ ys) (hin : d.inTick = true)
    {n : Int} (hd : w.heap.data a = some (n, w.curSlot)) : Timely [] d (decremented w a) ys := by
  have hdata := data_decremented w hd
  constructor
  · exact h.owns.decremented hd
  · exact h.nodup
  · exact h.old
  · exact h.firesOld
  · intro m hm hlive
    obtain ⟨hfires, k, i, hk, hdue⟩ := h.pending m hm hlive
    by_cases e : m.timer = a
    · rw [e, hd] at hk
      obtain ⟨rfl, rfl⟩ : n = k ∧ w.curSlot = i := by simpa using hk
      refine ⟨hfires, n - 1, w.curSlot, by rw [hdata, e, Function.update_self], ?_⟩
      rw [hdue]
      simp [Diary.fireTick, hin, e, absent, decremented]
      ring
    · refine ⟨hfires, k, i, by rw [hdata, Function.update_of_ne e, hk], ?_⟩
      exact hdue.trans (Diary.fireTick_congr rfl rfl (by simp [decremented, e]))
  · exact h.settled

theorem firesOf_fire (d : Diary) (a b : Nat) :
    (d.fire a).firesOf b = d.firesOf b ++ if a = b then [d.begun] else [] := by
  by_cases e : a = b <;> simp [Diary.firesOf, Diary.fire, List.filter_append, e]

/-- The diary when the callback of `a` starts. -/
theorem Timely.starts (h : Timely [] d w (a :: ys)) (hin : d.inTick = true) (live : a ∈ d.live)
    (hd : w.heap.data a = some (0, w.curSlot)) :
    Timely [a] (d.fire a) w ys := by
  have nodup : d.live.Nodup := h.owns.nodup
  constructor
  · refine ⟨(List.perm_cons_erase live).nodup_iff.mp nodup, fun b => ?_⟩
    rw [← h.owns.mem_iff]
    exact (List.perm_cons_erase live).mem_iff.symm
  · exact h.nodup
  · exact h.old
  · intro f hf
    rcases List.mem_append.mp hf with hf | hf
    · exact h.firesOld f hf
    · obtain rfl : f = (a, d.begun) := by simpa using hf
      obtain ⟨v, hv, -⟩ := cell_of_data hd
      exact w.heap.lt_fresh_of_cell hv
  · intro m hm hlive
    simp only [Diary.fire, nodup.mem_erase_iff] at hlive
    obtain ⟨hnone, k, i, hk, hdue⟩ := h.pending m hm hlive.2
    refine ⟨by rw [firesOf_fire, hnone, if_neg (Ne.symm hlive.1)]; rfl, k, i, hk, ?_⟩
    exact hdue.trans (Diary.fireTick_congr rfl rfl (by simp [hlive.1]))
  · intro m hm hoff
    by_cases e : m.timer = a
    · -- `a` itself fires now, and now is when it is due
      obtain ⟨hnone, k, i, hk, hdue⟩ := h.pending m hm (e ▸ live)
      rw [e, hd] at hk
      obtain ⟨rfl, rfl⟩ : 0 = k ∧ w.curSlot = i := by simpa using hk
      have hnow : m.due = d.begun := by
        simp [Diary.fireTick, hin, e] at hdue
        exact hdue
      refine .inr ⟨?_, hnow.le⟩
      rw [firesOf_fire, hnone, if_pos e.symm, hnow]
      rfl
    · have hoff : m.timer ∉ d.live := by simpa [Diary.fire, nodup.mem_erase_iff, e] using hoff
      refine (h.settled m hm hoff).imp_right fun hfired => ?_
      rw [firesOf_fire, if_neg (Ne.symm e), List.append_nil]
      exact hfired

/-- A tick begins: every timer of the current slot is still to be visited. -/
theorem Timely.begins (h : Timely [] d w []) (r : Repr w chain) (out : d.inTick = false) :
    Timely [] { d with begun := d.begun + 1, inTick := true } w (chain w.curSlot) := by
  constructor
  · exact h.owns
  · exact h.nodup
  · exact h.old
  · exact h.firesOld
  · intro m hm hlive
    obtain ⟨hfires, n, i, hd, hdue⟩ := h.pending m hm hlive
    refine ⟨hfires, n, i, hd, ?_⟩
    have hmem : ¬ (i = w.curSlot ∧ m.timer ∉ chain w.curSlot) := by
      rintro ⟨rfl, hnot⟩
      exact hnot (r.owned _ _ _ hd).2
    simp [hdue, Diary.fireTick, out, hmem]
  · intro m hm hoff
    refine (h.settled m hm hoff).imp_right fun hfired => ⟨hfired.1, ?_⟩
    have hle := hfired.2
    simp only
    omega

/-- And ends: the hand moves on. -/
theorem Timely.ends (h : Timely [] d w []) (r : Repr w chain) (hin : d.inTick = true) :
    Timely [] { d with inTick := false } { w with curSlot := (w.curSlot + 1).tmod N } [] := by
  obtain ⟨h0, h60⟩ := r.cur
  constructor
  · exact ⟨h.owns.nodup, h.owns.mem_iff⟩
  · exact h.nodup
  · exact h.old
  · exact h.firesOld
  · intro m hm hlive
    obtain ⟨hfires, n, i, hd, hdue⟩ := h.pending m hm hlive
    obtain ⟨⟨hi0, hi60⟩, -⟩ := r.owned _ _ _ hd
    refine ⟨hfires, n, i, hd, ?_⟩
    simp only [hdue, Diary.fireTick, hin, Int.tmod_eq_emod_of_nonneg (by omega : 0 ≤ w.curSlot + 1)]
    unfold N at *
    by_cases e : i = w.curSlot
    · simp [e]
      omega
    · simp [e]
      omega
  · exact h.settled

/-- The fired timer is taken out and freed. -/
theorem Timely.retired (h : Timely [a] d w ys) (i : Int) (us vs : List Nat) :
    Timely [] d (Wheel.without w i us a vs) ys := by
  have hdata := data_without w i us a vs
  have hfresh := fresh_without w i us a vs
  constructor
  · simpa using h.owns.without i us a vs
  · exact h.nodup
  · exact hfresh ▸ h.old
  · exact hfresh ▸ h.firesOld
  · intro m hm hlive
    obtain ⟨hfires, n, j, hd, hdue⟩ := h.pending m hm hlive
    have e : m.timer ≠ a := by
      rintro rfl
      exact (List.nodup_cons.mp h.owns.nodup).1 hlive
    exact ⟨hfires, n, j, by rw [hdata, Function.update_of_ne e, hd], hdue⟩
  · exact h.settled

/-- The callback of `a`, whatever it calls, leaves the other timers due as they were. -/
theorem diaryCallback_timely (script : Nat → List Call) (r : Repr w chain)
    (hc : chain w.curSlot = xs ++ a :: ys) (hd : w.heap.data a = some (0, w.curSlot))
    (h : Timely [] d w (a :: ys)) (hin : d.inTick = true) :
    Safe (diaryCallback script a d w) fun (d₁, w₁) => ∃ chain₁ xs₁ ys₁,
      Tame w w₁ chain₁ xs₁ a ys ys₁ ∧ Timely [a] d₁ w₁ ys₁ ∧ d₁.inTick = true := by
  have live : a ∈ d.live := (h.owns.mem_iff a).mpr (by simp [hd])
  refine (run_ends diaryCall (diaryCall_rearming w.curSlot a ys.length) (s := (d.fire a, w))
    ⟨chain, xs, ys, r, rfl, hc, le_refl _, h.starts hin live hd, hin⟩ (script a)).mono ?_
  rintro ⟨d₁, w₁⟩ ⟨chain₁, xs₁, ys₁, r₁, hcur, hc₁, hlen, t₁, hin₁⟩
  exact ⟨chain₁, xs₁, ys₁, ⟨r₁, hcur, by rw [hcur, hc₁], hlen⟩, t₁, hin₁⟩

/-- Between two ticks. -/
def Resting (world : Diary × TimeWheel) : Prop :=
  (∃ chain, Repr world.2 chain) ∧ Timely [] world.1 world.2 [] ∧ world.1.inTick = false

theorem diaryCall_resting (world : Diary × TimeWheel) (c : Call) (h : Resting world) :
    Safe (diaryCall world c) Resting := by
  obtain ⟨d, w⟩ := world
  obtain ⟨⟨chain, r⟩, t, out⟩ := h
  cases c with
  | addTimer timeout =>
    simp only [diaryCall, addTimer_eq r (Int.natCast_nonneg timeout), ok_bind, pure_ok, Ends.ok_iff]
    exact ⟨⟨_, r.added (isSlot_slotOf _ _) (rotationOf_nonneg _)⟩, t.added r timeout (by simp), out⟩
  | deleteTimer a =>
    simp only [diaryCall]
    split
    next ha =>
      obtain ⟨i, xs, ys, hi, hc, he⟩ := deleteTimer_spec r t.owns ha
      rw [he]
      exact ⟨⟨_, r.without hi hc⟩, t.without ha i xs ys, out⟩
    next => simp

theorem diaryTick_resting (script : Nat → List Call) (h : Resting (d, w)) :
    Safe (diaryStep (d, w) (.tick script)) Resting := by
  obtain ⟨⟨chain, r⟩, t, out⟩ := h
  simp only [diaryStep]
  rw [tick_eq r, bind_assoc]
  refine (tickLoop_rule (fun d w _ ys => Timely [] d w ys ∧ d.inTick = true) ?_ ?_ w.heap.fresh _ w
    chain [] (chain w.curSlot) (r.length_le r.cur) r rfl ⟨t.begins r out, rfl⟩).bind ?_
  · rintro d w chain xs a ys n r hc hd hn ⟨t, hin⟩
    have absent := (hc ▸ r.linked _ r.cur).not_mem_of_mid
    exact ⟨t.visited (by simp at absent; exact absent.2) hin hd, hin⟩
  · rintro d w chain xs a ys r hc hd ⟨t, hin⟩
    refine (diaryCallback_timely script r hc hd t hin).mono ?_
    rintro ⟨d₁, w₁⟩ ⟨chain₁, xs₁, ys₁, tame, t₁, hin₁⟩
    exact ⟨chain₁, xs₁, ys₁, tame, t₁.retired _ _ _, hin₁⟩
  · rintro ⟨d', w'⟩ ⟨chain', r', -, t', hin'⟩
    exact ⟨⟨chain', r'.advance⟩, t'.ends r' hin', rfl⟩

theorem diary_sound (ops : List Op) :
    Safe (run diaryStep (Diary.init, TimeWheel.init) ops) Resting := by
  refine run_ends diaryStep ?_ ⟨⟨_, repr_init⟩, timely_init, rfl⟩ ops
  intro world op h
  cases op with
  | call c => exact diaryCall_resting world c h
  | tick script => exact diaryTick_resting script h

/-- A timer nobody deleted has fired exactly if its due tick has been. -/
theorem Resting.firesOf_eq (h : Resting (d, w)) {m : Made} (hm : m ∈ d.made)
    (kept : m.timer ∉ d.deleted) : d.firesOf m.timer = if m.due ≤ d.begun then [m.due] else [] := by
  obtain ⟨⟨chain, r⟩, t, out⟩ := h
  by_cases hlive : m.timer ∈ d.live
  · obtain ⟨hfires, n, i, hd, hdue⟩ := t.pending m hm hlive
    obtain ⟨hi, hmem⟩ := r.owned _ _ _ hd
    obtain ⟨k, hk, hn⟩ := r.placed i hi _ hmem
    obtain rfl : n = k := by simpa [hd] using hk
    have hlate : ¬ m.due ≤ d.begun := by
      have out : d.inTick = false := out
      simp only [Diary.fireTick, out, Bool.false_eq_true, if_false, N] at hdue
      omega
    rw [hfires, if_neg hlate]
  · have hfired := (t.settled m hm hlive).resolve_left kept
    rw [hfired.1, if_pos hfired.2]

end Tick
end LinuxDemo.Invariant.Wheel
