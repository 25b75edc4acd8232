import LinuxDemo.Invariant.Wheel

/-!
# Runs of the timing wheel

A client keeps book of the timers it added and has not deleted or seen fire, calls the
wheel between ticks and, from the callbacks, during ticks. Its side of the contract is
checked before the wheel is entered: it deletes only timers on its books. The timer
being fired has left the books when its callback starts.
-/
namespace LinuxDemo.Invariant.Wheel
open LinuxDemo.Lib LinkNode LinuxDemo.Source.TimerWheel

inductive Call where
  | addTimer (timeout : Nat)
  | deleteTimer (timer : Nat)
  deriving DecidableEq

/-- What happens between two steps of the client; `script a` are the calls made by the
callback of the timer `a` if that timer fires in this tick. -/
inductive Op where
  | call (c : Call)
  | tick (script : Nat → List Call)

structure Client where
  /-- timers added and not since deleted or fired -/
  live : List Nat
  /-- callbacks invoked by the tick in progress, in order -/
  firing : List Nat
  /-- callbacks invoked by each completed tick -/
  fired : List (List Nat)

abbrev World := Client × TimeWheel

def World.init : World := (⟨[], [], []⟩, TimeWheel.init)

def call : World → Call → Except Fault World
  | (s, w), .addTimer timeout => do
    let (timer, w) ← addTimer w timeout
    return ({ s with live := timer.toList ++ s.live }, w)
  | (s, w), .deleteTimer timer =>
    if timer ∈ s.live then do
      let w ← deleteTimer w (some timer)
      return ({ s with live := s.live.erase timer }, w)
    else .error .contract

def callback (script : Nat → List Call) : Callback Client := fun timer s w =>
  run call ({ s with live := s.live.erase timer, firing := s.firing ++ [timer] }, w) (script timer)

def step : World → Op → Except Fault World
  | world, .call c => call world c
  | (s, w), .tick script => do
    let (s, w) ← tick (callback script) { s with firing := [] } w
    return ({ s with fired := s.fired ++ [s.firing] }, w)

/-- The wheel holds exactly the timers `S`. -/
structure Owns (w : TimeWheel) (S : List Nat) : Prop where
  nodup : S.Nodup
  mem_iff : ∀ a, a ∈ S ↔ (w.heap.data a).isSome

theorem owns_init : Owns TimeWheel.init [] :=
  ⟨List.nodup_nil, fun a => by simp [TimeWheel.init, Heap.data, Heap.empty]⟩

section Owned
variable {w : TimeWheel} {chain : Int → List Nat} {S : List Nat}

theorem Owns.fresh_not_mem (o : Owns w S) : w.heap.fresh ∉ S := by
  rw [o.mem_iff]
  simp [Heap.data, w.heap.bounded _ (Nat.le_refl _)]

theorem Owns.added (o : Owns w S) (rotation ts : Int) :
    Owns (added w rotation ts) (w.heap.fresh :: S) := by
  refine ⟨List.nodup_cons.mpr ⟨o.fresh_not_mem, o.nodup⟩, fun a => ?_⟩
  rw [data_added]
  by_cases e : a = w.heap.fresh
  · simp [e]
  · simp [e, o.mem_iff]

theorem Owns.without (o : Owns w S) (i : Int) (xs : List Nat) (a : Nat) (ys : List Nat) :
    Owns (without w i xs a ys) (S.erase a) := by
  refine ⟨o.nodup.erase a, fun b => ?_⟩
  rw [data_without, o.nodup.mem_erase_iff]
  by_cases e : b = a
  · simp [e]
  · simp [e, o.mem_iff]

theorem Owns.decremented (o : Owns w S) {a : Nat} {n i : Int} (h : w.heap.data a = some (n, i)) :
    Owns (decremented w a) S := by
  refine ⟨o.nodup, fun b => ?_⟩
  rw [data_decremented w h, o.mem_iff]
  by_cases e : b = a
  · subst e
    simp [h]
  · simp [Function.update_of_ne e]

/-- A timer of the wheel stands somewhere in one slot. -/
theorem Repr.slot_of_owned (r : Repr w chain) (o : Owns w S) {a : Nat} (ha : a ∈ S) :
    ∃ i, IsSlot i ∧ a ∈ chain i := by
  obtain ⟨⟨n, i⟩, hd⟩ := Option.isSome_iff_exists.mp ((o.mem_iff a).mp ha)
  exact ⟨i, r.owned a n i hd⟩

/-- `add_timer`, called by the client, puts one timer on its books. -/
theorem call_addTimer_eq (r : Repr w chain) (s : Client) (timeout : Nat) :
    call (s, w) (.addTimer timeout) =
      .ok ({ s with live := w.heap.fresh :: s.live },
        Wheel.added w (rotationOf timeout) (slotOf w.curSlot timeout)) := by
  simp only [call, addTimer_eq r (Int.natCast_nonneg timeout), ok_bind]
  rfl

/-- `delete_timer`, called on a timer of the wheel. -/
theorem deleteTimer_spec (r : Repr w chain) (o : Owns w S) {a : Nat} (ha : a ∈ S) :
    ∃ i xs ys, IsSlot i ∧ chain i = xs ++ a :: ys ∧
      deleteTimer w (some a) = .ok (Wheel.without w i xs a ys) := by
  obtain ⟨i, hi, hmem⟩ := r.slot_of_owned o ha
  obtain ⟨xs, ys, hc⟩ := List.append_of_mem hmem
  exact ⟨i, xs, ys, hi, hc, deleteTimer_eq r hi hc⟩

/-- Seen from `a` in the slot being traversed, taking another timer out of any slot leaves
behind `a` what was there, without that timer. -/
theorem Repr.cut (r : Repr w chain) {i : Int} (hi : IsSlot i) {a b : Nat} {xs ys : List Nat}
    (hb : b ∈ chain i) (hba : b ≠ a) (hc : chain w.curSlot = xs ++ a :: ys) :
    ∃ us vs xs', chain i = us ++ b :: vs ∧
      Function.update chain i (us ++ vs) w.curSlot = xs' ++ a :: ys.erase b := by
  have nodup : (xs ++ a :: ys).Nodup := hc ▸ (r.linked _ r.cur).nodup
  by_cases e : i = w.curSlot
  · subst e
    rw [hc] at hb ⊢
    simp only [List.mem_append, List.mem_cons, hba, false_or] at hb
    rcases hb with hx | hy
    · -- in front of `a`
      have habsent : b ∉ ys := by
        intro hy
        exact (List.nodup_append.mp nodup).2.2 b hx b (by simp [hy]) rfl
      obtain ⟨x₁, x₂, rfl⟩ := List.append_of_mem hx
      exact ⟨x₁, x₂ ++ a :: ys, x₁ ++ x₂, by simp, by simp [List.erase_of_not_mem habsent]⟩
    · obtain ⟨y₁, y₂, rfl⟩ := List.append_of_mem hy
      have habsent : b ∉ y₁ := by
        intro hy₁
        have hnd := (List.nodup_cons.mp (List.nodup_append.mp nodup).2.1).2
        exact (List.nodup_append.mp hnd).2.2 b hy₁ b (by simp) rfl
      exact ⟨xs ++ a :: y₁, y₂, xs, by simp, by simp [List.erase_append_right _ habsent]⟩
  · obtain ⟨us, vs, hcut⟩ := List.append_of_mem hb
    have habsent : b ∉ ys := by
      intro hy
      exact r.disjoint hi r.cur e hb (by simp [hc, hy])
    exact ⟨us, vs, xs, hcut, by rw [Function.update_of_ne (Ne.symm e), hc, List.erase_of_not_mem habsent]⟩

end Owned

/-- Wheel and books agree, the timers `extra` aside. -/
def Sound (extra : List Nat) (world : World) : Prop :=
  ∃ chain, Repr world.2 chain ∧ Owns world.2 (extra ++ world.1.live)

theorem sound_init : Sound [] World.init := ⟨_, repr_init, owns_init⟩

/-- The client always gets a timer from `add_timer`, one that is not on its books yet. -/
theorem Sound.addTimer {s : Client} {w : TimeWheel} (h : Sound [] (s, w)) (timeout : Nat) :
    ∃ timer w', addTimer w timeout = .ok (some timer, w') ∧ timer ∉ s.live ∧
      call (s, w) (.addTimer timeout) = .ok ({ s with live := timer :: s.live }, w') := by
  obtain ⟨chain, r, o⟩ := h
  exact ⟨w.heap.fresh, _, addTimer_eq r (Int.natCast_nonneg timeout), o.fresh_not_mem,
    call_addTimer_eq r s timeout⟩

/-- The view from inside a callback: `a` still stands in the current slot, with at most
`n` timers behind it. -/
def Firing (cur : Int) (a n : Nat) (world : World) : Prop :=
  ∃ chain xs ys, Repr world.2 chain ∧ Owns world.2 (a :: world.1.live) ∧
    world.2.curSlot = cur ∧ chain cur = xs ++ a :: ys ∧ ys.length ≤ n

theorem call_firing (cur : Int) (a n : Nat) (world : World) (c : Call)
    (h : Firing cur a n world) : Safe (call world c) (Firing cur a n) := by
  obtain ⟨s, w⟩ := world
  obtain ⟨chain, xs, ys, r, o, rfl, hc, hn⟩ := h
  cases c with
  | addTimer timeout =>
    have hi := isSlot_slotOf w.curSlot timeout
    have hrot := rotationOf_nonneg timeout
    simp only [call_addTimer_eq r, Ends.ok_iff]
    have o' := o.added (rotationOf timeout) (slotOf w.curSlot timeout)
    refine ⟨_, if slotOf w.curSlot timeout = w.curSlot then w.heap.fresh :: xs else xs, ys,
      r.added hi hrot, ⟨?_, ?_⟩, rfl, ?_, hn⟩
    · simpa using (List.Perm.swap _ _ _).nodup_iff.mp o'.nodup
    · intro b
      rw [← o'.mem_iff]
      simp only [List.mem_cons]
      tauto
    · split
      next e => rw [e, Function.update_self, hc, List.cons_append]
      next e => rw [Function.update_of_ne (Ne.symm e), hc]
  | deleteTimer b =>
    simp only [call]
    split
    next hb =>
      have hba : b ≠ a := by
        intro e
        exact (List.nodup_cons.mp o.nodup).1 (e ▸ hb)
      obtain ⟨i, hi, hmem⟩ := r.slot_of_owned o (List.mem_cons_of_mem a hb)
      obtain ⟨us, vs, xs', hcut, hcur⟩ := r.cut hi hmem hba hc
      rw [deleteTimer_eq r hi hcut]
      have o' := o.without i us b vs
      rw [List.erase_cons_tail (by simpa using Ne.symm hba)] at o'
      exact ⟨_, xs', ys.erase b, r.without hi hcut, o', rfl, hcur, (List.length_erase_le).trans hn⟩
    next => simp

/-- The callback of `a`, whatever it calls, leaves the loop a wheel it can go on with. -/
theorem callback_tame (script : Nat → List Call) {s : Client} {w : TimeWheel}
    {chain : Int → List Nat} {xs ys : List Nat} {a : Nat} (r : Repr w chain) (o : Owns w s.live)
    (hc : chain w.curSlot = xs ++ a :: ys) :
    Safe (callback script a s w) fun (s₁, w₁) => ∃ chain₁ xs₁ ys₁,
      Tame w w₁ chain₁ xs₁ a ys ys₁ ∧ Owns w₁ (a :: s₁.live) := by
  have ha : a ∈ s.live := by
    obtain ⟨n, hd, -⟩ := r.placed _ r.cur a (by simp [hc])
    rw [o.mem_iff, hd]
    rfl
  have o' : Owns w (a :: s.live.erase a) := by
    refine ⟨(List.perm_cons_erase ha).nodup_iff.mp o.nodup, fun b => ?_⟩
    rw [← o.mem_iff, (List.perm_cons_erase ha).mem_iff]
  refine (run_ends call (call_firing w.curSlot a ys.length)
    (s := (_, w)) ⟨chain, xs, ys, r, o', rfl, hc, le_refl _⟩ (script a)).mono ?_
  rintro ⟨s₁, w₁⟩ ⟨chain₁, xs₁, ys₁, r₁, o₁, hcur, hc₁, hlen⟩
  exact ⟨chain₁, xs₁, ys₁, ⟨r₁, hcur, by rw [hcur, hc₁], hlen⟩, o₁⟩

theorem tick_sound (script : Nat → List Call) (s : Client) (w : TimeWheel)
    (h : Sound [] (s, w)) : Safe (tick (callback script) s w) (Sound []) := by
  obtain ⟨chain, r, o⟩ := h
  rw [tick_eq r]
  refine (tickLoop_rule (fun s w _ _ => Owns w s.live) ?_ ?_ w.heap.fresh s w chain []
    (chain w.curSlot) (r.length_le r.cur) r rfl o).bind ?_
  · intro s w chain xs a ys n r hc hd hn o
    exact o.decremented hd
  · intro s w chain xs a ys r hc hd o
    refine (callback_tame script r o hc).mono ?_
    rintro ⟨s₁, w₁⟩ ⟨chain₁, xs₁, ys₁, t, o₁⟩
    refine ⟨chain₁, xs₁, ys₁, t, ?_⟩
    simpa using o₁.without w₁.curSlot xs₁ a ys₁
  · rintro ⟨s', w'⟩ ⟨chain', r', hcur, o'⟩
    exact ⟨chain', r'.advance, o'.nodup, o'.mem_iff⟩

theorem call_sound (world : World) (c : Call) (h : Sound [] world) :
    Safe (call world c) (Sound []) := by
  obtain ⟨s, w⟩ := world
  obtain ⟨chain, r, o⟩ := h
  cases c with
  | addTimer timeout =>
    simp only [call_addTimer_eq r, Ends.ok_iff]
    exact ⟨_, r.added (isSlot_slotOf _ _) (rotationOf_nonneg _), o.added _ _⟩
  | deleteTimer a =>
    simp only [call]
    split
    next ha =>
      obtain ⟨i, xs, ys, hi, hc, he⟩ := deleteTimer_spec r o ha
      rw [he]
      exact ⟨_, r.without hi hc, o.without i xs a ys⟩
    next => simp

/-- Every operation of the client, ticks with arbitrary callbacks included. -/
theorem step_sound (world : World) (op : Op) (h : Sound [] world) :
    Safe (step world op) (Sound []) := by
  cases op with
  | call c => exact call_sound world c h
  | tick script =>
    obtain ⟨s, w⟩ := world
    refine (tick_sound script { s with firing := [] } w h).bind ?_
    rintro ⟨s', w'⟩ h'
    exact h'

theorem run_sound (ops : List Op) : Safe (run step World.init ops) (Sound []) :=
  run_ends step step_sound sound_init ops

end LinuxDemo.Invariant.Wheel
