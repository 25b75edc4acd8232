import LinuxDemo.Invariant.WheelRun
import LinuxDemo.Lib.Countdown

/-!
# The timing wheel refines a countdown table

`rotation` whole turns and the distance of the slot from `cur_slot` are together the
number of ticks a timer still lets pass. With callbacks that leave the wheel alone,
every operation of the wheel is one event of the countdown table this defines.
-/
namespace LinuxDemo.Invariant.Wheel
open LinuxDemo.Lib LinkNode LinuxDemo.Source.TimerWheel

/-- The countdown table of a wheel. -/
def schedule (w : TimeWheel) : Countdown.Table Nat := fun a =>
  (w.heap.data a).map fun d => (d.1 * N + (d.2 - w.curSlot) % N).toNat

theorem schedule_added (w : TimeWheel) (timeout : Nat) :
    schedule (added w (rotationOf timeout) (slotOf w.curSlot timeout)) =
      Function.update (schedule w) w.heap.fresh (some (max 1 timeout)) := by
  funext a
  unfold schedule
  rw [data_added]
  by_cases e : a = w.heap.fresh
  · subst e
    simp only [Function.update_self, Option.map_some, Option.some.injEq]
    unfold added rotationOf slotOf ticksOf N
    dsimp only
    omega
  · simp only [Function.update_of_ne e]
    rfl

theorem schedule_without (w : TimeWheel) (i : Int) (xs : List Nat) (a : Nat) (ys : List Nat) :
    schedule (without w i xs a ys) = Function.update (schedule w) a none := by
  funext b
  unfold schedule
  rw [data_without]
  by_cases e : b = a
  · simp [e]
  · simp only [Function.update_of_ne e]
    rfl

/-- What one tick does to a timer of the slot it traverses. -/
def aged : Option (Int × Int) → Option (Int × Int)
  | some (n, i) => if 0 < n then some (n - 1, i) else none
  | none => none

theorem repr_data_cases {w : TimeWheel} {chain : Int → List Nat} (r : Repr w chain) (a : Nat) :
    w.heap.data a = none ∨ ∃ n i, w.heap.data a = some (n, i) ∧ 0 ≤ n ∧ IsSlot i ∧
      (a ∈ chain w.curSlot ↔ i = w.curSlot) := by
  cases hd : w.heap.data a with
  | none => exact Or.inl rfl
  | some d =>
    obtain ⟨n, i⟩ := d
    obtain ⟨hi, hmem⟩ := r.owned a n i hd
    obtain ⟨m, hm, hpos⟩ := r.placed i hi a hmem
    rw [hd] at hm
    obtain rfl : n = m := by simpa using hm
    refine Or.inr ⟨n, i, rfl, hpos, hi, ?_, ?_⟩
    · intro h
      by_contra hne
      exact r.disjoint hi r.cur hne hmem h
    · intro e
      exact e ▸ hmem

/-- One tick, seen from the table: every entry goes down by one. -/
theorem schedule_tick {w w' : TimeWheel} {chain : Int → List Nat} (r : Repr w chain)
    (hcur : w'.curSlot = (w.curSlot + 1).tmod N)
    (hdata : ∀ a, w'.heap.data a =
      if a ∈ chain w.curSlot then aged (w.heap.data a) else w.heap.data a) :
    schedule w' = Countdown.next (schedule w) .tick := by
  funext a
  have hc := r.cur
  rw [Int.tmod_eq_emod_of_nonneg (by have := hc.1; omega)] at hcur
  simp only [schedule, Countdown.next, hdata, hcur]
  rcases repr_data_cases r a with hd | ⟨n, i, hd, hn, hi, hmem⟩
  · rw [hd]
    split <;> rfl
  · rw [hd]
    unfold IsSlot N at *
    by_cases hcs : i = w.curSlot
    · rw [if_pos (hmem.mpr hcs)]
      rcases lt_or_eq_of_le hn with hpos | rfl
      · simp only [aged, if_pos hpos, Option.map_some]
        have : (n * 60 + (i - w.curSlot) % 60).toNat =
            ((n - 1) * 60 + (i - (w.curSlot + 1) % 60) % 60).toNat + 1 := by omega
        rw [this]
        rfl
      · simp only [aged, lt_self_iff_false, if_false, Option.map_none, Option.map_some]
        have : ((0 : Int) * 60 + (i - w.curSlot) % 60).toNat = 0 := by omega
        rw [this]
        rfl
    · rw [if_neg fun h => hcs (hmem.mp h)]
      simp only [Option.map_some]
      have : (n * 60 + (i - w.curSlot) % 60).toNat =
          (n * 60 + (i - (w.curSlot + 1) % 60) % 60).toNat + 1 := by omega
      rw [this]
      rfl

theorem due_iff {w : TimeWheel} {chain : Int → List Nat} (r : Repr w chain) (a : Nat) :
    Countdown.Due (schedule w) a ↔
      a ∈ chain w.curSlot ∧ w.heap.data a = some (0, w.curSlot) := by
  have hc := r.cur
  unfold Countdown.Due schedule
  rcases repr_data_cases r a with hd | ⟨n, i, hd, hn, hi, hmem⟩
  · simp [hd]
  · rw [hd, hmem]
    unfold IsSlot N at *
    simp only [Option.map_some, Option.some.injEq, Prod.mk.injEq]
    omega

/-- The timers of the slot being traversed that fire. -/
def firesNow (w : TimeWheel) (a : Nat) : Bool := w.heap.data a = some (0, w.curSlot)

/-- A tick whose callbacks leave the wheel alone, exactly. -/
theorem quiet_tick {script : Nat → List Call} (quiet : ∀ a, script a = []) {s : Client}
    {w : TimeWheel} {chain : Int → List Nat} (r : Repr w chain) :
    Total (tick (callback script) s w) fun (s', w') =>
      s'.fired = s.fired ∧
      s'.firing = s.firing ++ (chain w.curSlot).filter (firesNow w) ∧
      w'.heap.fresh = w.heap.fresh ∧
      schedule w' = Countdown.next (schedule w) .tick := by
  have nodup := (r.linked _ r.cur).nodup
  -- `ps` has been visited, `ys` has not
  let I : Client → TimeWheel → (Int → List Nat) → List Nat → Prop := fun s' w' _ ys =>
    ∃ ps, chain w.curSlot = ps ++ ys ∧ w'.curSlot = w.curSlot ∧ s'.fired = s.fired ∧
      s'.firing = s.firing ++ ps.filter (firesNow w) ∧ w'.heap.fresh = w.heap.fresh ∧
      ∀ a, w'.heap.data a = if a ∈ ps then aged (w.heap.data a) else w.heap.data a
  have fresh_in : ∀ ps a ys, chain w.curSlot = ps ++ a :: ys → a ∉ ps := by
    intro ps a ys h ha
    rw [h] at nodup
    exact (List.nodup_append.mp nodup).2.2 a ha a (by simp) rfl
  rw [tick_eq r]
  refine (tickLoop_rule I ?_ ?_ w.heap.fresh s w chain [] (chain w.curSlot) (r.length_le r.cur) r rfl
    ⟨[], by simp⟩).bind ?_
  · rintro s' w' chain' xs a ys n r' hc hd hn ⟨ps, hps, hcur, hfired, hfiring, hfresh, hdata⟩
    have hold : w.heap.data a = some (n, w.curSlot) := by
      rw [← hcur, ← hd, hdata a, if_neg (fresh_in ps a ys hps)]
    have hnot : firesNow w a = false := by
      simp only [firesNow, hold, Option.some.injEq, Prod.mk.injEq, and_true, decide_eq_false_iff_not]
      omega
    refine ⟨ps ++ [a], by simp [hps], hcur, hfired, by simp [hfiring, hnot], hfresh, fun b => ?_⟩
    rw [data_decremented w' hd]
    by_cases e : b = a
    · subst e
      simp [hold, hcur, aged, hn]
    · simp [hdata, e]
  · rintro s' w' chain' xs a ys r' hc hd ⟨ps, hps, hcur, hfired, hfiring, hfresh, hdata⟩
    have hold : w.heap.data a = some (0, w.curSlot) := by
      rw [← hcur, ← hd, hdata a, if_neg (fresh_in ps a ys hps)]
    have hnow : firesNow w a = true := by simp [firesNow, hold]
    simp only [callback, quiet, run_nil, Ends.ok_iff]
    refine ⟨chain', xs, ys, ⟨r', rfl, hc, le_refl _⟩, ps ++ [a], by simp [hps], hcur, hfired, ?_, ?_, ?_⟩
    · simp [hfiring, hnow]
    · simpa [without] using hfresh
    · intro b
      rw [data_without]
      by_cases e : b = a
      · subst e
        simp [hold, aged]
      · simp [hdata, e]
  · rintro ⟨s', w'⟩ ⟨chain', r', hcur', ps, hps, hcur, hfired, hfiring, hfresh, hdata⟩
    simp only [List.append_nil] at hps
    refine ⟨hfired, by rw [hfiring, hps], hfresh, schedule_tick r ?_ ?_⟩
    · simp [hcur]
    · intro a
      rw [hps]
      exact hdata a

/-- The event of the countdown table that an operation is. -/
def eventOf (w : TimeWheel) : Op → Countdown.Event Nat
  | .call (.addTimer timeout) => .start w.heap.fresh (max 1 timeout)
  | .call (.deleteTimer timer) => .cancel timer
  | .tick _ => .tick

/-- The callbacks of the operation do not touch the wheel. -/
def Op.Quiet : Op → Prop
  | .call _ => True
  | .tick script => ∀ a, script a = []

def Op.isTick : Op → Bool
  | .tick _ => true
  | .call _ => false

/-- The operation is its event, and a tick invokes the callbacks of the timers due. -/
structure StepRefines (world : World) (op : Op) (world' : World) : Prop where
  schedule_eq : schedule world'.2 = Countdown.next (schedule world.2) (eventOf world.2 op)
  fresh_le : world.2.heap.fresh ≤ world'.2.heap.fresh
  start_lt : ∀ a k, eventOf world.2 op = .start a k → a = world.2.heap.fresh ∧ a < world'.2.heap.fresh
  log : if op.isTick then
      ∃ f, world'.1.fired = world.1.fired ++ [f] ∧ f.Nodup ∧
        ∀ a, a ∈ f ↔ Countdown.Due (schedule world.2) a
    else world'.1.fired = world.1.fired

theorem quiet_tick_refines (world : World) {script : Nat → List Call} (quiet : ∀ a, script a = [])
    (h : Sound [] world) : Total (step world (.tick script)) (StepRefines world (.tick script)) := by
  obtain ⟨s, w⟩ := world
  obtain ⟨chain, r, o⟩ := h
  refine (quiet_tick quiet (s := { s with firing := [] }) r).bind ?_
  rintro ⟨s', w'⟩ ⟨hfired, hfiring, hfresh, hsch⟩
  refine ⟨hsch, by simp [hfresh], by simp [eventOf], ?_⟩
  simp only [Op.isTick, if_true]
  refine ⟨s'.firing, by simp [hfired], ?_, fun a => ?_⟩
  · rw [hfiring]
    simpa using (r.linked _ r.cur).nodup.filter _
  · rw [hfiring, due_iff r]
    simp [firesNow]

/-- Every quiet operation of the wheel is the event of the table. -/
theorem quiet_step_refines (world : World) (op : Op) (quiet : op.Quiet) (h : Sound [] world) :
    Safe (step world op) (StepRefines world op) := by
  cases op with
  | tick script => exact (quiet_tick_refines world quiet h).safe
  | call c =>
    obtain ⟨s, w⟩ := world
    obtain ⟨chain, r, o⟩ := h
    cases c with
    | addTimer timeout =>
      simp only [step, call_addTimer_eq r, Ends.ok_iff]
      refine ⟨schedule_added w timeout, by simp, ?_, by simp [Op.isTick]⟩
      intro a k he
      simp only [eventOf, Countdown.Event.start.injEq] at he
      simp [← he.1]
    | deleteTimer a =>
      simp only [step, call]
      split
      next ha =>
        obtain ⟨i, xs, ys, hi, hc, he⟩ := deleteTimer_spec r o ha
        rw [he]
        exact ⟨schedule_without w i xs a ys, by simp [Wheel.without], by simp [eventOf],
          by simp [Op.isTick]⟩
      next => simp

def ticks (ops : List Op) : Nat := ops.countP Op.isTick

/-- A run of the wheel is a run of the table: as many ticks, the same deletions, and no
second start of a timer that was already there. -/
structure RunRefines (world : World) (ops : List Op) (world' : World) : Prop where
  sound : Sound [] world'
  fresh_le : world.2.heap.fresh ≤ world'.2.heap.fresh
  fired_lt : ∀ f ∈ world'.1.fired, ∀ a ∈ f, a < world'.2.heap.fresh
  events : ∃ evs, schedule world'.2 = evs.foldl Countdown.next (schedule world.2) ∧
    Countdown.ticks evs = ticks ops ∧
    (∀ a, Countdown.Event.cancel a ∈ evs ↔ Op.call (.deleteTimer a) ∈ ops) ∧
    ∀ a k, a < world.2.heap.fresh → Countdown.Event.start a k ∉ evs

theorem lt_fresh_of_due {w : TimeWheel} {a : Nat} (h : Countdown.Due (schedule w) a) :
    a < w.heap.fresh := by
  unfold Countdown.Due schedule at h
  obtain ⟨d, hd, -⟩ := Option.map_eq_some_iff.mp h
  obtain ⟨v, hv, -⟩ := Option.map_eq_some_iff.mp hd
  exact w.heap.lt_fresh_of_cell hv

theorem fired_lt_step {world world' : World} {op : Op} (h : StepRefines world op world')
    (old : ∀ f ∈ world.1.fired, ∀ a ∈ f, a < world.2.heap.fresh) :
    ∀ f ∈ world'.1.fired, ∀ a ∈ f, a < world'.2.heap.fresh := by
  intro f hf a ha
  have hle := h.fresh_le
  have hlog := h.log
  split at hlog
  · obtain ⟨g, hg, -, hdue⟩ := hlog
    rw [hg, List.mem_append, List.mem_singleton] at hf
    rcases hf with hf | rfl
    · have := old f hf a ha
      omega
    · have := lt_fresh_of_due ((hdue a).mp ha)
      omega
  · rw [hlog] at hf
    have := old f hf a ha
    omega

theorem quiet_run_refines (ops : List Op) (quiet : ∀ op ∈ ops, op.Quiet) (world : World)
    (sound : Sound [] world) (fired : ∀ f ∈ world.1.fired, ∀ a ∈ f, a < world.2.heap.fresh) :
    Safe (run step world ops) (RunRefines world ops) := by
  induction ops generalizing world with
  | nil =>
    exact ⟨sound, le_refl _, fired, [], rfl, rfl, by simp, by simp⟩
  | cons op ops ih =>
    refine ((step_sound world op sound).and
      (quiet_step_refines world op (quiet op (by simp)) sound)).bind ?_
    rintro m ⟨hm, hstep⟩
    refine (ih (fun o ho => quiet o (by simp [ho])) m hm (fired_lt_step hstep fired)).mono ?_
    rintro world' ⟨sound', hle, fired', evs, hsch, hticks, hcancel, hstart⟩
    refine ⟨sound', hstep.fresh_le.trans hle, fired', eventOf world.2 op :: evs, ?_, ?_, ?_, ?_⟩
    · rw [hsch, hstep.schedule_eq]
      rfl
    · have hhead : (eventOf world.2 op).isTick = op.isTick := by
        cases op with
        | call c => cases c <;> rfl
        | tick => rfl
      unfold Countdown.ticks ticks at *
      simp only [List.countP_cons, hticks, hhead]
    · intro a
      rw [List.mem_cons, List.mem_cons, hcancel]
      cases op with
      | call c => cases c <;> simp [eventOf]
      | tick => simp [eventOf]
    · intro a k ha
      rw [List.mem_cons, not_or]
      refine ⟨fun e => ?_, hstart a k (lt_of_lt_of_le ha hstep.fresh_le)⟩
      have := (hstep.start_lt a k e.symm).1
      omega

end LinuxDemo.Invariant.Wheel
