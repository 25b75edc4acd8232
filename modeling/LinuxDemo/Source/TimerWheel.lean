import LinuxDemo.Lib.Chain

/-!
# `timer_wheel.h`

The timing wheel as written: `add_timer`, `delete_timer` and `tick` over an explicit
heap. A callback is client code: it is given the timer it belongs to, may call back
into the wheel, and keeps whatever state of its own (`σ`) it likes. `cb_func` and
`user_data` are set by the creator of a timer after `add_timer` returned it, so the
timer's block stands for them. `printf` calls are left out.
-/
namespace LinuxDemo.Source.TimerWheel
open LinuxDemo.Lib LinkNode

structure TwTimer where
  rotation : Int
  timeSlot : Int
  prev : Ptr
  next : Ptr
  deriving DecidableEq, Repr

instance : LinkNode TwTimer (Int × Int) where
  prev t := t.prev
  next t := t.next
  data t := (t.rotation, t.timeSlot)
  setPrev p t := { t with prev := p }
  setNext p t := { t with next := p }
  prev_setPrev _ _ := rfl
  next_setPrev _ _ := rfl
  data_setPrev _ _ := rfl
  prev_setNext _ _ := rfl
  next_setNext _ _ := rfl
  data_setNext _ _ := rfl

/-- Number of slots of the wheel. -/
def N : Int := 60

/-- Seconds between two slots. -/
def SI : Int := 1

/-- The wheel and the memory its timers live in; `slot` has the indices `0` to `N - 1`. -/
structure TimeWheel where
  heap : Heap TwTimer
  slot : Int → Ptr
  curSlot : Int

/-- The zero-initialised wheel; the class has no constructor. -/
def TimeWheel.init : TimeWheel := ⟨Heap.empty, fun _ => none, 0⟩

/-- `slot[i]`, read. -/
def TimeWheel.slotAt (w : TimeWheel) (i : Int) : Except Fault Ptr :=
  if 0 ≤ i ∧ i < N then .ok (w.slot i) else .error .outOfBounds

/-- `slot[i] = p`. -/
def TimeWheel.setSlot (w : TimeWheel) (i : Int) (p : Ptr) : Except Fault TimeWheel :=
  if 0 ≤ i ∧ i < N then .ok { w with slot := Function.update w.slot i p }
  else .error .outOfBounds

/-- `time_wheel::add_timer`. The source's `return;` for a negative timeout gives the
caller no value at all, so that call is the caller's fault. -/
def addTimer (w : TimeWheel) (timeout : Int) : Except Fault (Ptr × TimeWheel) :=
  if timeout < 0 then .error .contract
  else do
    let ticks := if timeout < SI then 1 else timeout.tdiv SI
    let rotation := ticks.tdiv N
    let ts := (w.curSlot + ticks.tmod N).tmod N
    let timer := some w.heap.fresh
    let heap := w.heap.alloc ⟨rotation, ts, none, none⟩
    let head ← w.slotAt ts
    if head = none then
      let w ← { w with heap := heap }.setSlot ts timer
      return (timer, w)
    else
      let heap ← heap.modify timer (setNext head)
      let heap ← heap.modify head (setPrev timer)
      let w ← { w with heap := heap }.setSlot ts timer
      return (timer, w)

/-- `time_wheel::delete_timer`. -/
def deleteTimer (w : TimeWheel) (timer : Ptr) : Except Fault TimeWheel :=
  if timer = none then .ok w
  else do
    let ts := (← w.heap.load timer).timeSlot
    let head ← w.slotAt ts
    if timer = head then
      let t ← w.heap.load head
      let w ← w.setSlot ts t.next
      let head ← w.slotAt ts
      let heap ← w.heap.modifyNonNull head (setPrev none)
      let heap ← heap.free timer
      return { w with heap := heap }
    else
      let t ← w.heap.load timer
      let heap ← w.heap.modify t.prev (setNext t.next)
      let t ← heap.load timer
      let heap ← heap.modifyNonNull t.next (setPrev t.prev)
      let heap ← heap.free timer
      return { w with heap := heap }

/-- Client code run on a timer that fires. -/
abbrev Callback (σ : Type) := Nat → σ → TimeWheel → Except Fault (σ × TimeWheel)

/-- One round of the loop of `tick`, on the timer `tmp`; the last component is the
next value of `tmp`. -/
def visit {σ : Type} (cb : Callback σ) (tmp : Nat) (s : σ) (w : TimeWheel) :
    Except Fault (σ × TimeWheel × Ptr) := do
  let t ← w.heap.load (some tmp)
  if t.rotation > 0 then
    let heap ← w.heap.modify (some tmp) fun t => { t with rotation := t.rotation - 1 }
    let t ← heap.load (some tmp)
    return (s, { w with heap := heap }, t.next)
  else
    let (s, w) ← cb tmp s w
    -- everything below is read again: the callback may have changed it
    let head ← w.slotAt w.curSlot
    let t ← w.heap.load (some tmp)
    if some tmp = head then
      let w ← w.setSlot w.curSlot t.next
      let heap ← w.heap.free (some tmp)
      let head ← w.slotAt w.curSlot
      let heap ← heap.modifyNonNull head (setPrev none)
      return (s, { w with heap := heap }, head)
    else
      let heap ← w.heap.modify t.prev (setNext t.next)
      let t ← heap.load (some tmp)
      let heap ← heap.modifyNonNull t.next (setPrev t.prev)
      let tmp2 := (← heap.load (some tmp)).next
      let heap ← heap.free (some tmp)
      return (s, { w with heap := heap }, tmp2)

def tickLoop {σ : Type} (cb : Callback σ) : Nat → σ → TimeWheel → Ptr → Except Fault (σ × TimeWheel)
  | _, s, w, none => .ok (s, w)
  | 0, _, _, some _ => .error .fuel
  | n + 1, s, w, some tmp => do
    let (s, w, tmp) ← visit cb tmp s w
    tickLoop cb n s w tmp

/-- `time_wheel::tick`. The loop is allowed one round for every timer ever made, which
`tickLoop` never uses up: see `Invariant.Wheel`. -/
def tick {σ : Type} (cb : Callback σ) (s : σ) (w : TimeWheel) : Except Fault (σ × TimeWheel) := do
  let tmp ← w.slotAt w.curSlot
  let (s, w) ← tickLoop cb w.heap.fresh s w tmp
  return (s, { w with curSlot := (w.curSlot + 1).tmod N })

end LinuxDemo.Source.TimerWheel
