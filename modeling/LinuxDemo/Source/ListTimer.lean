import LinuxDemo.Lib.Chain

/-!
# `list_timer.h`

The ascending doubly linked timer list as written. Timers are allocated by the caller
(`new util_timer`), so the heap is part of the state every operation works on. The
reading of `time(NULL)` that `tick` makes is its argument `cur`. `printf` calls are
left out.
-/
namespace LinuxDemo.Source.ListTimer
open LinuxDemo.Lib LinkNode

/-- `util_timer`; `υ` is what `user_data` points to. -/
structure UtilTimer (υ : Type) where
  expire : Int
  userData : υ
  prev : Ptr
  next : Ptr
  deriving DecidableEq, Repr

instance {υ : Type} : LinkNode (UtilTimer υ) (Int × υ) where
  prev t := t.prev
  next t := t.next
  data t := (t.expire, t.userData)
  setPrev p t := { t with prev := p }
  setNext p t := { t with next := p }
  prev_setPrev _ _ := rfl
  next_setPrev _ _ := rfl
  data_setPrev _ _ := rfl
  prev_setNext _ _ := rfl
  next_setNext _ _ := rfl
  data_setNext _ _ := rfl

structure SortTimeList (υ : Type) where
  heap : Heap (UtilTimer υ)
  head : Ptr
  tail : Ptr

variable {υ : Type}

/-- `sort_time_list()`, in a program that has made no timer yet. -/
def SortTimeList.init : SortTimeList υ := ⟨Heap.empty, none, none⟩

/-- `timer->expire = expire`, as users of the list write it. -/
def setExpire (expire : Int) (t : UtilTimer υ) : UtilTimer υ := { t with expire := expire }

/-- The loop of the private `add_timer`, and what follows it once `tmp` is `NULL`. -/
def insertLoop (s : SortTimeList υ) (timer : Ptr) : Nat → Ptr → Ptr → Except Fault (SortTimeList υ)
  | _, prev, none => do
    let heap ← s.heap.modify prev (setNext timer)
    let heap ← heap.modify timer (setPrev prev)
    let heap ← heap.modify timer (setNext none)
    return { s with heap := heap, tail := timer }
  | 0, _, some _ => .error .fuel
  | n + 1, prev, some tmp => do
    let t ← s.heap.load timer
    let u ← s.heap.load (some tmp)
    if t.expire < u.expire then
      let heap ← s.heap.modify prev (setNext timer)
      let heap ← heap.modify timer (setNext (some tmp))
      let heap ← heap.modify (some tmp) (setPrev timer)
      let heap ← heap.modify timer (setPrev prev)
      return { s with heap := heap }
    else insertLoop s timer n (some tmp) u.next

/-- The private `sort_time_list::add_timer(timer, list_head)`. -/
def addTimerAfter (s : SortTimeList υ) (timer listHead : Ptr) : Except Fault (SortTimeList υ) := do
  let p ← s.heap.load listHead
  insertLoop s timer s.heap.fresh listHead p.next

/-- `sort_time_list::add_timer(timer)`. -/
def addTimer (s : SortTimeList υ) (timer : Ptr) : Except Fault (SortTimeList υ) :=
  if timer = none then .ok s
  else if s.head = none then .ok { s with head := timer, tail := timer }
  else do
    let t ← s.heap.load timer
    let h ← s.heap.load s.head
    if t.expire < h.expire then
      let heap ← s.heap.modify timer (setNext s.head)
      let heap ← heap.modify s.head (setPrev timer)
      return { s with heap := heap, head := timer }
    else addTimerAfter s timer s.head

/-- `sort_time_list::adjust_timer`. -/
def adjustTimer (s : SortTimeList υ) (timer : Ptr) : Except Fault (SortTimeList υ) :=
  if timer = none then .ok s
  else do
    let t ← s.heap.load timer
    let tmp := t.next
    if tmp = none then return s
    else
      let u ← s.heap.load tmp
      if t.expire < u.expire then return s
      else if timer = s.head then
        let h ← s.heap.load s.head
        let head := h.next
        let heap ← s.heap.modify head (setPrev none)
        let heap ← heap.modify timer (setNext none)
        addTimerAfter { s with heap := heap, head := head } timer head
      else
        let heap ← s.heap.modify t.prev (setNext t.next)
        let t ← heap.load timer
        let heap ← heap.modify t.next (setPrev t.prev)
        let t ← heap.load timer
        addTimerAfter { s with heap := heap } timer t.next

/-- `sort_time_list::del_timer`. The last case unlinks the timer without a `delete`. -/
def delTimer (s : SortTimeList υ) (timer : Ptr) : Except Fault (SortTimeList υ) :=
  if timer = none then .ok s
  else if timer = s.head ∧ timer = s.tail then do
    let heap ← s.heap.free timer
    return ⟨heap, none, none⟩
  else if timer = s.head then do
    let h ← s.heap.load s.head
    let head := h.next
    let heap ← s.heap.modify head (setPrev none)
    let heap ← heap.free timer
    return { s with heap := heap, head := head }
  else if timer = s.tail then do
    let t ← s.heap.load s.tail
    let tail := t.prev
    let heap ← s.heap.modify tail (setNext none)
    let heap ← heap.free timer
    return { s with heap := heap, tail := tail }
  else do
    let t ← s.heap.load timer
    let heap ← s.heap.modify t.next (setPrev t.prev)
    let t ← heap.load timer
    let heap ← heap.modify t.prev (setNext t.next)
    return { s with heap := heap }

/-- Client code run on a timer that fires: the timer (whose `cb_func` this is), its
`user_data`, and the client's own state. -/
abbrev Callback (σ υ : Type) :=
  Nat → υ → σ → SortTimeList υ → Except Fault (σ × SortTimeList υ)

/-- The loop of `tick`. -/
def tickLoop {σ : Type} (cb : Callback σ υ) (cur : Int) :
    Nat → σ → SortTimeList υ → Ptr → Except Fault (σ × SortTimeList υ)
  | _, c, s, none => .ok (c, s)
  | 0, _, _, some _ => .error .fuel
  | n + 1, c, s, some tmp => do
    let t ← s.heap.load (some tmp)
    if t.expire > cur then return (c, s)
    else
      let (c, s) ← cb tmp t.userData c s
      let t ← s.heap.load (some tmp)
      let head := t.next
      let heap ← s.heap.modifyNonNull head (setPrev none)
      let heap ← heap.free (some tmp)
      tickLoop cb cur n c { s with heap := heap, head := head } head

/-- `sort_time_list::tick`. -/
def tick {σ : Type} (cb : Callback σ υ) (cur : Int) (c : σ) (s : SortTimeList υ) :
    Except Fault (σ × SortTimeList υ) :=
  if s.head = none then .ok (c, s)
  else tickLoop cb cur s.heap.fresh c s s.head

/-- The loop of the destructor. -/
def destroyLoop : Nat → SortTimeList υ → Ptr → Except Fault (SortTimeList υ)
  | _, s, none => .ok s
  | 0, _, some _ => .error .fuel
  | n + 1, s, some tmp => do
    let t ← s.heap.load (some tmp)
    let head := t.next
    let heap ← s.heap.free (some tmp)
    destroyLoop n { s with heap := heap, head := head } head

/-- `sort_time_list::~sort_time_list`. -/
def destroy (s : SortTimeList υ) : Except Fault (SortTimeList υ) :=
  destroyLoop s.heap.fresh s s.head

end LinuxDemo.Source.ListTimer
