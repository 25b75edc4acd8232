import LinuxDemo.Source.PthreadTest
import LinuxDemo.Lib.Counting
import LinuxDemo.Lib.Run

/-!
# Reaping threads

What holds between any two steps, of `main` and of the threads, for any number of threads
of which any may not have been created: who holds the mutex is a matter of the program
counters, a thread's recorded state follows its own counter and `main`'s, and the two
counts of `main` are those of the recorded states, but for the one update under way.
-/
namespace LinuxDemo.Invariant.PthreadTest
open LinuxDemo.Lib LinuxDemo.Source.PthreadTest

/-- The thread holds the mutex. -/
@[grind] def inSection : Worker → Bool
  | .counting | .marking | .unlocking => true
  | _ => false

/-- The thread is through with the mutex. -/
@[grind] def released : Worker → Bool
  | .signalling | .returning | .finished => true
  | _ => false

/-- The thread has not recorded yet that it terminates. -/
@[grind] def unrecorded : Worker → Bool
  | .absent | .sleeping | .locking | .counting | .marking => true
  | _ => false

/-- `main` holds the mutex. -/
@[grind] def mainInSection : Main → Bool
  | .testingUnjoin | .scanning _ | .joining _ | .marking _ | .lessLive _ | .lessUnjoin _
  | .unlocking => true
  | _ => false

/-- Rounds of the first loop done. -/
@[grind] def rounds (n : Nat) : Main → Nat
  | .creating idx => idx
  | _ => n

/-- `totThreads` is set. -/
@[grind] def totSet : Main → Bool
  | .creating _ | .settingTot => false
  | _ => true

/-- `numlive` is set. -/
@[grind] def liveSet : Main → Bool
  | .creating _ | .settingTot | .settingLive => false
  | _ => true

/-- `pthread_join` of the thread is called, and not recorded. -/
@[grind] def joins (i : Nat) : Main → Bool
  | .joining idx | .marking idx => idx = i
  | _ => false

/-- `numlive` is behind. -/
@[grind] def liveDue : Main → Nat
  | .lessLive _ => 1
  | _ => 0

/-- `numunjoin` is behind. -/
@[grind] def unjoinDue : Main → Nat
  | .lessLive _ | .lessUnjoin _ => 1
  | _ => 0

/-- `main` has found `numlive` positive, and is yet to look for a thread to join. -/
@[grind] def seeking : Main → Bool
  | .locking | .testingUnjoin | .waiting | .woken => true
  | _ => false

/-- Threads in state `TS_TERMINATED`. -/
def terminated (state : Nat → TState) (n : Nat) : Nat := tally (· = .terminated) state n

/-- Threads not in state `TS_JOINED`. -/
def unjoined (state : Nat → TState) (n : Nat) : Nat := tally (· ≠ .joined) state n

/-- Threads counted in `numunjoin`, and in state `TS_ALIVE` still. -/
def ahead (worker : Nat → Worker) (n : Nat) : Nat := tally (· = .marking) worker n

/-- A thread has recorded that it terminates, and is yet to signal. -/
def signalDue (worker : Nat → Worker) : Prop :=
  ∃ i, worker i = .unlocking ∨ worker i = .signalling

theorem released_of_recorded {w : Worker} (h : unrecorded w = false) (h' : inSection w = false) :
    released w := by
  cases w <;> simp_all [unrecorded, inSection, released]

theorem nothing_due {m : Main} (h : mainInSection m = false) :
    liveDue m = 0 ∧ unjoinDue m = 0 := by
  cases m <;> simp_all [mainInSection, liveDue, unjoinDue]

/-- Who can hold the mutex, and which threads there are. -/
structure Controlled (n : Nat) (creates : Nat → Bool) (s : State) : Prop where
  absent : ∀ i, s.worker i = .absent ↔ rounds n s.main ≤ i ∨ creates i = false
  bound : rounds n s.main ≤ n
  worker : ∀ i, s.mutex = some (.worker i) ↔ inSection (s.worker i)
  main : s.mutex = some .main ↔ mainInSection s.main
  tot : totSet s.main → s.totThreads = n

/-- What `thread` says about the threads, and which calls of `pthread_join` there were. -/
structure Recorded (n : Nat) (s : State) : Prop where
  alive : ∀ i, s.state i = .alive ↔ unrecorded (s.worker i)
  joined : ∀ i, s.state i = .joined → s.worker i = .finished
  terminated : ∀ i, joins i s.main → i < n ∧ s.state i = .terminated
  returned : ∀ i, s.main = .marking i → s.worker i = .finished
  once : ∀ i, s.joins i = if s.state i = .joined ∨ joins i s.main then 1 else 0

/-- What the two counts count. -/
structure Counted (n : Nat) (s : State) : Prop where
  unjoin : s.numunjoin = terminated s.state n + ahead s.worker n + unjoinDue s.main
  live : liveSet s.main → s.numlive = unjoined s.state n + liveDue s.main
  early : liveSet s.main = false → ∀ i, s.state i ≠ .joined

/-- No wake-up is lost. -/
structure Signalled (n : Nat) (s : State) : Prop where
  waiting : s.main = .waiting → terminated s.state n = 0 ∨ signalDue s.worker
  seeking : seeking s.main → 0 < s.numlive
  left : s.main = .left → s.numlive ≤ 0

theorem controlled_init (n : Nat) (creates : Nat → Bool) : Controlled n creates .init := by
  constructor
  all_goals simp [State.init, rounds, inSection, mainInSection, totSet]

theorem recorded_init (n : Nat) : Recorded n .init := by
  constructor
  all_goals simp [State.init, unrecorded, PthreadTest.joins]

theorem counted_init (n : Nat) : Counted n .init := by
  have terms : terminated State.init.state n = 0 := (tally_eq_zero_iff _ _ n).mpr fun i _ => rfl
  have pcs : ahead State.init.worker n = 0 := (tally_eq_zero_iff _ _ n).mpr fun i _ => rfl
  constructor
  · simp only [terms, pcs]
    rfl
  · simp [State.init, liveSet]
  · simp [State.init]

theorem signalled_init (n : Nat) : Signalled n .init := by
  constructor
  all_goals simp [State.init, PthreadTest.seeking]

section Tables
variable {n i : Nat}

theorem ahead_update (worker : Nat → Worker) (hi : i < n) (w : Worker) :
    ahead (Function.update worker i w) n + (if worker i = .marking then 1 else 0) =
      ahead worker n + if w = .marking then 1 else 0 := by
  simpa [ahead] using tally_update (· = .marking) worker hi w

theorem terminated_update (state : Nat → TState) (hi : i < n) (v : TState) :
    terminated (Function.update state i v) n + (if state i = .terminated then 1 else 0) =
      terminated state n + if v = .terminated then 1 else 0 := by
  simpa [terminated] using tally_update (· = .terminated) state hi v

theorem unjoined_update (state : Nat → TState) (hi : i < n) (v : TState) :
    unjoined (Function.update state i v) n + (if state i = .joined then 0 else 1) =
      unjoined state n + if v = .joined then 0 else 1 := by
  simpa [unjoined] using tally_update (· ≠ .joined) state hi v

/-- Nobody is joined yet. -/
theorem unjoined_all {state : Nat → TState} (h : ∀ i, state i ≠ .joined) : unjoined state n = n :=
  Nat.count_iff_forall.mpr fun i _ => by simpa using h i

theorem signalDue_moved {worker : Nat → Worker} (h : signalDue worker) {w : Worker}
    (hw : worker i = .unlocking ∨ worker i = .signalling → w = .signalling) :
    signalDue (Function.update worker i w) := by
  obtain ⟨j, hj⟩ := h
  by_cases e : j = i
  · subst e
    exact ⟨j, by simp [hw hj]⟩
  · exact ⟨j, by simpa [e] using hj⟩

end Tables

section Steps
variable {n : Nat} {creates : Nat → Bool} {s s' : State} {i : Nat} {w : Worker}

/-! ## A wake-up, with a signal or without -/

/-- Where `main` is behind a signal. -/
def signalled (m : Main) : Main := if m = .waiting then .woken else m

theorem signalled_same (n : Nat) (m : Main) :
    rounds n (signalled m) = rounds n m ∧ mainInSection (signalled m) = mainInSection m ∧
      totSet (signalled m) = totSet m ∧ liveSet (signalled m) = liveSet m ∧
      liveDue (signalled m) = liveDue m ∧ unjoinDue (signalled m) = unjoinDue m ∧
      seeking (signalled m) = seeking m ∧ ∀ i, joins i (signalled m) = joins i m := by
  unfold signalled
  split
  next h =>
    subst h
    exact ⟨rfl, rfl, rfl, rfl, rfl, rfl, rfl, fun _ => rfl⟩
  next => exact ⟨rfl, rfl, rfl, rfl, rfl, rfl, rfl, fun _ => rfl⟩

theorem Controlled.signalled (h : Controlled n creates s) :
    Controlled n creates { s with main := signalled s.main } := by
  obtain ⟨hrounds, hsection, htot, -⟩ := signalled_same n s.main
  constructor
  · simpa only [hrounds] using h.absent
  · simpa only [hrounds] using h.bound
  · exact h.worker
  · simpa only [hsection] using h.main
  · simpa only [htot] using h.tot

theorem Recorded.signalled (h : Recorded n s) :
    Recorded n { s with main := signalled s.main } := by
  obtain ⟨-, -, -, -, -, -, -, hjoins⟩ := signalled_same n s.main
  constructor
  · exact h.alive
  · exact h.joined
  · simpa only [hjoins] using h.terminated
  · intro i hm
    unfold PthreadTest.signalled at hm
    split at hm
    next => cases hm
    next => exact h.returned i hm
  · simpa only [hjoins] using h.once

theorem Counted.signalled (h : Counted n s) : Counted n { s with main := signalled s.main } := by
  obtain ⟨-, -, -, hset, hlive, hunjoin, -, -⟩ := signalled_same n s.main
  constructor
  · simpa only [hunjoin] using h.unjoin
  · simpa only [hset, hlive] using h.live
  · simpa only [hset] using h.early

/-- `main` waits no more. -/
theorem Signalled.signalled (h : Signalled n s) :
    Signalled n { s with main := signalled s.main } := by
  obtain ⟨-, -, -, -, -, -, hseeking, -⟩ := signalled_same n s.main
  constructor
  · intro hm
    unfold PthreadTest.signalled at hm
    split at hm
    next => cases hm
    next hne => exact absurd hm hne
  · simpa only [hseeking] using h.seeking
  · intro hm
    unfold PthreadTest.signalled at hm
    split at hm
    next => cases hm
    next => exact h.left hm

/-! ## Steps of a thread -/

/-- A thread goes on without a call on the mutex. -/
theorem Controlled.goto (h : Controlled n creates s) (there : s.worker i ≠ .absent)
    (hw : w ≠ .absent) (hs : inSection w = inSection (s.worker i))
    (hworker : s'.worker = Function.update s.worker i w) (hmutex : s'.mutex = s.mutex)
    (hmain : s'.main = s.main) (htot : s'.totThreads = s.totThreads) :
    Controlled n creates s' := by
  constructor
  · intro j
    rw [hmain, hworker]
    by_cases e : j = i
    · subst e
      simpa [hw, there] using h.absent j
    · simpa [e] using h.absent j
  · rw [hmain]
    exact h.bound
  · intro j
    rw [hmutex, hworker]
    by_cases e : j = i
    · subst e
      simpa [hs] using h.worker j
    · simpa [e] using h.worker j
  · rw [hmutex, hmain]
    exact h.main
  · rw [hmain, htot]
    exact h.tot

theorem workerStep_controlled (i : Nat) (h : Controlled n creates s) :
    Safe (workerStep i s) (Controlled n creates) := by
  unfold workerStep
  cases hw : s.worker i <;> dsimp only
  case absent => trivial
  case finished => trivial
  case locking =>
    split
    next free =>
      obtain ⟨absent, hn, worker, main, tot⟩ := h
      constructor
      all_goals first | assumption | grind [Function.update_apply]
    next => trivial
  case unlocking =>
    obtain ⟨absent, hn, worker, main, tot⟩ := h
    constructor
    all_goals first | assumption | grind [Function.update_apply]
  case signalling =>
    exact h.signalled.goto (i := i) (by simp [hw]) (by simp) (by rw [hw]; rfl) rfl rfl rfl rfl
  all_goals exact h.goto (i := i) (by simp [hw]) (by simp) (by rw [hw]; rfl) rfl rfl rfl rfl

/-- A thread goes on without a record of it. -/
theorem Recorded.goto (h : Recorded n s) (going : s.worker i ≠ .finished)
    (hu : unrecorded w = unrecorded (s.worker i))
    (hworker : s'.worker = Function.update s.worker i w) (hstate : s'.state = s.state)
    (hmain : s'.main = s.main) (hjoins : s'.joins = s.joins) : Recorded n s' := by
  constructor
  · intro j
    rw [hstate, hworker]
    by_cases e : j = i
    · subst e
      simpa [hu] using h.alive j
    · simpa [e] using h.alive j
  · intro j hj
    rw [hstate] at hj
    have finished := h.joined j hj
    by_cases e : j = i
    · exact absurd (e ▸ finished) going
    · simpa [hworker, e] using finished
  · rw [hmain, hstate]
    exact h.terminated
  · intro j hj
    rw [hmain] at hj
    have finished := h.returned j hj
    by_cases e : j = i
    · exact absurd (e ▸ finished) going
    · simpa [hworker, e] using finished
  · rw [hmain, hstate, hjoins]
    exact h.once

theorem workerStep_recorded (i : Nat) (h : Recorded n s) :
    Safe (workerStep i s) (Recorded n) := by
  unfold workerStep
  cases hw : s.worker i <;> dsimp only
  case absent => trivial
  case finished => trivial
  case locking =>
    split
    next => exact h.goto (i := i) (by simp [hw]) (by rw [hw]; rfl) rfl rfl rfl rfl
    next => trivial
  case marking =>
    obtain ⟨alive, joined, terminated, returned, once⟩ := h
    constructor
    all_goals first | assumption | grind [Function.update_apply]
  case signalling =>
    exact h.signalled.goto (i := i) (by simp [hw]) (by rw [hw]; rfl) rfl rfl rfl rfl
  all_goals exact h.goto (i := i) (by simp [hw]) (by rw [hw]; rfl) rfl rfl rfl rfl

/-- A thread goes on and does not touch the counts. -/
theorem Counted.goto (h : Counted n s) (hw : w = .marking ↔ s.worker i = .marking)
    (hworker : s'.worker = Function.update s.worker i w) (hstate : s'.state = s.state)
    (hmain : s'.main = s.main) (hlive : s'.numlive = s.numlive)
    (hunjoin : s'.numunjoin = s.numunjoin) : Counted n s' := by
  have pcs : ahead s'.worker n = ahead s.worker n := by
    rw [hworker]
    exact tally_update_alike _ _ (by simpa using hw) n
  constructor
  · rw [hunjoin, hstate, hmain, pcs]
    exact h.unjoin
  · rw [hmain, hlive, hstate]
    exact h.live
  · rw [hmain, hstate]
    exact h.early

/-- A thread counts itself before it records that it terminates. -/
theorem workerStep_counted (i : Nat) (hc : Controlled n creates s) (hr : Recorded n s)
    (h : Counted n s) : Safe (workerStep i s) (Counted n) := by
  have hi (hw : s.worker i ≠ .absent) : i < n := by
    have absent := hc.absent i
    have hn := hc.bound
    grind
  unfold workerStep
  cases hw : s.worker i <;> dsimp only
  case absent => trivial
  case finished => trivial
  case locking =>
    split
    next => exact h.goto (i := i) (by simp [hw]) rfl rfl rfl rfl rfl
    next => trivial
  case counting =>
    have pcs := ahead_update s.worker (hi (by simp [hw])) .marking
    have unjoin := h.unjoin
    constructor
    · grind
    · exact h.live
    · exact h.early
  case marking =>
    have pcs := ahead_update s.worker (hi (by simp [hw])) .unlocking
    have terms := terminated_update s.state (hi (by simp [hw])) .terminated
    have lives := unjoined_update s.state (hi (by simp [hw])) .terminated
    have alive : s.state i = .alive := (hr.alive i).mpr (by rw [hw]; rfl)
    have unjoin := h.unjoin
    have live := h.live
    have early := h.early
    constructor
    · grind
    · grind
    · grind [Function.update_apply]
  case signalling => exact h.signalled.goto (i := i) (by simp [hw]) rfl rfl rfl rfl rfl
  all_goals exact h.goto (i := i) (by simp [hw]) rfl rfl rfl rfl rfl

theorem workerStep_signalled (i : Nat) (h : Signalled n s) :
    Safe (workerStep i s) (Signalled n) := by
  have moved {w : Worker} (hw : s.worker i = .unlocking ∨ s.worker i = .signalling → w = .signalling)
      (hm : s.main = .waiting) :
      terminated s.state n = 0 ∨ signalDue (Function.update s.worker i w) :=
    (h.waiting hm).imp_right fun h => signalDue_moved h hw
  unfold workerStep
  cases hw : s.worker i <;> dsimp only
  case absent => trivial
  case finished => trivial
  case locking =>
    split
    next => exact ⟨moved (by simp [hw]), h.seeking, h.left⟩
    next => trivial
  case marking => exact ⟨fun _ => .inr ⟨i, by simp⟩, h.seeking, h.left⟩
  case signalling =>
    have h' := h.signalled
    refine ⟨fun hm => ?_, h'.seeking, h'.left⟩
    dsimp only at hm
    split at hm
    next => cases hm
    next hne => exact absurd hm hne
  all_goals exact ⟨moved (by simp [hw]), h.seeking, h.left⟩

/-! ## Steps of `main` -/

/-- `main` moves on without a call on the mutex. -/
theorem Controlled.mainGoto (h : Controlled n creates s) (hworker : s'.worker = s.worker)
    (hmutex : s'.mutex = s.mutex) (htot : s'.totThreads = s.totThreads)
    (hrounds : rounds n s'.main = rounds n s.main)
    (hsection : mainInSection s'.main = mainInSection s.main)
    (hset : totSet s'.main = totSet s.main) : Controlled n creates s' := by
  constructor
  · rw [hworker, hrounds]
    exact h.absent
  · rw [hrounds]
    exact h.bound
  · rw [hmutex, hworker]
    exact h.worker
  · rw [hmutex, hsection]
    exact h.main
  · rw [hset, htot]
    exact h.tot

/-- `main` takes the mutex when it is free. -/
theorem Controlled.lock (h : Controlled n creates s) (free : s.mutex = none)
    (hm : rounds n s.main = n) (hset : totSet s.main = true) :
    Controlled n creates { s with main := .testingUnjoin, mutex := some .main } := by
  constructor
  · have absent := h.absent
    rw [hm] at absent
    exact absent
  · exact le_refl n
  · intro i
    have out := h.worker i
    simp only [free, reduceCtorEq, false_iff] at out
    simpa using out
  · simp [mainInSection]
  · exact fun _ => h.tot hset

/-- `main` gives the mutex up. -/
theorem Controlled.unlock (h : Controlled n creates s) (held : mainInSection s.main = true)
    (hm : rounds n s.main = n) (hset : totSet s.main = true) {m : Main} (hm' : rounds n m = n)
    (hout : mainInSection m = false) :
    Controlled n creates { s with main := m, mutex := none } := by
  constructor
  · simpa only [hm, hm'] using h.absent
  · exact hm'.le
  · intro i
    have out := h.worker i
    simp only [h.main.mpr held, Option.some.injEq, reduceCtorEq, false_iff] at out
    simpa using out
  · simp [hout]
  · exact fun _ => h.tot hset

theorem mainStep_controlled (h : Controlled n creates s) :
    Safe (mainStep n creates s) (Controlled n creates) := by
  unfold mainStep
  cases hm : s.main <;> dsimp only
  case creating idx =>
    obtain ⟨absent, hn, worker, main, tot⟩ := h
    rw [hm] at absent hn main
    split
    next hidx =>
      unfold createThread
      split
      all_goals
        constructor
        all_goals first | assumption | grind [Function.update_apply]
    next =>
      constructor
      all_goals first | assumption | grind
  case settingTot =>
    obtain ⟨absent, hn, worker, main, tot⟩ := h
    rw [hm] at absent main
    exact ⟨absent, le_refl n, worker, main, fun _ => rfl⟩
  case locking =>
    split
    next free => exact h.lock free (by rw [hm]; rfl) (by rw [hm]; rfl)
    next => trivial
  case woken =>
    split
    next free => exact h.lock free (by rw [hm]; rfl) (by rw [hm]; rfl)
    next => trivial
  case testingUnjoin =>
    split
    next => exact h.unlock (by rw [hm]; rfl) (by rw [hm]; rfl) (by rw [hm]; rfl) rfl rfl
    next => exact h.mainGoto rfl rfl rfl (by rw [hm]; rfl) (by rw [hm]; rfl) (by rw [hm]; rfl)
  case unlocking =>
    exact h.unlock (by rw [hm]; rfl) (by rw [hm]; rfl) (by rw [hm]; rfl) rfl rfl
  case testing =>
    split
    all_goals exact h.mainGoto rfl rfl rfl (by rw [hm]; rfl) (by rw [hm]; rfl) (by rw [hm]; rfl)
  all_goals repeat' split
  all_goals
    first
    | trivial
    | exact h.mainGoto rfl rfl rfl (by rw [hm]; rfl) (by rw [hm]; rfl) (by rw [hm]; rfl)

/-- `main` moves on, and no call of `pthread_join` or record of one is made. -/
theorem Recorded.mainGoto (h : Recorded n s) (hworker : s'.worker = s.worker)
    (hstate : s'.state = s.state) (hjoins : s'.joins = s.joins)
    (hmain : ∀ j, joins j s'.main = joins j s.main)
    (hmark : ∀ j, s'.main = .marking j → s.worker j = .finished) : Recorded n s' := by
  constructor
  · rw [hstate, hworker]
    exact h.alive
  · rw [hstate, hworker]
    exact h.joined
  · intro j hj
    rw [hmain] at hj
    rw [hstate]
    exact h.terminated j hj
  · rw [hworker]
    exact hmark
  · intro j
    rw [hjoins, hstate, hmain]
    exact h.once j

theorem mainStep_recorded (hc : Controlled n creates s) (h : Recorded n s) :
    Safe (mainStep n creates s) (Recorded n) := by
  unfold mainStep
  cases hm : s.main <;> dsimp only
  case creating idx =>
    split
    next hidx =>
      have absent := hc.absent idx
      obtain ⟨alive, joined, terminated, returned, once⟩ := h
      rw [hm] at absent terminated
      simp only [hm] at once
      unfold createThread
      split
      all_goals
        constructor
        all_goals grind [Function.update_apply]
    next => exact h.mainGoto rfl rfl rfl (by simp [hm, joins]) (by simp)
  case scanning idx =>
    split
    next hidx =>
      split
      next hterm =>
        have tot := hc.tot
        obtain ⟨alive, joined, terminated, returned, once⟩ := h
        simp only [hm] at once tot
        constructor
        all_goals first | assumption | grind [Function.update_apply]
      next => exact h.mainGoto rfl rfl rfl (by simp [hm, joins]) (by simp)
    next => exact h.mainGoto rfl rfl rfl (by simp [hm, joins]) (by simp)
  case joining idx =>
    split
    next finished =>
      exact h.mainGoto rfl rfl rfl (by simp [hm, joins]) (by simp [finished])
    next => trivial
  case marking idx =>
    have finished := h.returned idx hm
    have term := h.terminated idx (by simp [hm, joins])
    obtain ⟨alive, joined, terminated, returned, once⟩ := h
    simp only [hm] at once
    constructor
    all_goals grind [Function.update_apply]
  all_goals repeat' split
  all_goals first | trivial | exact h.mainGoto rfl rfl rfl (by simp [hm, joins]) (by simp)

/-- `main` moves on and does not touch the counts. -/
theorem Counted.mainGoto (h : Counted n s) (hworker : s'.worker = s.worker)
    (hstate : s'.state = s.state) (hnumlive : s'.numlive = s.numlive)
    (hnumunjoin : s'.numunjoin = s.numunjoin) (hset : liveSet s'.main = liveSet s.main)
    (hlive : liveDue s'.main = liveDue s.main) (hunjoin : unjoinDue s'.main = unjoinDue s.main) :
    Counted n s' := by
  constructor
  · rw [hnumunjoin, hstate, hworker, hunjoin]
    exact h.unjoin
  · rw [hset, hnumlive, hstate, hlive]
    exact h.live
  · rw [hset, hstate]
    exact h.early

/-- The recorded state changes before the counts do. -/
theorem mainStep_counted (hc : Controlled n creates s) (hr : Recorded n s)
    (h : Counted n s) : Safe (mainStep n creates s) (Counted n) := by
  unfold mainStep
  cases hm : s.main <;> dsimp only
  case creating idx =>
    split
    next hidx =>
      have absent := (hc.absent idx).mpr (by simp [hm, rounds])
      have alive := (hr.alive idx).mpr (by rw [absent]; rfl)
      obtain ⟨unjoin, live, early⟩ := h
      rw [hm] at unjoin early
      unfold createThread
      split
      all_goals
        constructor
        all_goals grind [Function.update_apply, ahead_update, terminated_update]
    next =>
      exact h.mainGoto rfl rfl rfl rfl (by rw [hm]; rfl) (by rw [hm]; rfl) (by rw [hm]; rfl)
  case settingLive =>
    have unjoin := h.unjoin
    have all := unjoined_all (n := n) (h.early (by rw [hm]; rfl))
    rw [hm] at unjoin
    exact ⟨unjoin, fun _ => by simp [all, liveDue], by simp [liveSet]⟩
  case marking idx =>
    obtain ⟨hidx, hterm⟩ := hr.terminated idx (by simp [hm, joins])
    have terms := terminated_update s.state hidx .joined
    have lives := unjoined_update s.state hidx .joined
    obtain ⟨unjoin, live, early⟩ := h
    rw [hm] at unjoin live
    constructor
    all_goals grind
  case lessLive idx =>
    obtain ⟨unjoin, live, early⟩ := h
    rw [hm] at unjoin live
    constructor
    all_goals grind
  case lessUnjoin idx =>
    obtain ⟨unjoin, live, early⟩ := h
    rw [hm] at unjoin live
    constructor
    all_goals grind
  case testing =>
    split
    all_goals
      exact h.mainGoto rfl rfl rfl rfl (by rw [hm]; rfl) (by rw [hm]; rfl) (by rw [hm]; rfl)
  all_goals repeat' split
  all_goals
    first
    | trivial
    | exact h.mainGoto rfl rfl rfl rfl (by rw [hm]; rfl) (by rw [hm]; rfl) (by rw [hm]; rfl)

theorem mainStep_signalled (hc : Counted n s) (h : Signalled n s) :
    Safe (mainStep n creates s) (Signalled n) := by
  have live := h.seeking
  have unjoin := hc.unjoin
  unfold mainStep createThread
  cases hm : s.main <;> dsimp only
  case testing =>
    by_cases hpos : s.numlive > 0
    · rw [if_pos hpos]
      exact ⟨by simp, fun _ => hpos, by simp⟩
    · rw [if_neg hpos]
      exact ⟨by simp, by simp [seeking], fun _ => by simpa using hpos⟩
  case testingUnjoin =>
    rw [hm] at live
    split
    next hnone =>
      rw [hnone] at unjoin
      have none : terminated s.state n = 0 := by omega
      exact ⟨fun _ => .inl none, fun _ => live rfl, by simp⟩
    next => exact ⟨by simp, by simp [seeking], by simp⟩
  case locking =>
    rw [hm] at live
    split
    next => exact ⟨by simp, fun _ => live rfl, by simp⟩
    next => trivial
  case woken =>
    rw [hm] at live
    split
    next => exact ⟨by simp, fun _ => live rfl, by simp⟩
    next => trivial
  all_goals repeat' split
  all_goals first | trivial | exact ⟨by simp, by simp [seeking], by simp⟩

/-! ## A wake-up without a signal -/

theorem wakeUp_eq (hm : s.main = .waiting) :
    wakeUp s = .ok { s with main := signalled s.main } := by
  simp [wakeUp, signalled, hm]

end Steps

structure Reaping (n : Nat) (creates : Nat → Bool) (s : State) : Prop where
  control : Controlled n creates s
  record : Recorded n s
  count : Counted n s
  signal : Signalled n s

theorem reaping_init (n : Nat) (creates : Nat → Bool) : Reaping n creates .init :=
  ⟨controlled_init n creates, recorded_init n, counted_init n, signalled_init n⟩

section Reaping
variable {n : Nat} {creates : Nat → Bool} {s : State}

theorem step_reaping (op : Op) (h : Reaping n creates s) :
    Safe (step n creates s op) (Reaping n creates) := by
  obtain ⟨hc, hr, hn, hs⟩ := h
  cases op with
  | main =>
    exact (((mainStep_controlled hc).and (mainStep_recorded hc hr)).and
      ((mainStep_counted hc hr hn).and (mainStep_signalled hn hs))).mono
      fun s h => ⟨h.1.1, h.1.2, h.2.1, h.2.2⟩
  | worker i =>
    exact (((workerStep_controlled i hc).and (workerStep_recorded i hr)).and
      ((workerStep_counted i hc hr hn).and (workerStep_signalled i hs))).mono
      fun s h => ⟨h.1.1, h.1.2, h.2.1, h.2.2⟩
  | wakeUp =>
    by_cases hm : s.main = .waiting
    · simp only [step, wakeUp_eq hm]
      exact ⟨hc.signalled, hr.signalled, hn.signalled, hs.signalled⟩
    · simp [step, wakeUp, hm]

theorem run_reaping (ops : List Op) : Safe (run (step n creates) .init ops) (Reaping n creates) :=
  run_ends (step n creates) (fun _ op h => step_reaping op h) (reaping_init n creates) ops

/-- With the mutex free, no update of the counts is under way. -/
theorem Reaping.counts (h : Reaping n creates s) (free : s.mutex = none) :
    s.numunjoin = terminated s.state n ∧ (liveSet s.main → s.numlive = unjoined s.state n) := by
  have hm := h.control.main
  have pcs : ahead s.worker n = 0 := by
    refine (tally_eq_zero_iff _ _ n).mpr fun i _ => ?_
    have hw := h.control.worker i
    grind
  have due := nothing_due (m := s.main) (by grind)
  have unjoin := h.count.unjoin
  have live := h.count.live
  rw [pcs, due.2] at unjoin
  rw [due.1] at live
  exact ⟨by simpa using unjoin, by simpa using live⟩

/-- A thread that is joined, or being joined, is through with the mutex. -/
theorem Reaping.released (h : Reaping n creates s) {i : Nat} (hi : 0 < s.joins i) :
    i < n ∧ released (s.worker i) := by
  have once := h.record.once i
  have absent := h.control.absent i
  have rounds := h.control.bound
  by_cases hj : s.state i = .joined
  · have finished := h.record.joined i hj
    constructor
    · grind
    · simp [finished, PthreadTest.released]
  · have joining : joins i s.main := by grind
    obtain ⟨hn, ht⟩ := h.record.terminated i joining
    have alive := h.record.alive i
    -- `main` holds the mutex, so the thread is not about to unlock it
    have worker := h.control.worker i
    have main := h.control.main
    have held : s.mutex = some .main := main.mpr (by cases hm : s.main <;> simp_all [joins, mainInSection])
    exact ⟨hn, released_of_recorded (by grind) (by grind)⟩

theorem Reaping.all_joined (h : Reaping n creates s) (hl : s.main = .left) :
    (∀ i < n, s.state i = .joined) ∧ s.numlive = 0 ∧ s.numunjoin = 0 := by
  have hlive := h.signal.left hl
  have live := h.count.live
  have zero : unjoined s.state n = 0 := by grind
  have all (i : Nat) (hi : i < n) : s.state i = .joined := by
    simpa using (tally_eq_zero_iff _ _ n).mp zero i hi
  have terms : terminated s.state n = 0 :=
    (tally_eq_zero_iff _ _ n).mpr fun i hi => by simp [all i hi]
  have pcs : ahead s.worker n = 0 := by
    refine (tally_eq_zero_iff _ _ n).mpr fun i hi => ?_
    have hw := h.record.joined i (all i hi)
    simp [hw]
  have unjoin := h.count.unjoin
  refine ⟨all, ?_, ?_⟩
  · grind
  · grind

/-- `main` does not wait for nothing, as far as `thread` goes. -/
theorem Reaping.some_unjoined (h : Reaping n creates s) (hm : s.main = .waiting) :
    ∃ i < n, s.state i ≠ .joined := by
  have live := h.count.live
  have seeking := h.signal.seeking
  have some : unjoined s.state n ≠ 0 := by grind
  obtain ⟨i, hi, hj⟩ := (tally_ne_zero_iff _ _ n).mp some
  exact ⟨i, hi, by simpa using hj⟩

end Reaping

section Progress
variable {n : Nat} {creates : Nat → Bool} {s : State}

/-- Only a thread that is not there, or has ended, or finds the mutex taken is held up. -/
theorem worker_moves {i : Nat} (there : s.worker i ≠ .absent) (going : s.worker i ≠ .finished)
    (free : s.worker i = .locking → s.mutex = none) : ∃ s', workerStep i s = .ok s' := by
  unfold workerStep
  cases hw : s.worker i <;> simp_all

theorem holder_moves (h : Controlled n creates s) {i : Nat} (hi : s.mutex = some (.worker i)) :
    ∃ s', workerStep i s = .ok s' := by
  have section' := (h.worker i).mp hi
  apply worker_moves
  all_goals grind

/-- Where `main` is after the mutex, it gets it, or the thread that has it goes on. -/
theorem lock_moves (h : Controlled n creates s) (hm : s.main = .locking ∨ s.main = .woken) :
    ∃ op, op ≠ .wakeUp ∧ ∃ s', step n creates s op = .ok s' := by
  cases free : s.mutex with
  | none =>
    refine ⟨.main, by simp, ?_⟩
    rcases hm with hm | hm
    all_goals simp [step, mainStep, hm, free]
  | some holder =>
    cases holder with
    | main =>
      have taken := h.main.mp free
      grind
    | worker i => exact ⟨.worker i, by simp, holder_moves h free⟩

/-- Where `main` waits, a signal is due, or a thread lives that will give one. -/
theorem wait_moves (h : Reaping n creates s) (all : ∀ i < n, creates i) (hm : s.main = .waiting) :
    ∃ op, op ≠ .wakeUp ∧ ∃ s', step n creates s op = .ok s' := by
  obtain none | ⟨i, hi⟩ := h.signal.waiting hm
  · obtain ⟨i, hi, hj⟩ := h.some_unjoined hm
    have ht := (tally_eq_zero_iff _ _ n).mp none i hi
    have alive : s.state i = .alive := by cases ht : s.state i <;> simp_all
    have early : unrecorded (s.worker i) := (h.record.alive i).mp alive
    have there : s.worker i ≠ .absent := by
      have absent := h.control.absent i
      grind
    cases free : s.mutex with
    | none => exact ⟨.worker i, by simp, worker_moves there (by grind) fun _ => free⟩
    | some holder =>
      cases holder with
      | main =>
        have taken := h.control.main.mp free
        grind
      | worker j => exact ⟨.worker j, by simp, holder_moves h.control free⟩
  · refine ⟨.worker i, by simp, worker_moves ?_ ?_ ?_⟩
    all_goals grind

/-- A thread being joined ends within two steps of its own. -/
theorem join_returns (h : Reaping n creates s) {i : Nat} (hm : s.main = .joining i) :
    ∃ k ≤ 2, ∃ s', run (step n creates) s (List.replicate k (.worker i) ++ [.main]) = .ok s' := by
  have once := h.record.once i
  have hi : 0 < s.joins i := by grind
  have past := (h.released hi).2
  cases hw : s.worker i
  case signalling =>
    exact ⟨2, le_rfl, by simp [run, step, workerStep, mainStep, hw, hm, List.replicate]⟩
  case returning =>
    exact ⟨1, by omega, by simp [run, step, workerStep, mainStep, hw, hm]⟩
  case finished =>
    exact ⟨0, by omega, by simp [run, step, mainStep, hw, hm]⟩
  all_goals
    rw [hw] at past
    contradiction

theorem no_deadlock (h : Reaping n creates s) (all : ∀ i < n, creates i) (hl : s.main ≠ .left) :
    ∃ op, op ≠ .wakeUp ∧ ∃ s', step n creates s op = .ok s' := by
  cases hm : s.main
  case left => contradiction
  case locking => exact lock_moves h.control (.inl hm)
  case woken => exact lock_moves h.control (.inr hm)
  case waiting => exact wait_moves h all hm
  case joining i =>
    obtain ⟨k, -, s', hrun⟩ := join_returns h hm
    cases k with
    | zero => exact ⟨.main, by simp, s', by rwa [List.replicate, List.nil_append, run_singleton] at hrun⟩
    | succ k =>
      obtain ⟨s₁, h₁, -⟩ := (bind_eq_ok_iff _ _ _).mp hrun
      exact ⟨.worker i, by simp, s₁, h₁⟩
  all_goals
    refine ⟨.main, by simp, ?_⟩
    simp only [step, mainStep, hm]
    repeat' split
    all_goals exact ⟨_, rfl⟩

end Progress
end LinuxDemo.Invariant.PthreadTest
