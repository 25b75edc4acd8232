import LinuxDemo.Source.UnamedSemTest
import LinuxDemo.Lib.Progress
import Mathlib.Tactic.Common

/-!
# Two threads under one semaphore

The semaphore and the threads between `sem_wait` and `sem_post` make one together, so what a
thread has loaded is still the value when it stores, and `global` counts the rounds that are
through with it. So it stays in the range of `int` where twice the number of rounds does.
-/
namespace LinuxDemo.Invariant.UnamedSemTest
open LinuxDemo.Lib LinuxDemo.Source.UnamedSemTest

/-- Between `sem_wait` and `sem_post`. -/
def inside : Thread → Nat
  | .loading _ | .storing _ _ | .posting _ => 1
  | _ => 0

/-- Increments made. -/
def increments (loop : Nat) : Thread → Nat
  | .absent => 0
  | .testing j | .waiting j | .loading j | .storing j _ => j
  | .posting j => j + 1
  | .finished => loop

/-- The round is one of the loop's. -/
def inLoop (loop : Nat) : Thread → Prop
  | .testing j => j ≤ loop
  | .waiting j | .loading j | .storing j _ | .posting j => j < loop
  | .absent | .finished => True

/-- `main` has created the thread. -/
def created : Main → Pid → Bool
  | .initialising, _ | .creating .pid1, _ | .creating .pid2, .pid2 => false
  | _, _ => true

/-- `main` has joined the thread. -/
def joined : Main → Pid → Bool
  | .joining .pid2, .pid1 | .printing, _ | .destroying, _ | .returned, _ => true
  | _, _ => false

/-- Every call of `main` succeeds. -/
def works (env : Env) : Bool := env.initialises && env.creates .pid1 && env.creates .pid2

/-- The calls of `main` up to here have succeeded. -/
def worked (env : Env) : Main → Bool
  | .initialising => true
  | .creating .pid1 => env.initialises
  | .creating .pid2 => env.initialises && env.creates .pid1
  | .exited => !works env
  | _ => works env

/-- The line `main` prints at the end. -/
def total (loop : Nat) : String := "global is " ++ toString (2 * loop : Int) ++ "\n"

/-- What `main` has printed. -/
def output (loop : Nat) : Main → List String
  | .exited => ["error\n"]
  | .destroying | .returned => [total loop]
  | _ => []

structure Guarded (env : Env) (loop : Nat) (s : State) : Prop where
  exclusive : inside (s.thread .pid1) + inside (s.thread .pid2) ≤ 1
  permit : s.main ≠ .initialising → s.main ≠ .exited →
    s.sem + inside (s.thread .pid1) + inside (s.thread .pid2) = 1
  counted : s.global = increments loop (s.thread .pid1) + increments loop (s.thread .pid2)
  current : ∀ p j v, s.thread p = .storing j v → v = s.global
  inLoop : ∀ p, inLoop loop (s.thread p)
  created : ∀ p, s.main ≠ .exited → (s.thread p = .absent ↔ created s.main p = false)
  joined : ∀ p, joined s.main p = true → s.thread p = .finished
  worked : worked env s.main = true
  output : s.printed = output loop s.main

variable {env : Env} {loop : Nat} {s s' : State}

theorem guarded_init : Guarded env loop State.init := by
  constructor <;> simp [State.init, inside, increments, UnamedSemTest.inLoop, UnamedSemTest.created,
    UnamedSemTest.joined, UnamedSemTest.worked, UnamedSemTest.output]

/-- Thread `p` is at `pc` now. -/
def goto (s : State) (p : Pid) (pc : Thread) : Pid → Thread :=
  fun q => if q = p then pc else s.thread q

@[simp] theorem goto_self (s : State) (p : Pid) (pc : Thread) : goto s p pc p = pc := if_pos rfl

theorem goto_of_ne (s : State) {p q : Pid} (h : q ≠ p) (pc : Thread) :
    goto s p pc q = s.thread q := if_neg h

theorem sum_goto (f : Thread → Nat) (s : State) (p : Pid) (pc : Thread) :
    f (goto s p pc .pid1) + f (goto s p pc .pid2) + f (s.thread p) =
      f (s.thread .pid1) + f (s.thread .pid2) + f pc := by
  cases p with
  | pid1 =>
    rw [goto_self, goto_of_ne s (by decide)]
    omega
  | pid2 =>
    rw [goto_self, goto_of_ne s (by decide)]
    omega

/-- The steps of a thread, and the semaphore and `global` behind them. -/
inductive ThreadMove (loop : Nat) (s : State) : Thread → Thread → Nat → Int → Prop where
  | again (j : Nat) (more : j < loop) : ThreadMove loop s (.testing j) (.waiting j) s.sem s.global
  | finish (j : Nat) (done : loop ≤ j) : ThreadMove loop s (.testing j) .finished s.sem s.global
  | wait (j : Nat) (free : 0 < s.sem) :
      ThreadMove loop s (.waiting j) (.loading j) (s.sem - 1) s.global
  | load (j : Nat) : ThreadMove loop s (.loading j) (.storing j s.global) s.sem s.global
  | store (j : Nat) (v : Int) : ThreadMove loop s (.storing j v) (.posting j) s.sem (v + 1)
  | post (j : Nat) : ThreadMove loop s (.posting j) (.testing (j + 1)) (s.sem + 1) s.global

/-- A step of thread `p` is one of these, and `main` has not ended. -/
structure Threads (loop : Nat) (p : Pid) (s s' : State) : Prop where
  alive : s.main ≠ .exited
  moves : ∃ pc pc' sem global, s.thread p = pc ∧ ThreadMove loop s pc pc' sem global ∧
    s' = { s with thread := goto s p pc', sem := sem, global := global }

theorem increments_le {pc : Thread} (range : inLoop loop pc) : increments loop pc ≤ loop := by
  cases pc <;> simp only [UnamedSemTest.inLoop, increments] at range ⊢ <;> omega

/-- Who is about to store has an increment to go, so that `global` is not at its end. -/
theorem Guarded.loaded_lt (h : Guarded env loop s) (fits : 2 * loop ≤ INT_MAX) {p : Pid} {j : Nat}
    {v : Int} (place : s.thread p = .storing j v) : v < INT_MAX := by
  have range := h.inLoop p
  have first := increments_le (h.inLoop .pid1)
  have second := increments_le (h.inLoop .pid2)
  have counted := h.counted
  rw [← h.current p j v place] at counted
  rw [place] at range
  simp only [UnamedSemTest.inLoop] at range
  have mine : increments loop (s.thread p) = j := by rw [place, increments]
  cases p <;> omega

theorem threadStep_moves (h : Guarded env loop s) (fits : 2 * loop ≤ INT_MAX) (p : Pid) :
    Safe (threadStep loop p s) (Threads loop p s) := by
  unfold threadStep
  simp only
  split
  · simp
  next running =>
    have alive : s.main ≠ .exited := fun e => running (.inl e)
    cases place : s.thread p with
    | absent => simp
    | finished => simp
    | testing j =>
      by_cases more : j < loop
      · exact ⟨alive, _, _, _, _, place, .again j more, by simp only [if_pos more]; rfl⟩
      · exact ⟨alive, _, _, _, _, place, .finish j (Nat.le_of_not_lt more),
          by simp only [if_neg more]; rfl⟩
    | waiting j =>
      simp only
      split
      next free => exact ⟨alive, _, _, _, _, place, .wait j free, rfl⟩
      next => simp
    | loading j => exact ⟨alive, _, _, _, _, place, .load j, rfl⟩
    | storing j v =>
      simp only [if_pos (h.loaded_lt fits place)]
      exact ⟨alive, _, _, _, _, place, .store j v, rfl⟩
    | posting j => exact ⟨alive, _, _, _, _, place, .post j, rfl⟩

namespace ThreadMove
variable {pc pc' : Thread} {sem : Nat} {global : Int}

theorem present (move : ThreadMove loop s pc pc' sem global) :
    pc ≠ .absent ∧ pc ≠ .finished ∧ pc' ≠ .absent := by
  cases move <;> simp

theorem inLoop (move : ThreadMove loop s pc pc' sem global)
    (range : UnamedSemTest.inLoop loop pc) : UnamedSemTest.inLoop loop pc' := by
  cases move with
  | again j more => exact more
  | finish j done => trivial
  | wait j free => exact range
  | load j => exact range
  | store j v => exact range
  | post j => exact range

theorem permit (move : ThreadMove loop s pc pc' sem global) :
    sem + inside pc' = s.sem + inside pc := by
  cases move with
  | wait j free =>
    simp only [inside]
    omega
  | again | finish | load | store | post => simp [inside]

/-- What was loaded being up to date, `global` grows with the increments. -/
theorem counted (move : ThreadMove loop s pc pc' sem global)
    (range : UnamedSemTest.inLoop loop pc) (current : ∀ j v, pc = .storing j v → v = s.global) :
    global + increments loop pc = s.global + increments loop pc' := by
  cases move with
  | finish j done =>
    simp only [UnamedSemTest.inLoop] at range
    simp only [increments]
    omega
  | store j v =>
    rw [current j v rfl]
    simp only [increments]
    omega
  | again | wait | load | post => simp [increments]

theorem loaded (move : ThreadMove loop s pc pc' sem global) {j : Nat} {v : Int}
    (h : pc' = .storing j v) : v = global := by
  cases move with
  | load j => exact (Thread.storing.inj h).2.symm
  | again | finish | wait | store | post => cases h

/-- Only who is inside changes `global`. -/
theorem global_eq (move : ThreadMove loop s pc pc' sem global) (outside : inside pc = 0) :
    global = s.global := by
  cases move with
  | store j v => simp [inside] at outside
  | again | finish | wait | load | post => rfl

end ThreadMove

/-- `main` has begun before there are threads. -/
theorem Guarded.running (h : Guarded env loop s) {p : Pid} (alive : s.main ≠ .exited)
    (present : s.thread p ≠ .absent) : s.main ≠ .initialising := by
  intro start
  exact present ((h.created p alive).mpr (by rw [start, UnamedSemTest.created]))

/-- The other thread has loaded nothing that is about to be out of date. -/
theorem Guarded.alone (h : Guarded env loop s) {p q : Pid} (hp : inside (s.thread p) = 1)
    (hne : q ≠ p) : inside (s.thread q) = 0 := by
  have exclusive := h.exclusive
  cases p with
  | pid1 =>
    cases q with
    | pid1 => exact absurd rfl hne
    | pid2 => omega
  | pid2 =>
    cases q with
    | pid1 => omega
    | pid2 => exact absurd rfl hne

theorem Threads.guarded {p : Pid} (step : Threads loop p s s') (h : Guarded env loop s) :
    Guarded env loop s' := by
  obtain ⟨alive, -, pc, sem, global, rfl, move, rfl⟩ := step
  obtain ⟨present, unfinished, present'⟩ := move.present
  have running := h.running alive present
  have permit : sem + inside (goto s p pc .pid1) + inside (goto s p pc .pid2) = 1 := by
    have old := h.permit running alive
    have change := move.permit
    have sum := sum_goto inside s p pc
    omega
  refine { h with
    exclusive := by simp only; omega
    permit := fun _ _ => permit
    counted := ?counted, current := ?current, inLoop := ?inLoop
    created := ?created, joined := ?joined }
  case counted =>
    have old := h.counted
    have change := move.counted (h.inLoop p) (h.current p)
    have sum := sum_goto (increments loop) s p pc
    simp only
    omega
  case current =>
    intro q j v hq
    by_cases e : q = p
    · subst e
      exact move.loaded (by simpa using hq)
    · have old : s.thread q = .storing j v := (goto_of_ne s e pc).symm.trans hq
      have outside := h.alone (by rw [old, inside]) (Ne.symm e)
      rw [h.current q j v old, move.global_eq outside]
  case inLoop =>
    intro q
    by_cases e : q = p
    · subst e
      simpa using move.inLoop (h.inLoop q)
    · simpa [goto_of_ne s e] using h.inLoop q
  case created =>
    intro q _
    by_cases e : q = p
    · subst e
      simpa [present, present'] using h.created q alive
    · simpa [goto_of_ne s e] using h.created q alive
  case joined =>
    intro q hq
    have finished := h.joined q hq
    have e : q ≠ p := fun e => unfinished (e ▸ finished)
    simpa [goto_of_ne s e] using finished

/-- The steps of `main`. -/
inductive MainMove (env : Env) (s : State) : State → Prop where
  | initialise (place : s.main = .initialising) (works : env.initialises = true) :
      MainMove env s { s with main := .creating .pid1, sem := 1 }
  | fail (early : s.main = .initialising ∨ ∃ p, s.main = .creating p)
      (broken : worked env s.main = true → works env = false) : MainMove env s (fail s)
  | create (p : Pid) (next : Main) (place : s.main = .creating p) (ok : env.creates p = true)
      (hn : p = .pid1 ∧ next = .creating .pid2 ∨ p = .pid2 ∧ next = .joining .pid1) :
      MainMove env s (create p next s)
  | join (p : Pid) (next : Main) (place : s.main = .joining p) (ended : s.thread p = .finished)
      (hn : p = .pid1 ∧ next = .joining .pid2 ∨ p = .pid2 ∧ next = .printing) :
      MainMove env s { s with main := next }
  | print (place : s.main = .printing) :
      MainMove env s { s with
        main := .destroying
        printed := s.printed ++ ["global is " ++ toString s.global ++ "\n"] }
  | destroy (place : s.main = .destroying) : MainMove env s { s with main := .returned }

theorem mainStep_moves : Safe (mainStep env s) (MainMove env s) := by
  unfold mainStep
  cases place : s.main with
  | initialising =>
    simp only
    split
    next ok => exact .initialise place ok
    next failed => exact .fail (.inl place) (by simp [works, failed])
  | creating p =>
    simp only
    split
    next ok => cases p <;> exact .create _ _ place ok (by simp)
    next failed =>
      refine .fail (.inr ⟨p, place⟩) fun _ => ?_
      cases p <;> simp [works, failed]
  | joining p =>
    simp only
    split
    next ended => cases p <;> exact .join _ _ place ended (by simp)
    next => simp
  | printing => exact .print place
  | destroying => exact .destroy place
  | returned => simp
  | exited => simp

theorem create_guarded (h : Guarded env loop s) {p : Pid} {next : Main}
    (place : s.main = .creating p) (ok : env.creates p = true)
    (hn : p = .pid1 ∧ next = .creating .pid2 ∨ p = .pid2 ∧ next = .joining .pid1) :
    Guarded env loop (create p next s) := by
  have alive : s.main ≠ .exited := by simp [place]
  have absent : s.thread p = .absent := (h.created p alive).mpr <| by
    rw [place]
    cases p <;> rfl
  have same (f : Thread → Nat) (hf : f .absent = f (.testing 0)) :
      f (goto s p (.testing 0) .pid1) + f (goto s p (.testing 0) .pid2) =
        f (s.thread .pid1) + f (s.thread .pid2) := by
    have sum := sum_goto f s p (.testing 0)
    rw [absent, hf] at sum
    omega
  have insides := same inside rfl
  have counts := same (increments loop) rfl
  have permit := h.permit (by simp [place]) alive
  have exclusive := h.exclusive
  have counted := h.counted
  have worked := h.worked
  have output := h.output
  have created := fun q => h.created q alive
  rw [place] at worked output created
  refine
    { exclusive := Nat.le_trans (Nat.le_of_eq insides) exclusive
      permit := fun _ _ => ?_
      counted := ?_, current := ?_, inLoop := ?_, created := ?_, joined := ?_
      worked := ?_, output := ?_ }
  · rw [Nat.add_assoc] at permit ⊢
    exact insides.symm ▸ permit
  · change s.global = _
    rw [counted]
    exact_mod_cast counts.symm
  · intro q j v hq
    by_cases e : q = p
    · simp [create, e] at hq
    · exact h.current q j v (by simpa [create, e] using hq)
  · intro q
    by_cases e : q = p
    · simp [create, e, UnamedSemTest.inLoop]
    · simpa [create, e] using h.inLoop q
  · intro q _
    have old := created q
    rcases hn with ⟨rfl, rfl⟩ | ⟨rfl, rfl⟩
    · cases q <;> simp_all [create, UnamedSemTest.created]
    · cases q <;> simp_all [create, UnamedSemTest.created]
  · intro q hq
    rcases hn with ⟨rfl, rfl⟩ | ⟨rfl, rfl⟩ <;> cases q <;> simp [create, UnamedSemTest.joined] at hq
  · rcases hn with ⟨rfl, rfl⟩ | ⟨rfl, rfl⟩ <;>
      simp_all [create, UnamedSemTest.worked, works]
  · rcases hn with ⟨rfl, rfl⟩ | ⟨rfl, rfl⟩ <;> simp_all [create, UnamedSemTest.output]

theorem MainMove.guarded (move : MainMove env s s') (h : Guarded env loop s) :
    Guarded env loop s' := by
  have worked := h.worked
  have output := h.output
  cases move with
  | initialise place works =>
    have absent (p : Pid) : s.thread p = .absent :=
      (h.created p (by simp [place])).mpr (by rw [place, UnamedSemTest.created])
    rw [place] at output
    exact { h with
      permit := fun _ _ => by simp [absent, inside]
      created := fun p _ => by cases p <;> simp [absent, UnamedSemTest.created]
      joined := by simp [UnamedSemTest.joined]
      worked := works
      output := output }
  | fail early broken =>
    have silent : s.printed = [] := by
      rcases early with place | ⟨p, place⟩ <;> simpa [place, UnamedSemTest.output] using output
    exact { h with
      permit := fun _ alive => absurd rfl alive
      created := fun _ alive => absurd rfl alive
      joined := by simp [Source.UnamedSemTest.fail, UnamedSemTest.joined]
      worked := by simp [Source.UnamedSemTest.fail, UnamedSemTest.worked, broken worked]
      output := by simp [Source.UnamedSemTest.fail, silent, UnamedSemTest.output] }
  | create p next place ok hn => exact create_guarded h place ok hn
  | join p next place ended hn =>
    have permit := h.permit (by simp [place]) (by simp [place])
    have created := fun q => h.created q (by simp [place])
    have joined := h.joined
    rcases hn with ⟨rfl, rfl⟩ | ⟨rfl, rfl⟩
    · exact { h with
        permit := fun _ _ => permit
        created := fun q _ => by simpa [place, UnamedSemTest.created] using created q
        joined := fun q hq => by cases q <;> simp_all [UnamedSemTest.joined]
        worked := by simpa [place, UnamedSemTest.worked] using worked
        output := by simpa [place, UnamedSemTest.output] using output }
    · exact { h with
        permit := fun _ _ => permit
        created := fun q _ => by simpa [place, UnamedSemTest.created] using created q
        joined := fun q hq => by cases q <;> simp_all [UnamedSemTest.joined]
        worked := by simpa [place, UnamedSemTest.worked] using worked
        output := by simpa [place, UnamedSemTest.output] using output }
  | print place =>
    have through : ∀ p, s.thread p = .finished := fun p => h.joined p (by rw [place]; rfl)
    have sum : s.global = 2 * loop := by
      have counted := h.counted
      rw [through, through] at counted
      simp only [increments] at counted
      omega
    have silent : s.printed = [] := by simpa [place, UnamedSemTest.output] using output
    exact { h with
      permit := fun _ _ => h.permit (by simp [place]) (by simp [place])
      created := fun p _ => by simp [through, UnamedSemTest.created]
      joined := fun p _ => through p
      worked := by simpa [place, UnamedSemTest.worked] using worked
      output := by simp [silent, UnamedSemTest.output, total, sum] }
  | destroy place =>
    exact { h with
      permit := fun _ _ => h.permit (by simp [place]) (by simp [place])
      created := fun p _ => by
        simpa [place, UnamedSemTest.created] using h.created p (by simp [place])
      joined := fun p _ => h.joined p (by rw [place]; rfl)
      worked := by simpa [place, UnamedSemTest.worked] using worked
      output := by simpa [place, UnamedSemTest.output] using output }

theorem step_guarded (fits : 2 * loop ≤ INT_MAX) (s : State) (op : Op)
    (h : Guarded env loop s) : Safe (step env loop s op) (Guarded env loop) := by
  cases op with
  | main => exact mainStep_moves.mono fun _ move => move.guarded h
  | thread p => exact (threadStep_moves h fits p).mono fun _ moves => moves.guarded h

theorem run_guarded (fits : 2 * loop ≤ INT_MAX) (ops : List Op) :
    Safe (run (step env loop) .init ops) (Guarded env loop) :=
  run_ends _ (step_guarded fits) guarded_init ops

/-- Steps a thread has still to make. -/
def threadTodo (loop : Nat) : Thread → Nat
  | .absent => 5 * loop + 1
  | .testing j => 5 * (loop - j) + 1
  | .waiting j => 5 * (loop - j)
  | .loading j => 5 * (loop - j) - 1
  | .storing j _ => 5 * (loop - j) - 2
  | .posting j => 5 * (loop - j) - 3
  | .finished => 0

/-- Steps `main` has still to make. -/
def mainTodo : Main → Nat
  | .initialising => 7
  | .creating .pid1 => 6
  | .creating .pid2 => 5
  | .joining .pid1 => 4
  | .joining .pid2 => 3
  | .printing => 2
  | .destroying => 1
  | .returned | .exited => 0

def todo (loop : Nat) (s : State) : Nat :=
  mainTodo s.main + threadTodo loop (s.thread .pid1) + threadTodo loop (s.thread .pid2)

theorem MainMove.lowers (h : Guarded env loop s) (move : MainMove env s s') :
    todo loop s' < todo loop s := by
  cases move with
  | fail early broken =>
    rcases early with place | ⟨p, place⟩
    · simp [todo, Source.UnamedSemTest.fail, place, mainTodo]
    · cases p <;> simp [todo, Source.UnamedSemTest.fail, place, mainTodo]
  | create p next place ok hn =>
    have absent : s.thread p = .absent := (h.created p (by simp [place])).mpr <| by
      rw [place]
      cases p <;> rfl
    have sum := sum_goto (threadTodo loop) s p (.testing 0)
    rw [absent, show threadTodo loop .absent = threadTodo loop (.testing 0) from rfl] at sum
    change mainTodo next + threadTodo loop (goto s p (.testing 0) .pid1) +
      threadTodo loop (goto s p (.testing 0) .pid2) < todo loop s
    rcases hn with ⟨rfl, rfl⟩ | ⟨rfl, rfl⟩
    · simp only [todo, place, mainTodo]
      omega
    · simp only [todo, place, mainTodo]
      omega
  | join p next place ended hn =>
    rcases hn with ⟨rfl, rfl⟩ | ⟨rfl, rfl⟩ <;> simp [todo, place, mainTodo]
  | initialise place | print place | destroy place => simp [todo, place, mainTodo]

theorem ThreadMove.lowers {pc pc' : Thread} {sem : Nat} {global : Int}
    (move : ThreadMove loop s pc pc' sem global) (range : UnamedSemTest.inLoop loop pc) :
    threadTodo loop pc' < threadTodo loop pc := by
  cases move
  all_goals
    simp only [UnamedSemTest.inLoop] at range
    simp only [threadTodo]
    omega

theorem Threads.lowers (h : Guarded env loop s) {p : Pid} (step : Threads loop p s s') :
    todo loop s' < todo loop s := by
  obtain ⟨alive, -, pc, sem, global, rfl, move, rfl⟩ := step
  have less := move.lowers (h.inLoop p)
  have sum := sum_goto (threadTodo loop) s p pc
  simp only [todo]
  omega

theorem step_lowers (fits : 2 * loop ≤ INT_MAX) (h : Guarded env loop s) {op : Op}
    (hs : step env loop s op = .ok s') : todo loop s' < todo loop s := by
  cases op with
  | main => exact (mainStep_moves.of_ok hs).lowers h
  | thread p => exact ((threadStep_moves h fits p).of_ok hs).lowers h

/-- A thread that is there and not through is blocked in `sem_wait` only. -/
theorem threadStep_ok (fits : 2 * loop ≤ INT_MAX) (h : Guarded env loop s)
    (alive : s.main ≠ .exited ∧ s.main ≠ .returned) {p : Pid} (present : s.thread p ≠ .absent)
    (unfinished : s.thread p ≠ .finished) (free : ∀ j, s.thread p = .waiting j → 0 < s.sem) :
    ∃ s', step env loop s (.thread p) = .ok s' := by
  simp only [step, threadStep]
  rw [if_neg (by tauto)]
  cases place : s.thread p with
  | absent => exact absurd place present
  | finished => exact absurd place unfinished
  | waiting j => simp [free j place]
  | storing j v => simp [h.loaded_lt fits place]
  | testing j | loading j | posting j => simp

/-- A thread inside is never blocked. -/
theorem inside_moves (fits : 2 * loop ≤ INT_MAX) (h : Guarded env loop s)
    (alive : s.main ≠ .exited ∧ s.main ≠ .returned) {p : Pid} (hp : inside (s.thread p) = 1) :
    ∃ s', step env loop s (.thread p) = .ok s' := by
  refine threadStep_ok fits h alive ?_ ?_ ?_
  · intro absent
    simp [absent, inside] at hp
  · intro finished
    simp [finished, inside] at hp
  · intro j waits
    simp [waits, inside] at hp

/-- A thread that `main` waits for can move, or the other one can. -/
theorem thread_moves (fits : 2 * loop ≤ INT_MAX) (h : Guarded env loop s)
    (alive : s.main ≠ .exited ∧ s.main ≠ .returned) {p : Pid} (present : s.thread p ≠ .absent)
    (unfinished : s.thread p ≠ .finished) : ∃ q s', step env loop s (.thread q) = .ok s' := by
  have permit := h.permit (h.running alive.1 present) alive.1
  by_cases blocked : s.sem = 0
  · have holder : inside (s.thread .pid1) = 1 ∨ inside (s.thread .pid2) = 1 := by omega
    rcases holder with h1 | h2
    · exact ⟨.pid1, inside_moves fits h alive h1⟩
    · exact ⟨.pid2, inside_moves fits h alive h2⟩
  · exact ⟨p, threadStep_ok fits h alive present unfinished fun _ _ => Nat.pos_of_ne_zero blocked⟩

/-- Where nobody can move, `main` has ended. -/
theorem ended_of_stuck (fits : 2 * loop ≤ INT_MAX) (h : Guarded env loop s)
    (stuck : Stuck (step env loop) s) : s.main = .returned ∨ s.main = .exited := by
  have still : ∀ s', mainStep env s ≠ .ok s' := fun s' => stuck .main s'
  cases hm : s.main with
  | returned => exact .inl rfl
  | exited => exact .inr rfl
  | initialising => cases hi : env.initialises <;> simp [mainStep, hm, hi] at still
  | creating p => cases p <;> simp [mainStep, hm] at still <;> split at still <;> simp at still
  | printing => simp [mainStep, hm] at still
  | destroying => simp [mainStep, hm] at still
  | joining p =>
    have unfinished : s.thread p ≠ .finished := by
      intro hf
      cases p <;> simp [mainStep, hm, hf] at still
    have present : s.thread p ≠ .absent := by
      intro absent
      simpa [hm, UnamedSemTest.created] using (h.created p (by simp [hm])).mp absent
    obtain ⟨q, s', hq⟩ := thread_moves fits h (by simp [hm]) present unfinished
    exact absurd hq (stuck (.thread q) s')

/-- Every interleaving ends, and what it prints does not depend on it. -/
theorem run_completes (env : Env) (fits : 2 * loop ≤ INT_MAX) :
    Completes (step env loop) .init fun s =>
      s.printed = if works env then [total loop] else ["error\n"] := by
  refine Completes.of_measure (I := Guarded env loop) (todo loop) ?_ ?_ guarded_init
  · intro s op s' h hs
    exact ⟨(step_guarded fits s op h).of_ok hs, step_lowers fits h hs⟩
  · intro s h stuck
    have worked := h.worked
    rw [h.output]
    rcases ended_of_stuck fits h stuck with hm | hm
    · simp_all [UnamedSemTest.worked, UnamedSemTest.output]
    · simp_all [UnamedSemTest.worked, UnamedSemTest.output]

end LinuxDemo.Invariant.UnamedSemTest
