import LinuxDemo.Lib.Progress
import LinuxDemo.Lib.Serial
import LinuxDemo.Source.PthreadRwlock
import Mathlib.Tactic.Common

/-!
# Two threads under one read-write lock

Whatever the modes, somebody can always go on. If one of the two locks for writing, a thread
enters only while the other is outside, and the sections are one after another.
-/
namespace LinuxDemo.Invariant.PthreadRwlock
open LinuxDemo.Lib LinuxDemo.Source.PthreadRwlock

/-- What a step does where it is possible. -/
inductive Effect (mode : Thread → Mode) (s : State) : State → Prop where
  | create (main : s.place .main = .starting) : Effect mode s { s with place := fun _ => .locking }
  | lock {t : Thread} (waits : s.place t = .locking) (free : free mode s t) :
    Effect mode s { s with place := Function.update s.place t (.inside 0 actions) }
  | act {t : Thread} {loaded : Int} {action : Action} {rest : List Action}
    (inside : s.place t = .inside loaded (action :: rest)) :
    Effect mode s ⟨(perform t loaded s.shared action).2,
      Function.update s.place t (.inside (perform t loaded s.shared action).1 rest)⟩
  | unlock {t : Thread} {loaded : Int} (inside : s.place t = .inside loaded []) :
    Effect mode s { s with
      place := Function.update s.place t (if t = .main then .joining else .ended) }
  | join {t : Thread} (joining : s.place t = .joining) (son : s.place .son = .ended) :
    Effect mode s { s with place := Function.update s.place t .ended }

variable {mode : Thread → Mode} {s s' : State}

theorem step_effect (mode : Thread → Mode) (s : State) (t : Thread) :
    Safe (step mode s t) (Effect mode s) := by
  unfold step
  dsimp only
  split
  next starting =>
    split
    next => exact .create starting
    next => simp
  next waits =>
    split
    next free => exact .lock waits free
    next => simp
  next loaded action rest inside => exact .act inside
  next loaded inside => exact .unlock inside
  next joining =>
    split
    next son => exact .join joining son
    next => simp
  next => simp

/-- Where the two can be at the same time. -/
structure Placed (s : State) : Prop where
  started : s.place .main = .starting ↔ s.place .son = .starting
  son : s.place .son ≠ .joining
  last : s.place .main = .ended → s.place .son = .ended

theorem placed_init : Placed .init := ⟨Iff.rfl, by simp [State.init], by simp [State.init]⟩

theorem Effect.placed (h : Placed s) (e : Effect mode s s') : Placed s' := by
  obtain ⟨started, son, last⟩ := h
  cases e with
  | create main => exact ⟨by simp, by simp, by simp⟩
  | @lock t waits free =>
    cases t with
    | main => exact ⟨by simp [← started, waits], by simpa using son, by simp⟩
    | son => exact ⟨by simp [started, waits], by simp, by simpa [waits] using last⟩
  | @act t loaded action rest inside =>
    cases t with
    | main => exact ⟨by simp [← started, inside], by simpa using son, by simp⟩
    | son => exact ⟨by simp [started, inside], by simp, by simpa [inside] using last⟩
  | @unlock t loaded inside =>
    cases t with
    | main => exact ⟨by simp [← started, inside], by simpa using son, by simp⟩
    | son => exact ⟨by simp [started, inside], by simp, by simp⟩
  | @join t joining ended =>
    cases t with
    | main => exact ⟨by simp [← started, joining], by simpa using son, by simpa using ended⟩
    | son => exact absurd joining son

/-- Steps a thread has still to do. -/
def todo : Place → Nat
  | .starting => 10
  | .locking => 9
  | .inside _ rest => 2 + rest.length
  | .joining => 1
  | .ended => 0

theorem Effect.lowers (h : Placed s) (e : Effect mode s s') :
    todo (s'.place .main) + todo (s'.place .son) < todo (s.place .main) + todo (s.place .son) := by
  cases e with
  | create main => simp [main, h.started.mp main, todo]
  | @lock t waits free => cases t <;> simp [waits, todo, actions]
  | @act t loaded action rest inside => cases t <;> simp [inside, todo]
  | @unlock t loaded inside => cases t <;> simp [inside, todo]
  | @join t joining son => cases t <;> simp [joining, todo]

/-- A thread with the lock can go on. -/
theorem inside_moves {t : Thread} {loaded : Int} {rest : List Action}
    (inside : s.place t = .inside loaded rest) : ∃ s', step mode s t = .ok s' := by
  unfold step
  rw [inside]
  cases rest with
  | nil => exact ⟨_, rfl⟩
  | cons action rest => exact ⟨_, rfl⟩

/-- Who waits for the lock can have it, or somebody is inside. -/
theorem locking_moves {t : Thread} (waits : s.place t = .locking) :
    ∃ t' s', step mode s t' = .ok s' := by
  by_cases h : free mode s t
  · refine ⟨t, ?_⟩
    unfold step
    rw [waits]
    exact ⟨_, if_pos h⟩
  · cases hp : s.place (other t) with
    | inside loaded rest => exact ⟨other t, inside_moves hp⟩
    | _ => cases hm : mode t <;> simp [free, held, hm, hp] at h

theorem ended_of_stuck (h : Placed s) (stuck : Stuck (step mode) s) : s.place .main = .ended := by
  have still : ¬ ∃ t s', step mode s t = .ok s' := by
    rintro ⟨t, s', ht⟩
    exact stuck t s' ht
  cases main : s.place .main with
  | starting => exact absurd ⟨.main, by simp [step, main]⟩ still
  | locking => exact absurd (locking_moves main) still
  | inside loaded rest => exact absurd ⟨.main, inside_moves main⟩ still
  | ended => rfl
  | joining =>
    cases son : s.place .son with
    | starting => simp [h.started.mpr son] at main
    | locking => exact absurd (locking_moves son) still
    | inside loaded rest => exact absurd ⟨.son, inside_moves son⟩ still
    | joining => exact absurd son h.son
    | ended => exact absurd ⟨.main, by simp [step, main, son]⟩ still

theorem run_completes (mode : Thread → Mode) :
    Completes (step mode) .init fun s => s.place .main = .ended :=
  .of_measure (fun s => todo (s.place .main) + todo (s.place .son))
    (fun s t s' h ht => by
      have e := (step_effect mode s t).of_ok ht
      exact ⟨e.placed h, e.lowers h⟩)
    (fun _ h stuck => ended_of_stuck h stuck) placed_init

/-- What is still done to `a` and the output. -/
def finish (t : Thread) (loaded : Int) (shared : Shared) : List Action → Shared
  | [] => shared
  | action :: rest =>
    let (loaded, shared) := perform t loaded shared action
    finish t loaded shared rest

def stageOf (t : Thread) : Place → Stage Shared
  | .starting | .locking => .before
  | .inside loaded rest => .inside fun shared => finish t loaded shared rest
  | .joining | .ended => .after

def body (t : Thread) (shared : Shared) : Shared := finish t 0 shared actions

/-- One section after another, as far as they are. -/
def OneByOne (s : State) : Prop :=
  ∃ order, Serial body ⟨1, []⟩ order (fun t => stageOf t (s.place t)) s.shared

theorem stageOf_update (place : Thread → Place) (t : Thread) (p : Place) :
    (fun t' => stageOf t' (Function.update place t p t')) =
      Function.update (fun t' => stageOf t' (place t')) t (stageOf t p) := by
  funext t'
  by_cases e : t' = t
  · subst e
    simp
  · simp [e]

theorem eq_or_eq_other (t t' : Thread) : t' = t ∨ t' = other t := by
  cases t <;> cases t' <;> simp [other]

/-- With a writer among the two, whoever gets the lock is alone. -/
theorem alone_of_free (writer : ∃ t, mode t = .write) {t : Thread} (waits : s.place t = .locking)
    (h : free mode s t) (t' : Thread) (f : Shared → Shared) :
    stageOf t' (s.place t') ≠ .inside f := by
  intro hf
  cases place : s.place t' with
  | inside loaded rest =>
    obtain rfl : t' = other t := by
      refine (eq_or_eq_other t t').resolve_left ?_
      rintro rfl
      simp [place] at waits
    have taken : held mode s (other t) = some (mode (other t)) := by simp [held, place]
    cases hm : mode t with
    | write => simp [free, hm, taken] at h
    | read =>
      obtain ⟨w, hw⟩ := writer
      rcases eq_or_eq_other t w with rfl | rfl
      · simp [hm] at hw
      · simp [free, hm, taken, hw] at h
  | _ => simp [place, stageOf] at hf

theorem Effect.oneByOne (writer : ∃ t, mode t = .write) (h : Placed s) (serial : OneByOne s)
    (e : Effect mode s s') : OneByOne s' := by
  obtain ⟨order, serial⟩ := serial
  cases e with
  | create main =>
    have same : (fun t => stageOf t .locking) = fun t => stageOf t (s.place t) := by
      funext t
      cases t with
      | main => rw [main, stageOf, stageOf]
      | son => rw [h.started.mp main, stageOf, stageOf]
    exact ⟨order, same ▸ serial⟩
  | @lock t waits free =>
    refine ⟨order, ?_⟩
    dsimp only
    rw [stageOf_update]
    exact serial.enter (by simp [waits, stageOf]) (alone_of_free writer waits free)
  | @act t loaded action rest inside =>
    refine ⟨order, ?_⟩
    dsimp only
    rw [stageOf_update]
    exact serial.act (by rw [inside, stageOf]) rfl
  | @unlock t loaded inside =>
    have after : stageOf t (if t = .main then .joining else .ended) = .after := by
      split <;> rfl
    refine ⟨order ++ [t], ?_⟩
    dsimp only
    rw [stageOf_update, after]
    exact serial.leave (by rw [inside, stageOf]) rfl
  | @join t joining son =>
    have same : stageOf t .ended = stageOf t (s.place t) := by rw [joining, stageOf, stageOf]
    refine ⟨order, ?_⟩
    dsimp only
    rw [stageOf_update, same, Function.update_eq_self]
    exact serial

theorem run_oneByOne (writer : ∃ t, mode t = .write) (ops : List Thread) :
    Safe (run (step mode) .init ops) fun s => Placed s ∧ OneByOne s := by
  refine run_ends _ (fun s t h => ?_) ⟨placed_init, [], Serial.init _⟩ ops
  exact (step_effect mode s t).mono fun _ e => ⟨e.placed h.1, e.oneByOne writer h.1 h.2⟩

/-- Two threads are done in one of two orders. -/
theorem order_of_both {order : List Thread} (once : order.Nodup) (all : ∀ t, t ∈ order) :
    order = [.main, .son] ∨ order = [.son, .main] := by
  have perm : order.Perm [.main, .son] := by
    rw [List.perm_ext_iff_of_nodup once (by decide)]
    intro t
    cases t <;> simp [all]
  have two := perm.length_eq
  have main := all .main
  have son := all .son
  rcases order with _ | ⟨t, _ | ⟨t', _ | _⟩⟩
  case cons.cons.nil => cases t <;> cases t' <;> simp at main son ⊢
  all_goals simp at two

theorem OneByOne.result (serial : OneByOne s) (h : Placed s) (ended : s.place .main = .ended) :
    s.shared = inTurn body ⟨1, []⟩ [.main, .son] ∨ s.shared = inTurn body ⟨1, []⟩ [.son, .main] := by
  obtain ⟨order, serial⟩ := serial
  have after (t : Thread) : stageOf t (s.place t) = .after := by
    cases t with
    | main => rw [ended, stageOf]
    | son => rw [h.last ended, stageOf]
  have shared := serial.quiet fun t f hf => by simp [after t] at hf
  rw [shared]
  exact (order_of_both serial.once fun t => (serial.left t).mpr (after t)).imp
    (congrArg _) (congrArg _)

end LinuxDemo.Invariant.PthreadRwlock
