import LinuxDemo.Source.TestPipe
import LinuxDemo.Lib.Progress
import Mathlib.Tactic.Common

/-!
# What goes through the pipe

The bytes of the argument are, in order, on standard output, in the hand of the child, in the
pipe and still to be written. Which ends are open is a matter of the program counters; so
the end of the pipe is seen only when nothing is left, and somebody reads as long as
anybody writes.
-/
namespace LinuxDemo.Invariant.TestPipe
open LinuxDemo.Lib LinuxDemo.Source.TestPipe

/-- Read and not yet written. -/
def inHand : Child → List UInt8
  | .writing buf => buf
  | _ => []

/-- Not yet in the pipe. -/
def unsent (env : Env) : Parent → List UInt8
  | .forking | .closingRead => env.arg
  | .writing rest => rest
  | _ => []

/-- The child has seen the end. -/
def atEnd : Child → Bool
  | .parting | .closingRead | .exiting | .exited | .reaped => true
  | _ => false

/-- It has said so. -/
def parted : Child → Bool
  | .closingRead | .exiting | .exited | .reaped => true
  | _ => false

/-- The parent has written everything, or will not write. -/
def through : Parent → Bool
  | .waiting | .returned | .fellThrough => true
  | _ => false

/-- What is to come out. -/
def message (env : Env) : List UInt8 :=
  if env.forks then env.arg else if env.terminal then errorFork else []

/-- What is left in the buffer, and does not come out. -/
def unwritten (env : Env) (parent : Parent) (child : Child) : List UInt8 :=
  if parent = .fellThrough ∧ child ≠ .exited ∧ env.terminal = false then errorFork else []

/-- The parent has `pfd[0]` open, and `pfd[1]`. -/
def parentReads : Parent → Bool
  | .forking | .closingRead => true
  | _ => false

def parentWrites : Parent → Bool
  | .forking | .closingRead | .writing _ | .closingWrite => true
  | _ => false

/-- And in the branch of the child. -/
def childReads : Child → Bool
  | .closingWrite | .reading | .writing _ | .parting | .closingRead => true
  | _ => false

def childWrites : Child → Bool
  | .closingWrite => true
  | _ => false

@[simp] theorem printf_parent (env : Env) (line : List UInt8) (s : State) :
    (printf env line s).parent = s.parent := by
  unfold printf
  split <;> rfl

@[simp] theorem printf_child (env : Env) (line : List UInt8) (s : State) :
    (printf env line s).child = s.child := by
  unfold printf
  split <;> rfl

@[simp] theorem printf_pipe (env : Env) (line : List UInt8) (s : State) :
    (printf env line s).pipe = s.pipe := by
  unfold printf
  split <;> rfl

theorem unsent_of_through {env : Env} {p : Parent} (h : through p = true) : unsent env p = [] := by
  cases p <;> simp_all [through, unsent]

structure Flows (env : Env) (s : State) : Prop where
  conserved : s.parent ≠ .forking → parted s.child = false →
    s.stdout ++ inHand s.child ++ s.pipe ++ unsent env s.parent = message env
  finished : atEnd s.child = true → s.pipe = [] ∧ through s.parent = true
  parted : parted s.child = true → s.stdout = message env ++ bye
  parentReads : s.readEnd .parent = parentReads s.parent
  parentWrites : s.writeEnd .parent = parentWrites s.parent
  childReads : s.readEnd .child = childReads s.child
  childWrites : s.writeEnd .child = childWrites s.child
  forked : s.child = .absent ↔ s.parent = .forking
  branch : s.parent ≠ .forking → (s.parent = .fellThrough ↔ env.forks = false)
  reaped : s.child = .reaped ↔ s.parent = .returned
  alive : s.parent ≠ .killed
  nothing : s.parent = .forking → s.stdout = [] ∧ s.pipe = []
  buffer : s.buffer = unwritten env s.parent s.child

variable {env : Env} {s s' : State}

theorem flows_init : Flows env State.init := by
  constructor <;> simp [State.init, inHand, unsent, atEnd, TestPipe.parted, TestPipe.parentReads,
    TestPipe.parentWrites, TestPipe.childReads, TestPipe.childWrites, unwritten]

/-- As long as the parent writes, the child has not seen the end. -/
theorem Flows.early (h : Flows env s) {rest : List UInt8} (hp : s.parent = .writing rest) :
    atEnd s.child = false := by
  rw [Bool.eq_false_iff]
  intro at_end
  simpa [hp, through] using (h.finished at_end).2

theorem Flows.read (h : Flows env s) {rest : List UInt8} (hp : s.parent = .writing rest) :
    someEnd s.readEnd = true := by
  have early := h.early hp
  have present := h.forked
  have reads := h.childReads
  simp only [someEnd, Bool.or_eq_true]
  cases hc : s.child <;> simp_all [atEnd, TestPipe.childReads]

/-- The steps of the parent. -/
inductive ParentMove (env : Env) (s : State) : State → Prop where
  | fork (place : s.parent = .forking) (forks : env.forks = true) :
      ParentMove env s { s with
        parent := .closingRead, child := .closingWrite
        readEnd := fun _ => true, writeEnd := fun _ => true }
  | fallThrough (place : s.parent = .forking) (fails : env.forks = false) :
      ParentMove env s (printf env errorFork { s with
        parent := .fellThrough, child := .closingWrite
        readEnd := fun p => p = .child, writeEnd := fun p => p = .child })
  | closeRead (place : s.parent = .closingRead) :
      ParentMove env s { s with parent := .writing env.arg, readEnd := shut s.readEnd .parent }
  | written (place : s.parent = .writing []) : ParentMove env s { s with parent := .closingWrite }
  | die (rest : List UInt8) (place : s.parent = .writing rest)
      (unread : someEnd s.readEnd = false) :
      ParentMove env s { s with parent := .killed, writeEnd := shut s.writeEnd .parent }
  | write (rest : List UInt8) (n : Nat) (place : s.parent = .writing rest) (positive : 0 < n)
      (there : n ≤ rest.length) :
      ParentMove env s { s with parent := .writing (rest.drop n), pipe := s.pipe ++ rest.take n }
  | closeWrite (place : s.parent = .closingWrite) :
      ParentMove env s { s with parent := .waiting, writeEnd := shut s.writeEnd .parent }
  | reap (place : s.parent = .waiting) (ended : s.child = .exited) :
      ParentMove env s { s with parent := .returned, child := .reaped }

theorem parentStep_moves (n : Nat) : Safe (parentStep env n s) (ParentMove env s) := by
  unfold parentStep
  cases place : s.parent with
  | forking =>
    simp only
    split
    next forks => exact .fork place forks
    next fails => exact .fallThrough place (by simpa using fails)
  | closingRead => exact .closeRead place
  | writing rest =>
    cases rest with
    | nil => exact .written place
    | cons b rest =>
      simp only
      split
      next unread => exact .die (b :: rest) place unread
      next =>
        split
        next hn => exact .write (b :: rest) n place hn.1 hn.2.1
        next => simp
  | closingWrite => exact .closeWrite place
  | waiting =>
    simp only
    split
    next ended => exact .reap place ended
    next => simp
  | returned => simp
  | killed => simp
  | fellThrough => simp

theorem ParentMove.flows (move : ParentMove env s s') (h : Flows env s) : Flows env s' := by
  cases move with
  | fork place forks =>
    exact { h with
      conserved := fun _ _ => by simp [h.nothing place, inHand, unsent, message, forks]
      finished := by simp [atEnd]
      parted := by simp [parted]
      parentReads := rfl
      parentWrites := rfl
      childReads := rfl
      childWrites := rfl
      forked := by simp
      branch := by simp [forks]
      reaped := by simp
      alive := by simp
      nothing := by simp
      buffer := by simpa [place, unwritten] using h.buffer }
  | fallThrough place fails =>
    have silent : s.buffer = [] := by simpa [place, unwritten] using h.buffer
    refine
      { conserved := fun _ _ => ?_, finished := ?_, parted := ?_, parentReads := ?_
        parentWrites := ?_, childReads := ?_, childWrites := ?_, forked := ?_, branch := ?_
        reaped := ?_, alive := ?_, nothing := ?_, buffer := ?_ }
    all_goals
      cases ht : env.terminal
      all_goals simp [printf, ht, fails, silent, h.nothing place, inHand, unsent, message, unwritten,
        atEnd, parted, parentReads, parentWrites, childReads, childWrites]
  | closeRead place =>
    exact { h with
      conserved := fun _ early => by simpa [place, unsent] using h.conserved (by simp [place]) early
      finished := fun at_end => by simpa [place, through] using h.finished at_end
      parentReads := by simp [shut, parentReads]
      parentWrites := by simpa [place, parentWrites] using h.parentWrites
      childReads := by simpa [shut] using h.childReads
      forked := by simpa [place] using h.forked
      branch := by simpa [place] using h.branch
      reaped := by simpa [place] using h.reaped
      alive := by simp
      nothing := by simp
      buffer := by simpa [place, unwritten] using h.buffer }
  | written place =>
    exact { h with
      conserved := fun _ early => by simpa [place, unsent] using h.conserved (by simp [place]) early
      finished := fun at_end => by simpa [place, through] using h.finished at_end
      parentReads := by simpa [place, parentReads] using h.parentReads
      parentWrites := by simpa [place, parentWrites] using h.parentWrites
      forked := by simpa [place] using h.forked
      branch := by simpa [place] using h.branch
      reaped := by simpa [place] using h.reaped
      alive := by simp
      nothing := by simp
      buffer := by simpa [place, unwritten] using h.buffer }
  | die rest place unread => simp [h.read place] at unread
  | write rest n place positive there =>
    exact { h with
      conserved := fun _ early => by
        simpa [place, unsent, List.append_assoc] using h.conserved (by simp [place]) early
      finished := fun at_end => by simpa [place, through] using h.finished at_end
      parentReads := by simpa [place, parentReads] using h.parentReads
      parentWrites := by simpa [place, parentWrites] using h.parentWrites
      forked := by simpa [place] using h.forked
      branch := by simpa [place] using h.branch
      reaped := by simpa [place] using h.reaped
      alive := by simp
      nothing := by simp
      buffer := by simpa [place, unwritten] using h.buffer }
  | closeWrite place =>
    exact { h with
      conserved := fun _ early => by simpa [place, unsent] using h.conserved (by simp [place]) early
      finished := fun at_end => ⟨(h.finished at_end).1, rfl⟩
      parentReads := by simpa [place, parentReads] using h.parentReads
      parentWrites := by simp [shut, parentWrites]
      childWrites := by simpa [shut] using h.childWrites
      forked := by simpa [place] using h.forked
      branch := by simpa [place] using h.branch
      reaped := by simpa [place] using h.reaped
      alive := by simp
      nothing := by simp
      buffer := by simpa [place, unwritten] using h.buffer }
  | reap place ended =>
    exact { h with
      conserved := by simp [parted]
      finished := fun _ => ⟨(h.finished (by simp [ended, atEnd])).1, rfl⟩
      parted := fun _ => h.parted (by simp [ended, parted])
      parentReads := by simpa [place, parentReads] using h.parentReads
      parentWrites := by simpa [place, parentWrites] using h.parentWrites
      childReads := by simpa [ended, childReads] using h.childReads
      childWrites := by simpa [ended, childWrites] using h.childWrites
      forked := by simp
      branch := by simpa [place] using h.branch
      reaped := by simp
      alive := by simp
      nothing := by simp
      buffer := by simpa [place, unwritten] using h.buffer }

/-- Nothing is left once nobody can write. -/
theorem Flows.drained (h : Flows env s) (hr : s.child = .reading) (hw : someEnd s.writeEnd = false) :
    through s.parent = true := by
  have forked := h.forked
  have alive := h.alive
  have writes := h.parentWrites
  simp only [someEnd, Bool.or_eq_false_iff] at hw
  cases hp : s.parent <;> simp_all [through, TestPipe.parentWrites]

/-- The steps in the branch of the child. -/
inductive ChildMove (s : State) : State → Prop where
  | closeWrite (place : s.child = .closingWrite) :
      ChildMove s { s with child := .reading, writeEnd := shut s.writeEnd .child }
  | seeEnd (place : s.child = .reading) (empty : s.pipe = [])
      (closed : someEnd s.writeEnd = false) : ChildMove s { s with child := .parting }
  | read (n : Nat) (place : s.child = .reading) (positive : 0 < n) (there : n ≤ s.pipe.length) :
      ChildMove s { s with child := .writing (s.pipe.take n), pipe := s.pipe.drop n }
  | write (buf : List UInt8) (place : s.child = .writing buf) :
      ChildMove s { s with child := .reading, stdout := s.stdout ++ buf }
  | part (place : s.child = .parting) :
      ChildMove s { s with child := .closingRead, stdout := s.stdout ++ bye }
  | closeRead (place : s.child = .closingRead) :
      ChildMove s { s with child := .exiting, readEnd := shut s.readEnd .child }
  | exit (place : s.child = .exiting) : ChildMove s { s with child := .exited, buffer := [] }

theorem childStep_moves (n : Nat) : Safe (childStep n s) (ChildMove s) := by
  unfold childStep
  cases place : s.child with
  | closingWrite => exact .closeWrite place
  | reading =>
    simp only
    split
    next empty =>
      split
      next hn => exact .seeEnd place empty hn.2
      next => simp
    next =>
      split
      next hn => exact .read n place hn.1 hn.2.2
      next => simp
  | writing buf => exact .write buf place
  | parting => exact .part place
  | closingRead => exact .closeRead place
  | exiting => exact .exit place
  | absent => simp
  | exited => simp
  | reaped => simp

theorem ChildMove.flows (move : ChildMove s s') (h : Flows env s) : Flows env s' := by
  have running : s.child ≠ .absent → s.parent ≠ .forking := fun hc hp => hc (h.forked.mpr hp)
  cases move with
  | closeWrite place =>
    have old := h.conserved (running (by simp [place])) (by simp [place, parted])
    exact { h with
      conserved := fun _ _ => by simpa [place, inHand] using old
      finished := by simp [atEnd]
      parted := by simp [parted]
      parentWrites := by simpa [shut] using h.parentWrites
      childReads := by simpa [place, childReads] using h.childReads
      childWrites := by simp [shut, childWrites]
      forked := by simpa [place] using h.forked
      reaped := by simpa [place] using h.reaped
      buffer := by simpa [place, unwritten] using h.buffer }
  | seeEnd place empty closed =>
    have old := h.conserved (running (by simp [place])) (by simp [place, parted])
    exact { h with
      conserved := fun _ _ => by simpa [place, inHand] using old
      finished := fun _ => ⟨empty, h.drained place closed⟩
      parted := by simp [parted]
      childReads := by simpa [place, childReads] using h.childReads
      childWrites := by simpa [place, childWrites] using h.childWrites
      forked := by simpa [place] using h.forked
      reaped := by simpa [place] using h.reaped
      buffer := by simpa [place, unwritten] using h.buffer }
  | read n place positive there =>
    have old := h.conserved (running (by simp [place])) (by simp [place, parted])
    exact { h with
      conserved := fun _ _ => by
        simpa [place, inHand, List.append_assoc, ← List.append_assoc (List.take n s.pipe)] using old
      finished := by simp [atEnd]
      parted := by simp [parted]
      childReads := by simpa [place, childReads] using h.childReads
      childWrites := by simpa [place, childWrites] using h.childWrites
      forked := by simpa [place] using h.forked
      reaped := by simpa [place] using h.reaped
      nothing := fun hp => absurd hp (running (by simp [place]))
      buffer := by simpa [place, unwritten] using h.buffer }
  | write buf place =>
    have old := h.conserved (running (by simp [place])) (by simp [place, parted])
    exact { h with
      conserved := fun _ _ => by simpa [place, inHand] using old
      finished := by simp [atEnd]
      parted := by simp [parted]
      childReads := by simpa [place, childReads] using h.childReads
      childWrites := by simpa [place, childWrites] using h.childWrites
      forked := by simpa [place] using h.forked
      reaped := by simpa [place] using h.reaped
      nothing := fun hp => absurd hp (running (by simp [place]))
      buffer := by simpa [place, unwritten] using h.buffer }
  | part place =>
    have old := h.conserved (running (by simp [place])) (by simp [place, parted])
    obtain ⟨empty, through⟩ := h.finished (by simp [place, atEnd])
    simp only [place, inHand, empty, unsent_of_through through, List.append_nil] at old
    exact { h with
      conserved := by simp [parted]
      finished := fun _ => ⟨empty, through⟩
      parted := fun _ => by simp only [old]
      childReads := by simpa [place, childReads] using h.childReads
      childWrites := by simpa [place, childWrites] using h.childWrites
      forked := by simpa [place] using h.forked
      reaped := by simpa [place] using h.reaped
      nothing := fun hp => absurd hp (running (by simp [place]))
      buffer := by simpa [place, unwritten] using h.buffer }
  | closeRead place =>
    exact { h with
      conserved := by simp [parted]
      finished := fun _ => h.finished (by simp [place, atEnd])
      parted := fun _ => h.parted (by simp [place, parted])
      parentReads := by simpa [shut] using h.parentReads
      childReads := by simp [shut, childReads]
      childWrites := by simpa [place, childWrites] using h.childWrites
      forked := by simpa [place] using h.forked
      reaped := by simpa [place] using h.reaped
      buffer := by simpa [place, unwritten] using h.buffer }
  | exit place =>
    exact { h with
      conserved := by simp [parted]
      finished := fun _ => h.finished (by simp [place, atEnd])
      parted := fun _ => h.parted (by simp [place, parted])
      childReads := by simpa [place, childReads] using h.childReads
      childWrites := by simpa [place, childWrites] using h.childWrites
      forked := by simpa [place] using h.forked
      reaped := by simpa [place] using h.reaped
      buffer := by simp [unwritten] }

theorem step_flows (s : State) (op : Op) (h : Flows env s) : Safe (step env s op) (Flows env) := by
  cases op with
  | parent n => exact (parentStep_moves n).mono fun _ move => move.flows h
  | child n => exact (childStep_moves n).mono fun _ move => move.flows h

theorem run_flows (ops : List Op) : Safe (run (step env) .init ops) (Flows env) :=
  run_ends _ step_flows flows_init ops

def parentTodo : Parent → Nat
  | .forking => 20
  | .closingRead => 5
  | .writing _ => 4
  | .closingWrite => 3
  | .waiting => 2
  | .returned | .killed | .fellThrough => 0

def childTodo : Child → Nat
  | .absent => 0
  | .closingWrite => 7
  | .reading => 5
  | .writing _ => 6
  | .parting => 4
  | .closingRead => 3
  | .exiting => 2
  | .exited => 1
  | .reaped => 0

/-- Steps to come, at most. -/
def todo (env : Env) (s : State) : Nat :=
  parentTodo s.parent + childTodo s.child + 4 * (unsent env s.parent).length + 2 * s.pipe.length

theorem ParentMove.lowers (move : ParentMove env s s') : todo env s' < todo env s := by
  cases move with
  | write rest n place positive there =>
    simp only [todo, place, unsent, parentTodo, List.length_append, List.length_take,
      List.length_drop]
    omega
  | fork place =>
    simp only [todo, place, unsent, parentTodo, childTodo]
    omega
  | fallThrough place =>
    simp only [todo, place, printf_parent, printf_child, printf_pipe, unsent, parentTodo, childTodo,
      List.length_nil]
    omega
  | reap place ended => simp [todo, place, ended, unsent, parentTodo, childTodo]
  | closeRead place | written place | closeWrite place => simp [todo, place, unsent, parentTodo]
  | die rest place =>
    simp only [todo, place, unsent, parentTodo, List.length_nil]
    omega

theorem ChildMove.lowers (move : ChildMove s s') : todo env s' < todo env s := by
  cases move with
  | read n place positive there =>
    simp only [todo, place, childTodo, List.length_drop]
    omega
  | closeWrite place | seeEnd place | write buf place | part place | closeRead place | exit place =>
    simp [todo, place, childTodo]

/-- Whoever is in the branch of the child can move, unless the pipe is empty and open. -/
theorem child_moves (present : s.child ≠ .absent) (unfinished : s.child ≠ .exited ∧ s.child ≠ .reaped)
    (ready : s.child = .reading → s.pipe ≠ [] ∨ someEnd s.writeEnd = false) :
    ∃ n s', step env s (.child n) = .ok s' := by
  simp only [step, childStep]
  cases hc : s.child with
  | reading =>
    simp only
    by_cases empty : s.pipe = []
    · have closed := (ready hc).resolve_left fun open_pipe => open_pipe empty
      exact ⟨0, by simp [empty, closed]⟩
    · have hlen : 0 < s.pipe.length := List.length_pos_iff.mpr empty
      refine ⟨1, ?_⟩
      rw [if_neg empty, if_pos ⟨by omega, by decide, by omega⟩]
      exact ⟨_, rfl⟩
  | absent => exact absurd hc present
  | exited => exact absurd hc unfinished.1
  | reaped => exact absurd hc unfinished.2
  | closingWrite | writing | parting | closingRead | exiting => exact ⟨0, _, rfl⟩

theorem Flows.present (h : Flows env s) (hp : s.parent ≠ .forking) : s.child ≠ .absent :=
  fun hc => hp (h.forked.mp hc)

/-- Once the parent has closed its end, a child that reads is not held up. -/
theorem Flows.ready (h : Flows env s) (hp : through s.parent = true) (hc : s.child = .reading) :
    s.pipe ≠ [] ∨ someEnd s.writeEnd = false := by
  right
  have parentWrites := h.parentWrites
  have childWrites := h.childWrites
  simp only [someEnd, Bool.or_eq_false_iff, parentWrites, childWrites, hc]
  cases hs : s.parent <;> simp_all [TestPipe.parentWrites, TestPipe.childWrites, through]

/-- A parent in its `write` can move, or the pipe is full and the child can. -/
theorem writing_moves (h : Flows env s) {b : UInt8} {rest : List UInt8}
    (hp : s.parent = .writing (b :: rest)) : ∃ op s', step env s op = .ok s' := by
  by_cases room : s.pipe.length < env.capacity
  · refine ⟨.parent 1, ?_⟩
    simp only [step, parentStep, hp]
    rw [if_neg (by simp [h.read hp]), if_pos ⟨by omega, by simp, by omega⟩]
    exact ⟨_, rfl⟩
  · have full : s.pipe ≠ [] := by
      intro empty
      have := env.holds
      simp [empty] at room
      omega
    have early := h.early hp
    have unfinished : s.child ≠ .exited ∧ s.child ≠ .reaped := by
      constructor
      all_goals
        intro hc
        simp [hc, atEnd] at early
    obtain ⟨n, s', hs⟩ : ∃ n s', step env s (.child n) = .ok s' :=
      child_moves (h.present (by simp [hp])) unfinished fun _ => .inl full
    exact ⟨.child n, s', hs⟩

/-- Where nobody can move, everybody is done. -/
theorem ended_of_stuck (h : Flows env s) (stuck : Stuck (step env) s) :
    if env.forks then s.parent = .returned ∧ s.child = .reaped
    else s.parent = .fellThrough ∧ s.child = .exited := by
  have child_ended : through s.parent = true → s.child ≠ .exited → s.child = .reaped := by
    intro hp hx
    by_contra hr
    have running : s.parent ≠ .forking := by
      intro hq
      simp [hq, through] at hp
    obtain ⟨n, s', hs⟩ : ∃ n s', step env s (.child n) = .ok s' :=
      child_moves (h.present running) ⟨hx, hr⟩ (h.ready hp)
    exact stuck (.child n) s' hs
  have branch := h.branch
  have reaped := h.reaped
  cases hp : s.parent with
  | forking =>
    cases hf : env.forks
    all_goals exact absurd (by simp [step, parentStep, hp, hf]; rfl) (stuck (.parent 0) _)
  | closingRead => exact absurd (by simp [step, parentStep, hp]; rfl) (stuck (.parent 0) _)
  | closingWrite => exact absurd (by simp [step, parentStep, hp]; rfl) (stuck (.parent 0) _)
  | writing rest =>
    cases rest with
    | nil => exact absurd (by simp [step, parentStep, hp]; rfl) (stuck (.parent 0) _)
    | cons b rest =>
      obtain ⟨op, s', hs⟩ := writing_moves h hp
      exact absurd hs (stuck op s')
  | waiting =>
    by_cases hx : s.child = .exited
    · exact absurd (by simp [step, parentStep, hp, hx]; rfl) (stuck (.parent 0) _)
    · have := child_ended (by simp [hp, through]) hx
      simp_all
  | returned => simp_all
  | killed => exact absurd hp h.alive
  | fellThrough => simp_all [through]

/-- Every schedule ends, and leaves the same behind. -/
theorem run_completes (env : Env) : Completes (step env) .init fun s =>
    s.stdout = message env ++ bye ∧ s.buffer = [] ∧
    if env.forks then s.parent = .returned ∧ s.child = .reaped
    else s.parent = .fellThrough ∧ s.child = .exited := by
  refine Completes.of_measure (I := Flows env) (todo env) ?_ ?_ flows_init
  · intro s op s' h hs
    refine ⟨(step_flows s op h).of_ok hs, ?_⟩
    cases op with
    | parent n => exact ((parentStep_moves n).of_ok hs).lowers
    | child n => exact ((childStep_moves n).of_ok hs).lowers
  · intro s h stuck
    have ended := ended_of_stuck h stuck
    have buffer := h.buffer
    refine ⟨h.parted ?_, ?_, ended⟩
    · cases hf : env.forks <;> simp_all [TestPipe.parted]
    · cases hf : env.forks <;> simp_all [unwritten]

end LinuxDemo.Invariant.TestPipe
