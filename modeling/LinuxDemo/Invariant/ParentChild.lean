import LinuxDemo.Source.ParentChild
import LinuxDemo.Lib.Run
import Mathlib.Algebra.BigOperators.Group.List.Basic
import Mathlib.Algebra.Ring.Nat

/-!
# Bytes under way between parent and child

Nothing is lost or reordered on the way: what has been printed, what is held or in the
pipes, and the upper-casing of what the child has not seen make up the input read. What
the parent has printed when it returns is a matter of how much its reads of the reply
pipe brought.
-/
namespace LinuxDemo.Invariant.ParentChild
open LinuxDemo.Lib LinuxDemo.Source.ParentChild

def unsent : Parent → List UInt8
  | .sending buf => buf
  | _ => []

def unprinted : Parent → List UInt8
  | .printing buf => buf
  | _ => []

def held : Child → List UInt8
  | .replying buf => buf
  | _ => []

/-- Bytes the parent has sent and not got back, upper-cased, in their order. -/
def owed (s : State) : List UInt8 :=
  s.pipe2 ++ held s.child ++ (s.pipe1 ++ unsent s.parent).map toupper

/-- Bytes got back: printed, or about to be. -/
def gotBack (s : State) : List UInt8 := s.stdout ++ unprinted s.parent

/-- Bytes the reads of standard input returned. -/
def askedBy : Op → Nat
  | .parentRead n => n
  | _ => 0

/-- Bytes the reads of the reply pipe returned. -/
def answeredBy : Op → Nat
  | .parentAwait n => n
  | _ => 0

def asked (ops : List Op) : Nat := (ops.map askedBy).sum

def answered (ops : List Op) : Nat := (ops.map answeredBy).sum

@[simp] theorem asked_append (done : List Op) (op : Op) : asked (done ++ [op]) = asked done + askedBy op := by
  simp [asked]

@[simp] theorem answered_append (done : List Op) (op : Op) :
    answered (done ++ [op]) = answered done + answeredBy op := by
  simp [answered]

/-- After the operations `done`, with `stdin` on standard input at the start. -/
structure Relayed (stdin : List UInt8) (done : List Op) (s : State) : Prop where
  conserved : gotBack s ++ owed s = s.input.map toupper
  consumed : s.input ++ s.stdin = stdin
  asked : s.input.length = asked done
  answered : (gotBack s).length = answered done
  returned : s.parent = .returned → s.stdin = []

theorem relayed_init (stdin : List UInt8) : Relayed stdin [] (State.init stdin) := by
  constructor
  all_goals simp [State.init, gotBack, owed, unsent, unprinted, held, asked, answered]

section Steps
variable {stdin : List UInt8} {done : List Op} {s : State}

/-- An operation that reads neither the input nor the reply pipe moves bytes on their way. -/
theorem Relayed.keep {op : Op} {s' : State} (h : Relayed stdin done s) (got : gotBack s' = gotBack s)
    (owes : owed s' = owed s) (input : s'.input = s.input) (left : s'.stdin = s.stdin)
    (counts : askedBy op = 0 ∧ answeredBy op = 0)
    (returned : s'.parent = .returned → s.parent = .returned) : Relayed stdin (done ++ [op]) s' := by
  constructor
  · rw [got, owes, input]
    exact h.conserved
  · rw [input, left]
    exact h.consumed
  · rw [asked_append, input, counts.1, Nat.add_zero]
    exact h.asked
  · rw [answered_append, got, counts.2, Nat.add_zero]
    exact h.answered
  · intro hreturned
    rw [left]
    exact h.returned (returned hreturned)

theorem parentRead_relayed (n : Nat) (h : Relayed stdin done s) :
    Safe (parentRead n s) (Relayed stdin (done ++ [.parentRead n])) := by
  unfold parentRead
  split
  next hp =>
    have conserved := h.conserved
    have answered := h.answered
    simp only [gotBack, owed, hp, unprinted, unsent] at conserved answered
    split
    next heof =>
      constructor
      · exact conserved
      · exact h.consumed
      · simp [askedBy, heof.1, h.asked]
      · simpa [gotBack, unprinted, answeredBy] using answered
      · exact fun _ => heof.2
    next =>
      split
      next hn =>
        constructor
        · simp only [gotBack, owed, unprinted, unsent, List.map_append, ← conserved]
          simp
        · simp [h.consumed]
        · simp [askedBy, h.asked, hn.2.2]
        · simpa [gotBack, unprinted, answeredBy] using answered
        · simp
      next => simp
  next => simp

theorem parentSend_relayed (h : Relayed stdin done s) :
    Safe (parentSend s) (Relayed stdin (done ++ [.parentSend])) := by
  unfold parentSend
  split
  next buf hp =>
    refine h.keep ?_ ?_ rfl rfl ⟨rfl, rfl⟩ nofun
    · simp [gotBack, unprinted, hp]
    · simp [owed, unsent, hp]
  next => simp

/-- The bytes the parent gets back are the first of those owed to it. -/
theorem parentAwait_relayed (n : Nat) (h : Relayed stdin done s) :
    Safe (parentAwait n s) (Relayed stdin (done ++ [.parentAwait n])) := by
  unfold parentAwait
  split
  next hc =>
    have conserved := h.conserved
    have answered := h.answered
    simp only [gotBack, owed, hc.1, unprinted, unsent] at conserved answered
    constructor
    · simp only [gotBack, owed, unprinted, unsent, ← conserved]
      simp only [List.append_assoc, List.append_nil, List.append_cancel_left_eq]
      rw [← List.append_assoc (s.pipe2.take n), List.take_append_drop]
    · exact h.consumed
    · simp [askedBy, h.asked]
    · simp only [List.append_nil] at answered
      simp [gotBack, unprinted, answeredBy, answered, hc.2.2.2]
    · simp
  next => simp

theorem parentPrint_relayed (h : Relayed stdin done s) :
    Safe (parentPrint s) (Relayed stdin (done ++ [.parentPrint])) := by
  unfold parentPrint
  split
  next buf hp =>
    refine h.keep ?_ ?_ rfl rfl ⟨rfl, rfl⟩ nofun
    · simp [gotBack, unprinted, hp]
    · simp [owed, unsent, hp]
  next => simp

/-- What the child takes from one pipe it holds, upper-cased, for the other. -/
theorem childRead_relayed (n : Nat) (h : Relayed stdin done s) :
    Safe (childRead n s) (Relayed stdin (done ++ [.childRead n])) := by
  unfold childRead
  split
  next hp =>
    split
    next =>
      refine h.keep rfl ?_ rfl rfl ⟨rfl, rfl⟩ id
      simp [owed, held, hp]
    next =>
      split
      next hn =>
        refine h.keep rfl ?_ rfl rfl ⟨rfl, rfl⟩ id
        simp only [owed, held, hp, List.append_assoc, List.nil_append, List.append_cancel_left_eq]
        rw [← List.map_append, ← List.append_assoc (s.pipe1.take n), List.take_append_drop]
      next => simp
  next => simp

theorem childReply_relayed (h : Relayed stdin done s) :
    Safe (childReply s) (Relayed stdin (done ++ [.childReply])) := by
  unfold childReply
  split
  next buf hp =>
    refine h.keep rfl ?_ rfl rfl ⟨rfl, rfl⟩ id
    simp [owed, held, hp]
  next => simp

end Steps

theorem step_relayed {stdin : List UInt8} (done : List Op) (s : State) (op : Op)
    (h : Relayed stdin done s) : Safe (step s op) (Relayed stdin (done ++ [op])) := by
  cases op with
  | parentRead n => exact parentRead_relayed n h
  | parentSend => exact parentSend_relayed h
  | parentAwait n => exact parentAwait_relayed n h
  | parentPrint => exact parentPrint_relayed h
  | childRead n => exact childRead_relayed n h
  | childReply => exact childReply_relayed h

theorem run_relayed (stdin : List UInt8) (ops : List Op) :
    Safe (run step (State.init stdin) ops) (Relayed stdin ops) := by
  have h := run_ends_history step step_relayed (relayed_init stdin) ops
  rwa [List.nil_append] at h

/-- Nothing is owed exactly if the reads on both ends brought the same number of bytes. -/
theorem owed_eq_nil_iff {stdin : List UInt8} {done : List Op} {s : State}
    (h : Relayed stdin done s) : owed s = [] ↔ answered done = asked done := by
  have hlen := congrArg List.length h.conserved
  rw [List.length_append, List.length_map, h.asked, h.answered] at hlen
  rw [← List.length_eq_zero_iff]
  omega

end LinuxDemo.Invariant.ParentChild
