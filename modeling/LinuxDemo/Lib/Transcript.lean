import Mathlib.Data.List.Basic
import Mathlib.Data.List.Infix

/-!
# Transcripts of reads and writes

The calls a process makes on its descriptors, in order, with what is read and written. A
`read` that returns nothing has met the end of the stream. `Relays` is the judgement of a
copy loop: whatever comes in on one descriptor goes out on another, in order and never
ahead of what came in.
-/
namespace LinuxDemo.Lib.Transcript

inductive Call (β : Type) where
  | read (fd : Nat) (data : List β)
  /-- a `read` that fails with `EINTR` -/
  | interrupted (fd : Nat)
  /-- a `read` that fails otherwise -/
  | failed (fd : Nat)
  | write (fd : Nat) (data : List β)
  | shutdown (fd : Nat)
  deriving DecidableEq

variable {β : Type}

/-- What one call adds to the data read from `fd`. -/
def Call.reads (fd : Nat) : Call β → List β
  | .read fd' data => if fd' = fd then data else []
  | _ => []

/-- What one call adds to the data written to `fd`. -/
def Call.writes (fd : Nat) : Call β → List β
  | .write fd' data => if fd' = fd then data else []
  | _ => []

/-- All data read from `fd`. -/
def received (fd : Nat) (calls : List (Call β)) : List β := calls.flatMap (Call.reads fd)

/-- All data written to `fd`. -/
def written (fd : Nat) (calls : List (Call β)) : List β := calls.flatMap (Call.writes fd)

@[simp] theorem received_nil (fd : Nat) : received fd ([] : List (Call β)) = [] := rfl

@[simp] theorem written_nil (fd : Nat) : written fd ([] : List (Call β)) = [] := rfl

@[simp] theorem received_append (fd : Nat) (calls calls' : List (Call β)) :
    received fd (calls ++ calls') = received fd calls ++ received fd calls' :=
  List.flatMap_append

@[simp] theorem written_append (fd : Nat) (calls calls' : List (Call β)) :
    written fd (calls ++ calls') = written fd calls ++ written fd calls' :=
  List.flatMap_append

@[simp] theorem received_cons (fd : Nat) (c : Call β) (calls : List (Call β)) :
    received fd (c :: calls) = c.reads fd ++ received fd calls := rfl

@[simp] theorem written_cons (fd : Nat) (c : Call β) (calls : List (Call β)) :
    written fd (c :: calls) = c.writes fd ++ written fd calls := rfl

/-- All that was read from `source` is written to `sink`, and at no earlier point was more
written than read. -/
structure Relays (source sink : Nat) (calls : List (Call β)) : Prop where
  all : written sink calls = received source calls
  behind : ∀ before, before <+: calls → written sink before <+: received source before

namespace Relays
variable {source sink : Nat} {calls : List (Call β)}

theorem nil : Relays source sink ([] : List (Call β)) where
  all := rfl
  behind before hb := by
    obtain rfl := List.prefix_nil.mp hb
    exact List.prefix_refl _

/-- A call that neither reads from `source` nor writes to `sink`. -/
theorem skip (h : Relays source sink calls) {c : Call β} (hr : c.reads source = [])
    (hw : c.writes sink = []) : Relays source sink (calls ++ [c]) where
  all := by simp [hr, hw, h.all]
  behind before hb := by
    rcases List.prefix_concat_iff.mp hb with rfl | hb
    · simp [hr, hw, h.all]
    · exact h.behind before hb

theorem skips {more : List (Call β)}
    (hm : ∀ c ∈ more, c.reads source = [] ∧ c.writes sink = []) (h : Relays source sink calls) :
    Relays source sink (calls ++ more) := by
  induction more generalizing calls with
  | nil => simpa using h
  | cons c more ih =>
    obtain ⟨hr, hw⟩ := hm c (by simp)
    have rest := ih (fun d hd => hm d (by simp [hd])) (h.skip hr hw)
    simpa using rest

/-- A chunk read and then written. -/
theorem copy (h : Relays source sink calls) (data : List β) :
    Relays source sink (calls ++ [.read source data, .write sink data]) := by
  rw [← List.concat_append, List.concat_eq_append]
  constructor
  · simp [Call.reads, Call.writes, h.all]
  · intro before hb
    rcases List.prefix_concat_iff.mp hb with rfl | hb
    · simp [Call.reads, Call.writes, h.all]
    rcases List.prefix_concat_iff.mp hb with rfl | hb
    · simp [Call.reads, Call.writes, h.all]
    · exact h.behind before hb

end Relays
end LinuxDemo.Lib.Transcript
