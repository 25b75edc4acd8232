import Mathlib.Data.List.Basic
import Mathlib.Logic.Function.Basic

/-!
# One after another

Everybody goes once through a section in which something shared is worked on. If nobody
enters while somebody is inside, the result is that of all sections one after another, in
the order in which they were left: whoever is inside still does to what is shared now what
makes it the result of his whole section.
-/
namespace LinuxDemo.Lib
variable {ι σ : Type}

/-- Where somebody is; inside, with what he still does to what is shared. -/
inductive Stage (σ : Type) where
  | before
  | inside (rest : σ → σ)
  | after

/-- The sections of `order`, one after another. -/
def inTurn (body : ι → σ → σ) (start : σ) (order : List ι) : σ :=
  order.foldl (fun shared i => body i shared) start

@[simp] theorem inTurn_concat (body : ι → σ → σ) (start : σ) (order : List ι) (i : ι) :
    inTurn body start (order ++ [i]) = body i (inTurn body start order) := by
  simp [inTurn]

structure Serial (body : ι → σ → σ) (start : σ) (order : List ι) (stage : ι → Stage σ)
    (shared : σ) : Prop where
  once : order.Nodup
  left : ∀ i, i ∈ order ↔ stage i = .after
  alone : ∀ i j f g, stage i = .inside f → stage j = .inside g → i = j
  rest : ∀ i f, stage i = .inside f → f shared = body i (inTurn body start order)
  quiet : (∀ i f, stage i ≠ .inside f) → shared = inTurn body start order

namespace Serial
variable {body : ι → σ → σ} {start shared : σ} {order : List ι} {stage : ι → Stage σ} {i : ι}

theorem init (start : σ) : Serial body start [] (fun _ => .before) start where
  once := List.nodup_nil
  left := by simp
  alone := by simp
  rest := by simp
  quiet _ := rfl

variable [DecidableEq ι]

theorem enter (h : Serial body start order stage shared) (hi : stage i = .before)
    (nobody : ∀ j f, stage j ≠ .inside f) :
    Serial body start order (Function.update stage i (.inside (body i))) shared := by
  have only {j : ι} {f : σ → σ} (hj : Function.update stage i (.inside (body i)) j = .inside f) :
      j = i ∧ f = body i := by
    by_cases e : j = i
    · subst e
      exact ⟨rfl, by simpa using hj.symm⟩
    · exact absurd (by simpa [e] using hj) (nobody j f)
  refine ⟨h.once, fun j => ?_, fun j k f g hj hk => ?_, fun j f hj => ?_, fun none => ?_⟩
  · by_cases e : j = i
    · subst e
      simp [h.left, hi]
    · simpa [e] using h.left j
  · rw [(only hj).1, (only hk).1]
  · obtain ⟨rfl, rfl⟩ := only hj
    rw [h.quiet nobody]
  · exact absurd (by simp) (none i (body i))

theorem act (h : Serial body start order stage shared) {f g : σ → σ} {shared' : σ}
    (hi : stage i = .inside f) (same : g shared' = f shared) :
    Serial body start order (Function.update stage i (.inside g)) shared' := by
  have only {j : ι} {f' : σ → σ} (hj : Function.update stage i (.inside g) j = .inside f') :
      j = i ∧ f' = g := by
    by_cases e : j = i
    · subst e
      exact ⟨rfl, by simpa using hj.symm⟩
    · exact absurd (h.alone j i f' f (by simpa [e] using hj) hi) e
  refine ⟨h.once, fun j => ?_, fun j k f' g' hj hk => ?_, fun j f' hj => ?_, fun none => ?_⟩
  · by_cases e : j = i
    · subst e
      simp [h.left, hi]
    · simpa [e] using h.left j
  · rw [(only hj).1, (only hk).1]
  · obtain ⟨rfl, rfl⟩ := only hj
    rw [same, h.rest j f hi]
  · exact absurd (by simp) (none i g)

theorem leave (h : Serial body start order stage shared) {f : σ → σ} (hi : stage i = .inside f)
    (done : f shared = shared) :
    Serial body start (order ++ [i]) (Function.update stage i .after) shared := by
  have outside {j : ι} {g : σ → σ} : Function.update stage i .after j ≠ .inside g := by
    intro hj
    by_cases e : j = i
    · simp [e] at hj
    · exact e (h.alone j i g f (by simpa [e] using hj) hi)
  refine ⟨?_, fun j => ?_, fun j k f' g' hj hk => absurd hj outside,
    fun j f' hj => absurd hj outside, fun _ => ?_⟩
  · have absent : i ∉ order := by simp [h.left, hi]
    simpa [List.nodup_append, h.once] using fun j hj => ne_of_mem_of_not_mem hj absent
  · by_cases e : j = i
    · simp [e]
    · simpa [e] using h.left j
  · rw [inTurn_concat, ← h.rest i f hi, done]

end Serial
end LinuxDemo.Lib
