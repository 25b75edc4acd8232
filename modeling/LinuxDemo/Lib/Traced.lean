import LinuxDemo.Lib.Heap

/-!
# Computations that record what they touch

A `Traced` computation carries the list of everything it touched next to its result or
its fault, so that a bound on the touched positions is a statement about the same run
that gives the result. `Leads S x y` follows a computation part of the way: after touching
nothing outside `S`, `x` goes on as `y`.
-/
namespace LinuxDemo.Lib

/-- What was touched, in order, and how the computation ended. -/
structure Traced (τ α : Type) where
  log : List τ
  result : Except Fault α

namespace Traced
variable {τ τ' α β : Type}

instance : Monad (Traced τ) where
  pure a := ⟨[], .ok a⟩
  bind x f := match x.result with
    | .ok a => ⟨x.log ++ (f a).log, (f a).result⟩
    | .error e => ⟨x.log, .error e⟩

def fault (e : Fault) : Traced τ α := ⟨[], .error e⟩

/-- The same computation with every entry of its record rewritten. -/
def relabel (g : τ → τ') (x : Traced τ α) : Traced τ' α := ⟨x.log.map g, x.result⟩

/-- Nothing outside `S` is touched. -/
def Within (S : τ → Prop) (x : Traced τ α) : Prop := ∀ p ∈ x.log, S p

@[simp] theorem log_pure (a : α) : (pure a : Traced τ α).log = [] := rfl

@[simp] theorem result_pure (a : α) : (pure a : Traced τ α).result = .ok a := rfl

@[simp] theorem log_fault (e : Fault) : (fault e : Traced τ α).log = [] := rfl

@[simp] theorem result_fault (e : Fault) : (fault e : Traced τ α).result = .error e := rfl

@[simp] theorem log_relabel (g : τ → τ') (x : Traced τ α) : (x.relabel g).log = x.log.map g := rfl

@[simp] theorem result_relabel (g : τ → τ') (x : Traced τ α) :
    (x.relabel g).result = x.result := rfl

theorem bind_of_ok {x : Traced τ α} {a : α} (f : α → Traced τ β) (h : x.result = .ok a) :
    x >>= f = ⟨x.log ++ (f a).log, (f a).result⟩ := by
  change (match x.result with
    | .ok a => (⟨x.log ++ (f a).log, (f a).result⟩ : Traced τ β)
    | .error e => ⟨x.log, .error e⟩) = _
  rw [h]

theorem bind_of_error {x : Traced τ α} {e : Fault} (f : α → Traced τ β)
    (h : x.result = .error e) : x >>= f = ⟨x.log, .error e⟩ := by
  change (match x.result with
    | .ok a => (⟨x.log ++ (f a).log, (f a).result⟩ : Traced τ β)
    | .error e => ⟨x.log, .error e⟩) = _
  rw [h]

theorem result_bind (x : Traced τ α) (f : α → Traced τ β) :
    (x >>= f).result = (x.result >>= fun a => (f a).result) := by
  cases h : x.result with
  | error e => rw [bind_of_error f h]; rfl
  | ok a => rw [bind_of_ok f h]; rfl

theorem result_bind_eq_ok_iff {x : Traced τ α} {f : α → Traced τ β} {b : β} :
    (x >>= f).result = .ok b ↔ ∃ a, x.result = .ok a ∧ (f a).result = .ok b := by
  rw [result_bind, bind_eq_ok_iff]

/-- Two continuations whose results agree up to `g` make computations whose results do. -/
theorem map_result_bind {γ : Type} (x : Traced τ α) {f : α → Traced τ β} {f' : α → Traced τ γ}
    {g : β → γ} (h : ∀ a, (f a).result.map g = (f' a).result) :
    (x >>= f).result.map g = (x >>= f').result := by
  rw [result_bind, result_bind]
  cases x.result with
  | error e => rfl
  | ok a => exact h a

@[simp] theorem pure_bind (a : α) (f : α → Traced τ β) : (pure a : Traced τ α) >>= f = f a := by
  rw [bind_of_ok f rfl]
  rfl

theorem bind_assoc {γ : Type} (x : Traced τ α) (f : α → Traced τ β) (g : β → Traced τ γ) :
    (x >>= f) >>= g = x >>= fun a => f a >>= g := by
  cases hx : x.result with
  | error e => rw [bind_of_error f hx, bind_of_error _ hx, bind_of_error g rfl]
  | ok a =>
    rw [bind_of_ok f hx, bind_of_ok _ hx]
    cases hf : (f a).result with
    | error e => rw [bind_of_error g hf, bind_of_error g rfl]
    | ok b => rw [bind_of_ok g hf, bind_of_ok g rfl, List.append_assoc]

/-- What the first part touched, the whole computation touched. -/
theorem log_subset_bind (x : Traced τ α) (f : α → Traced τ β) {p : τ} (hp : p ∈ x.log) :
    p ∈ (x >>= f).log := by
  cases h : x.result with
  | error e => rwa [bind_of_error f h]
  | ok a =>
    rw [bind_of_ok f h]
    exact List.mem_append_left _ hp

/-- After touching nothing outside `S`, `x` goes on as `y`. -/
def Leads (S : τ → Prop) (x y : Traced τ α) : Prop :=
  ∃ before, (∀ p ∈ before, S p) ∧ x = ⟨before ++ y.log, y.result⟩

namespace Leads
variable {S S' : τ → Prop} {x y z : Traced τ α}

theorem refl (x : Traced τ α) : Leads S x x := ⟨[], by simp, rfl⟩

theorem trans (h : Leads S x y) (h' : Leads S y z) : Leads S x z := by
  obtain ⟨l, hl, rfl⟩ := h
  obtain ⟨l', hl', rfl⟩ := h'
  refine ⟨l ++ l', ?_, by simp⟩
  intro p hp
  rcases List.mem_append.mp hp with hp | hp
  · exact hl p hp
  · exact hl' p hp

theorem mono (h : Leads S x y) (hS : ∀ p, S p → S' p) : Leads S' x y := by
  obtain ⟨l, hl, rfl⟩ := h
  exact ⟨l, fun p hp => hS p (hl p hp), rfl⟩

theorem bind {a : α} {f : α → Traced τ β} {w : Traced τ β} (h : Leads S x (pure a))
    (h' : Leads S (f a) w) : Leads S (x >>= f) w := by
  obtain ⟨l, hl, rfl⟩ := h
  rw [bind_of_ok f rfl]
  apply trans _ h'
  exact ⟨l, hl, by simp⟩

theorem bind_congr (x : Traced τ α) {f g : α → Traced τ β} (h : ∀ a, f a = g a) :
    Leads S (x >>= f) (x >>= g) := by
  rw [funext h]
  exact refl _

theorem bind_left (h : Leads S x y) (f : α → Traced τ β) : Leads S (x >>= f) (y >>= f) := by
  obtain ⟨l, hl, rfl⟩ := h
  refine ⟨l, hl, ?_⟩
  cases hy : y.result with
  | error e => rw [bind_of_error f hy, bind_of_error f rfl]
  | ok a =>
    rw [bind_of_ok f hy, bind_of_ok f rfl, List.append_assoc]

theorem relabel {S : τ' → Prop} {g : τ → τ'} (h : Leads (fun p => S (g p)) x y) :
    Leads S (x.relabel g) (y.relabel g) := by
  obtain ⟨l, hl, rfl⟩ := h
  refine ⟨l.map g, ?_, by simp [Traced.relabel]⟩
  intro q hq
  obtain ⟨p, hp, rfl⟩ := List.mem_map.mp hq
  exact hl p hp

theorem result (h : Leads S x y) : x.result = y.result := by
  obtain ⟨l, hl, rfl⟩ := h
  rfl

theorem within_iff (h : Leads S x y) : Within S x ↔ Within S y := by
  obtain ⟨l, hl, rfl⟩ := h
  constructor
  · intro hx p hp
    exact hx p (List.mem_append_right _ hp)
  · intro hy p hp
    rcases List.mem_append.mp hp with hp | hp
    · exact hl p hp
    · exact hy p hp

theorem within {a : α} (h : Leads S x (pure a)) : Within S x :=
  h.within_iff.mpr (by simp [Within])

end Leads
end Traced
end LinuxDemo.Lib
