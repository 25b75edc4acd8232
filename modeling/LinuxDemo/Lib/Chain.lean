import LinuxDemo.Lib.Heap
import Mathlib.Data.List.Nodup

/-!
# Doubly linked chains

A node type is anything with `prev` and `next` pointers beside its data. Which list
of blocks a pointer stands for depends on the link table alone, so the two pointer
surgeries a doubly linked list knows, insertion and removal at any position, are
proved once over link tables: the rules ask where the four pointers end up and not
in which order they were assigned.
-/
namespace LinuxDemo.Lib

/-- A type of nodes with `prev`, `next` and other data. -/
class LinkNode (ν : Type) (δ : outParam Type) where
  prev : ν → Ptr
  next : ν → Ptr
  data : ν → δ
  setPrev : Ptr → ν → ν
  setNext : Ptr → ν → ν
  prev_setPrev : ∀ p v, prev (setPrev p v) = p
  next_setPrev : ∀ p v, next (setPrev p v) = next v
  data_setPrev : ∀ p v, data (setPrev p v) = data v
  prev_setNext : ∀ p v, prev (setNext p v) = prev v
  next_setNext : ∀ p v, next (setNext p v) = p
  data_setNext : ∀ p v, data (setNext p v) = data v

attribute [simp] LinkNode.prev_setPrev LinkNode.next_setPrev LinkNode.data_setPrev
  LinkNode.prev_setNext LinkNode.next_setNext LinkNode.data_setNext

/-- The `prev` and `next` of every live block. -/
abbrev Links := Nat → Option (Ptr × Ptr)

namespace Links

def setPrev (L : Links) (a : Nat) (p : Ptr) : Links :=
  Function.update L a ((L a).map fun l => (p, l.2))

def setNext (L : Links) (a : Nat) (p : Ptr) : Links :=
  Function.update L a ((L a).map fun l => (l.1, p))

@[simp] theorem setPrev_self (L : Links) (a : Nat) (p : Ptr) :
    L.setPrev a p a = (L a).map fun l => (p, l.2) := by
  simp [setPrev]

@[simp] theorem setNext_self (L : Links) (a : Nat) (p : Ptr) :
    L.setNext a p a = (L a).map fun l => (l.1, p) := by
  simp [setNext]

theorem setPrev_ne (L : Links) {a b : Nat} (p : Ptr) (h : b ≠ a) : L.setPrev a p b = L b := by
  simp [setPrev, Function.update_of_ne h]

theorem setNext_ne (L : Links) {a b : Nat} (p : Ptr) (h : b ≠ a) : L.setNext a p b = L b := by
  simp [setNext, Function.update_of_ne h]

end Links

namespace Heap
open LinkNode
variable {ν δ : Type} [LinkNode ν δ]

def links (h : Heap ν) : Links := fun a => (h.cell a).map fun v => (prev v, next v)

def data (h : Heap ν) (a : Nat) : Option δ := (h.cell a).map LinkNode.data

theorem links_of_cell (h : Heap ν) {a : Nat} {v : ν} (hv : h.cell a = some v) :
    h.links a = some (prev v, next v) := by
  simp [links, hv]

theorem data_of_cell (h : Heap ν) {a : Nat} {v : ν} (hv : h.cell a = some v) :
    h.data a = some (LinkNode.data v) := by
  simp [data, hv]

theorem cell_of_links (h : Heap ν) {a : Nat} {p q : Ptr} (hl : h.links a = some (p, q)) :
    ∃ v, h.cell a = some v ∧ prev v = p ∧ next v = q := by
  simpa [links, Option.map_eq_some_iff] using hl

theorem links_adjust_setPrev (h : Heap ν) (a : Nat) (p : Ptr) :
    (h.adjust a (setPrev p)).links = h.links.setPrev a p := by
  funext b
  by_cases e : b = a
  · subst e
    simp [links, Function.comp_def]
  · rw [Links.setPrev_ne _ _ e]
    simp [links, cell_adjust_ne _ _ e]

theorem links_adjust_setNext (h : Heap ν) (a : Nat) (p : Ptr) :
    (h.adjust a (setNext p)).links = h.links.setNext a p := by
  funext b
  by_cases e : b = a
  · subst e
    simp [links, Function.comp_def]
  · rw [Links.setNext_ne _ _ e]
    simp [links, cell_adjust_ne _ _ e]

/-- A rewrite that keeps the pointers keeps the link table. -/
theorem links_adjust (h : Heap ν) (a : Nat) (f : ν → ν) (hp : ∀ v, prev (f v) = prev v)
    (hn : ∀ v, next (f v) = next v) : (h.adjust a f).links = h.links := by
  funext b
  by_cases e : b = a
  · subst e
    simp [links, Function.comp_def, hp, hn]
  · simp [links, cell_adjust_ne _ _ e]

theorem data_adjust (h : Heap ν) (a : Nat) (f : ν → ν)
    (hf : ∀ v, LinkNode.data (f v) = LinkNode.data v) : (h.adjust a f).data = h.data := by
  funext b
  by_cases e : b = a
  · subst e
    simp [data, Function.comp_def, hf]
  · simp [data, cell_adjust_ne _ _ e]

@[simp] theorem data_adjust_setPrev (h : Heap ν) (a : Nat) (p : Ptr) :
    (h.adjust a (setPrev p)).data = h.data := h.data_adjust a _ fun _ => by simp

@[simp] theorem data_adjust_setNext (h : Heap ν) (a : Nat) (p : Ptr) :
    (h.adjust a (setNext p)).data = h.data := h.data_adjust a _ fun _ => by simp

theorem links_retire_ne (h : Heap ν) {a b : Nat} (hb : b ≠ a) :
    (h.retire a).links b = h.links b := by
  simp [links, cell_retire_ne h hb]

theorem data_retire_ne (h : Heap ν) {a b : Nat} (hb : b ≠ a) :
    (h.retire a).data b = h.data b := by
  simp [data, cell_retire_ne h hb]

theorem links_alloc_ne (h : Heap ν) (v : ν) {a : Nat} (ha : a ≠ h.fresh) :
    (h.alloc v).links a = h.links a := by
  simp [links, cell_alloc_ne h v ha]

theorem data_alloc_ne (h : Heap ν) (v : ν) {a : Nat} (ha : a ≠ h.fresh) :
    (h.alloc v).data a = h.data a := by
  simp [data, cell_alloc_ne h v ha]

end Heap

/-- The blocks `l` are linked both ways, `before` standing in front and `after` behind. -/
def Seg (L : Links) : Ptr → List Nat → Ptr → Prop
  | _, [], _ => True
  | before, a :: l, after => L a = some (before, l.head?.or after) ∧ Seg L (some a) l after

theorem seg_append (L : Links) (before after : Ptr) (xs ys : List Nat) :
    Seg L before (xs ++ ys) after ↔
      Seg L before xs (ys.head?.or after) ∧ Seg L (xs.getLast?.or before) ys after := by
  induction xs generalizing before with
  | nil => simp [Seg]
  | cons a xs ih =>
    have hlast : (a :: xs).getLast?.or before = xs.getLast?.or (some a) := by
      cases xs <;> simp [List.getLast?_cons]
    have hhead : (xs ++ ys).head?.or after = xs.head?.or (ys.head?.or after) := by
      simp [List.head?_append, Option.or_assoc]
    simp only [List.cons_append, Seg, ih, hlast, hhead, and_assoc]

theorem seg_congr {L M : Links} {before after : Ptr} {l : List Nat} (h : Seg L before l after)
    (same : ∀ a ∈ l, M a = L a) : Seg M before l after := by
  induction l generalizing before with
  | nil => trivial
  | cons a l ih =>
    exact ⟨(same a (by simp)).trans h.1, ih h.2 fun b hb => same b (by simp [hb])⟩

/-- What the node in the middle of a chain points to. -/
theorem seg_links_mid {L : Links} {before after : Ptr} {xs ys : List Nat} {t : Nat}
    (h : Seg L before (xs ++ t :: ys) after) :
    L t = some (xs.getLast?.or before, ys.head?.or after) :=
  ((seg_append L before after xs (t :: ys)).mp h).2.1

/-- The blocks met from a pointer on, at most `n` of them. -/
def Links.walk (L : Links) : Nat → Ptr → List Nat
  | 0, _ => []
  | _, none => []
  | n + 1, some a => match L a with
    | some (_, next) => a :: L.walk n next
    | none => []

theorem seg_walk {L : Links} {before : Ptr} {l : List Nat} (h : Seg L before l none) {n : Nat}
    (hn : l.length ≤ n) : L.walk n l.head? = l := by
  induction l generalizing before n with
  | nil => cases n <;> rfl
  | cons a l ih =>
    obtain ⟨n, rfl⟩ : ∃ m, n = m + 1 := ⟨n - 1, by simp at hn; omega⟩
    have rest := ih h.2 (n := n) (by simpa using hn)
    simp [Links.walk, h.1, rest]

/-- Only the last node knows what stands behind the chain. -/
theorem seg_set_after {L M : Links} {before after after' : Ptr} {l : List Nat}
    (h : Seg L before l after) (nodup : l.Nodup)
    (last : ∀ p, l.getLast? = some p → M p = (L p).map fun x => (x.1, after'))
    (same : ∀ a ∈ l, l.getLast? ≠ some a → M a = L a) : Seg M before l after' := by
  induction l generalizing before with
  | nil => trivial
  | cons a l ih =>
    obtain ⟨ha, hl⟩ := h
    have hnd := List.nodup_cons.mp nodup
    cases l with
    | nil =>
      refine ⟨?_, trivial⟩
      rw [last a (by simp), ha]
      simp
    | cons b l =>
      have hlast : (a :: b :: l).getLast? = (b :: l).getLast? := by simp [List.getLast?_cons]
      refine ⟨?_, ih hl hnd.2 (fun p hp => last p (hlast.trans hp)) fun c hc hne =>
        same c (by simp [hc]) (hlast ▸ hne)⟩
      rw [same a (by simp), ha]
      · simp
      · rw [hlast]
        intro e
        exact hnd.1 (List.mem_of_getLast? e)

/-- Only the first node knows what stands in front of the chain. -/
theorem seg_set_before {L M : Links} {before before' after : Ptr} {l : List Nat}
    (h : Seg L before l after) (nodup : l.Nodup)
    (first : ∀ q, l.head? = some q → M q = (L q).map fun x => (before', x.2))
    (same : ∀ a ∈ l, l.head? ≠ some a → M a = L a) : Seg M before' l after := by
  cases l with
  | nil => trivial
  | cons a l =>
    obtain ⟨ha, hl⟩ := h
    have hnd := List.nodup_cons.mp nodup
    refine ⟨by rw [first a (by simp), ha]; simp, seg_congr hl fun b hb => same b (by simp [hb]) ?_⟩
    simp only [List.head?_cons, ne_eq, Option.some.injEq]
    intro e
    exact hnd.1 (e ▸ hb)

/-- Insertion at any position: the new node points to its neighbours and they to it. -/
theorem seg_insert {L M : Links} {before after : Ptr} {xs ys : List Nat} {t : Nat}
    (h : Seg L before (xs ++ ys) after) (nodup : (xs ++ ys).Nodup)
    (mid : M t = some (xs.getLast?.or before, ys.head?.or after))
    (left : ∀ p, xs.getLast? = some p → M p = (L p).map fun x => (x.1, some t))
    (right : ∀ q, ys.head? = some q → M q = (L q).map fun x => (some t, x.2))
    (same : ∀ a ∈ xs ++ ys, xs.getLast? ≠ some a → ys.head? ≠ some a → M a = L a) :
    Seg M before (xs ++ t :: ys) after := by
  obtain ⟨hx, hy⟩ := (seg_append L before after xs ys).mp h
  obtain ⟨nx, ny, disj⟩ := List.nodup_append.mp nodup
  refine (seg_append M before after xs (t :: ys)).mpr ⟨?_, mid, ?_⟩
  · refine seg_set_after hx nx (by simpa using left) fun a ha hne => same a (by simp [ha]) hne ?_
    intro e
    exact disj a ha a (List.mem_of_head? e) rfl
  · refine seg_set_before hy ny right fun a ha hne => same a (by simp [ha]) ?_ hne
    intro e
    exact disj a (List.mem_of_getLast? e) a ha rfl

/-- Removal at any position: the two neighbours point to each other. -/
theorem seg_remove {L M : Links} {before after : Ptr} {xs ys : List Nat} {t : Nat}
    (h : Seg L before (xs ++ t :: ys) after) (nodup : (xs ++ ys).Nodup)
    (left : ∀ p, xs.getLast? = some p → M p = (L p).map fun x => (x.1, ys.head?.or after))
    (right : ∀ q, ys.head? = some q → M q = (L q).map fun x => (xs.getLast?.or before, x.2))
    (same : ∀ a ∈ xs ++ ys, xs.getLast? ≠ some a → ys.head? ≠ some a → M a = L a) :
    Seg M before (xs ++ ys) after := by
  obtain ⟨hx, -, hy⟩ := (seg_append L before after xs (t :: ys)).mp h
  obtain ⟨nx, ny, disj⟩ := List.nodup_append.mp nodup
  refine (seg_append M before after xs ys).mpr ⟨?_, ?_⟩
  · refine seg_set_after hx nx left fun a ha hne => same a (by simp [ha]) hne ?_
    intro e
    exact disj a ha a (List.mem_of_head? e) rfl
  · refine seg_set_before hy ny right fun a ha hne => same a (by simp [ha]) ?_ hne
    intro e
    exact disj a (List.mem_of_getLast? e) a ha rfl

/-- `head` is the first node of the `NULL`-terminated chain of distinct blocks `l`. -/
structure Chain (L : Links) (head : Ptr) (l : List Nat) : Prop where
  head_eq : head = l.head?
  nodup : l.Nodup
  seg : Seg L none l none

namespace Chain

theorem nil (L : Links) : Chain L none [] := ⟨rfl, List.nodup_nil, trivial⟩

theorem links_mid {L : Links} {head : Ptr} {xs ys : List Nat} {t : Nat}
    (c : Chain L head (xs ++ t :: ys)) : L t = some (xs.getLast?, ys.head?) := by
  simpa using seg_links_mid c.seg

theorem congr {L M : Links} {head : Ptr} {l : List Nat} (c : Chain L head l)
    (same : ∀ a ∈ l, M a = L a) : Chain M head l :=
  ⟨c.head_eq, c.nodup, seg_congr c.seg same⟩

/-- The pointer surgery of an insertion, wherever it happens. -/
theorem insert {L M : Links} {head head' : Ptr} {xs ys : List Nat} {t : Nat}
    (c : Chain L head (xs ++ ys)) (absent : t ∉ xs ++ ys) (hhead : head' = (xs ++ t :: ys).head?)
    (mid : M t = some (xs.getLast?, ys.head?))
    (left : ∀ p, xs.getLast? = some p → M p = (L p).map fun x => (x.1, some t))
    (right : ∀ q, ys.head? = some q → M q = (L q).map fun x => (some t, x.2))
    (same : ∀ a ∈ xs ++ ys, xs.getLast? ≠ some a → ys.head? ≠ some a → M a = L a) :
    Chain M head' (xs ++ t :: ys) := by
  refine ⟨hhead, ?_, seg_insert c.seg c.nodup (by simpa using mid) left right same⟩
  exact List.nodup_middle.mpr (List.nodup_cons.mpr ⟨absent, c.nodup⟩)

/-- The pointer surgery of a removal, wherever it happens. -/
theorem remove {L M : Links} {head head' : Ptr} {xs ys : List Nat} {t : Nat}
    (c : Chain L head (xs ++ t :: ys)) (hhead : head' = (xs ++ ys).head?)
    (left : ∀ p, xs.getLast? = some p → M p = (L p).map fun x => (x.1, ys.head?))
    (right : ∀ q, ys.head? = some q → M q = (L q).map fun x => (xs.getLast?, x.2))
    (same : ∀ a ∈ xs ++ ys, xs.getLast? ≠ some a → ys.head? ≠ some a → M a = L a) :
    Chain M head' (xs ++ ys) := by
  have nodup := (List.nodup_cons.mp (List.nodup_middle.mp c.nodup)).2
  exact ⟨hhead, nodup, seg_remove c.seg nodup (by simpa using left) (by simpa using right) same⟩

theorem not_mem_of_mid {L : Links} {head : Ptr} {xs ys : List Nat} {t : Nat}
    (c : Chain L head (xs ++ t :: ys)) : t ∉ xs ++ ys :=
  (List.nodup_cons.mp (List.nodup_middle.mp c.nodup)).1

theorem walk_eq {L : Links} {head : Ptr} {l : List Nat} (c : Chain L head l) {n : Nat}
    (hn : l.length ≤ n) : L.walk n head = l := by
  rw [c.head_eq]
  exact seg_walk c.seg hn

/-- The links determine the chain. -/
theorem unique {L : Links} {head : Ptr} {l m : List Nat} (c : Chain L head l)
    (c' : Chain L head m) : l = m := by
  rw [← c.walk_eq (Nat.le_max_left l.length m.length), c'.walk_eq (Nat.le_max_right ..)]

theorem erase_mid {L : Links} {head : Ptr} {xs ys : List Nat} {t : Nat}
    (c : Chain L head (xs ++ t :: ys)) : (xs ++ t :: ys).erase t = xs ++ ys := by
  have absent : t ∉ xs := fun h => c.not_mem_of_mid (by simp [h])
  rw [List.erase_append_right _ absent, List.erase_cons_head]

theorem head_mem {L : Links} {head : Ptr} {l : List Nat} {a : Nat} (c : Chain L head l)
    (h : head = some a) : a ∈ l :=
  List.mem_of_head? (c.head_eq.symm.trans h)

end Chain

namespace Heap
open LinkNode
variable {ν δ : Type} [LinkNode ν δ]

/-- Make `p` and `q` neighbours, where they are not `NULL`. -/
def splice (h : Heap ν) (p q : Ptr) : Heap ν :=
  let h' := match p with
    | some a => h.adjust a (setNext q)
    | none => h
  match q with
  | some b => h'.adjust b (setPrev p)
  | none => h'

@[simp] theorem data_splice (h : Heap ν) (p q : Ptr) : (h.splice p q).data = h.data := by
  cases p <;> cases q <;> simp [splice]

@[simp] theorem fresh_splice (h : Heap ν) (p q : Ptr) : (h.splice p q).fresh = h.fresh := by
  cases p <;> cases q <;> simp [splice]

@[simp] theorem isSome_splice (h : Heap ν) (p q : Ptr) (a : Nat) :
    ((h.splice p q).cell a).isSome = (h.cell a).isSome := by
  cases p <;> cases q <;> simp [splice]

theorem links_splice_ne (h : Heap ν) {p q : Ptr} {a : Nat} (hp : p ≠ some a) (hq : q ≠ some a) :
    (h.splice p q).links a = h.links a := by
  cases p <;> cases q <;>
    simp_all [splice, links_adjust_setPrev, links_adjust_setNext, Links.setPrev_ne,
      Links.setNext_ne, eq_comm]

theorem links_splice_left (h : Heap ν) {q : Ptr} {a : Nat} (hq : q ≠ some a) :
    (h.splice (some a) q).links a = (h.links a).map fun x => (x.1, q) := by
  cases q <;>
    simp_all [splice, links_adjust_setPrev, links_adjust_setNext, Links.setPrev_ne, eq_comm]

theorem links_splice_right (h : Heap ν) {p : Ptr} {b : Nat} (hp : p ≠ some b) :
    (h.splice p (some b)).links b = (h.links b).map fun x => (p, x.2) := by
  cases p <;>
    simp_all [splice, links_adjust_setPrev, links_adjust_setNext, Links.setNext_ne, eq_comm]

theorem cell_splice_ne (h : Heap ν) {p q : Ptr} {a : Nat} (hp : p ≠ some a) (hq : q ≠ some a) :
    (h.splice p q).cell a = h.cell a := by
  cases p <;> cases q <;> simp_all [splice, cell_adjust_ne, eq_comm]

/-- The assignments `t->prev->next = t->next; if (t->next) t->next->prev = t->prev;`
one by one, `t` being read again after each. -/
theorem unlink_steps (h : Heap ν) {t p : Nat} {q : Ptr} {v : ν} (hv : h.cell t = some v)
    (hp : (h.cell p).isSome) (hq : ∀ b, q = some b → (h.cell b).isSome)
    (hpt : p ≠ t) (hqt : q ≠ some t) :
    h.modify (some p) (setNext q) = .ok (h.adjust p (setNext q)) ∧
    (h.adjust p (setNext q)).load (some t) = .ok v ∧
    (h.adjust p (setNext q)).modifyNonNull q (setPrev (some p)) = .ok (h.splice (some p) q) ∧
    (h.splice (some p) q).load (some t) = .ok v := by
  refine ⟨h.modify_some _ hp, load_some _ ?_, ?_, load_some _ ?_⟩
  · rw [cell_adjust_ne h _ hpt.symm, hv]
  · cases q with
    | none => rfl
    | some b => exact modifyNonNull_some _ _ (by simpa using hq b rfl)
  · rw [cell_splice_ne h (by simpa using hpt) hqt, hv]

end Heap

/-- Splicing the neighbours of a node together takes it out of its chain. -/
theorem Chain.splice {ν δ : Type} [LinkNode ν δ] {h : Heap ν} {head : Ptr} {xs ys : List Nat}
    {t : Nat} (c : Chain h.links head (xs ++ t :: ys)) :
    Chain (h.splice xs.getLast? ys.head?).links (xs ++ ys).head? (xs ++ ys) := by
  have nodup := (List.nodup_cons.mp (List.nodup_middle.mp c.nodup)).2
  have disj := (List.nodup_append.mp nodup).2.2
  have apart : ∀ a, xs.getLast? = some a → ys.head? ≠ some a := fun a ha hb =>
    disj a (List.mem_of_getLast? ha) a (List.mem_of_head? hb) rfl
  refine c.remove rfl ?_ ?_ fun a _ hp hq => h.links_splice_ne hp hq
  · intro p hp
    rw [hp]
    exact h.links_splice_left (apart p hp)
  · intro q hq
    rw [hq]
    exact h.links_splice_right fun hp => apart q hp hq

/-- What stands behind a node is a chain of its own once nothing stands in front. -/
theorem Chain.behind {ν δ : Type} [LinkNode ν δ] {h : Heap ν} {head : Ptr} {xs ys : List Nat}
    {t : Nat} (c : Chain h.links head (xs ++ t :: ys)) :
    Chain (h.splice none ys.head?).links ys.head? ys := by
  have nodup : ys.Nodup := (List.nodup_cons.mp (List.nodup_append.mp c.nodup).2.1).2
  have seg : Seg h.links (some t) ys none := ((seg_append _ _ _ xs (t :: ys)).mp c.seg).2.2
  refine ⟨rfl, nodup, seg_set_before seg nodup ?_ fun a _ ha => h.links_splice_ne (by simp) ha⟩
  intro q hq
  rw [hq]
  exact h.links_splice_right (by simp)

end LinuxDemo.Lib
