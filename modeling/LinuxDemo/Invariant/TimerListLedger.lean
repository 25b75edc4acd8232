import LinuxDemo.Invariant.TimerListRun

/-!
# Who deletes a timer

A ledger beside the runs of the timer list: the timers passed to `add_timer`, each of
them fresh, and those whose block an operation deleted. A block number is never used
twice and a second `delete` of a block is a fault, so an entry of the ledger is one
`delete`.
-/
namespace LinuxDemo.Invariant.TimerList
open LinuxDemo.Lib LinkNode LinuxDemo.Source.ListTimer

variable {υ : Type}

structure Ledger where
  /-- timers passed to `add_timer` -/
  added : List Nat
  /-- timers deleted, in the order of the operations that did it -/
  deleted : List Nat

abbrev Owned (υ : Type) := Ledger × World υ

def Owned.init : Owned υ := (⟨[], []⟩, World.init)

/-- The added timers that are live in `h` and no longer in `h'`. -/
def died (added : List Nat) (h h' : Heap (UtilTimer υ)) : List Nat :=
  added.filter fun a => (h.cell a).isSome && (h'.cell a).isNone

/-- An operation, entered in the ledger. -/
def enter (added deleted : List Nat) (w : World υ) (op : Op υ) : Except Fault (Owned υ) := do
  let w' ← step w op
  return (⟨added, deleted ++ died added w.2.heap w'.2.heap⟩, w')

/-- An operation of a client that adds no timer twice. -/
def ownedStep : Owned υ → Op υ → Except Fault (Owned υ)
  | (g, w), .add timer =>
    if timer ∈ g.added then .error .contract else enter (timer :: g.added) g.deleted w (.add timer)
  | (g, w), op => enter g.added g.deleted w op

/-- The end of the list: its destructor runs. -/
def ownedDestroy : Owned υ → Except Fault (Owned υ)
  | (g, c, s) => do
    let s' ← destroy s
    return (⟨g.added, g.deleted ++ died g.added s.heap s'.heap⟩, { c with listed := [] }, s')

/-- A timer off the list has been deleted, once, by the time the operation that took it
off returns; one on the list has not. -/
def Settled (o : Owned υ) : Prop :=
  ∀ t ∈ o.1.added, o.1.deleted.count t = if t ∈ o.2.1.listed then 0 else 1

/-- Neither `head` nor `tail` refers to a deleted timer. -/
def EndsLive (s : SortTimeList υ) : Prop :=
  ∀ t, s.head = some t ∨ s.tail = some t → (s.heap.cell t).isSome

/-- `del_timer` is given the first or the last timer, and `tick` does not find every
timer of a list that is not empty expired. -/
def Spares : World υ → Op υ → Prop
  | (_, s), .del timer => s.head = some timer ∨ s.tail = some timer
  | (c, s), .tick cur => c.listed = [] ∨ ∃ t ∈ c.listed, cur < key s.heap t
  | _, _ => True

/-- The timers an operation takes off the list `l`. -/
def taken (h : Heap (UtilTimer υ)) (l : List Nat) : Op υ → List Nat
  | .del timer => [timer]
  | .tick cur => l.takeWhile (due h cur)
  | _ => []

/-- Those of them it deletes. -/
def freed (h : Heap (UtilTimer υ)) (l : List Nat) : Op υ → List Nat
  | .del timer => if l.head? = some timer ∨ l.getLast? = some timer then [timer] else []
  | .tick cur => l.takeWhile (due h cur)
  | _ => []

/-- The callbacks it adds to the log. -/
def invoked (h : Heap (UtilTimer υ)) (l : List Nat) : Op υ → List (List Nat)
  | .tick cur => [l.takeWhile (due h cur)]
  | _ => []

/-- What an operation on the list `l` does to the blocks and to the client's books. -/
structure Effect (w : World υ) (op : Op υ) (l : List Nat) (w' : World υ) : Prop where
  fresh : w.2.heap.fresh ≤ w'.2.heap.fresh
  live : ∀ a < w.2.heap.fresh, (w'.2.heap.cell a).isSome =
    ((w.2.heap.cell a).isSome && decide (a ∉ freed w.2.heap l op))
  listed : ∀ a, a ∈ w'.1.listed ↔ a ∈ w.1.listed ∧ a ∉ taken w.2.heap l op ∨ op = .add a
  fired : w'.1.fired = w.1.fired ++ invoked w.2.heap l op

theorem live_of_data {h h' : Heap (UtilTimer υ)} {F : List Nat} {a : Nat}
    (e : h'.data a = if a ∈ F then none else h.data a) :
    (h'.cell a).isSome = ((h.cell a).isSome && decide (a ∉ F)) := by
  have hdata : ∀ k : Heap (UtilTimer υ), (k.cell a).isSome = (k.data a).isSome := by simp [Heap.data]
  rw [hdata, hdata, e]
  by_cases ha : a ∈ F <;> simp [ha]

section Steps
variable {c : Client} {s : SortTimeList υ} {l : List Nat} {t : Nat}

theorem new_effect {expire : Int} {userData : υ} :
    Safe (step (c, s) (.new expire userData)) (Effect (c, s) (.new expire userData) l) := by
  constructor
  · simp
  · intro a ha
    exact live_of_data (by simp [freed, Heap.data_alloc_ne _ _ (ne_of_lt ha)])
  · simp [taken]
  · simp [invoked]

theorem add_effect (w : Sound (c, s) l) :
    Safe (step (c, s) (.add t)) (Effect (c, s) (.add t) l) := by
  simp only [step]
  split
  next h =>
    obtain ⟨v, hv, hprev, hnext⟩ := s.heap.cell_of_links h.2
    have absent : t ∉ l := fun hm => h.1 (w.perm.mem_iff.mp hm)
    obtain ⟨s', he, -, same⟩ := addTimer_spec w.repr absent hv hprev hnext
    rw [he]
    constructor
    · simp [same.fresh]
    · intro a _
      exact live_of_data (by simp [freed, same.data])
    · intro a
      simp [taken, or_comm, eq_comm]
    · simp [invoked]
  next => simp

theorem adjust_effect {expire : Int} (w : Sound (c, s) l) :
    Safe (step (c, s) (.adjust t expire)) (Effect (c, s) (.adjust t expire) l) := by
  simp only [step]
  split
  next h =>
    obtain ⟨xs, ys, rfl⟩ := List.append_of_mem (w.perm.mem_iff.mpr h.1)
    rw [Heap.modify_some _ _ (w.repr.isSome (a := t) (by simp)), ok_bind]
    obtain ⟨s', he, -, same⟩ := adjustTimer_spec (w.repr.setExpire t expire)
    rw [he]
    constructor
    · simp [same.fresh]
    · intro a _
      rw [live_of_data (F := []) (h := s.heap.adjust t (setExpire expire)) (by simp [same.data])]
      simp [freed]
    · simp [taken]
    · simp [invoked]
  next => simp

/-- The ends of a list are what its `head` and its `tail` point to. -/
theorem Repr.tail_last (r : Repr s l) (h : l ≠ []) : s.tail = l.getLast? := by
  rw [List.getLast?_eq_some_getLast h]
  exact r.tail_eq _ (List.getLast?_eq_some_getLast h)

theorem Repr.at_end_iff {xs ys : List Nat} (r : Repr s (xs ++ t :: ys)) :
    ((xs ++ t :: ys).head? = some t ∨ (xs ++ t :: ys).getLast? = some t) ↔ xs = [] ∨ ys = [] := by
  rw [← r.head_iff, ← r.tail_iff, r.tail_last (by simp), r.chain.head_eq, eq_comm,
    eq_comm (b := (xs ++ t :: ys).getLast?)]

theorem del_effect (w : Sound (c, s) l) :
    Safe (step (c, s) (.del t)) (Effect (c, s) (.del t) l) := by
  simp only [step]
  split
  next hmem =>
    have nodup : c.listed.Nodup := w.perm.nodup_iff.mp w.repr.chain.nodup
    obtain ⟨xs, ys, rfl⟩ := List.append_of_mem (w.perm.mem_iff.mpr hmem)
    obtain ⟨s', he, del⟩ := delTimer_spec w.repr
    rw [he]
    constructor
    · simp [del.fresh]
    · intro a _
      apply live_of_data
      by_cases e : a = t
      · subst e
        simp only [freed, w.repr.at_end_iff, del.self]
        split <;> simp
      · simp only [freed, del.others a e]
        split <;> simp [e]
    · intro a
      simp [taken, nodup.mem_erase_iff, and_comm]
    · simp [invoked]
  next => simp

theorem mem_foldl_erase {a : Nat} {ps L : List Nat} (nodup : L.Nodup) :
    a ∈ ps.foldl List.erase L ↔ a ∈ L ∧ a ∉ ps := by
  induction ps generalizing L with
  | nil => simp
  | cons p ps ih =>
    rw [List.foldl_cons, ih (nodup.erase p), nodup.mem_erase_iff]
    simp
    tauto

theorem tick_effect {cur : Int} (w : Sound (c, s) l) :
    Total (step (c, s) (.tick cur)) (Effect (c, s) (.tick cur) l) := by
  have nodup : c.listed.Nodup := w.perm.nodup_iff.mp w.repr.chain.nodup
  refine (tick_exact (f := fun a b => (b.1.erase a, b.2 ++ [a])) (c := (c.listed, []))
    (fun _ _ _ _ => rfl) w.repr).bind ?_
  rintro ⟨⟨listed, firing⟩, s'⟩ ⟨hc, -, hfresh, hdata⟩
  rw [foldl_callback, Prod.mk.injEq] at hc
  constructor
  · simp [hfresh]
  · intro a _
    exact live_of_data (hdata a)
  · intro a
    simp [taken, hc.1, mem_foldl_erase nodup]
  · simp [invoked, hc.2]

end Steps

/-- What an operation deletes and what it takes off the list. -/
theorem step_effect {w : World υ} {l : List Nat} (op : Op υ) (h : Sound w l) :
    Safe (step w op) (Effect w op l) := by
  obtain ⟨c, s⟩ := w
  cases op with
  | new expire userData => exact new_effect
  | add timer => exact add_effect h
  | adjust timer expire => exact adjust_effect h
  | del timer => exact del_effect h
  | tick cur => exact (tick_effect h).safe

/-! ## The ends -/

theorem Repr.endsLive {s : SortTimeList υ} {l : List Nat} (r : Repr s l) (h : l ≠ []) :
    EndsLive s := by
  intro t ht
  apply r.isSome
  rw [r.chain.head_eq, r.tail_last h] at ht
  rcases ht with ht | ht
  · exact List.mem_of_head? ht
  · exact List.mem_of_getLast? ht

/-- With nothing on the list, `tail` is all that may dangle. -/
theorem Repr.endsLive_nil {s : SortTimeList υ} (r : Repr s []) :
    EndsLive s ↔ ∀ t, s.tail = some t → (s.heap.cell t).isSome := by
  have hhead : s.head = none := r.chain.head_eq
  simp [EndsLive, hhead]

section Ends
variable {c : Client} {s : SortTimeList υ} {l : List Nat} {t : Nat}

/-- A list that still has a timer has live ends. -/
theorem Sound.endsLive {w : World υ} (h : ∃ l, Sound w l) (ht : t ∈ w.1.listed) :
    EndsLive w.2 := by
  obtain ⟨l, h⟩ := h
  exact h.repr.endsLive (List.ne_nil_of_mem (h.perm.mem_iff.mpr ht))

theorem Sound.lt_fresh (w : Sound (c, s) l) (ht : t ∈ l) : t < s.heap.fresh := by
  obtain ⟨v, hv⟩ := Option.isSome_iff_exists.mp (w.repr.isSome ht)
  exact s.heap.lt_fresh_of_cell hv

theorem del_ends (w : Sound (c, s) l) : Safe (step (c, s) (.del t)) fun w' => EndsLive w'.2 := by
  have sound := del_sound (t := t) w
  simp only [step] at sound ⊢
  split
  next hmem =>
    rw [if_pos hmem] at sound
    obtain ⟨xs, ys, rfl⟩ := List.append_of_mem (w.perm.mem_iff.mpr hmem)
    obtain ⟨s', he, del⟩ := delTimer_spec w.repr
    by_cases hrest : xs ++ ys = []
    · obtain ⟨rfl, rfl⟩ := List.append_eq_nil_iff.mp hrest
      have only : delTimer s (some t) = .ok ⟨s.heap.retire t, none, none⟩ := by
        simp [delTimer, w.repr.head_iff, w.repr.tail_iff, Heap.free_some _ (w.repr.isSome (a := t) (by simp))]
      simp [only, EndsLive]
    · rw [he]
      exact del.repr.endsLive hrest
  next => simp

/-- Neither `tick` nor its loop assigns to `tail`. -/
theorem tick_tail {cur : Int} (w : Sound (c, s) l) :
    Total (step (c, s) (.tick cur)) fun w' => w'.2.tail = s.tail := by
  refine (tick_rule (fun _ s' _ => s'.tail = s.tail) ?_ w.repr rfl).bind ?_
  · intro c₁ s₁ a ys e u _ _ _ htail
    exact ⟨rfl, htail⟩
  · rintro ⟨⟨listed, firing⟩, s'⟩ ⟨l', -, htail, -⟩
    exact htail

theorem tick_ends {cur : Int} (w : Sound (c, s) l) (ends : EndsLive s) :
    Total (step (c, s) (.tick cur)) fun w' =>
      EndsLive w'.2 ↔ l = [] ∨ ∃ a ∈ l, cur < key s.heap a := by
  refine (((tick_sound w).and (tick_effect w)).and (tick_tail w)).mono ?_
  rintro ⟨c', s'⟩ ⟨⟨⟨w', -, -⟩, eff⟩, htail⟩
  by_cases hrest : l.dropWhile (due s.heap cur) = []
  · have all := List.dropWhile_eq_nil_iff.mp hrest
    rw [hrest] at w'
    rw [w'.repr.endsLive_nil, htail]
    by_cases hl : l = []
    · subst hl
      simp only [true_or, iff_true]
      intro a ha
      have live := ends a (.inr ha)
      obtain ⟨v, hv⟩ := Option.isSome_iff_exists.mp live
      rw [eff.live a (s.heap.lt_fresh_of_cell hv)]
      simp [live, freed]
    · -- the last timer has been fired and deleted, and `tail` points to it
      have hfired : l.takeWhile (due s.heap cur) = l := List.takeWhile_eq_self_iff.mpr all
      have hlast := List.getLast?_eq_some_getLast hl
      have hdead := eff.live _ (w.lt_fresh (List.getLast_mem hl))
      simp only [freed, hfired, List.getLast_mem hl, not_true, decide_false, Bool.and_false] at hdead
      have hlate : ¬ ∃ a ∈ l, cur < key s.heap a := by
        rintro ⟨a, ha, hlt⟩
        have hdue := all a ha
        simp only [due, decide_eq_true_eq] at hdue
        omega
      have htail : s.tail = some (l.getLast hl) := by rw [w.repr.tail_last hl, hlast]
      simp only [hl, hlate, or_self, iff_false]
      intro live
      simp [live _ htail] at hdead
  · have hlate : ∃ a ∈ l, cur < key s.heap a := by
      rw [List.dropWhile_eq_nil_iff] at hrest
      simpa [due] using hrest
    simp [w'.repr.endsLive hrest, hlate]

end Ends

theorem step_ends {w : World υ} {l : List Nat} (op : Op υ) (h : Sound w l) (ends : EndsLive w.2) :
    Safe (step w op) fun w' =>
      EndsLive w'.2 ↔ ∀ cur, op = .tick cur → l = [] ∨ ∃ a ∈ l, cur < key w.2.heap a := by
  obtain ⟨c, s⟩ := w
  have effect := step_effect op h
  have sound := step_sound (c, s) op ⟨l, h⟩
  cases op with
  | new expire userData =>
    have live : EndsLive ({ s with heap := s.heap.alloc ⟨expire, userData, none, none⟩ }) := by
      intro t ht
      have ht' := ends t ht
      obtain ⟨v, hv⟩ := Option.isSome_iff_exists.mp ht'
      simpa [Heap.cell_alloc_ne _ _ (s.heap.ne_fresh_of_cell hv)] using ht'
    simpa [step] using live
  | add timer =>
    refine (effect.and sound).mono fun w' h' => ?_
    simp [Sound.endsLive h'.2 ((h'.1.listed timer).mpr (.inr rfl))]
  | adjust timer expire =>
    by_cases ht : timer ∈ c.listed
    · refine (effect.and sound).mono fun w' h' => ?_
      simp [Sound.endsLive h'.2 ((h'.1.listed timer).mpr (.inl ⟨ht, by simp [taken]⟩))]
    · simp [step, ht]
  | del timer => exact (del_ends h).mono fun w' h' => by simp [h']
  | tick cur => exact (tick_ends h ends).safe.mono fun w' h' => by simp [h']

/-! ## The books -/

structure Accounted (o : Owned υ) (l : List Nat) : Prop where
  sound : Sound o.2 l
  nodup : o.1.added.Nodup
  known : ∀ a ∈ o.2.1.listed, a ∈ o.1.added
  old : ∀ a ∈ o.1.added, a < o.2.2.heap.fresh
  once : ∀ a, o.1.deleted.count a = if a ∈ o.1.added ∧ o.2.2.heap.cell a = none then 1 else 0

theorem accounted_init : Accounted (Owned.init (υ := υ)) [] := by
  constructor
  · exact sound_init
  all_goals simp [Owned.init, World.init]

theorem count_died {added : List Nat} {h h' : Heap (UtilTimer υ)} (nodup : added.Nodup) (a : Nat) :
    (died added h h').count a = if a ∈ added ∧ (h.cell a).isSome ∧ h'.cell a = none then 1 else 0 := by
  rw [died, (nodup.filter _).count]
  simp

/-- The books stay right if the timers entered are live and the operation's own is
among them. -/
theorem enter_accounted {g : Ledger} {w : World υ} {l added : List Nat} {op : Op υ}
    (h : Accounted (g, w) l) (nodup : added.Nodup) (sub : ∀ a ∈ g.added, a ∈ added)
    (new : ∀ a ∈ added, a ∈ g.added ∨ (w.2.heap.cell a).isSome) (own : ∀ a, op = .add a → a ∈ added) :
    Safe (enter added g.deleted w op) fun o => (∃ l', Accounted o l') ∧ Effect w op l o.2 ∧
      o.1.added = added := by
  refine ((step_effect op h.sound).and (step_sound w op ⟨l, h.sound⟩)).bind ?_
  rintro w' ⟨effect, l', sound⟩
  have old : ∀ a ∈ added, a < w.2.heap.fresh := by
    intro a ha
    rcases new a ha with ha | ha
    · exact h.old a ha
    · obtain ⟨v, hv⟩ := Option.isSome_iff_exists.mp ha
      exact w.2.heap.lt_fresh_of_cell hv
  refine ⟨⟨l', sound, nodup, ?_, ?_, ?_⟩, effect, rfl⟩
  · intro a ha
    rcases (effect.listed a).mp ha with ha | ha
    · exact sub a (h.known a ha.1)
    · exact own a ha
  · intro a ha
    exact lt_of_lt_of_le (old a ha) effect.fresh
  · intro a
    simp only [List.count_append, h.once a, count_died nodup]
    by_cases ha : a ∈ added
    · have live := effect.live a (old a ha)
      by_cases hdead : w.2.heap.cell a = none
      · -- deleted before, and still
        have hknown : a ∈ g.added := by simpa [hdead] using new a ha
        simp [ha, hdead, hknown] at live ⊢
        simp [live]
      · simp [ha, hdead, Option.isSome_iff_ne_none]
    · have hunknown : a ∉ g.added := fun hm => ha (sub a hm)
      simp [ha, hunknown]

theorem live_of_add {w w' : World υ} {t : Nat} (h : step w (.add t) = .ok w') :
    (w.2.heap.cell t).isSome := by
  obtain ⟨c, s⟩ := w
  simp only [step] at h
  split at h
  next hc =>
    obtain ⟨v, hv, -⟩ := s.heap.cell_of_links hc.2
    simp [hv]
  next => cases h

theorem ownedStep_accounted (o : Owned υ) (op : Op υ) {l : List Nat} (h : Accounted o l) :
    Safe (ownedStep o op) fun o' => (∃ l', Accounted o' l') ∧ Effect o.2 op l o'.2 ∧
      o'.1.added = (match op with | .add t => t :: o.1.added | _ => o.1.added) := by
  obtain ⟨g, w⟩ := o
  cases op with
  | add t =>
    simp only [ownedStep]
    split
    next => simp
    next hfresh =>
      cases hs : step w (.add t) with
      | error f =>
        have safe := step_sound w (.add t) ⟨l, h.sound⟩
        rw [hs] at safe
        simpa [enter, hs] using safe
      | ok w' =>
        refine enter_accounted h (List.nodup_cons.mpr ⟨hfresh, h.nodup⟩) (by simp +contextual) ?_ (by simp)
        intro a ha
        rcases List.mem_cons.mp ha with rfl | ha
        · exact .inr (live_of_add hs)
        · exact .inl ha
  | new expire userData => exact enter_accounted h h.nodup (fun _ h => h) (fun _ h => .inl h) (by simp)
  | adjust t expire => exact enter_accounted h h.nodup (fun _ h => h) (fun _ h => .inl h) (by simp)
  | del t => exact enter_accounted h h.nodup (fun _ h => h) (fun _ h => .inl h) (by simp)
  | tick cur => exact enter_accounted h h.nodup (fun _ h => h) (fun _ h => .inl h) (by simp)

/-- On right books: no added timer is live and off the list. -/
theorem Accounted.settled_iff {o : Owned υ} {l : List Nat} (h : Accounted o l) :
    Settled o ↔ ∀ t ∈ o.1.added, t ∉ o.2.1.listed → o.2.2.heap.cell t = none := by
  constructor
  · intro settled t ht hoff
    have hcount := settled t ht
    rw [h.once, if_neg hoff] at hcount
    simpa [ht] using hcount
  · intro none t ht
    rw [h.once]
    by_cases hon : t ∈ o.2.1.listed
    · have live := h.sound.repr.isSome (h.sound.perm.mem_iff.mpr hon)
      simp [hon, Option.isSome_iff_ne_none.mp live]
    · simp [hon, ht, none t ht hon]

/-- Nothing leaks in an operation that deletes whatever it takes off the list. -/
theorem Effect.settled_iff {o o' : Owned υ} {op : Op υ} {l l' : List Nat}
    (effect : Effect o.2 op l o'.2) (h : Accounted o l) (h' : Accounted o' l')
    (added : o'.1.added = (match op with | .add t => t :: o.1.added | _ => o.1.added))
    (listed : ∀ a ∈ taken o.2.2.heap l op, a ∈ o.2.1.listed) (settled : Settled o) :
    Settled o' ↔ ∀ a ∈ taken o.2.2.heap l op, a ∈ freed o.2.2.heap l op := by
  have hadded : ∀ a, a ∈ o'.1.added ↔ a ∈ o.1.added ∨ op = .add a := by
    intro a
    rw [added]
    cases op <;> simp [or_comm, eq_comm]
  have hadd : ∀ a ∈ taken o.2.2.heap l op, op ≠ .add a := by
    rintro a ha rfl
    simp [taken] at ha
  rw [h'.settled_iff]
  rw [h.settled_iff] at settled
  constructor
  · intro dead a ha
    have hon := listed a ha
    have live := effect.live a (h.old a (h.known a hon))
    rw [dead a ((hadded a).mpr (.inl (h.known a hon))) (by simp [effect.listed, ha, hadd a ha]),
      h.sound.repr.isSome (h.sound.perm.mem_iff.mpr hon)] at live
    simpa using live
  · intro all a ha hoff
    simp only [effect.listed, not_or, not_and_not_right] at hoff
    have hknown : a ∈ o.1.added := ((hadded a).mp ha).resolve_right hoff.2
    have live := effect.live a (h.old a hknown)
    by_cases hon : a ∈ o.2.1.listed
    · simpa [all a (hoff.1 hon)] using live
    · simpa [settled a hknown hon] using live

theorem ownedStep_of_step {o : Owned υ} {op : Op υ} {P : World υ → Prop} (h : Safe (step o.2 op) P) :
    Safe (ownedStep o op) fun o' => P o'.2 := by
  obtain ⟨g, w⟩ := o
  have entered : ∀ added, Safe (enter added g.deleted w op) fun o' => P o'.2 :=
    fun added => h.bind fun w' hw' => hw'
  cases op with
  | add t =>
    simp only [ownedStep]
    split
    next => simp
    next => exact entered _
  | new expire userData => exact entered _
  | adjust t expire => exact entered _
  | del t => exact entered _
  | tick cur => exact entered _

/-- From a state with nothing leaked and live ends, exactly the operations that spare them. -/
theorem ownedStep_kept_iff (o : Owned υ) (op : Op υ) {l : List Nat} (h : Accounted o l)
    (settled : Settled o) (ends : EndsLive o.2.2) :
    Safe (ownedStep o op) fun o' => (∃ l', Accounted o' l') ∧
      (Settled o' ∧ EndsLive o'.2.2 ↔ Spares o.2 op) := by
  have step := (ownedStep_accounted o op h).and (ownedStep_of_step (step_ends op h.sound ends))
  obtain ⟨g, c, s⟩ := o
  have hmem : ∀ a, a ∈ l ↔ a ∈ c.listed := fun a => h.sound.perm.mem_iff
  cases op with
  | del t =>
    by_cases ht : t ∈ c.listed
    · have hhead : s.head = l.head? := h.sound.repr.chain.head_eq
      have htail : s.tail = l.getLast? := h.sound.repr.tail_last (List.ne_nil_of_mem ((hmem t).mpr ht))
      refine step.mono ?_
      rintro o' ⟨⟨⟨l', h'⟩, effect, added⟩, hends⟩
      have hsettled := effect.settled_iff h h' added (by simpa [taken] using ht) settled
      refine ⟨⟨l', h'⟩, ?_⟩
      rw [hsettled, hends]
      by_cases hend : l.head? = some t ∨ l.getLast? = some t
      · simp [taken, freed, Spares, hhead, htail, hend]
      · simp [taken, freed, Spares, hhead, htail, hend]
    · simp [ownedStep, enter, Invariant.TimerList.step, ht]
  | tick cur =>
    refine step.mono ?_
    rintro o' ⟨⟨⟨l', h'⟩, effect, added⟩, hends⟩
    have hsettled := effect.settled_iff h h' added
      (fun a ha => (hmem a).mp (List.takeWhile_subset _ ha)) settled
    refine ⟨⟨l', h'⟩, ?_⟩
    have hnil : l = [] ↔ c.listed = [] := by simp [List.eq_nil_iff_forall_not_mem, hmem]
    rw [hsettled, hends]
    simp [taken, freed, Spares, hmem, hnil]
  | _ =>
    refine step.mono ?_
    rintro o' ⟨⟨⟨l', h'⟩, effect, added⟩, hends⟩
    have hsettled := effect.settled_iff h h' added (by simp [taken]) settled
    refine ⟨⟨l', h'⟩, ?_⟩
    rw [hsettled, hends]
    simp [taken, Spares]

/-! ## The destructor -/

theorem destroyLoop_spec {l : List Nat} {before : Ptr} : ∀ (fuel : Nat) (s : SortTimeList υ),
    l.length ≤ fuel → l.Nodup → Seg s.heap.links before l none →
    Total (destroyLoop fuel s l.head?) fun s' => s'.heap.fresh = s.heap.fresh ∧
      ∀ a, s'.heap.cell a = if a ∈ l then none else s.heap.cell a := by
  induction l generalizing before with
  | nil =>
    intro fuel s _ _ _
    cases fuel <;> simp [destroyLoop]
  | cons a l ih =>
    intro fuel s hlen nodup seg
    obtain ⟨fuel, rfl⟩ : ∃ n, fuel = n + 1 := ⟨fuel - 1, by simp at hlen; omega⟩
    obtain ⟨v, hv, -, hnext⟩ := s.heap.cell_of_links seg.1
    have ⟨ha, hl⟩ := List.nodup_cons.mp nodup
    have hnext' : v.next = l.head? := by
      have e : LinkNode.next v = l.head?.or none := hnext
      rwa [Option.or_none] at e
    have live : (s.heap.cell a).isSome := by simp [hv]
    simp only [List.head?_cons, destroyLoop, Heap.load_some _ hv, ok_bind, Heap.free_some _ live, hnext']
    have rest : Seg (s.heap.retire a).links (some a) l none :=
      seg_congr seg.2 fun b hb => Heap.links_retire_ne _ (by rintro rfl; exact ha hb)
    refine (ih fuel ⟨s.heap.retire a, l.head?, s.tail⟩ (by simpa using hlen) hl rest).mono ?_
    rintro s' ⟨hfresh, hcell⟩
    refine ⟨hfresh, fun b => ?_⟩
    rw [hcell]
    by_cases e : b = a
    · subst e
      simp
    · simp [e, Heap.cell_retire_ne]

/-- The destructor deletes what is on the list, and nothing else. -/
theorem destroy_spec {s : SortTimeList υ} {l : List Nat} (r : Repr s l) :
    Total (destroy s) fun s' => ∀ a, s'.heap.cell a = if a ∈ l then none else s.heap.cell a := by
  unfold destroy
  rw [r.chain.head_eq]
  exact (destroyLoop_spec _ s r.length_le r.chain.nodup r.chain.seg).mono fun s' h => h.2

/-- With nothing leaked before, the destructor settles the rest. -/
theorem ownedDestroy_spec {o : Owned υ} {l : List Nat} (h : Accounted o l) :
    Total (ownedDestroy o) fun after =>
      Settled o → ∀ t ∈ after.1.added, after.1.deleted.count t = 1 := by
  obtain ⟨g, c, s⟩ := o
  refine (destroy_spec h.sound.repr).bind ?_
  intro s' hcell settled t ht
  have hcount := settled t ht
  have hmem : t ∈ l ↔ t ∈ c.listed := h.sound.perm.mem_iff
  simp only [List.count_append, hcount, count_died h.nodup, hcell, hmem]
  by_cases hon : t ∈ c.listed
  · have live := h.sound.repr.isSome (hmem.mpr hon)
    simp only at ht live
    simp [hon, ht, live]
  · have hdead := h.settled_iff.mp settled t ht hon
    simp only at hdead
    simp [hon, hdead]

theorem owned_sound (ops : List (Op υ)) :
    Safe (run ownedStep Owned.init ops) fun o => ∃ l, Accounted o l := by
  refine run_ends ownedStep ?_ ⟨[], accounted_init⟩ ops
  rintro o op ⟨l, h⟩
  exact (ownedStep_accounted o op h).mono fun _ h' => h'.1

/-! ## Firing over a run -/

/-- Every timer that fired is deleted, and none fired twice. -/
structure FiredOnce (o : Owned υ) : Prop where
  nodup : o.2.1.fired.flatten.Nodup
  dead : ∀ t ∈ o.2.1.fired.flatten, t ∈ o.1.added ∧ o.2.2.heap.cell t = none

theorem invoked_sub {h : Heap (UtilTimer υ)} {l : List Nat} {op : Op υ} {t : Nat}
    (ht : t ∈ (invoked h l op).flatten) : t ∈ l ∧ t ∈ freed h l op ∧ t ∈ taken h l op := by
  cases op <;> simp [invoked] at ht
  exact ⟨List.takeWhile_subset _ ht, ht, ht⟩

theorem invoked_nodup {h : Heap (UtilTimer υ)} {l : List Nat} {op : Op υ} (nodup : l.Nodup) :
    (invoked h l op).flatten.Nodup := by
  cases op <;> simp [invoked]
  exact nodup.sublist (List.takeWhile_sublist _)

theorem ownedStep_firedOnce (o : Owned υ) (op : Op υ)
    (h : (∃ l, Accounted o l) ∧ FiredOnce o) :
    Safe (ownedStep o op) fun o' => (∃ l, Accounted o' l) ∧ FiredOnce o' := by
  obtain ⟨⟨l, h⟩, once⟩ := h
  refine (ownedStep_accounted o op h).mono ?_
  rintro o' ⟨h', effect, added⟩
  have live : ∀ t ∈ l, (o.2.2.heap.cell t).isSome := fun t ht => h.sound.repr.isSome ht
  refine ⟨h', ?_, ?_⟩
  · rw [effect.fired, List.flatten_append]
    refine List.nodup_append.mpr ⟨once.nodup, invoked_nodup h.sound.repr.chain.nodup, ?_⟩
    rintro a ha b hb rfl
    have hlive := live a (invoked_sub hb).1
    simp [(once.dead a ha).2] at hlive
  · intro t ht
    rw [effect.fired, List.flatten_append, List.mem_append] at ht
    have known : t ∈ o.1.added ∧ (t ∈ freed o.2.2.heap l op ∨ o.2.2.heap.cell t = none) := by
      rcases ht with ht | ht
      · exact ⟨(once.dead t ht).1, .inr (once.dead t ht).2⟩
      · have hsub := invoked_sub ht
        exact ⟨h.known t (h.sound.perm.mem_iff.mp hsub.1), .inl hsub.2.1⟩
    constructor
    · rw [added]
      cases op <;> simp [known.1]
    · have hcell := effect.live t (h.old t known.1)
      rcases known.2 with hf | hdead
      · simpa [hf] using hcell
      · simpa [hdead] using hcell

theorem fired_sound (ops : List (Op υ)) :
    Safe (run ownedStep Owned.init ops) fun o => (∃ l, Accounted o l) ∧ FiredOnce o := by
  refine run_ends ownedStep ownedStep_firedOnce ⟨⟨[], accounted_init⟩, ?_, ?_⟩ ops
  all_goals simp [Owned.init, World.init]

theorem ownedStep_contract {o : Owned υ} {op : Op υ} {t : Nat} {P Q : Owned υ → Prop}
    (known : t ∈ o.1.added) (h : Safe (ownedStep o op) P) (hPQ : op ≠ .add t → ∀ o', P o' → Q o') :
    Safe (ownedStep o op) Q := by
  by_cases e : op = .add t
  · subst e
    simp [ownedStep, known]
  · exact h.mono (hPQ e)

/-- A timer that left the list never comes back, and does not fire. -/
theorem off_list {t : Nat} (ops : List (Op υ)) {o : Owned υ} (h : ∃ l, Accounted o l)
    (known : t ∈ o.1.added) (off : t ∉ o.2.1.listed) (silent : t ∉ o.2.1.fired.flatten) :
    Safe (run ownedStep o ops) fun o' => t ∉ o'.2.1.fired.flatten := by
  let I : Owned υ → Prop := fun o => (∃ l, Accounted o l) ∧ t ∈ o.1.added ∧ t ∉ o.2.1.listed ∧
    t ∉ o.2.1.fired.flatten
  refine (run_ends ownedStep (I := I) ?_ ⟨h, known, off, silent⟩ ops).mono fun _ h => h.2.2.2
  rintro o op ⟨⟨l, h⟩, known, off, silent⟩
  refine ownedStep_contract known (ownedStep_accounted o op h) ?_
  rintro hop o' ⟨h', effect, added⟩
  refine ⟨h', ?_, ?_, ?_⟩
  · rw [added]
    cases op <;> simp [known]
  · simp [effect.listed, off, hop]
  · rw [effect.fired, List.flatten_append, List.mem_append, not_or]
    exact ⟨silent, fun ht => off (h.sound.perm.mem_iff.mp (invoked_sub ht).1)⟩

/-- In a list in order the expired prefix is all that has expired. -/
theorem Sound.takeWhile_due {w : World υ} {l : List Nat} (h : Sound w l) (cur : Int) :
    l.takeWhile (due w.2.heap cur) = l.filter fun a => decide (key w.2.heap a ≤ cur) :=
  h.inOrder.takeWhile_eq_filter cur

theorem Sound.dropWhile_due {w : World υ} {l : List Nat} (h : Sound w l) (cur : Int) :
    l.dropWhile (due w.2.heap cur) = l.filter fun a => decide (cur < key w.2.heap a) :=
  h.inOrder.dropWhile_eq_filter cur

/-- A tick comes before `t` expires. -/
def Waits (t : Nat) (o : Owned υ) (op : Op υ) : Prop :=
  ∀ cur, op = .tick cur → cur < key o.2.2.heap t

/-- A listed timer that nobody deletes is listed for as long as no tick finds it expired. -/
theorem listed_iff_waits {t : Nat} {ops : List (Op υ)} (kept : Op.del t ∉ ops) {o : Owned υ}
    (h : ∃ l, Accounted o l) (known : t ∈ o.1.added) :
    Safe (run ownedStep o ops) fun o' =>
      t ∈ o'.2.1.listed ↔ t ∈ o.2.1.listed ∧ Along ownedStep (Waits t) o ops := by
  induction ops generalizing o with
  | nil => simp [Along]
  | cons op ops ih =>
    obtain ⟨l, h⟩ := h
    have step := ownedStep_contract known (ownedStep_accounted o op h) (Q := fun o' =>
        (∃ l', Accounted o' l') ∧ t ∈ o'.1.added ∧
          (t ∈ o'.2.1.listed ↔ t ∈ o.2.1.listed ∧ Waits t o op)) ?_
    · rw [run_cons]
      cases ho : ownedStep o op with
      | error f =>
        rw [ho] at step
        exact step
      | ok o₁ =>
        rw [ho] at step
        obtain ⟨h₁, known₁, hlisted⟩ := step
        refine (ih (by simp_all) h₁ known₁).mono fun o' ho' => ?_
        simp only [ho', hlisted, Along, ho, and_assoc]
    · rintro hop o' ⟨h', effect, added⟩
      refine ⟨h', ?_, ?_⟩
      · rw [added]
        cases op <;> simp [known]
      · have hl : t ∈ l ↔ t ∈ o.2.1.listed := h.sound.perm.mem_iff
        rw [effect.listed, or_iff_left hop]
        apply and_congr_right
        intro hon
        cases op with
        | tick cur =>
          simp [taken, Waits, h.sound.takeWhile_due, hl, hon]
        | del timer =>
          have hne : t ≠ timer := by
            rintro rfl
            simp at kept
          simp [taken, Waits, hne]
        | _ => simp [taken, Waits]

/-- A timer that `del_timer` was called on has not fired, and will not. -/
theorem deleted_silent {t : Nat} {o o₁ : Owned υ} (post : List (Op υ))
    (h : (∃ l, Accounted o l) ∧ FiredOnce o) (del : ownedStep o (.del t) = .ok o₁) :
    Safe (run ownedStep o₁ post) fun o' => t ∉ o'.2.1.fired.flatten := by
  obtain ⟨⟨l, h⟩, once⟩ := h
  have listed : t ∈ o.2.1.listed := by
    by_contra hoff
    simp [ownedStep, enter, step, hoff] at del
  have live := h.sound.repr.isSome (h.sound.perm.mem_iff.mpr listed)
  have silent : t ∉ o.2.1.fired.flatten := by
    intro ht
    simp [(once.dead t ht).2] at live
  obtain ⟨h₁, effect, added⟩ := (ownedStep_accounted o (.del t) h).of_ok del
  apply off_list post h₁
  · simpa [added] using h.known t listed
  · simp [effect.listed, taken]
  · simpa [effect.fired, invoked] using silent

end LinuxDemo.Invariant.TimerList
