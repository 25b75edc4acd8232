import LinuxDemo.Invariant.TimerListAdjust

/-!
# Runs of the sorted timer list

A client creates timers, puts them on the list, changes the `expire` of a listed timer
and has it adjusted, deletes listed timers and calls `tick` at any clock reading. It
keeps book of the timers that are listed; its side of the contract is checked before
the list is entered. Its callbacks leave the list alone.
-/
namespace LinuxDemo.Invariant.TimerList
open LinuxDemo.Lib LinkNode LinuxDemo.Source.ListTimer

variable {υ : Type}

inductive Op (υ : Type) where
  /-- `new util_timer`, with its fields filled in -/
  | new (expire : Int) (userData : υ)
  | add (timer : Nat)
  /-- `timer->expire = expire; adjust_timer(timer)` -/
  | adjust (timer : Nat) (expire : Int)
  | del (timer : Nat)
  | tick (cur : Int)

structure Client where
  /-- timers added and not since deleted or fired -/
  listed : List Nat
  /-- callbacks invoked by each tick, in order -/
  fired : List (List Nat)

abbrev World (υ : Type) := Client × SortTimeList υ

def World.init : World υ := (⟨[], []⟩, SortTimeList.init)

/-- The callback of every timer: the client notes it and takes it off its books. -/
def callback : Callback (List Nat × List Nat) υ := fun timer _ c s =>
  .ok ((c.1.erase timer, c.2 ++ [timer]), s)

def step : World υ → Op υ → Except Fault (World υ)
  | (c, s), .new expire userData =>
    .ok (c, { s with heap := s.heap.alloc ⟨expire, userData, none, none⟩ })
  | (c, s), .add timer =>
    if timer ∉ c.listed ∧ s.heap.links timer = some (none, none) then do
      let s ← addTimer s (some timer)
      return ({ c with listed := timer :: c.listed }, s)
    else .error .contract
  | (c, s), .adjust timer expire =>
    if timer ∈ c.listed ∧ key s.heap timer ≤ expire then do
      let heap ← s.heap.modify (some timer) (setExpire expire)
      let s ← adjustTimer { s with heap := heap } (some timer)
      return (c, s)
    else .error .contract
  | (c, s), .del timer =>
    if timer ∈ c.listed then do
      let s ← delTimer s (some timer)
      return ({ c with listed := c.listed.erase timer }, s)
    else .error .contract
  | (c, s), .tick cur => do
    let ((listed, firing), s) ← tick callback cur (c.listed, []) s
    return (⟨listed, c.fired ++ [firing]⟩, s)

/-- The list holds exactly the timers on the books, in order. -/
structure Sound (world : World υ) (l : List Nat) : Prop where
  repr : Repr world.2 l
  perm : l.Perm world.1.listed
  inOrder : InOrder (key world.2.heap) l

theorem sound_init : Sound (World.init (υ := υ)) [] :=
  ⟨repr_init, List.Perm.refl _, List.Pairwise.nil⟩

section Steps
variable {c : Client} {s : SortTimeList υ} {l : List Nat}

theorem add_sound {t : Nat} (w : Sound (c, s) l) :
    Safe (step (c, s) (.add t)) fun w' => ∃ l', Sound w' l' := by
  simp only [step]
  split
  next h =>
    obtain ⟨hnot, hlinks⟩ := h
    obtain ⟨v, hv, hprev, hnext⟩ := s.heap.cell_of_links hlinks
    have absent : t ∉ l := fun hm => hnot (w.perm.mem_iff.mp hm)
    obtain ⟨s', he, r', hs⟩ := addTimer_spec w.repr absent hv hprev hnext
    rw [he]
    refine ⟨_, r', ?_, ?_⟩
    · exact (insertByKey_perm _ t l).trans (w.perm.cons t)
    · exact w.inOrder.insert.congr fun a _ => key_congr (by rw [hs.data])
  next => simp

theorem adjust_sound {t : Nat} {expire : Int} (w : Sound (c, s) l) :
    Safe (step (c, s) (.adjust t expire)) fun w' => ∃ l', Sound w' l' := by
  simp only [step]
  split
  next h =>
    obtain ⟨hmem, hle⟩ := h
    obtain ⟨xs, ys, rfl⟩ := List.append_of_mem (w.perm.mem_iff.mpr hmem)
    have live := w.repr.isSome (a := t) (by simp)
    have absent := w.repr.chain.not_mem_of_mid
    rw [Heap.modify_some _ _ live, ok_bind]
    obtain ⟨s', he, r', hkey, -⟩ := adjustTimer_setExpire w.repr expire
    rw [he]
    obtain ⟨hplace, hrest⟩ := w.inOrder.raise absent hle
    refine ⟨_, r', ?_, ?_⟩
    · refine List.Perm.trans ?_ w.perm
      exact (insertByKey_perm _ t ys).append_left xs
    · rw [hplace, hkey]
      exact hrest.insert
  next => simp

theorem del_sound {t : Nat} (w : Sound (c, s) l) :
    Safe (step (c, s) (.del t)) fun w' => ∃ l', Sound w' l' := by
  simp only [step]
  split
  next hmem =>
    obtain ⟨xs, ys, rfl⟩ := List.append_of_mem (w.perm.mem_iff.mpr hmem)
    obtain ⟨s', he, r', -, hdata, -⟩ := delTimer_spec w.repr
    rw [he]
    refine ⟨_, r', ?_, ?_⟩
    · have h : (t :: (xs ++ ys)).Perm (t :: c.listed.erase t) :=
        List.perm_middle.symm.trans (w.perm.trans (List.perm_cons_erase hmem))
      exact h.cons_inv
    · have hold : InOrder (key s.heap) (xs ++ ys) :=
        w.inOrder.sublist ((List.sublist_cons_self t ys).append_left xs)
      apply hold.congr
      intro a ha
      exact key_congr (hdata a (w.repr.of_mem_rest ha).1)
  next => simp

theorem new_sound {expire : Int} {userData : υ} (w : Sound (c, s) l) :
    Safe (step (c, s) (.new expire userData)) fun w' => Sound w' l := by
  obtain ⟨r', hkey⟩ := w.repr.alloc ⟨expire, userData, none, none⟩
  exact ⟨r', w.perm, w.inOrder.congr hkey⟩

theorem foldl_callback (ps : List Nat) (b : List Nat × List Nat) :
    ps.foldl (fun b a => (b.1.erase a, b.2 ++ [a])) b = (ps.foldl List.erase b.1, b.2 ++ ps) := by
  induction ps generalizing b with
  | nil => simp
  | cons a ps ih => simp [ih]

theorem perm_foldl_erase {ps ys L : List Nat} (h : (ps ++ ys).Perm L) :
    ys.Perm (ps.foldl List.erase L) := by
  induction ps generalizing L with
  | nil => exact h
  | cons a ps ih =>
    refine ih (List.Perm.cons_inv (a := a) (h.trans (List.perm_cons_erase ?_)))
    exact h.mem_iff.mp (by simp)

/-- A tick fires the expired prefix, in order, and nothing else. -/
theorem tick_sound {cur : Int} (w : Sound (c, s) l) :
    Total (step (c, s) (.tick cur)) fun w' =>
      Sound w' (l.dropWhile (due s.heap cur)) ∧
      w'.1.fired = c.fired ++ [l.takeWhile (due s.heap cur)] ∧
      ∀ a ∈ l.dropWhile (due s.heap cur), w'.2.heap.data a = s.heap.data a := by
  refine (tick_exact (f := fun a b => (b.1.erase a, b.2 ++ [a])) (c := (c.listed, []))
    (fun _ _ _ _ => rfl) w.repr).bind ?_
  rintro ⟨⟨listed, firing⟩, s'⟩ ⟨hc, r', -, hdata⟩
  rw [foldl_callback] at hc
  simp only [List.nil_append, Prod.mk.injEq] at hc
  obtain ⟨rfl, rfl⟩ := hc
  have hsplit : l.takeWhile (due s.heap cur) ++ l.dropWhile (due s.heap cur) = l :=
    List.takeWhile_append_dropWhile
  have hkept : ∀ a ∈ l.dropWhile (due s.heap cur), s'.heap.data a = s.heap.data a := by
    intro a ha
    rw [hdata, if_neg]
    intro hb
    have hnd := w.repr.chain.nodup
    rw [← hsplit] at hnd
    exact (List.nodup_append.mp hnd).2.2 a hb a ha rfl
  refine ⟨⟨r', ?_, ?_⟩, rfl, hkept⟩
  · exact perm_foldl_erase (by rw [hsplit]; exact w.perm)
  · exact (w.inOrder.dropWhile _).congr fun a ha => key_congr (hkept a ha)

end Steps

/-- Every operation of the client leaves a sorted list of exactly its timers. -/
theorem step_sound (world : World υ) (op : Op υ) (h : ∃ l, Sound world l) :
    Safe (step world op) fun w' => ∃ l', Sound w' l' := by
  obtain ⟨c, s⟩ := world
  obtain ⟨l, w⟩ := h
  cases op with
  | new expire userData => exact (new_sound w).mono fun _ h => ⟨l, h⟩
  | add timer => exact add_sound w
  | adjust timer expire => exact adjust_sound w
  | del timer => exact del_sound w
  | tick cur => exact (tick_sound w).safe.mono fun _ h => ⟨_, h.1⟩

theorem run_sound (ops : List (Op υ)) : Safe (run step World.init ops) fun w => ∃ l, Sound w l :=
  run_ends step step_sound ⟨[], sound_init⟩ ops

end LinuxDemo.Invariant.TimerList
