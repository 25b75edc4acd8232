import LinuxDemo.Invariant.TimerList

/-!
# Adjusting a timer whose `expire` was changed

`adjust_timer` compares the timer with what stands behind it. If `expire` went up, the
place of the timer is there. If it went down nothing moves, and whether the list is still
in order is up to the timers in front.
-/
namespace LinuxDemo.Invariant.TimerList
open LinuxDemo.Lib LinkNode LinuxDemo.Source.ListTimer

variable {υ : Type}

/-- `timer->expire = expire; adjust_timer(timer);`, as users of the list write it. -/
def readjust (s : SortTimeList υ) (timer : Nat) (expire : Int) : Except Fault (SortTimeList υ) := do
  let heap ← s.heap.modify (some timer) (setExpire expire)
  adjustTimer { s with heap := heap } (some timer)

/-- Changing the key of a timer changes no link and no other key. -/
theorem Repr.setExpire {s : SortTimeList υ} {l : List Nat} (r : Repr s l) (t : Nat) (expire : Int) :
    Repr { s with heap := s.heap.adjust t (setExpire expire) } l := by
  have h : (s.heap.adjust t (Source.ListTimer.setExpire expire)).links = s.heap.links :=
    s.heap.links_adjust t _ (fun _ => rfl) fun _ => rfl
  exact ⟨by simpa only [h] using r.chain, r.tail_eq⟩

theorem key_setExpire (h : Heap (UtilTimer υ)) {t : Nat} (expire : Int) (live : (h.cell t).isSome) :
    key (h.adjust t (setExpire expire)) = Function.update (key h) t expire := by
  obtain ⟨v, hv⟩ := Option.isSome_iff_exists.mp live
  funext a
  by_cases e : a = t
  · subst e
    simp [key, Heap.data, hv, LinkNode.data, setExpire]
  · simp [key, Heap.data, Heap.cell_adjust_ne _ _ e, Function.update_of_ne e]

section Adjust
variable {s : SortTimeList υ} {xs ys : List Nat} {t : Nat}

/-- `adjust_timer` with the keys the list had before the change. -/
theorem adjustTimer_setExpire (r : Repr s (xs ++ t :: ys)) (expire : Int) :
    ∃ s', adjustTimer { s with heap := s.heap.adjust t (setExpire expire) } (some t) = .ok s' ∧
      Repr s' (xs ++ insertByKey (Function.update (key s.heap) t expire) t ys) ∧
      key s'.heap = Function.update (key s.heap) t expire ∧
      SameData { s with heap := s.heap.adjust t (setExpire expire) } s' := by
  obtain ⟨s', he, r', same⟩ := adjustTimer_spec (r.setExpire t expire)
  have hkey := key_setExpire s.heap expire (r.isSome (a := t) (by simp))
  refine ⟨s', he, ?_, (key_eq same.data).trans hkey, same⟩
  rwa [hkey] at r'

theorem readjust_spec (r : Repr s (xs ++ t :: ys)) (expire : Int) :
    ∃ s', readjust s t expire = .ok s' ∧
      Repr s' (xs ++ insertByKey (Function.update (key s.heap) t expire) t ys) ∧
      key s'.heap = Function.update (key s.heap) t expire := by
  obtain ⟨s', he, r', hkey, -⟩ := adjustTimer_setExpire r expire
  refine ⟨s', ?_, r', hkey⟩
  rw [readjust, Heap.modify_some _ _ (r.isSome (by simp)), ok_bind, he]

/-- A timer whose `expire` went up is put where the public `add_timer` would put it. -/
theorem readjust_raised (r : Repr s (xs ++ t :: ys)) (sorted : InOrder (key s.heap) (xs ++ t :: ys))
    {expire : Int} (later : key s.heap t ≤ expire) :
    ∃ s', readjust s t expire = .ok s' ∧
      Repr s' (insertByKey (Function.update (key s.heap) t expire) t (xs ++ ys)) ∧
      key s'.heap = Function.update (key s.heap) t expire ∧
      InOrder (key s'.heap) (insertByKey (Function.update (key s.heap) t expire) t (xs ++ ys)) := by
  obtain ⟨s', he, r', hkey⟩ := readjust_spec r expire
  obtain ⟨hplace, hrest⟩ := sorted.raise r.chain.not_mem_of_mid later
  rw [hplace] at r'
  exact ⟨s', he, r', hkey, hkey ▸ hrest.insert⟩

/-- A timer whose `expire` went down stays where it is. -/
theorem readjust_lowered (r : Repr s (xs ++ t :: ys)) (sorted : InOrder (key s.heap) (xs ++ t :: ys))
    {expire : Int} (earlier : expire < key s.heap t) :
    ∃ s', readjust s t expire = .ok s' ∧ Repr s' (xs ++ t :: ys) ∧
      (InOrder (key s'.heap) (xs ++ t :: ys) ↔ ∀ a ∈ xs, key s.heap a ≤ expire) := by
  obtain ⟨s', he, r', hkey⟩ := readjust_spec r expire
  rw [sorted.lower r.chain.not_mem_of_mid earlier] at r'
  refine ⟨s', he, r', ?_⟩
  rw [hkey]
  exact sorted.lower_iff r.chain.not_mem_of_mid earlier

end Adjust

theorem Repr.unique {s : SortTimeList υ} {l m : List Nat} (r : Repr s l) (r' : Repr s m) : l = m :=
  r.chain.unique r'.chain

/-- A callback that only notes which timer it was called for. -/
def note : Callback (List Nat) υ := fun timer _ fired s => .ok (fired ++ [timer], s)

theorem tick_note {s : SortTimeList υ} {l : List Nat} (r : Repr s l) (cur : Int) :
    Total (tick note cur [] s) fun (fired, _) => fired = l.takeWhile (due s.heap cur) := by
  refine (tick_exact (f := fun a fired => fired ++ [a]) (c := []) (fun _ _ _ _ => rfl) r).mono ?_
  rintro ⟨fired, s'⟩ ⟨hfired, -⟩
  have notes : ∀ ps qs : List Nat, ps.foldl (fun fired a => fired ++ [a]) qs = qs ++ ps := by
    intro ps
    induction ps with
    | nil => simp
    | cons a ps ih => simp [ih]
  rw [notes] at hfired
  exact hfired

/-- In a list in order, a tick fires everything that has expired. -/
theorem tick_note_of_inOrder {s : SortTimeList υ} {l : List Nat} (r : Repr s l)
    (sorted : InOrder (key s.heap) l) (cur : Int) :
    Total (tick note cur [] s) fun (fired, _) => ∀ a ∈ l, key s.heap a ≤ cur → a ∈ fired := by
  refine (tick_note r cur).mono ?_
  rintro ⟨fired, s'⟩ hfired a ha hdue
  have prefix_eq := sorted.takeWhile_eq_filter cur
  obtain rfl : fired = l.filter fun a => decide (key s.heap a ≤ cur) := hfired.trans prefix_eq
  exact List.mem_filter.mpr ⟨ha, decide_eq_true hdue⟩

end LinuxDemo.Invariant.TimerList
