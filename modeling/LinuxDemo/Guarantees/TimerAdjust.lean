import LinuxDemo.Invariant.TimerListAdjust

/-!
# Guarantees of `adjust_timer`

About any list in order, however it was built, and any timer on it. The change of
`expire` and the call that follows it are one operation here, `readjust`.
-/
namespace LinuxDemo.Guarantees.TimerAdjust
open LinuxDemo.Lib LinuxDemo.Source.ListTimer LinuxDemo.Invariant.TimerList

variable {υ : Type}

/-- A timer that is to expire no earlier than before ends up where taking it out and
inserting it again would put it: the others stay in their order, those up to its `expire`
in front of it and a later one, if any is left, right behind it; `tail` is the last timer.
The public `add_timer` gives a detached timer with this `expire` the same place among the
others. -/
theorem adjust_reinserts {s : SortTimeList υ} {l : List Nat} {t : Nat} {expire : Int}
    (wf : Repr s l) (sorted : InOrder (key s.heap) l) (listed : t ∈ l)
    (later : key s.heap t ≤ expire) :
    ∃ before after, l.erase t = before ++ after ∧ (∀ a ∈ before, key s.heap a ≤ expire) ∧
      (∀ a, after.head? = some a → expire < key s.heap a) ∧
      (Total (readjust s t expire) fun s' =>
        Repr s' (before ++ t :: after) ∧ s'.tail = (before ++ t :: after).getLast? ∧
          key s'.heap = Function.update (key s.heap) t expire ∧
          InOrder (key s'.heap) (before ++ t :: after)) ∧
      ∀ (s₁ : SortTimeList υ) (u : Nat), Repr s₁ (l.erase t) →
        (∀ a ∈ l.erase t, key s₁.heap a = key s.heap a) → u ∉ l.erase t →
        s₁.heap.links u = some (none, none) → key s₁.heap u = expire →
        Total (addTimer s₁ (some u)) fun s' => Repr s' (before ++ u :: after) := by
  obtain ⟨xs, ys, rfl⟩ := List.append_of_mem listed
  have absent := wf.chain.not_mem_of_mid
  rw [wf.chain.erase_mid]
  let upTo : Nat → Bool := fun a => decide (key s.heap a ≤ expire)
  have hsplit : (xs ++ ys).takeWhile upTo ++ (xs ++ ys).dropWhile upTo = xs ++ ys :=
    List.takeWhile_append_dropWhile
  have hbefore : ∀ a ∈ (xs ++ ys).takeWhile upTo, key s.heap a ≤ expire := by
    intro a ha
    simpa [upTo] using List.mem_takeWhile_imp ha
  have hafter : ∀ a, ((xs ++ ys).dropWhile upTo).head? = some a → expire < key s.heap a := by
    intro a ha
    have stop := List.head?_dropWhile_not upTo (xs ++ ys)
    rw [ha] at stop
    simpa [upTo] using stop
  -- every insertion by a key that agrees on these timers uses the same two parts
  have place : ∀ (k : Nat → Int) (u : Nat), (∀ a ∈ xs ++ ys, k a = key s.heap a) → k u = expire →
      insertByKey k u (xs ++ ys) =
        (xs ++ ys).takeWhile upTo ++ u :: (xs ++ ys).dropWhile upTo := by
    intro k u same hu
    have mem : ∀ a, a ∈ (xs ++ ys).takeWhile upTo ∨ a ∈ (xs ++ ys).dropWhile upTo → a ∈ xs ++ ys :=
      fun a ha => hsplit ▸ List.mem_append.mpr ha
    rw [← @insertByKey_of_split _ _ _ k u, hsplit]
    · intro a ha
      rw [same a (mem a (.inl ha)), hu]
      exact hbefore a ha
    · intro a ha
      rw [same a (mem a (.inr (List.mem_of_head? ha))), hu]
      exact hafter a ha
  refine ⟨_, _, hsplit.symm, hbefore, hafter, ?_, ?_⟩
  · obtain ⟨s', he, r', hkey, ordered⟩ := readjust_raised wf sorted later
    rw [place _ t (update_eq_of_mem absent) (Function.update_self ..)] at r' ordered
    rw [he]
    refine ⟨r', ?_, hkey, ordered⟩
    cases hlast : ((xs ++ ys).takeWhile upTo ++ t :: (xs ++ ys).dropWhile upTo).getLast? with
    | none => simp at hlast
    | some a => exact r'.tail_eq a hlast
  · intro s₁ u r₁ same hu detached hexp
    obtain ⟨v, hv, hprev, hnext⟩ := s₁.heap.cell_of_links detached
    obtain ⟨s', he, r', -⟩ := addTimer_spec r₁ hu hv hprev hnext
    rw [place _ u same hexp] at r'
    rw [he]
    exact r'

/-- The two timers 0 and 1, expiring at 5 and 7. -/
def twoTimers : SortTimeList Unit where
  heap := (Heap.empty.alloc ⟨5, (), none, some 1⟩).alloc ⟨7, (), some 0, none⟩
  head := some 0
  tail := some 1

theorem twoTimers_repr : Repr twoTimers [0, 1] := by
  refine ⟨⟨rfl, by decide, rfl, rfl, trivial⟩, ?_⟩
  intro a ha
  exact ha

/-- Timer 0 put off until 7 goes behind timer 1, which expires at 7 as well. -/
theorem tie_goes_behind :
    ∃ before after, [0, 1].erase 0 = before ++ after ∧
      (∀ a ∈ before, key twoTimers.heap a ≤ 7) ∧
      (∀ a, after.head? = some a → 7 < key twoTimers.heap a) ∧
      (Total (readjust twoTimers 0 7) fun s' =>
        Repr s' (before ++ 0 :: after) ∧ s'.tail = (before ++ 0 :: after).getLast? ∧
          key s'.heap = Function.update (key twoTimers.heap) 0 7 ∧
          InOrder (key s'.heap) (before ++ 0 :: after)) ∧
      ∀ (s₁ : SortTimeList Unit) (u : Nat), Repr s₁ ([0, 1].erase 0) →
        (∀ a ∈ [0, 1].erase 0, key s₁.heap a = key twoTimers.heap a) → u ∉ [0, 1].erase 0 →
        s₁.heap.links u = some (none, none) → key s₁.heap u = 7 →
        Total (addTimer s₁ (some u)) fun s' => Repr s' (before ++ u :: after) :=
  adjust_reinserts twoTimers_repr (by unfold InOrder; decide) (by decide) (by decide)

/-- A timer that is to expire earlier than before is left where it stands. The list is in
order afterwards, with the same timers, and every later tick fires all that have expired,
exactly if no timer in front of it expires after the new time. -/
theorem lowered_adjust_iff {s : SortTimeList υ} {xs ys : List Nat} {t : Nat} {expire : Int}
    (wf : Repr s (xs ++ t :: ys)) (sorted : InOrder (key s.heap) (xs ++ t :: ys))
    (earlier : expire < key s.heap t) :
    Total (readjust s t expire) fun s' =>
      (∃ l, Repr s' l ∧ l.Perm (xs ++ t :: ys) ∧ InOrder (key s'.heap) l ∧
        ∀ cur, Total (tick note cur [] s') fun (fired, _) =>
          ∀ a ∈ l, key s'.heap a ≤ cur → a ∈ fired) ↔
      ∀ a ∈ xs, key s.heap a ≤ expire := by
  obtain ⟨s', he, r', ordered⟩ := readjust_lowered wf sorted earlier
  rw [he]
  refine (Ends.ok_iff _ _).mpr ⟨?_, ?_⟩
  · rintro ⟨l, r, -, hl, -⟩
    obtain rfl := r.unique r'
    exact ordered.mp hl
  · intro front
    have hl := ordered.mpr front
    exact ⟨_, r', List.Perm.refl _, hl, fun cur => tick_note_of_inOrder r' hl cur⟩

/-- Timer 1 may be brought forward from 7 to 6, timer 0 expiring at 5. -/
theorem last_brought_forward :
    Total (readjust twoTimers 1 6) fun s' =>
      (∃ l, Repr s' l ∧ l.Perm ([0] ++ 1 :: []) ∧ InOrder (key s'.heap) l ∧
        ∀ cur, Total (tick note cur [] s') fun (fired, _) =>
          ∀ a ∈ l, key s'.heap a ≤ cur → a ∈ fired) ↔
      ∀ a ∈ [0], key twoTimers.heap a ≤ 6 :=
  @lowered_adjust_iff Unit twoTimers [0] [] 1 6 twoTimers_repr (by unfold InOrder; decide) (by decide)

/-- Brought forward to 2 it stays behind timer 0: the tick at 3 finds it expired and does
not fire it. -/
theorem brought_forward_is_missed :
    Repr twoTimers [0, 1] ∧ InOrder (key twoTimers.heap) [0, 1] ∧ 2 < key twoTimers.heap 1 ∧
      ∃ s', readjust twoTimers 1 2 = .ok s' ∧ Repr s' [0, 1] ∧ key s'.heap 1 ≤ 3 ∧
        ¬ InOrder (key s'.heap) [0, 1] ∧ ∃ s'', tick note 3 [] s' = .ok ([], s'') :=
  ⟨twoTimers_repr, by unfold InOrder; decide, by decide, _, rfl,
    ⟨⟨rfl, by decide, rfl, rfl, trivial⟩, fun a ha => ha⟩, by decide, by unfold InOrder; decide, _, rfl⟩

end LinuxDemo.Guarantees.TimerAdjust
