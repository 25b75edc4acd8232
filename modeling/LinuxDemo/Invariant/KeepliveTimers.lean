import LinuxDemo.Invariant.TimerListRun
import LinuxDemo.Source.AlarmKeeplive

/-!
# Timers and connections of the keep-alive server

`Matched` ties the timer list, the `users` array and the descriptor table of the kernel
together: the listed timers are those of the open connections. It does not depend on the
clock. `Timely` is what holds besides as long as the readings of the clock do not
decrease: the list is in the order of the last activity.
-/
namespace LinuxDemo.Invariant.Keeplive
open LinuxDemo.Lib LinkNode LinuxDemo.Source.ListTimer LinuxDemo.Source.AlarmKeeplive
open LinuxDemo.Invariant.TimerList hiding callback Op step

/-- The listed timers and the open connections belong to each other. -/
structure Matched (list : SortTimeList Nat) (users : Nat → Option ClientData)
    (conns : Nat → Option Nat) (r : Record) (l : List Nat) : Prop where
  repr : Repr list l
  listed : ∀ t ∈ l, ∃ fd,
    list.heap.data t = some (r.activity (r.madeFor t) + 3 * TIMESLOT, fd) ∧
      users fd = some ⟨fd, some t⟩ ∧ conns fd = some (r.madeFor t)
  opened : ∀ fd k, conns fd = some k → ∃ t ∈ l, users fd = some ⟨fd, some t⟩ ∧ r.madeFor t = k
  distinct : ∀ fd fd' k, conns fd = some k → conns fd' = some k → fd = fd'

/-- The list is in the order of the last activity, and every `expire` comes from a reading. -/
structure Timely (list : SortTimeList Nat) (r : Record) (l : List Nat) : Prop where
  byTurn : l.Pairwise fun a b => r.turn (r.madeFor a) < r.turn (r.madeFor b)
  recent : ∀ t ∈ l, r.turn (r.madeFor t) < r.turns
  inOrder : InOrder (key list.heap) l
  read : ∀ t ∈ l, r.activity (r.madeFor t) ∈ r.readings

section Matched
variable {list list' : SortTimeList Nat} {users : Nat → Option ClientData}
  {conns : Nat → Option Nat} {r r' : Record} {l l' xs ys : List Nat} {t fd k : Nat} {cur : Int}

theorem Matched.key_eq (w : Matched list users conns r l) (ht : t ∈ l) :
    key list.heap t = r.activity (r.madeFor t) + 3 * TIMESLOT := by
  obtain ⟨fd, hdata, -⟩ := w.listed t ht
  simp [key, hdata]

/-- A connection has one timer. -/
theorem Matched.eq_of_madeFor (w : Matched list users conns r l) {a b : Nat} (ha : a ∈ l)
    (hb : b ∈ l) (h : r.madeFor a = r.madeFor b) : a = b := by
  obtain ⟨fd, -, hua, hca⟩ := w.listed a ha
  obtain ⟨fd', -, hub, hcb⟩ := w.listed b hb
  obtain rfl := w.distinct fd fd' _ hca (h ▸ hcb)
  rw [hua] at hub
  simpa using hub

/-- The entry of an open connection in `users` names its listed timer. -/
theorem Matched.timer_of_open (w : Matched list users conns r l) (hc : conns fd = some k) :
    ∃ t ∈ l, users fd = some ⟨fd, some t⟩ ∧ r.madeFor t = k ∧
      list.heap.data t = some (r.activity k + 3 * TIMESLOT, fd) := by
  obtain ⟨t, ht, hu, hk⟩ := w.opened fd k hc
  obtain ⟨fd', hdata, hu', hc'⟩ := w.listed t ht
  obtain rfl := w.distinct fd fd' k hc (hk ▸ hc')
  exact ⟨t, ht, hu, hk, hk ▸ hdata⟩

/-- Closing a connection and taking its timer off the list go together. -/
theorem Matched.remove (w : Matched list users conns r (xs ++ t :: ys))
    (hu : users fd = some ⟨fd, some t⟩) (hc : conns fd = some (r.madeFor t))
    (hrepr : Repr list' (xs ++ ys))
    (hdata : ∀ a, a ≠ t → list'.heap.data a = list.heap.data a) :
    Matched list' users (Function.update conns fd none) r (xs ++ ys) := by
  constructor
  · exact hrepr
  · intro a ha
    obtain ⟨hne, hmem⟩ := w.repr.of_mem_rest ha
    obtain ⟨fd', hd, hu', hc'⟩ := w.listed a hmem
    have hfd : fd' ≠ fd := by
      rintro rfl
      rw [hu] at hu'
      exact hne (by simpa using hu'.symm)
    exact ⟨fd', by rw [hdata a hne, hd], hu', by rw [Function.update_of_ne hfd, hc']⟩
  · intro fd' k hc'
    have hfd : fd' ≠ fd := by
      rintro rfl
      simp at hc'
    rw [Function.update_of_ne hfd] at hc'
    obtain ⟨a, ha, hu', hk⟩ := w.opened fd' k hc'
    refine ⟨a, ?_, hu', hk⟩
    have hne : a ≠ t := by
      rintro rfl
      exact hfd (w.distinct fd' fd k hc' (hk ▸ hc))
    simp only [List.mem_append, List.mem_cons] at ha ⊢
    tauto
  · intro fd₁ fd₂ k h₁ h₂
    have hne : ∀ f, Function.update conns fd none f = some k → f ≠ fd := by
      rintro f hf rfl
      simp at hf
    rw [Function.update_of_ne (hne fd₁ h₁)] at h₁
    rw [Function.update_of_ne (hne fd₂ h₂)] at h₂
    exact w.distinct fd₁ fd₂ k h₁ h₂

/-- A new connection and its timer. -/
theorem Matched.accept (w : Matched list users conns r l) (hfree : conns fd = none)
    (hk : ∀ fd' k', conns fd' = some k' → k' ≠ k) (absent : t ∉ l) (hrepr : Repr list' l')
    (hperm : l'.Perm (t :: l)) (hdata : ∀ a ∈ l, list'.heap.data a = list.heap.data a)
    (hnew : list'.heap.data t = some (cur + 3 * TIMESLOT, fd)) :
    Matched list' (Function.update users fd (some ⟨fd, some t⟩))
      (Function.update conns fd (some k))
      { r.active k cur with madeFor := Function.update r.madeFor t k } l' := by
  have hold : ∀ a ∈ l, a ≠ t ∧ r.madeFor a ≠ k := by
    intro a ha
    obtain ⟨fd', -, -, hc⟩ := w.listed a ha
    exact ⟨fun e => absent (e ▸ ha), hk fd' _ hc⟩
  have hopen : ∀ fd', fd' ≠ fd → ∀ k', Function.update conns fd (some k) fd' = some k' →
      conns fd' = some k' ∧ k' ≠ k := by
    intro fd' hfd k' hc
    rw [Function.update_of_ne hfd] at hc
    exact ⟨hc, hk fd' k' hc⟩
  constructor
  · exact hrepr
  · intro a ha
    dsimp only [Record.active]
    rcases List.mem_cons.mp (hperm.mem_iff.mp ha) with rfl | ha
    · exact ⟨fd, by simp [hnew], by simp, by simp⟩
    · obtain ⟨fd', hd, hu, hc⟩ := w.listed a ha
      obtain ⟨hne, hmade⟩ := hold a ha
      have hfd : fd' ≠ fd := by
        rintro rfl
        rw [hfree] at hc
        cases hc
      refine ⟨fd', ?_, ?_, ?_⟩
      · rw [hdata a ha, hd, Function.update_of_ne hne, Function.update_of_ne hmade]
      · rw [Function.update_of_ne hfd, hu]
      · rw [Function.update_of_ne hfd, Function.update_of_ne hne, hc]
  · intro fd' k' hc
    dsimp only
    by_cases hfd : fd' = fd
    · subst hfd
      obtain rfl : k = k' := by simpa using hc
      exact ⟨t, hperm.mem_iff.mpr List.mem_cons_self, by simp, by simp⟩
    · obtain ⟨a, ha, hu, hmade⟩ := w.opened fd' k' (hopen fd' hfd k' hc).1
      refine ⟨a, hperm.mem_iff.mpr (List.mem_cons_of_mem _ ha), ?_, ?_⟩
      · rw [Function.update_of_ne hfd, hu]
      · rw [Function.update_of_ne (hold a ha).1, hmade]
  · intro fd₁ fd₂ k' h₁ h₂
    by_cases e₁ : fd₁ = fd
    · subst e₁
      obtain rfl : k = k' := by simpa using h₁
      by_contra hne
      exact (hopen fd₂ (Ne.symm hne) _ h₂).2 rfl
    · obtain ⟨h₁, hne⟩ := hopen fd₁ e₁ k' h₁
      have e₂ : fd₂ ≠ fd := by
        rintro rfl
        exact hne (by simpa using h₂.symm)
      exact w.distinct fd₁ fd₂ k' h₁ (hopen fd₂ e₂ k' h₂).1

/-- Activity on an open connection and its timer. -/
theorem Matched.touch (w : Matched list users conns r l) (ht : t ∈ l) (hrepr : Repr list' l')
    (hperm : l'.Perm l) (hdata : ∀ a ∈ l, a ≠ t → list'.heap.data a = list.heap.data a)
    (hold : list.heap.data t = some (r.activity (r.madeFor t) + 3 * TIMESLOT, fd))
    (hnew : list'.heap.data t = some (cur + 3 * TIMESLOT, fd)) :
    Matched list' users conns (r.active (r.madeFor t) cur) l' := by
  constructor
  · exact hrepr
  · intro a ha
    have ha := hperm.mem_iff.mp ha
    obtain ⟨fd', hd, hu, hc⟩ := w.listed a ha
    dsimp only [Record.active]
    by_cases e : a = t
    · subst e
      rw [hold] at hd
      obtain rfl : fd = fd' := by simpa using hd
      exact ⟨fd, by simp [hnew], hu, hc⟩
    · have hmade : r.madeFor a ≠ r.madeFor t := fun h => e (w.eq_of_madeFor ha ht h)
      exact ⟨fd', by rw [hdata a ha e, hd, Function.update_of_ne hmade], hu, hc⟩
  · intro fd' k hc
    obtain ⟨a, ha, hu, hk⟩ := w.opened fd' k hc
    exact ⟨a, hperm.mem_iff.mpr ha, hu, hk⟩
  · exact w.distinct

/-- The logs of the record do not matter. -/
theorem Matched.withRecord (w : Matched list users conns r l) (hmade : r'.madeFor = r.madeFor)
    (hactivity : r'.activity = r.activity) : Matched list users conns r' l := by
  constructor
  · exact w.repr
  · rw [hmade, hactivity]
    exact w.listed
  · rw [hmade]
    exact w.opened
  · exact w.distinct

theorem Timely.withRecord (h : Timely list r l) (hmade : r'.madeFor = r.madeFor)
    (hactivity : r'.activity = r.activity) (hturn : r'.turn = r.turn ∧ r'.turns = r.turns)
    (hread : ∀ c ∈ r.readings, c ∈ r'.readings) : Timely list r' l := by
  constructor
  · rw [hmade, hturn.1]
    exact h.byTurn
  · rw [hmade, hturn.1, hturn.2]
    exact h.recent
  · exact h.inOrder
  · rw [hmade, hactivity]
    exact fun t ht => hread _ (h.read t ht)

theorem Timely.sublist (h : Timely list r l) (hsub : l'.Sublist l)
    (hkey : ∀ a ∈ l', key list'.heap a = key list.heap a) : Timely list' r l' := by
  constructor
  · exact h.byTurn.sublist hsub
  · intro a ha
    exact h.recent a (hsub.subset ha)
  · have hold : InOrder (key list.heap) l' := h.inOrder.sublist hsub
    exact hold.congr hkey
  · intro a ha
    exact h.read a (hsub.subset ha)

/-- No timer expires behind the one of a connection that is active now. -/
theorem Timely.key_le (h : Timely list r l)
    (hkey : ∀ a ∈ l, key list.heap a = r.activity (r.madeFor a) + 3 * TIMESLOT)
    (hcur : ∀ c ∈ r.readings, c ≤ cur) (hkept : ∀ a ∈ l, list'.heap.data a = list.heap.data a)
    (hnew : list'.heap.data t = some (cur + 3 * TIMESLOT, fd)) :
    ∀ a ∈ l, key list'.heap a ≤ key list'.heap t := by
  intro a ha
  have hle := hcur _ (h.read a ha)
  rw [key_congr (hkept a ha), hkey a ha]
  simp only [key, hnew, Option.map_some, Option.getD_some]
  omega

/-- The timer of the connection active last belongs at the end of the list. -/
theorem Timely.concat (h : Timely list r l) (hother : ∀ a ∈ l, r'.madeFor a = r.madeFor a ∧ r.madeFor a ≠ k)
    (ht : r'.madeFor t = k) (hr : r'.activity = Function.update r.activity k cur ∧
      r'.turn = Function.update r.turn k r.turns ∧ r'.turns = r.turns + 1 ∧
      r'.readings = r.readings ++ [cur])
    (hkey : ∀ a ∈ l, key list'.heap a = key list.heap a)
    (hlast : ∀ a ∈ l, key list'.heap a ≤ key list'.heap t) : Timely list' r' (l ++ [t]) := by
  obtain ⟨hactivity, hturn, hturns, hreadings⟩ := hr
  have hold : ∀ a ∈ l, r'.turn (r'.madeFor a) = r.turn (r.madeFor a) ∧
      r'.activity (r'.madeFor a) = r.activity (r.madeFor a) := by
    intro a ha
    obtain ⟨hm, hne⟩ := hother a ha
    rw [hm, hturn, hactivity, Function.update_of_ne hne, Function.update_of_ne hne]
    exact ⟨rfl, rfl⟩
  have hnew : r'.turn (r'.madeFor t) = r.turns ∧ r'.activity (r'.madeFor t) = cur := by
    rw [ht, hturn, hactivity]
    simp
  constructor
  · rw [List.pairwise_append]
    refine ⟨?_, List.pairwise_singleton _ _, ?_⟩
    · apply h.byTurn.imp_of_mem
      intro a b ha hb hab
      rwa [(hold a ha).1, (hold b hb).1]
    · intro a ha b hb
      rw [List.mem_singleton.mp hb, (hold a ha).1, hnew.1]
      exact h.recent a ha
  · intro a ha
    rw [hturns]
    rcases List.mem_append.mp ha with ha | ha
    · rw [(hold a ha).1]
      exact Nat.lt_succ_of_lt (h.recent a ha)
    · rw [List.mem_singleton.mp ha, hnew.1]
      exact Nat.lt_succ_self _
  · refine List.pairwise_append.mpr ⟨h.inOrder.congr hkey, List.pairwise_singleton _ _, ?_⟩
    intro a ha b hb
    rw [List.mem_singleton.mp hb]
    exact hlast a ha
  · intro a ha
    rw [hreadings]
    rcases List.mem_append.mp ha with ha | ha
    · rw [(hold a ha).2]
      exact List.mem_append_left _ (h.read a ha)
    · rw [List.mem_singleton.mp ha, hnew.2]
      simp

end Matched

/-- A tick closes the connections whose last activity is at least three slots back, and no
others, in the order of their last activity. -/
def TickExact (k : Tick) : Prop :=
  ∃ closed : List Nat, k.closed.map Prod.snd = closed.map some ∧
    closed.Pairwise (fun a b => k.turn a < k.turn b) ∧
    ∀ c, c ∈ closed ↔ (∃ fd, k.conns fd = some c) ∧ k.activity c ≤ k.cur - 3 * TIMESLOT

/-- What the loop keeps about timers, connections and the record of both. -/
structure Timers (s : Server) : Prop where
  numbered : ∀ fd k, s.kernel.conns fd = some k → k < s.kernel.accepted
  matched : ∃ l, Matched s.timerList s.users s.kernel.conns s.record l ∧
    (s.record.readings.Pairwise (· ≤ ·) → Timely s.timerList s.record l)
  uses : ∀ u ∈ s.record.uses, u.timer < s.timerList.heap.fresh ∧
    (∃ l, Repr u.list l ∧ u.timer ∈ l) ∧ u.connection = some (s.record.madeFor u.timer)
  closings : ∀ k ∈ s.record.ticks, ∀ c ∈ k.closed, c.1 < s.timerList.heap.fresh ∧
    c.2 = some (s.record.madeFor c.1)
  exact : s.record.readings.Pairwise (· ≤ ·) → ∀ k ∈ s.record.ticks, TickExact k

theorem timers_init : Timers Server.init := by
  constructor
  · intro fd k h
    cases h
  · refine ⟨[], ⟨repr_init, by simp, ?_, ?_⟩, ?_⟩
    · intro fd k h
      cases h
    · intro fd fd' k h
      cases h
    · intro _
      exact ⟨List.Pairwise.nil, by simp, List.Pairwise.nil, by simp⟩
  · simp [Server.init]
  · simp [Server.init]
  · simp [Server.init]

/-- The clock has not gone back, up to a new reading. -/
theorem pairwise_concat_iff {l : List Int} {cur : Int} :
    (l ++ [cur]).Pairwise (· ≤ ·) ↔ l.Pairwise (· ≤ ·) ∧ ∀ c ∈ l, c ≤ cur := by
  simp [List.pairwise_append]

/-- Nothing that concerns the alarm and its way to the loop differs. -/
structure SameAlarm (s s' : Server) : Prop where
  armed : s'.kernel.armed = s.kernel.armed
  alrmPending : s'.kernel.alrmPending = s.kernel.alrmPending
  pipe : s'.kernel.pipe = s.kernel.pipe
  notified : s'.kernel.notified = s.kernel.notified
  timeout : s'.timeout = s.timeout
  stopServer : s'.stopServer = s.stopServer

/-- Where the batch stands is no part of it. -/
theorem SameAlarm.ofPhase {s s' : Server} {p : Phase} (h : SameAlarm { s with phase := p } s') :
    SameAlarm s s' :=
  ⟨h.armed, h.alrmPending, h.pipe, h.notified, h.timeout, h.stopServer⟩

section Operations
variable {s : Server} {fd k : Nat}

theorem cbFunc_eq (conns : Nat → Option Nat) (fd : Nat) (timer : Ptr) :
    cbFunc conns ⟨fd, timer⟩ = Function.update conns fd none := rfl

/-- Closing a descriptor opens none. -/
theorem open_of_closed {conns : Nat → Option Nat} {fd fd' k : Nat}
    (h : Function.update conns fd none fd' = some k) : fd' ≠ fd ∧ conns fd' = some k := by
  by_cases e : fd' = fd
  · simp [e] at h
  · rw [Function.update_of_ne e] at h
    exact ⟨e, h⟩

theorem acceptClient_spec (w : Timers s) (hfree : s.kernel.conns fd = none) (cur : Int) :
    ∃ s', acceptClient s fd cur = .ok s' ∧ Timers s' ∧ SameAlarm s s' ∧ s'.phase = s.phase ∧
      s'.kernel.conns = Function.update s.kernel.conns fd (some s.kernel.accepted) := by
  obtain ⟨l, wl, htimely⟩ := w.matched
  have hold : ∀ a ∈ l, a ≠ s.timerList.heap.fresh := by
    intro a ha
    obtain ⟨v, hv⟩ := Option.isSome_iff_exists.mp (wl.repr.isSome ha)
    exact s.timerList.heap.ne_fresh_of_cell hv
  have absent : s.timerList.heap.fresh ∉ l := fun h => hold _ h rfl
  have hnumber : ∀ fd' k, s.kernel.conns fd' = some k → k ≠ s.kernel.accepted := fun fd' k hc =>
    Nat.ne_of_lt (w.numbered fd' k hc)
  obtain ⟨list, he, hrepr, hdata, hfresh⟩ := addTimer_spec
    (wl.repr.alloc ⟨cur + 3 * TIMESLOT, fd, none, none⟩).1 absent (Heap.cell_alloc_self _ _) rfl rfl
  dsimp only at hrepr hdata hfresh
  have hkept : ∀ a ∈ l, list.heap.data a = s.timerList.heap.data a := by
    intro a ha
    rw [hdata, Heap.data_alloc_ne _ _ (hold a ha)]
  have hnew : list.heap.data s.timerList.heap.fresh = some (cur + 3 * TIMESLOT, fd) := by
    rw [hdata]
    simp [Heap.data, LinkNode.data]
  unfold acceptClient
  simp only [he, ok_bind, pure_ok]
  refine ⟨_, rfl, ?_, ⟨rfl, rfl, rfl, rfl, rfl, rfl⟩, rfl, rfl⟩
  constructor
  · intro fd' k hc
    dsimp only at hc ⊢
    by_cases e : fd' = fd
    · subst e
      rw [Function.update_self, Option.some.injEq] at hc
      omega
    · rw [Function.update_of_ne e] at hc
      exact Nat.lt_succ_of_lt (w.numbered fd' k hc)
  · refine ⟨_, wl.accept hfree hnumber absent hrepr (insertByKey_perm _ _ _) hkept hnew, ?_⟩
    intro hread
    obtain ⟨hread, hcur⟩ := pairwise_concat_iff.mp hread
    have ht := htimely hread
    have hlast := ht.key_le (fun a ha => wl.key_eq ha) hcur hkept hnew
    rw [← TimerList.key_eq hdata, insertByKey_of_le hlast]
    refine ht.concat (k := s.kernel.accepted) ?_ (Function.update_self _ _ _) ⟨rfl, rfl, rfl, rfl⟩
      (fun a ha => key_congr (hkept a ha)) hlast
    intro a ha
    obtain ⟨fd', -, -, hc⟩ := wl.listed a ha
    exact ⟨Function.update_of_ne (hold a ha) _ _, hnumber fd' _ hc⟩
  · intro u hu
    obtain ⟨hlt, hlist, hconn⟩ := w.uses u hu
    dsimp only
    rw [hfresh, Function.update_of_ne (Nat.ne_of_lt hlt)]
    exact ⟨Nat.lt_succ_of_lt hlt, hlist, hconn⟩
  · intro tk htk c hc
    obtain ⟨hlt, hconn⟩ := w.closings tk htk c hc
    dsimp only
    rw [hfresh, Function.update_of_ne (Nat.ne_of_lt hlt)]
    exact ⟨Nat.lt_succ_of_lt hlt, hconn⟩
  · intro hread
    exact w.exact (pairwise_concat_iff.mp hread).1

/-- A use of the timer of an open connection, which the record takes note of. -/
theorem Timers.use (w : Timers s) {l : List Nat} {t : Nat} {list : SortTimeList Nat}
    (hrepr : Repr list l) (ht : t ∈ l) (hlt : t < s.timerList.heap.fresh) :
    ∀ u ∈ s.record.uses ++ [⟨t, some (s.record.madeFor t), list⟩],
      u.timer < s.timerList.heap.fresh ∧ (∃ l, Repr u.list l ∧ u.timer ∈ l) ∧
        u.connection = some (s.record.madeFor u.timer) := by
  intro u hu
  rcases List.mem_append.mp hu with hu | hu
  · exact w.uses u hu
  · rw [List.mem_singleton.mp hu]
    exact ⟨hlt, ⟨l, hrepr, ht⟩, rfl⟩

theorem dropClient_spec (w : Timers s) (hc : s.kernel.conns fd = some k) :
    ∃ u, s.users fd = some u ∧ ∃ s', dropClient s fd u = .ok s' ∧ Timers s' ∧ SameAlarm s s' ∧
      s'.phase = s.phase ∧ s'.kernel.conns = Function.update s.kernel.conns fd none := by
  obtain ⟨l, wl, htimely⟩ := w.matched
  obtain ⟨t, ht, hu, rfl, -⟩ := wl.timer_of_open hc
  obtain ⟨v, hv⟩ := Option.isSome_iff_exists.mp (wl.repr.isSome ht)
  have hlt := s.timerList.heap.lt_fresh_of_cell hv
  have huse := w.use wl.repr ht hlt
  obtain ⟨xs, ys, rfl⟩ := List.append_of_mem ht
  obtain ⟨list, he, hrepr, hfresh, hdata, -⟩ := delTimer_spec wl.repr
  refine ⟨_, hu, ?_⟩
  simp only [dropClient, he, ok_bind, pure_ok, cbFunc_eq]
  refine ⟨_, rfl, ?_, ⟨rfl, rfl, rfl, rfl, rfl, rfl⟩, rfl, rfl⟩
  constructor
  · intro fd' k hc'
    exact w.numbered fd' k (open_of_closed hc').2
  · refine ⟨xs ++ ys, (wl.remove hu hc hrepr hdata).withRecord rfl rfl, ?_⟩
    intro hread
    refine ((htimely hread).sublist ((List.sublist_cons_self t ys).append_left xs) ?_).withRecord
      rfl rfl ⟨rfl, rfl⟩ fun _ hc => hc
    intro a ha
    exact key_congr (hdata a (wl.repr.of_mem_rest ha).1)
  · dsimp only
    rwa [hfresh, hc]
  · dsimp only
    rw [hfresh]
    exact w.closings
  · exact w.exact

theorem touchClient_spec (w : Timers s) (hc : s.kernel.conns fd = some k) (cur : Int) :
    ∃ u, s.users fd = some u ∧ ∃ s', touchClient s fd u cur = .ok s' ∧ Timers s' ∧
      SameAlarm s s' ∧ s'.phase = s.phase ∧ s'.kernel.conns = s.kernel.conns := by
  obtain ⟨l, wl, htimely⟩ := w.matched
  obtain ⟨t, ht, hu, rfl, hd⟩ := wl.timer_of_open hc
  have live := wl.repr.isSome ht
  obtain ⟨v, hv⟩ := Option.isSome_iff_exists.mp live
  have hlt := s.timerList.heap.lt_fresh_of_cell hv
  have hrepr := wl.repr.setExpire t (cur + 3 * TIMESLOT)
  have huse := w.use hrepr ht hlt
  obtain ⟨xs, ys, rfl⟩ := List.append_of_mem ht
  obtain ⟨list, he, hrepr', hdata, hfresh⟩ := adjustTimer_spec hrepr
  dsimp only at hrepr' hdata hfresh
  have hkept : ∀ a, a ≠ t → list.heap.data a = s.timerList.heap.data a := by
    intro a ha
    rw [hdata]
    simp [Heap.data, Heap.cell_adjust_ne _ _ ha]
  have hnew : list.heap.data t = some (cur + 3 * TIMESLOT, fd) := by
    rw [hdata]
    simp only [Heap.data, hv, Option.map_some, Option.some.injEq] at hd
    simp only [LinkNode.data, Prod.mk.injEq] at hd
    simp [Heap.data, hv, LinkNode.data, setExpire, hd.2]
  have hperm := (insertByKey_perm (key (s.timerList.heap.adjust t (setExpire (cur + 3 * TIMESLOT)))) t
    ys).append_left xs
  refine ⟨_, hu, ?_⟩
  simp only [touchClient, Heap.modify_some _ _ live, ok_bind, he, pure_ok, hc, Option.getD_some]
  refine ⟨_, rfl, ?_, ⟨rfl, rfl, rfl, rfl, rfl, rfl⟩, rfl, rfl⟩
  constructor
  · exact w.numbered
  · refine ⟨_, (wl.touch ht hrepr' hperm (fun a _ ha => hkept a ha) hd hnew).withRecord rfl rfl, ?_⟩
    intro hread
    obtain ⟨hread, hcur⟩ := pairwise_concat_iff.mp hread
    have hrest := (htimely hread).sublist ((List.sublist_cons_self t ys).append_left xs)
      fun a _ => rfl
    have hothers : ∀ a ∈ xs ++ ys, list.heap.data a = s.timerList.heap.data a := fun a ha =>
      hkept a (wl.repr.of_mem_rest ha).1
    have hlast := hrest.key_le (fun a ha => wl.key_eq (wl.repr.of_mem_rest ha).2) hcur hothers hnew
    have hend : insertByKey (key list.heap) t ys = ys ++ [t] :=
      insertByKey_of_le fun a ha => hlast a (List.mem_append_right _ ha)
    rw [← TimerList.key_eq hdata, hend, ← List.append_assoc]
    refine hrest.concat (k := s.record.madeFor t) ?_ rfl ⟨rfl, rfl, rfl, rfl⟩
      (fun a ha => key_congr (hothers a ha)) hlast
    intro a ha
    obtain ⟨hne, hmem⟩ := wl.repr.of_mem_rest ha
    exact ⟨rfl, fun h => hne (wl.eq_of_madeFor hmem ht h)⟩
  · dsimp only
    rw [hfresh]
    exact huse
  · dsimp only
    rw [hfresh]
    exact w.closings
  · intro hread
    exact w.exact (pairwise_concat_iff.mp hread).1

/-- What a tick has done when it stops in front of `ys`: it has fired `ps` and closed the
connection of each. -/
structure Fired (s : Server) (cur : Int) (conns : Nat → Option Nat)
    (closed : List (Nat × Option Nat)) (list : SortTimeList Nat) (l ps ys : List Nat) : Prop where
  split : l = ps ++ ys
  due : ∀ a ∈ ps, key s.timerList.heap a ≤ cur
  closed_eq : closed = ps.map fun a => (a, some (s.record.madeFor a))
  matched : Matched list s.users conns s.record ys
  fresh : list.heap.fresh = s.timerList.heap.fresh
  kept : ∀ a ∈ ys, list.heap.data a = s.timerList.heap.data a
  stillOpen : ∀ fd k, conns fd = some k → s.kernel.conns fd = some k

/-- One round of a tick. -/
theorem Fired.fire {cur : Int} {conns : Nat → Option Nat} {closed : List (Nat × Option Nat)}
    {list : SortTimeList Nat} {l ps ys : List Nat} {a u : Nat} {e : Int}
    (w : Fired s cur conns closed list l ps (a :: ys)) (r : Repr list (a :: ys))
    (hd : list.heap.data a = some (e, u)) (hdue : e ≤ cur) :
    ∃ c, callback s.users a u (conns, closed) list = .ok (c, list) ∧
      Fired s cur c.1 c.2 (popped list a ys) l (ps ++ [a]) ys := by
  obtain ⟨fd, hdata, hu, hc⟩ := w.matched.listed a List.mem_cons_self
  obtain rfl : fd = u := by
    rw [hd, Option.some.injEq, Prod.mk.injEq] at hdata
    exact hdata.2.symm
  refine ⟨(Function.update conns fd none, closed ++ [(a, conns fd)]), ?_, ?_⟩
  · simp only [callback, hu, cbFunc_eq]
  constructor
  · simp [w.split]
  · intro b hb
    rcases List.mem_append.mp hb with hb | hb
    · exact w.due b hb
    · rw [List.mem_singleton.mp hb, ← key_congr (w.kept a List.mem_cons_self)]
      simpa [key, hd] using hdue
  · rw [hc, w.closed_eq]
    simp
  · have hfront : Matched list s.users conns s.record ([] ++ a :: ys) := w.matched
    refine hfront.remove hu hc r.popped fun b hb => ?_
    rw [data_popped, Function.update_of_ne hb]
  · simpa [TimerList.popped] using w.fresh
  · intro b hb
    have hne : b ≠ a := by
      rintro rfl
      exact (List.nodup_cons.mp r.chain.nodup).1 hb
    rw [data_popped, Function.update_of_ne hne]
    exact w.kept b (List.mem_cons_of_mem _ hb)
  · intro fd' k h
    exact w.stillOpen fd' k (open_of_closed h).2

/-- In a list in order of the last activity, the tick has closed the right connections. -/
theorem Fired.exact {cur : Int} {conns : Nat → Option Nat} {closed : List (Nat × Option Nat)}
    {list : SortTimeList Nat} {l ps ys : List Nat} (w : Fired s cur conns closed list l ps ys)
    (wl : Matched s.timerList s.users s.kernel.conns s.record l)
    (ht : Timely s.timerList s.record l) (hstop : ∀ a, ys.head? = some a → cur < key list.heap a) :
    TickExact ⟨cur, closed, s.kernel.conns, s.record.activity, s.record.turn⟩ := by
  have hkey : ∀ a ∈ l, s.record.activity (s.record.madeFor a) ≤ cur - 3 * TIMESLOT ↔
      key s.timerList.heap a ≤ cur := by
    intro a ha
    rw [wl.key_eq ha]
    omega
  have horder := ht.inOrder
  rw [w.split] at horder
  have hlate : ∀ a ∈ ys, cur < key s.timerList.heap a := by
    apply InOrder.lt_of_head (List.pairwise_append.mp horder).2.1
    intro a ha
    rw [← key_congr (w.kept a (List.mem_of_head? ha))]
    exact hstop a ha
  refine ⟨ps.map s.record.madeFor, by simp [w.closed_eq], ?_, ?_⟩
  · have hturn := ht.byTurn
    rw [w.split] at hturn
    exact List.pairwise_map.mpr (List.pairwise_append.mp hturn).1
  · intro c
    simp only [List.mem_map]
    constructor
    · rintro ⟨a, ha, rfl⟩
      have hmem : a ∈ l := by simp [w.split, ha]
      obtain ⟨fd, -, -, hc⟩ := wl.listed a hmem
      exact ⟨⟨fd, hc⟩, (hkey a hmem).mpr (w.due a ha)⟩
    · rintro ⟨⟨fd, hc⟩, hidle⟩
      obtain ⟨a, ha, -, rfl⟩ := wl.opened fd c hc
      have hdue := (hkey a ha).mp hidle
      rw [w.split] at ha
      rcases List.mem_append.mp ha with ha | ha
      · exact ⟨a, ha, rfl⟩
      · have := hlate a ha
        omega

theorem timeHandler_spec (w : Timers s) (cur : Int) :
    Total (timeHandler s cur) fun s' => Timers s' ∧ s'.kernel.armed = true ∧
      s'.stopServer = s.stopServer ∧ s'.record.ticks.length = s.record.ticks.length + 1 ∧
      ∀ fd k, s'.kernel.conns fd = some k → s.kernel.conns fd = some k := by
  obtain ⟨l, wl, htimely⟩ := w.matched
  unfold timeHandler
  refine (tick_rule (fun c list ys => ∃ ps, Fired s cur c.1 c.2 list l ps ys) ?_ wl.repr
    ⟨[], ⟨rfl, by simp, rfl, wl, rfl, fun _ _ => rfl, fun _ _ h => h⟩⟩).bind ?_
  · rintro ⟨conns, closed⟩ list a ys e u r hd hdue ⟨ps, hw⟩
    obtain ⟨c, hcb, hw'⟩ := hw.fire r hd hdue
    rw [hcb]
    exact ⟨rfl, _, hw'⟩
  · rintro ⟨⟨conns, closed⟩, list⟩ ⟨ys, r, ⟨ps, hw⟩, hstop⟩
    dsimp only at hw
    have hread : ∀ readings : List Int, readings = (if s.timerList.head = none then
        s.record.readings else s.record.readings ++ [cur]) →
        readings.Pairwise (· ≤ ·) → s.record.readings.Pairwise (· ≤ ·) := by
      rintro _ rfl
      split
      next => exact id
      next => exact fun h => (pairwise_concat_iff.mp h).1
    refine ⟨?_, rfl, rfl, List.length_append, hw.stillOpen⟩
    constructor
    · intro fd k h
      exact w.numbered fd k (hw.stillOpen fd k h)
    · refine ⟨ys, hw.matched.withRecord rfl rfl, fun h => ?_⟩
      have hsub : ys.Sublist l := hw.split ▸ List.sublist_append_right ps ys
      refine ((htimely (hread _ rfl h)).sublist hsub fun a ha => key_congr (hw.kept a ha)).withRecord
        rfl rfl ⟨rfl, rfl⟩ fun c hc => ?_
      dsimp only
      split
      next => exact hc
      next => exact List.mem_append_left _ hc
    · dsimp only
      rw [hw.fresh]
      exact w.uses
    · intro tk htk c hc
      dsimp only at htk ⊢
      rw [hw.fresh]
      rcases List.mem_append.mp htk with htk | htk
      · exact w.closings tk htk c hc
      · rw [List.mem_singleton.mp htk, hw.closed_eq] at hc
        obtain ⟨a, ha, rfl⟩ := List.mem_map.mp hc
        obtain ⟨v, hv⟩ := Option.isSome_iff_exists.mp (wl.repr.isSome (a := a) (by simp [hw.split, ha]))
        exact ⟨s.timerList.heap.lt_fresh_of_cell hv, rfl⟩
    · intro h tk htk
      rcases List.mem_append.mp htk with htk | htk
      · exact w.exact (hread _ rfl h) tk htk
      · rw [List.mem_singleton.mp htk]
        exact hw.exact wl (htimely (hread _ rfl h)) hstop

end Operations

end LinuxDemo.Invariant.Keeplive
