import LinuxDemo.Invariant.KeepliveRun

/-!
# What becomes of a batch

The events a batch is handled by, in order, and the two ways in which input that was
reported can be left behind: a client is read once, whatever there is, and EAGAIN leaves
the batch.
-/
namespace LinuxDemo.Invariant.Keeplive
open LinuxDemo.Lib LinuxDemo.Source.AlarmKeeplive

/-- One round of the loop over `events`. -/
def handlesEvent : Op → Bool
  | .accept _ _ | .signals | .recv _ | .other => true
  | _ => false

/-- The event that is handled, and how. -/
def handling (s : Server) (op : Op) : List (Event × Op) :=
  match s.phase with
  | .batch (e :: _) => if handlesEvent op then [(e, op)] else []
  | _ => []

/-- The events handled in a run. -/
def handled (env : Env) (s : Server) : List Op → List (Event × Op)
  | [] => []
  | op :: ops =>
    match step env s op with
    | .ok s' => handling s op ++ handled env s' ops
    | .error _ => []

/-- What the calls of `recv` for an event gave. -/
def recvs (e : Event) (log : List (Event × Op)) : List Recv :=
  log.filterMap fun entry =>
    match entry with
    | (e', .recv result) => if e' = e then some result else none
    | _ => none

/-- Every event of the batch was handled, and the last `recv` for each client gave EAGAIN, the
end of the stream or an error. -/
structure Complete (events : List Event) (log : List (Event × Op)) : Prop where
  handled : ∀ e ∈ events, ∃ op, (e, op) ∈ log
  drained : ∀ e result, (recvs e log).getLast? = some result →
    result = .again ∨ result = .eof ∨ result = .error

theorem recvs_eq_nil {e : Event} {log : List (Event × Op)} (h : e ∉ log.map Prod.fst) :
    recvs e log = [] := by
  rw [recvs, List.filterMap_eq_nil_iff]
  rintro ⟨e', op⟩ hmem
  have hne : e' ≠ e := fun same => h (same ▸ List.mem_map_of_mem hmem)
  cases op <;> simp [hne]

/-- An event that is handled once is read once at most. -/
theorem getLast?_recvs_eq_some_iff {log : List (Event × Op)} (once : (log.map Prod.fst).Nodup)
    (e : Event) (result : Recv) :
    (recvs e log).getLast? = some result ↔ (e, .recv result) ∈ log := by
  induction log with
  | nil => simp [recvs]
  | cons entry log ih =>
    obtain ⟨e', op⟩ := entry
    obtain ⟨new, once⟩ := List.nodup_cons.mp once
    by_cases same : e' = e
    · subst same
      have none := recvs_eq_nil new
      have other : ∀ op', (e', op') ∉ log := by
        intro op' hmem
        exact new (List.mem_map.mpr ⟨_, hmem, rfl⟩)
      cases op with
      | recv result' =>
        have one : recvs e' ((e', .recv result') :: log) = [result'] := by
          rw [recvs, List.filterMap_cons_some (b := result') (by simp), ← recvs, none]
        simp [one, other, eq_comm]
      | _ =>
        rw [recvs, List.filterMap_cons_none rfl, ← recvs, none]
        simp [other]
    · have skipped : recvs e ((e', op) :: log) = recvs e log := by
        refine List.filterMap_cons_none ?_
        cases op <;> simp [same]
      rw [skipped, ih once]
      simp [Ne.symm same]

theorem drained_iff {log : List (Event × Op)} (once : (log.map Prod.fst).Nodup) :
    (∀ e result, (recvs e log).getLast? = some result →
      result = .again ∨ result = .eof ∨ result = .error) ↔
      ∀ e cur, (e, .recv (.data cur)) ∉ log := by
  simp only [getLast?_recvs_eq_some_iff once]
  constructor
  · intro h e cur hmem
    simpa using h e _ hmem
  · intro h e result hmem
    cases result with
    | data cur => exact absurd hmem (h e cur)
    | again | eof | error => simp

/-- `recv` brings no data, and EAGAIN at the last event of a batch only. -/
def Whole (s : Server) : Op → Prop
  | .recv (.data _) => False
  | .recv .again => ∃ e, s.phase = .batch [e]
  | _ => True

/-- What is left of a batch behind an event. -/
def leaves (rest : List Event) : Op → List Event
  | .recv result => Recv.leaves rest result
  | _ => rest

section Steps
variable {env : Env} {s s' : Server} {op : Op} {ops : List Op} {rest : List Event}

/-- Inside of a batch: the kernel acts, or the next event is handled. -/
theorem step_batch (w : Sound env s) (h : s.phase = .batch rest) (hf : ∀ cur, op ≠ .finish cur) :
    Safe (step env s op) fun s' =>
      (handling s op = [] ∧ Whole s op ∧ s'.phase = .batch rest) ∨
      ∃ e rest', rest = e :: rest' ∧ handling s op = [(e, op)] ∧
        s'.phase = .batch (leaves rest' op) := by
  have quiet (hop : handlesEvent op = false) : handling s op = [] := by
    unfold handling
    split <;> simp [hop]
  have next {e : Event} {rest' : List Event} (hphase : s.phase = .batch (e :: rest'))
      (hop : handlesEvent op = true) : rest = e :: rest' ∧ handling s op = [(e, op)] := by
    constructor
    · rw [h] at hphase
      simpa using hphase
    · simp [handling, hphase, hop]
  have shape := step_shape env s op
  generalize step env s op = x at shape ⊢
  cases shape with
  | expire | killAlrm | killTerm | deliverAlrm | deliverTerm =>
    exact .inl ⟨quiet rfl, trivial, h⟩
  | wait _ phase | waitFails phase =>
    rw [h] at phase
    cases phase
  | @accept e rest' _ _ phase _ apart free =>
    obtain ⟨hrest, hlog⟩ := next phase rfl
    refine (accept_spec w phase apart free).safe.mono fun s' hs' => ?_
    exact .inr ⟨e, rest', hrest, hlog, hs'.2.2⟩
  | @signals e rest' phase =>
    obtain ⟨hrest, hlog⟩ := next phase rfl
    exact .inr ⟨e, rest', hrest, hlog, rfl⟩
  | @recv e rest' result phase client =>
    obtain ⟨hrest, hlog⟩ := next phase rfl
    refine (recv_spec w phase client.1 client.2).safe.mono fun s' hs' => ?_
    exact .inr ⟨e, rest', hrest, hlog, hs'.2.2⟩
  | @other e rest' phase =>
    obtain ⟨hrest, hlog⟩ := next phase rfl
    exact .inr ⟨e, rest', hrest, hlog, rfl⟩
  | finish cur => exact absurd rfl (hf cur)
  | impossible => rfl

/-- The events are handled in the order of the batch as far as it goes, and all of them
without data left behind exactly if the batch is whole. -/
theorem handled_spec (w : Sound env s) (h : s.phase = .batch rest)
    (hf : ∀ cur, .finish cur ∉ ops) (hrun : run (step env) s ops = .ok s')
    (hend : s'.phase = .batch []) :
    (handled env s ops).map Prod.fst <+: rest ∧
      ((handled env s ops).map Prod.fst = rest ∧
          (∀ e cur, (e, .recv (.data cur)) ∉ handled env s ops) ↔
        Along (step env) Whole s ops) := by
  induction ops generalizing s rest with
  | nil =>
    obtain rfl : s = s' := by simpa using hrun
    obtain rfl : rest = [] := by
      rw [h] at hend
      simpa using hend
    simp [handled, Along]
  | cons op ops ih =>
    obtain ⟨s₁, h₁, hrest⟩ := (bind_eq_ok_iff _ _ _).mp hrun
    have hop : ∀ cur, op ≠ .finish cur := by
      intro cur hcur
      exact hf cur (by simp [hcur])
    have hops : ∀ cur, .finish cur ∉ ops := fun cur hmem => hf cur (List.mem_cons_of_mem _ hmem)
    have w₁ : Sound env s₁ := (step_sound env s op w).of_ok h₁
    have hlog : handled env s (op :: ops) = handling s op ++ handled env s₁ ops := by
      simp [handled, h₁]
    have halong : Along (step env) Whole s (op :: ops) ↔
        Whole s op ∧ Along (step env) Whole s₁ ops := by simp [Along, h₁]
    rw [hlog, halong]
    obtain ⟨hnone, hwhole, hphase⟩ | ⟨e, rest', rfl, hone, hphase⟩ :=
      (step_batch w h hop).of_ok h₁
    · obtain ⟨hpre, hiff⟩ := ih w₁ hphase hops hrest
      simp [hnone, hwhole, hpre, hiff]
    · obtain ⟨hpre, hiff⟩ := ih w₁ hphase hops hrest
      rw [hone, ← hiff]
      cases op with
      | recv result =>
        cases result with
        | data cur =>
          simp only [leaves, Recv.leaves] at hpre ⊢
          refine ⟨by simpa using hpre, fun hall => ?_, fun hall => hall.1.elim⟩
          exact absurd List.mem_cons_self (hall.2 e cur)
        | again =>
          simp only [leaves, Recv.leaves, List.prefix_nil, List.map_eq_nil_iff] at hpre
          simp [hpre, Whole, h, leaves, Recv.leaves, eq_comm]
        | eof =>
          simp only [leaves, Recv.leaves] at hpre ⊢
          simp [hpre, Whole]
        | error =>
          simp only [leaves, Recv.leaves] at hpre ⊢
          simp [hpre, Whole]
      | _ =>
        simp only [leaves] at hpre ⊢
        simp [hpre, Whole]

/-- A prefix of a list without repetitions that has all its members is the list. -/
theorem handled_all_iff (hpre : (handled env s ops).map Prod.fst <+: rest) (hnodup : rest.Nodup) :
    (∀ e ∈ rest, ∃ op, (e, op) ∈ handled env s ops) ↔
      (handled env s ops).map Prod.fst = rest := by
  constructor
  · intro hall
    refine hpre.eq_of_length_le (List.Nodup.length_le_of_subset hnodup fun e he => ?_)
    obtain ⟨op, hop⟩ := hall e he
    exact List.mem_map_of_mem hop
  · rintro rfl e he
    obtain ⟨⟨e, op⟩, hop, rfl⟩ := List.mem_map.mp he
    exact ⟨op, hop⟩

/-- From one call of `epoll_wait` to where the loop is about to make the next. -/
theorem complete_iff {events : List Event} (w : Sound env s)
    (hf : ∀ cur, .finish cur ∉ ops)
    (hrun : run (step env) s (.wait events :: ops) = .ok s') (hend : s'.phase = .batch []) :
    Complete events (handled env s (.wait events :: ops)) ↔
      Along (step env) Whole s (.wait events :: ops) := by
  obtain ⟨s₁, h₁, hrest⟩ := (bind_eq_ok_iff _ _ _).mp hrun
  have w₁ : Sound env s₁ := (step_sound env s _ w).of_ok h₁
  have hlog : handled env s (.wait events :: ops) = handled env s₁ ops := by
    simp only [handled, h₁, handling, handlesEvent]
    split <;> rfl
  have halong : Along (step env) Whole s (.wait events :: ops) ↔
      Along (step env) Whole s₁ ops := by simp [Along, h₁, Whole]
  simp only [step] at h₁
  split at h₁
  next hw =>
    have hphase : s₁.phase = .batch events := by
      rw [← Except.ok.inj h₁]
    have hnodup : events.Nodup := List.Nodup.of_map _ hw.2.2.1
    obtain ⟨hpre, hiff⟩ := handled_spec w₁ hphase hf hrest hend
    have once : ((handled env s₁ ops).map Prod.fst).Nodup := hnodup.sublist hpre.sublist
    rw [hlog, halong, ← hiff, ← handled_all_iff hpre hnodup, ← drained_iff once]
    exact ⟨fun h => ⟨h.handled, h.drained⟩, fun h => ⟨h.1, h.2⟩⟩
  next => cases h₁

end Steps
end LinuxDemo.Invariant.Keeplive
