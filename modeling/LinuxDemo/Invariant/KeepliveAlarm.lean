import LinuxDemo.Invariant.KeepliveRun

/-!
# The alarm and its way to the loop

The alarm goes off, its signal is handled, a byte goes through the socket pair, the event
of `pipefd[0]` is handled and `timeout` is set, and the tick behind the batch sets the next
alarm. `Chained` says that the alarm is always somewhere on this way. It is kept by every
step that passes the alarm on, which `Intact` asks of the three steps that may lose it.
-/
namespace LinuxDemo.Invariant.Keeplive
open LinuxDemo.Lib LinuxDemo.Source.AlarmKeeplive

/-- The alarm is armed or its signal is not yet handled, a byte for it is in the socket pair
with its notification, or `timeout` is set. -/
def Linked (s : Server) : Prop :=
  s.kernel.armed = true ∨ s.kernel.alrmPending = true ∨
    (14 ∈ s.kernel.pipe ∧ s.kernel.notified = true) ∨ s.timeout = true

/-- The step passes the alarm on: the handler of SIGALRM sends its number, a read of a
socket pair that holds the byte of an alarm gets as far as that byte or a SIGTERM, and a
batch is not left in front of the event that announces such a byte. -/
def Intact (env : Env) (s : Server) : Op → Prop
  | .deliver .alrm => env.memory Sig.alrm.number = some 14
  | .signals => 14 ∈ s.kernel.pipe →
    14 ∈ s.kernel.pipe.take signalsSize ∨ 15 ∈ s.kernel.pipe.take signalsSize
  | .recv .again => 14 ∈ s.kernel.pipe →
    ∀ rest, s.phase = .batch rest → env.pipefd0 ∉ rest.map Event.fd
  | _ => True

/-- Where the alarm is, or that the loop is about to stop. -/
inductive Link (env : Env) (s : Server) : Prop where
  | armed (h : s.kernel.armed = true)
  | raised (h : s.kernel.alrmPending = true)
  | sent (h : 14 ∈ s.kernel.pipe) (h' : s.kernel.notified = true)
  | announced (h : 14 ∈ s.kernel.pipe) (rest : List Event) (h' : s.phase = .batch rest)
    (h'' : env.pipefd0 ∈ rest.map Event.fd)
  | timeout (h : s.timeout = true)
  | stopping (h : s.stopServer = true)

structure Chained (env : Env) (s : Server) : Prop where
  link : s.phase ≠ .exited → Link env s
  running : s.phase = .waiting → s.stopServer = false ∧ s.timeout = false

theorem chained_init (env : Env) : Chained env Server.init :=
  ⟨fun _ => .armed rfl, fun _ => ⟨rfl, rfl⟩⟩

section Steps
variable {env : Env} {s s' : Server} {e : Event} {rest rest' : List Event}

theorem Chained.linked (w : Chained env s) (h : s.phase = .waiting) : Linked s := by
  cases w.link (by simp [h]) with
  | armed h' => exact .inl h'
  | raised h' => exact .inr (.inl h')
  | sent hmem h' => exact .inr (.inr (.inl ⟨hmem, h'⟩))
  | announced _ rest h' =>
    rw [h] at h'
    cases h'
  | timeout h' => exact .inr (.inr (.inr h'))
  | stopping h' =>
    rw [(w.running h).1] at h'
    cases h'

/-- What concerns the alarm is the same, and so is an announcement in the batch. -/
theorem Link.congr (w : Link env s) (halarm : SameAlarm s s')
    (hcoming : 14 ∈ s.kernel.pipe → ∀ rest, s.phase = .batch rest →
      env.pipefd0 ∈ rest.map Event.fd →
      ∃ rest', s'.phase = .batch rest' ∧ env.pipefd0 ∈ rest'.map Event.fd) : Link env s' := by
  obtain ⟨harmed, hpending, hpipe, hnotified, htimeout, hstop⟩ := halarm
  cases w with
  | armed h => exact .armed (harmed.trans h)
  | raised h => exact .raised (hpending.trans h)
  | sent hmem h => exact .sent (hpipe ▸ hmem) (hnotified.trans h)
  | announced hmem rest h hin =>
    obtain ⟨rest', h', hin'⟩ := hcoming hmem rest h hin
    exact .announced (hpipe ▸ hmem) rest' h' hin'
  | timeout h => exact .timeout (htimeout.trans h)
  | stopping h => exact .stopping (hstop.trans h)

/-- An event of another descriptor leaves the alarm where it is. -/
theorem Chained.next (w : Chained env s) (h : s.phase = .batch (e :: rest))
    (hp : e.fd ≠ env.pipefd0) (halarm : SameAlarm s s') (hphase : s'.phase = .batch rest')
    (hrest : 14 ∈ s.kernel.pipe → env.pipefd0 ∈ (e :: rest).map Event.fd →
      env.pipefd0 ∈ rest.map Event.fd → env.pipefd0 ∈ rest'.map Event.fd) : Chained env s' := by
  refine ⟨fun _ => (w.link (by simp [h])).congr halarm fun hmem all hall hin => ?_, fun h' => ?_⟩
  · obtain rfl : e :: rest = all := by
      rw [h] at hall
      simpa using hall
    refine ⟨rest', hphase, hrest hmem hin ?_⟩
    rcases List.mem_cons.mp hin with h' | h'
    · exact absurd h'.symm hp
    · exact h'
  · rw [hphase] at h'
    cases h'

/-- A byte that is sent takes nothing off the way of the alarm. -/
theorem Link.send (w : Link env s) {b : UInt8} (hpipe : s'.kernel.pipe = s.kernel.pipe ++ [b])
    (hnotified : s'.kernel.notified = true) (harmed : s'.kernel.armed = s.kernel.armed)
    (hpending : s'.kernel.alrmPending = s.kernel.alrmPending)
    (hflags : s'.timeout = s.timeout ∧ s'.stopServer = s.stopServer) : Link env s' := by
  have hmem : 14 ∈ s.kernel.pipe → 14 ∈ s'.kernel.pipe := by
    intro h
    rw [hpipe]
    exact List.mem_append_left _ h
  cases w with
  | armed h => exact .armed (harmed.trans h)
  | raised h => exact .raised (hpending.trans h)
  | sent h => exact .sent (hmem h) hnotified
  | announced h => exact .sent (hmem h) hnotified
  | timeout h => exact .timeout (hflags.1.trans h)
  | stopping h => exact .stopping (hflags.2.trans h)

theorem deliverAlrm_chained (w : Chained env s) (hi : env.memory Sig.alrm.number = some 14) :
    Chained env { s with
      kernel := sigHandler env { s.kernel with alrmPending := false } .alrm } := by
  simp only [sigHandler, hi]
  exact ⟨fun _ => .sent (by simp) rfl, w.running⟩

theorem deliverTerm_chained (w : Chained env s) : Chained env { s with
    kernel := sigHandler env { s.kernel with termPending := false } .term } := by
  simp only [sigHandler]
  refine ⟨fun h => ?_, w.running⟩
  split
  next => exact (w.link h).send rfl rfl rfl rfl ⟨rfl, rfl⟩
  next =>
    exact (w.link h).congr ⟨rfl, rfl, rfl, rfl, rfl, rfl⟩ fun _ rest h hin => ⟨rest, h, hin⟩

theorem wait_chained (w : Chained env s) (events : List Event) (h : s.phase = .waiting) :
    Chained env { s with
      phase := .batch events
      kernel := { s.kernel with
        notified := s.kernel.notified && decide (env.pipefd0 ∉ events.map Event.fd) } } := by
  refine ⟨fun _ => ?_, fun h' => by cases h'⟩
  cases w.link (by simp [h]) with
  | armed h' => exact .armed h'
  | raised h' => exact .raised h'
  | sent hmem h' =>
    by_cases hin : env.pipefd0 ∈ events.map Event.fd
    · exact .announced hmem events rfl hin
    · exact .sent hmem (by simp only [h', hin, not_false_eq_true, decide_true, Bool.and_self])
  | announced hmem rest h' =>
    rw [h] at h'
    cases h'
  | timeout h' => exact .timeout h'
  | stopping h' => exact .stopping h'

/-- The event of `pipefd[0]` is handled: what was read sets `timeout` or stops the loop. -/
theorem signals_chained (w : Chained env s) (h : s.phase = .batch (e :: rest))
    (hi : Intact env s .signals) :
    Chained env (readSignals { s with phase := .batch rest }) := by
  have hread : 14 ∈ s.kernel.pipe → Link env (readSignals { s with phase := .batch rest }) := by
    intro hmem
    rcases hi hmem with h' | h'
    · exact .timeout (by simp [readSignals, h'])
    · exact .stopping (by simp [readSignals, h'])
  refine ⟨fun _ => ?_, fun h' => by cases h'⟩
  cases w.link (by simp [h]) with
  | armed h' => exact .armed h'
  | raised h' => exact .raised h'
  | sent hmem => exact hread hmem
  | announced hmem => exact hread hmem
  | timeout h' => exact .timeout (by simp [readSignals, h'])
  | stopping h' => exact .stopping (by simp [readSignals, h'])

theorem finish_chained {cur : Int} (w : Sound env s) (c : Chained env s)
    (h : s.phase = .batch []) : Safe (step env s (.finish cur)) (Chained env) := by
  refine (finish_spec w h cur).safe.mono fun s' hs' => ?_
  obtain ⟨-, hoff, hphase, hstop, htimeout, hquiet⟩ := hs'
  refine ⟨fun _ => ?_, fun h' => ?_⟩
  · cases ht : s.timeout with
    | true => exact .armed (htimeout ht).1
    | false =>
      refine (c.link (by simp [h])).congr (hquiet ht) fun _ rest hrest hin => ?_
      obtain rfl : [] = rest := by
        rw [h] at hrest
        simpa using hrest
      cases hin
  · rw [hphase] at h'
    refine ⟨?_, hoff⟩
    rw [hstop]
    cases hs : s.stopServer with
    | true => simp [hs] at h'
    | false => rfl

theorem step_chained {op : Op} (w : Sound env s) (c : Chained env s) (hi : Intact env s op) :
    Safe (step env s op) (Chained env) := by
  have shape := step_shape env s op
  generalize step env s op = x at shape ⊢
  cases shape with
  | expire => exact ⟨fun _ => .raised rfl, c.running⟩
  | killAlrm => exact ⟨fun _ => .raised rfl, c.running⟩
  | killTerm =>
    refine ⟨fun h => (c.link h).congr ⟨rfl, rfl, rfl, rfl, rfl, rfl⟩ ?_, c.running⟩
    exact fun _ rest h hin => ⟨rest, h, hin⟩
  | deliverAlrm => exact deliverAlrm_chained c hi
  | deliverTerm => exact deliverTerm_chained c
  | wait events phase => exact wait_chained c events phase
  | waitFails => exact ⟨fun h => absurd rfl h, fun h => by cases h⟩
  | accept connfd cur phase listen apart free =>
    refine (accept_spec w phase apart free).safe.mono fun s' hs' => ?_
    exact c.next phase (listen ▸ env.distinct) hs'.2.1 hs'.2.2 fun _ _ hin => hin
  | signals phase => exact signals_chained c phase hi
  | recv result phase client =>
    refine (recv_spec w phase client.1 client.2).safe.mono fun s' hs' => ?_
    refine c.next phase client.2 hs'.2.1 hs'.2.2 fun hmem hall hin => ?_
    cases result with
    | again => exact absurd hall (hi hmem _ phase)
    | data cur => exact hin
    | eof => exact hin
    | error => exact hin
  | @other e rest phase apart out =>
    have hp : e.fd ≠ env.pipefd0 := by
      intro hp
      have := (w.pending _ phase).2 e List.mem_cons_self
      rw [hp, w.reserved] at this
      rcases this with h' | h' | h'
      · exact apart (hp.trans h')
      · rw [out] at h'
        cases h'.2
      · cases h'
    exact c.next phase hp ⟨rfl, rfl, rfl, rfl, rfl, rfl⟩ rfl fun _ _ hin => hin
  | finish cur phase => exact finish_chained w c phase
  | impossible => rfl

end Steps

theorem run_chained (env : Env) (ops : List Op)
    (h : Along (step env) (Intact env) Server.init ops) :
    Safe (run (step env) Server.init ops) fun s => Sound env s ∧ Chained env s := by
  refine run_ends_along (step env) ?_ ⟨sound_init env, chained_init env⟩ ops h
  intro s op w hi
  exact (step_sound env s op w.1).and (step_chained w.1 w.2 hi)

/-- What is still to come of the alarm that is on its way when the loop waits. -/
def nextRound (env : Env) (s : Server) (cur : Int) : List Op :=
  let arrive := [.wait [⟨env.pipefd0, true⟩], .signals, .finish cur]
  if 14 ∈ s.kernel.pipe ∧ s.kernel.notified = true then arrive
  else if s.kernel.alrmPending = true then .deliver .alrm :: arrive
  else .expire :: .deliver .alrm :: arrive

/-- One more tick and a new alarm, or the loop was told to stop. -/
def Renewed (s s' : Server) : Prop :=
  (s'.record.ticks.length = s.record.ticks.length + 1 ∧ s'.kernel.armed = true) ∨
    s'.phase = .exited

section Rounds
variable {env : Env} {s : Server} {cur : Int}

theorem renewed_of_sent (w : Sound env s) (h : s.phase = .waiting) (hmem : 14 ∈ s.kernel.pipe)
    (hnotified : s.kernel.notified = true)
    (hi : Along (step env) (Intact env) s [.wait [⟨env.pipefd0, true⟩], .signals, .finish cur]) :
    ∃ s', run (step env) s [.wait [⟨env.pipefd0, true⟩], .signals, .finish cur] = .ok s' ∧
      Renewed s s' := by
  have hreport : Reportable env s.kernel [⟨env.pipefd0, true⟩] := by
    simp [Reportable, MAX_EVENTS_NUMBER, hnotified]
  obtain ⟨s₁, h₁⟩ : ∃ s₁, step env s (.wait [⟨env.pipefd0, true⟩]) = .ok s₁ := by
    simp [step, h, hreport]
  have hs₁ : s₁.phase = .batch [⟨env.pipefd0, true⟩] ∧ s₁.kernel.pipe = s.kernel.pipe ∧
      s₁.record = s.record := by
    simp only [step, h, hreport, and_self, if_true, Except.ok.injEq] at h₁
    subst h₁
    exact ⟨rfl, rfl, rfl⟩
  have h₂ : step env s₁ .signals = .ok (readSignals { s₁ with phase := .batch [] }) := by
    simp [step, hs₁.1, env.distinct.symm]
  obtain ⟨-, hi⟩ := hi
  rw [h₁] at hi
  have hread := hi.1 (hs₁.2.1 ▸ hmem)
  have w₁ : Sound env s₁ := (step_sound env s _ w).of_ok h₁
  have w₂ := (step_sound env s₁ _ w₁).of_ok h₂
  obtain ⟨s', h₃, -, -, hphase, -, htimeout, -⟩ := (finish_spec w₂ rfl cur).result
  refine ⟨s', ?_, ?_⟩
  · rw [run_cons, h₁, ok_bind, run_cons, h₂, ok_bind, run_cons, h₃]
    rfl
  · rcases hread with hread | hread
    · left
      have h := htimeout (by simp [readSignals, hread])
      exact ⟨by rw [h.2]; simp [readSignals, hs₁.2.2], h.1⟩
    · right
      rw [hphase]
      simp [readSignals, hread]

theorem renewed_of_raised (w : Sound env s) (h : s.phase = .waiting)
    (hraised : s.kernel.alrmPending = true)
    (hi : Along (step env) (Intact env) s
      [.deliver .alrm, .wait [⟨env.pipefd0, true⟩], .signals, .finish cur]) :
    ∃ s', run (step env) s
      [.deliver .alrm, .wait [⟨env.pipefd0, true⟩], .signals, .finish cur] = .ok s' ∧
      Renewed s s' := by
  obtain ⟨hsend, hi⟩ := hi
  simp only [Intact] at hsend
  obtain ⟨s₁, h₁⟩ : ∃ s₁, step env s (.deliver .alrm) = .ok s₁ := by
    simp [step, hraised]
  have hs₁ : s₁.phase = .waiting ∧ 14 ∈ s₁.kernel.pipe ∧ s₁.kernel.notified = true ∧
      s₁.record = s.record := by
    simp only [step, hraised, if_true, sigHandler, hsend, Except.ok.injEq] at h₁
    subst h₁
    exact ⟨h, by simp, rfl, rfl⟩
  have w₁ : Sound env s₁ := (step_sound env s _ w).of_ok h₁
  rw [h₁] at hi
  obtain ⟨s', h', hs'⟩ := renewed_of_sent w₁ hs₁.1 hs₁.2.1 hs₁.2.2.1 hi
  refine ⟨s', ?_, ?_⟩
  · rw [run_cons, h₁]
    exact h'
  · unfold Renewed at hs' ⊢
    rwa [hs₁.2.2.2] at hs'

/-- A link that is in place when the loop waits leads to the next tick and alarm. -/
theorem Chained.renewed (c : Chained env s) (w : Sound env s) (h : s.phase = .waiting)
    (hi : Along (step env) (Intact env) s (nextRound env s cur)) :
    ∃ s', run (step env) s (nextRound env s cur) = .ok s' ∧ Renewed s s' := by
  unfold nextRound at hi ⊢
  dsimp only at hi ⊢
  split at hi
  next hsent =>
    rw [if_pos hsent]
    exact renewed_of_sent w h hsent.1 hsent.2 hi
  next hsent =>
    rw [if_neg hsent]
    split at hi
    next hraised =>
      rw [if_pos hraised]
      exact renewed_of_raised w h hraised hi
    next hraised =>
      rw [if_neg hraised]
      have harmed : s.kernel.armed = true := by
        rcases c.linked h with h' | h' | h' | h'
        · exact h'
        · exact absurd h' hraised
        · exact absurd h' hsent
        · rw [(c.running h).2] at h'
          cases h'
      obtain ⟨s₁, h₁⟩ : ∃ s₁, step env s .expire = .ok s₁ := by
        simp [step, harmed]
      have hs₁ : s₁.phase = .waiting ∧ s₁.kernel.alrmPending = true ∧ s₁.record = s.record := by
        simp only [step, harmed, if_true, Except.ok.injEq] at h₁
        subst h₁
        exact ⟨h, rfl, rfl⟩
      have w₁ : Sound env s₁ := (step_sound env s _ w).of_ok h₁
      obtain ⟨-, hi⟩ := hi
      rw [h₁] at hi
      obtain ⟨s', h', hs'⟩ := renewed_of_raised w₁ hs₁.1 hs₁.2.1 hi
      refine ⟨s', ?_, ?_⟩
      · rw [run_cons, h₁]
        exact h'
      · unfold Renewed at hs' ⊢
        rwa [hs₁.2.2] at hs'

end Rounds
end LinuxDemo.Invariant.Keeplive
