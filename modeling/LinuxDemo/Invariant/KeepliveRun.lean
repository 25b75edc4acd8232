import LinuxDemo.Invariant.KeepliveTimers

/-!
# Runs of the keep-alive server

Inside a batch the events still to be handled are on open descriptors, each at most once.
This and the match of timers and connections is kept by every step. `Shape` says once what
a step computes; what is kept is proved from it, case by case.
-/
namespace LinuxDemo.Invariant.Keeplive
open LinuxDemo.Lib LinuxDemo.Source.ListTimer LinuxDemo.Source.AlarmKeeplive

/-- The events still to be handled are on open descriptors, each at most once. -/
def Pending (env : Env) (s : Server) : Prop :=
  ∀ rest, s.phase = .batch rest → (rest.map Event.fd).Nodup ∧
    ∀ e ∈ rest, e.fd = env.listenfd ∨ (e.fd = env.pipefd0 ∧ e.epollin = true) ∨
      (s.kernel.conns e.fd).isSome = true

structure Sound (env : Env) (s : Server) : Prop where
  timers : Timers s
  pending : Pending env s
  reserved : s.kernel.conns env.pipefd0 = none

theorem sound_init (env : Env) : Sound env Server.init :=
  ⟨timers_init, fun _ h => (by cases h), rfl⟩

/-- Nothing that concerns timers or connections differs. -/
structure SameTimers (s s' : Server) : Prop where
  timerList : s'.timerList = s.timerList
  users : s'.users = s.users
  conns : s'.kernel.conns = s.kernel.conns
  accepted : s'.kernel.accepted = s.kernel.accepted
  record : s'.record = s.record

section Steps
variable {env : Env} {s s' : Server} {e : Event} {rest : List Event}

theorem Timers.congr (w : Timers s) (h : SameTimers s s') : Timers s' := by
  obtain ⟨htimerList, husers, hconns, haccepted, hrecord⟩ := h
  constructor
  · rw [hconns, haccepted]
    exact w.numbered
  · rw [htimerList, husers, hconns, hrecord]
    exact w.matched
  · rw [htimerList, hrecord]
    exact w.uses
  · rw [htimerList, hrecord]
    exact w.closings
  · rw [hrecord]
    exact w.exact

theorem Pending.congr (w : Pending env s) (hphase : s'.phase = s.phase)
    (hconns : s'.kernel.conns = s.kernel.conns) : Pending env s' := by
  unfold Pending
  rw [hphase, hconns]
  exact w

theorem Sound.congr (w : Sound env s) (h : SameTimers s s') (hphase : s'.phase = s.phase) :
    Sound env s' :=
  ⟨w.timers.congr h, w.pending.congr hphase h.conns, h.conns ▸ w.reserved⟩

theorem sigHandler_same (env : Env) (k : Kernel) (sig : Sig) :
    (sigHandler env k sig).conns = k.conns ∧ (sigHandler env k sig).accepted = k.accepted := by
  unfold sigHandler
  split <;> exact ⟨rfl, rfl⟩

/-- Handling an event changes no other descriptor that the batch still names. -/
theorem Pending.next (w : Pending env s) (h : s.phase = .batch (e :: rest))
    (hphase : s'.phase = .batch rest)
    (hopen : ∀ fd, fd ≠ e.fd → (s.kernel.conns fd).isSome = true →
      (s'.kernel.conns fd).isSome = true) : Pending env s' := by
  intro rest' h'
  obtain rfl : rest = rest' := by
    rw [hphase] at h'
    simpa using h'
  obtain ⟨hnodup, hfd⟩ := w _ h
  rw [List.map_cons, List.nodup_cons] at hnodup
  refine ⟨hnodup.2, fun e' he' => ?_⟩
  rcases hfd e' (List.mem_cons_of_mem _ he') with h | h | h
  · exact .inl h
  · exact .inr (.inl h)
  · refine .inr (.inr (hopen e'.fd ?_ h))
    rintro heq
    exact hnodup.1 (heq ▸ List.mem_map_of_mem he')

theorem accept_spec {connfd : Nat} {cur : Int} (w : Sound env s)
    (h : s.phase = .batch (e :: rest)) (hpipe : connfd ≠ env.pipefd0)
    (hfree : s.kernel.conns connfd = none) :
    Total (acceptClient { s with phase := .batch rest } connfd cur) fun s' =>
      Sound env s' ∧ SameAlarm s s' ∧ s'.phase = .batch rest := by
  have hw : Timers { s with phase := .batch rest } := w.timers.congr ⟨rfl, rfl, rfl, rfl, rfl⟩
  obtain ⟨s', he, hw', halarm, hphase, hconns⟩ := acceptClient_spec hw hfree cur
  rw [he]
  refine ⟨⟨hw', w.pending.next h hphase fun fd _ hsome => ?_, ?_⟩, halarm.ofPhase, hphase⟩
  · rw [hconns]
    by_cases heq : fd = connfd
    · simp [heq]
    · rw [Function.update_of_ne heq, hsome]
  · rw [hconns, Function.update_of_ne hpipe.symm]
    exact w.reserved

/-- Where `recv` leaves the batch: at EAGAIN the remaining events are dropped. -/
def Recv.leaves (rest : List Event) : Recv → List Event
  | .again => []
  | _ => rest

theorem recv_spec {result : Recv} (w : Sound env s) (h : s.phase = .batch (e :: rest))
    (hl : e.fd ≠ env.listenfd) (hp : e.fd ≠ env.pipefd0) :
    Total (recvClient s e.fd rest result) fun s' =>
      Sound env s' ∧ SameAlarm s s' ∧ s'.phase = .batch (Recv.leaves rest result) := by
  have hw : Timers { s with phase := .batch rest } := w.timers.congr ⟨rfl, rfl, rfl, rfl, rfl⟩
  obtain ⟨k, hc⟩ : ∃ k, s.kernel.conns e.fd = some k := by
    have := (w.pending _ h).2 e List.mem_cons_self
    exact Option.isSome_iff_exists.mp (by simpa [hl, hp] using this)
  obtain ⟨u, hu, s', he, hw', halarm, hphase, hconns⟩ := dropClient_spec hw hc
  have hdrop : Total (dropClient { s with phase := .batch rest } e.fd u) fun s' =>
      Sound env s' ∧ SameAlarm s s' ∧ s'.phase = .batch rest := by
    rw [he]
    refine ⟨⟨hw', w.pending.next h hphase fun fd hne hsome => ?_, ?_⟩, halarm.ofPhase, hphase⟩
    · rw [hconns, Function.update_of_ne hne, hsome]
    · rw [hconns, Function.update_of_ne hp.symm]
      exact w.reserved
  unfold recvClient
  rw [hu]
  cases result with
  | data cur =>
    obtain ⟨u', hu', s', he, hw', halarm, hphase, hconns⟩ := touchClient_spec hw hc cur
    obtain rfl : u = u' := by
      rw [hu] at hu'
      simpa using hu'
    dsimp only
    rw [he]
    refine ⟨⟨hw', w.pending.next h hphase fun fd _ hsome => ?_, ?_⟩, halarm.ofPhase, hphase⟩
    · rwa [hconns]
    · rw [hconns]
      exact w.reserved
  | eof => exact hdrop
  | again =>
    refine ⟨⟨w.timers.congr ⟨rfl, rfl, rfl, rfl, rfl⟩, fun rest' h' => ?_, w.reserved⟩,
      ⟨rfl, rfl, rfl, rfl, rfl, rfl⟩, rfl⟩
    obtain rfl : [] = rest' := by simpa using h'
    simp
  | error => exact hdrop

/-- Behind the batch a pending timeout leads to a tick and a new alarm. -/
theorem finish_spec (w : Sound env s) (hphase : s.phase = .batch []) (cur : Int) :
    Total (step env s (.finish cur)) fun s' =>
      Sound env s' ∧ s'.timeout = false ∧
      s'.phase = (if s.stopServer then .exited else .waiting) ∧
      s'.stopServer = s.stopServer ∧
      (s.timeout = true → s'.kernel.armed = true ∧
        s'.record.ticks.length = s.record.ticks.length + 1) ∧
      (s.timeout = false → SameAlarm s s') := by
  have hleave : ∀ s₁ : Server, Timers s₁ → s₁.kernel.conns env.pipefd0 = none → Sound env { s₁ with
      timeout := false, phase := if s₁.stopServer then .exited else .waiting } := by
    intro s₁ hw hres
    refine ⟨hw.congr ⟨rfl, rfl, rfl, rfl, rfl⟩, fun rest h => ?_, hres⟩
    dsimp only at h
    split at h <;> cases h
  simp only [step, hphase, if_true]
  split
  next ht =>
    refine (timeHandler_spec w.timers cur).bind fun s₁ h => ?_
    obtain ⟨hw, harmed, hstop, hticks, hopen⟩ := h
    have hres : s₁.kernel.conns env.pipefd0 = none := by
      rw [Option.eq_none_iff_forall_ne_some]
      intro k hk
      have := hopen _ k hk
      rw [w.reserved] at this
      cases this
    refine ⟨hleave s₁ hw hres, rfl, by simp [hstop], hstop, fun _ => ⟨harmed, hticks⟩, ?_⟩
    intro hf
    rw [ht] at hf
    cases hf
  next ht =>
    have hf : s.timeout = false := by simpa using ht
    refine ⟨hleave s w.timers w.reserved, rfl, rfl, rfl, fun h => absurd h ht, fun _ => ?_⟩
    exact ⟨rfl, rfl, rfl, rfl, hf.symm, rfl⟩

/-- What a step computes, and when; otherwise the kernel has broken its contract. -/
inductive Shape (env : Env) (s : Server) : Op → Except Fault Server → Prop where
  | expire (armed : s.kernel.armed = true) : Shape env s .expire
      (.ok { s with kernel := { s.kernel with armed := false, alrmPending := true } })
  | killAlrm : Shape env s (.kill .alrm)
      (.ok { s with kernel := { s.kernel with alrmPending := true } })
  | killTerm : Shape env s (.kill .term)
      (.ok { s with kernel := { s.kernel with termPending := true } })
  | deliverAlrm (pending : s.kernel.alrmPending = true) : Shape env s (.deliver .alrm)
      (.ok { s with kernel := sigHandler env { s.kernel with alrmPending := false } .alrm })
  | deliverTerm (pending : s.kernel.termPending = true) : Shape env s (.deliver .term)
      (.ok { s with kernel := sigHandler env { s.kernel with termPending := false } .term })
  | wait (events : List Event) (phase : s.phase = .waiting)
    (ready : Reportable env s.kernel events) : Shape env s (.wait events)
      (.ok { s with
        phase := .batch events
        kernel := { s.kernel with
          notified := s.kernel.notified && decide (env.pipefd0 ∉ events.map Event.fd) } })
  | waitFails (phase : s.phase = .waiting) : Shape env s .waitFails
      (.ok { s with phase := .exited })
  | accept {e : Event} {rest : List Event} (connfd : Nat) (cur : Int)
    (phase : s.phase = .batch (e :: rest)) (listen : e.fd = env.listenfd)
    (apart : connfd ≠ env.pipefd0) (free : s.kernel.conns connfd = none) :
    Shape env s (.accept connfd cur) (acceptClient { s with phase := .batch rest } connfd cur)
  | signals {e : Event} {rest : List Event} (phase : s.phase = .batch (e :: rest)) :
    Shape env s .signals (.ok (readSignals { s with phase := .batch rest }))
  | recv {e : Event} {rest : List Event} (result : Recv) (phase : s.phase = .batch (e :: rest))
    (client : e.fd ≠ env.listenfd ∧ e.fd ≠ env.pipefd0) :
    Shape env s (.recv result) (recvClient s e.fd rest result)
  | other {e : Event} {rest : List Event} (phase : s.phase = .batch (e :: rest))
    (apart : e.fd ≠ env.listenfd) (out : e.epollin = false) :
    Shape env s .other (.ok { s with phase := .batch rest })
  | finish (cur : Int) (phase : s.phase = .batch []) :
    Shape env s (.finish cur) (step env s (.finish cur))
  | impossible (op : Op) : Shape env s op (.error .contract)

theorem step_shape (env : Env) (s : Server) (op : Op) : Shape env s op (step env s op) := by
  cases op with
  | expire =>
    simp only [step]
    split
    next h => exact .expire h
    next => exact .impossible _
  | kill sig =>
    cases sig with
    | alrm => exact .killAlrm
    | term => exact .killTerm
  | deliver sig =>
    cases sig with
    | alrm =>
      simp only [step]
      split
      next h => exact .deliverAlrm h
      next => exact .impossible _
    | term =>
      simp only [step]
      split
      next h => exact .deliverTerm h
      next => exact .impossible _
  | wait events =>
    simp only [step]
    split
    next h => exact .wait events h.1 h.2
    next => exact .impossible _
  | waitFails =>
    simp only [step]
    split
    next h => exact .waitFails h
    next => exact .impossible _
  | accept connfd cur =>
    simp only [step]
    split
    next e rest hphase =>
      split
      next h => exact .accept connfd cur hphase h.1 h.2.2.2.1 h.2.2.2.2
      next => exact .impossible _
    next => exact .impossible _
  | signals =>
    simp only [step]
    split
    next e rest hphase =>
      split
      next => exact .signals hphase
      next => exact .impossible _
    next => exact .impossible _
  | recv result =>
    simp only [step]
    split
    next e rest hphase =>
      split
      next h => exact .recv result hphase ⟨h.1, h.2.1⟩
      next => exact .impossible _
    next => exact .impossible _
  | other =>
    simp only [step]
    split
    next e rest hphase =>
      split
      next h => exact .other hphase h.1 (by simpa using h.2)
      next => exact .impossible _
    next => exact .impossible _
  | finish cur =>
    by_cases hphase : s.phase = .batch []
    · exact .finish cur hphase
    · simp only [step, if_neg hphase]
      exact .impossible _

/-- Every step keeps timers and connections matched. -/
theorem step_sound (env : Env) (s : Server) (op : Op) (w : Sound env s) :
    Safe (step env s op) (Sound env) := by
  have hsame := sigHandler_same env
  have shape := step_shape env s op
  generalize step env s op = x at shape ⊢
  cases shape with
  | expire | killAlrm | killTerm => exact w.congr ⟨rfl, rfl, rfl, rfl, rfl⟩ rfl
  | deliverAlrm | deliverTerm => exact w.congr ⟨rfl, rfl, (hsame _ _).1, (hsame _ _).2, rfl⟩ rfl
  | wait events _ ready =>
    obtain ⟨-, hnodup, hfd⟩ := ready
    refine ⟨w.timers.congr ⟨rfl, rfl, rfl, rfl, rfl⟩, fun rest hrest => ?_, w.reserved⟩
    obtain rfl : events = rest := by simpa using hrest
    refine ⟨hnodup, fun e he => ?_⟩
    rcases hfd e he with h | h | h
    · exact .inl h
    · exact .inr (.inl ⟨h.1, h.2.2⟩)
    · exact .inr (.inr h)
  | waitFails =>
    exact ⟨w.timers.congr ⟨rfl, rfl, rfl, rfl, rfl⟩, fun rest h => (by cases h), w.reserved⟩
  | accept _ _ phase _ apart free => exact (accept_spec w phase apart free).safe.mono fun _ h => h.1
  | signals phase | other phase =>
    refine ⟨w.timers.congr ⟨rfl, rfl, rfl, rfl, rfl⟩, ?_, w.reserved⟩
    exact w.pending.next phase rfl fun _ _ h => h
  | recv _ phase client =>
    exact (recv_spec w phase client.1 client.2).safe.mono fun _ h => h.1
  | finish cur phase => exact (finish_spec w phase cur).safe.mono fun _ h => h.1
  | impossible => rfl

theorem run_sound (env : Env) (ops : List Op) :
    Safe (run (step env) Server.init ops) (Sound env) :=
  run_ends (step env) (step_sound env) (sound_init env) ops

end Steps
end LinuxDemo.Invariant.Keeplive
