import LinuxDemo.Source.EpollSig

/-!
# Signals on their way to the loop

What was read and what is in the socket pair are the numbers of the signals delivered, in
their order, as long as the handler sends them and no read leaves bytes without a
notification. `Kept` asks this of the steps that may fail to do so.
-/
namespace LinuxDemo.Invariant.EpollSig
open LinuxDemo.Lib LinuxDemo.Source.EpollSig

/-- The signal stops the server. -/
def Sig.stops (sig : Sig) : Prop := sig = .term ∨ sig = .int

/-- The reports of `pipefd[0]` still to be handled. -/
def reports (env : Env) : Phase → List Nat
  | .batch rest => (rest.filter fun e => decide (e.fd = env.pipefd0) && e.epollin).map Event.fd
  | _ => []

/-- The handler finds the number of the signal at the address it passes, a read of the
socket pair takes all there is or is followed by a new notification, and `epoll_wait` does
not fail. -/
def Kept (env : Env) (s : Server) : Op → Prop
  | .deliver sig => env.memory sig.number.toNat = some sig.number
  | .signals => s.pipe.length ≤ signalsSize ∨ s.notified env.pipefd0 = true
  | .waitFails => False
  | _ => True

structure Unified (env : Env) (s : Server) : Prop where
  order : s.read ++ s.pipe = s.delivered.map Sig.number
  covered : Covered (fun fd => fd = env.pipefd0 ∧ s.pipe ≠ []) s.notified (reports env s.phase)
  stopped : s.stopServer = true ↔ ∃ b ∈ s.read, b = Sig.term.number ∨ b = Sig.int.number
  waiting : s.phase = .waiting → s.stopServer = false
  exited : s.phase = .exited → s.stopServer = true

theorem unified_init (env : Env) : Unified env Server.init := by
  constructor
  · rfl
  · rintro fd ⟨-, hne⟩
    exact absurd rfl hne
  · simp [Server.init]
  · simp [Server.init]
  · simp [Server.init]

section Steps
variable {env : Env} {s : Server} {e : Event} {rest : List Event}

theorem deliver_unified {sig : Sig} (w : Unified env s)
    (hk : env.memory sig.number.toNat = some sig.number) :
    Safe (step env s (.deliver sig)) (Unified env) := by
  simp only [step, sigHandler, hk]
  split
  next =>
    obtain ⟨order, covered, stopped, waiting, exited⟩ := w
    constructor
    · simp [← order]
    · exact covered.raise (· = env.pipefd0) fun fd h => .inr h.1
    · exact stopped
    · exact waiting
    · exact exited
  next => simp

theorem wait_unified (events : List Event) (w : Unified env s) :
    Safe (step env s (.wait events)) (Unified env) := by
  simp only [step]
  split
  next hw =>
    obtain ⟨hphase, -, -, hfd⟩ := hw
    obtain ⟨order, covered, stopped, waiting, exited⟩ := w
    rw [hphase] at covered
    constructor
    · exact order
    · refine Covered.report covered (events.map Event.fd) fun fd hmem hp => ?_
      obtain ⟨e, he, rfl⟩ := List.mem_map.mp hmem
      have hin := (hfd e he).2 hp.1 hp.2
      exact List.mem_map_of_mem (List.mem_filter.mpr ⟨he, by simp [hp.1, hin]⟩)
    · exact stopped
    · simp
    · simp
  next => simp

/-- What is read is looked at, and what is left is notified. -/
theorem signals_unified (w : Unified env s) (hphase : s.phase = .batch (e :: rest))
    (hfd : e.fd = env.pipefd0) (hin : e.epollin = true)
    (hk : s.pipe.length ≤ signalsSize ∨ s.notified env.pipefd0 = true) :
    Unified env (readSignals { s with phase := .batch rest }) := by
  obtain ⟨order, covered, stopped, waiting, exited⟩ := w
  have front : reports env s.phase = e.fd :: reports env (.batch rest) := by
    simp [reports, hphase, hfd, hin]
  rw [front] at covered
  constructor
  · simp [readSignals, ← order]
  · refine covered.serve (fun hp => .inl ?_) fun fd hne hp => absurd hp.1 (hfd ▸ hne)
    rcases hk with hk | hk
    · exact absurd (List.drop_eq_nil_of_le hk) hp.2
    · rw [hfd]
      exact hk
  · simp only [readSignals, Bool.or_eq_true, stopped, List.any_eq_true, decide_eq_true_eq,
      List.mem_append]
    constructor
    · rintro (⟨b, hb, hs⟩ | ⟨b, hb, hs⟩)
      · exact ⟨b, .inl hb, hs⟩
      · exact ⟨b, .inr hb, hs⟩
    · rintro ⟨b, hb | hb, hs⟩
      · exact .inl ⟨b, hb, hs⟩
      · exact .inr ⟨b, hb, hs⟩
  · simp [readSignals]
  · simp [readSignals]

/-- An event that is not for the socket pair. -/
theorem Unified.next (w : Unified env s) (hphase : s.phase = .batch (e :: rest))
    (hfd : ¬ (e.fd = env.pipefd0 ∧ e.epollin = true)) (clients : List Nat) :
    Unified env { s with phase := .batch rest, clients := clients } := by
  obtain ⟨order, covered, stopped, waiting, exited⟩ := w
  have front : reports env s.phase = reports env (.batch rest) := by
    simp [reports, hphase, hfd]
  rw [front] at covered
  exact ⟨order, covered, stopped, by simp, by simp⟩

theorem finish_unified (w : Unified env s) : Safe (step env s .finish) (Unified env) := by
  simp only [step]
  split
  next hphase =>
    obtain ⟨order, covered, stopped, waiting, exited⟩ := w
    rw [hphase] at covered
    cases hs : s.stopServer with
    | true => exact ⟨order, covered, hs ▸ stopped, by simp, by simp⟩
    | false => exact ⟨order, covered, hs ▸ stopped, by simp, by simp⟩
  next => simp

theorem step_unified (env : Env) (s : Server) (op : Op) (w : Unified env s) (hk : Kept env s op) :
    Safe (step env s op) (Unified env) := by
  cases op with
  | deliver sig => exact deliver_unified w hk
  | arrive fd =>
    simp only [step]
    split
    next =>
      have covered := w.covered.raise (· = fd) fun _ h => .inl h
      exact ⟨w.order, covered, w.stopped, w.waiting, w.exited⟩
    next => simp
  | wait events => exact wait_unified events w
  | waitFails => exact hk.elim
  | accept connfd =>
    simp only [step]
    split
    next e rest hphase =>
      split
      next hg => exact w.next hphase (fun h => env.distinct (hg.1.symm.trans h.1)) _
      next => simp
    next => simp
  | signals =>
    simp only [step]
    split
    next e rest hphase =>
      split
      next hg => exact signals_unified w hphase hg.2.1 hg.2.2 hk
      next => simp
    next => simp
  | somethingElse =>
    simp only [step]
    split
    next e rest hphase =>
      split
      next hg => exact w.next hphase hg.2 s.clients
      next => simp
    next => simp
  | finish => exact finish_unified w

end Steps

theorem run_unified (env : Env) (ops : List Op)
    (h : Along (step env) (Kept env) Server.init ops) :
    Safe (run (step env) Server.init ops) (Unified env) :=
  run_ends_along (step env) (step_unified env) (unified_init env) ops h

section Consumed
variable {env : Env} {s : Server}

/-- With all notifications consumed nothing is left unread. -/
theorem Unified.all_read (w : Unified env s) (hphase : ∀ rest, s.phase ≠ .batch rest)
    (hn : s.notified env.pipefd0 = false) : s.read = s.delivered.map Sig.number := by
  have hnil : s.pipe = [] := by
    by_contra hne
    have hc := w.covered env.pipefd0 ⟨rfl, hne⟩
    cases hp : s.phase with
    | batch rest => exact hphase rest hp
    | waiting => simp [hp, reports, hn] at hc
    | exited => simp [hp, reports, hn] at hc
  rw [← w.order, hnil, List.append_nil]

theorem stops_iff (sig : Sig) :
    Sig.stops sig ↔ sig.number = Sig.term.number ∨ sig.number = Sig.int.number := by
  cases sig <;> simp [Sig.stops, Sig.number]

/-- What stops the loop was delivered. -/
theorem Unified.delivered_of_stopped (w : Unified env s) (h : s.stopServer = true) :
    ∃ sig ∈ s.delivered, Sig.stops sig := by
  obtain ⟨b, hb, hs⟩ := w.stopped.mp h
  have hmem : b ∈ s.delivered.map Sig.number := by
    rw [← w.order]
    exact List.mem_append_left _ hb
  obtain ⟨sig, hsig, rfl⟩ := List.mem_map.mp hmem
  exact ⟨sig, hsig, (stops_iff sig).mpr hs⟩

/-- What was delivered and read stops the loop. -/
theorem Unified.stopped_of_delivered (w : Unified env s)
    (hread : s.read = s.delivered.map Sig.number) (h : ∃ sig ∈ s.delivered, Sig.stops sig) :
    s.stopServer = true := by
  obtain ⟨sig, hsig, hs⟩ := h
  refine w.stopped.mpr ⟨sig.number, ?_, (stops_iff sig).mp hs⟩
  rw [hread]
  exact List.mem_map_of_mem hsig

/-- The event of the socket pair alone, and what is behind the batch. -/
def nextRound (env : Env) : List Op := [.wait [⟨env.pipefd0, true⟩], .signals, .finish]

/-- Where a signal that stops the server was delivered, and the loop waits, the socket pair
has a notification, and the round that handles it ends the loop. -/
theorem Unified.next_round (w : Unified env s) (hphase : s.phase = .waiting)
    (h : ∃ sig ∈ s.delivered, Sig.stops sig)
    (hk : Along (step env) (Kept env) s (nextRound env)) :
    ∃ s', run (step env) s (nextRound env) = .ok s' ∧ s'.phase = .exited := by
  have hn : s.notified env.pipefd0 = true := by
    by_contra hn
    have hread := w.all_read (by simp [hphase]) (by simpa using hn)
    have hstop := w.stopped_of_delivered hread h
    rw [w.waiting hphase] at hstop
    cases hstop
  have hreport : Reportable env s [⟨env.pipefd0, true⟩] := by
    simp [Reportable, MAX_EVENTS_NUMBER, hn]
  have hrun : ∃ s', run (step env) s (nextRound env) = .ok s' ∧ (∀ rest, s'.phase ≠ .batch rest) ∧
      s'.notified env.pipefd0 = false ∧ s'.delivered = s.delivered := by
    simp only [nextRound, run, step, hphase, hreport, and_self, if_true, ok_bind, ne_eq,
      env.distinct.symm, not_false_eq_true, readSignals, Except.ok.injEq, exists_eq_left']
    refine ⟨fun rest => ?_, by simp [report], trivial⟩
    split <;> simp
  obtain ⟨s', hs', hout, hoff, hsame⟩ := hrun
  have w' : Unified env s' :=
    (run_ends_along (step env) (step_unified env) w (nextRound env) hk).of_ok hs'
  have hstop := w'.stopped_of_delivered (w'.all_read hout hoff) (hsame ▸ h)
  refine ⟨s', hs', ?_⟩
  cases hp : s'.phase with
  | exited => rfl
  | batch rest => exact absurd hp (hout rest)
  | waiting =>
    rw [w'.waiting hp] at hstop
    cases hstop

end Consumed
end LinuxDemo.Invariant.EpollSig
