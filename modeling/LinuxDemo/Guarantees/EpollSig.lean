import LinuxDemo.Invariant.EpollSig

/-!
# Guarantees of the unified signal source

About every run of the loop, with signals delivered anywhere.
-/
namespace LinuxDemo.Guarantees.EpollSig
open LinuxDemo.Lib LinuxDemo.Source.EpollSig LinuxDemo.Invariant.EpollSig

/-- In a run whose steps all keep the signals: the bytes read are numbers of the signals
delivered, in their order; with all notifications consumed none is left unread, and the loop
has ended exactly if a signal that stops it was delivered. It has not ended before, and
where such a signal is on its way, the round that handles the socket pair ends it. -/
theorem every_signal_arrives (env : Env) (ops : List Op)
    (h : Along (step env) (Kept env) Server.init ops) :
    Safe (run (step env) Server.init ops) fun s =>
      s.read <+: s.delivered.map Sig.number ∧
      ((∀ rest, s.phase ≠ .batch rest) → s.notified env.pipefd0 = false →
        s.read = s.delivered.map Sig.number ∧
          (s.phase = .exited ↔ ∃ sig ∈ s.delivered, Sig.stops sig)) ∧
      (s.phase = .exited → ∃ sig ∈ s.delivered, Sig.stops sig) ∧
      (s.phase = .waiting → (∃ sig ∈ s.delivered, Sig.stops sig) →
        Along (step env) (Kept env) s (nextRound env) →
        ∃ s', run (step env) s (nextRound env) = .ok s' ∧ s'.phase = .exited) := by
  refine (run_unified env ops h).mono fun s w => ⟨?_, ?_, ?_, ?_⟩
  · rw [← w.order]
    exact List.prefix_append _ _
  · intro hphase hn
    have hread := w.all_read hphase hn
    refine ⟨hread, fun hp => w.delivered_of_stopped (w.exited hp), fun hd => ?_⟩
    have hstop := w.stopped_of_delivered hread hd
    cases hp : s.phase with
    | exited => rfl
    | batch rest => exact absurd hp (hphase rest)
    | waiting =>
      rw [w.waiting hp] at hstop
      cases hstop
  · exact fun hp => w.delivered_of_stopped (w.exited hp)
  · exact fun hp hd hk => w.next_round hp hd hk

/-- The numbers happen to be at their own addresses; SIGHUP and SIGTERM arrive, and the loop
ends. -/
theorem hup_and_term_arrive :
    ∃ s, run (step ⟨3, 4, by decide, fun a => some (UInt8.ofNat a)⟩) Server.init
        [.deliver .hup, .deliver .term, .wait [⟨4, true⟩], .signals, .finish] = .ok s ∧
      s.read = [1, 15] ∧ s.phase = .exited := by
  have h := every_signal_arrives ⟨3, 4, by decide, fun a => some (UInt8.ofNat a)⟩
    [.deliver .hup, .deliver .term, .wait [⟨4, true⟩], .signals, .finish]
    (by exact ⟨rfl, rfl, trivial, .inl (by decide), trivial, trivial⟩)
  obtain ⟨-, consumed, -, -⟩ := h.of_ok rfl
  obtain ⟨hread, hstop⟩ := consumed (by rintro rest ⟨⟩) rfl
  exact ⟨_, rfl, hread, hstop.mpr ⟨.term, List.mem_cons_of_mem _ List.mem_cons_self, .inl rfl⟩⟩

/-- Nothing is mapped at address 15, and SIGTERM is lost. -/
theorem term_is_lost : ¬ ∀ env ops, .waitFails ∉ ops →
    Safe (run (step env) Server.init ops) fun s =>
      (∀ rest, s.phase ≠ .batch rest) → s.notified env.pipefd0 = false →
        s.read = s.delivered.map Sig.number ∧
          (s.phase = .exited ↔ ∃ sig ∈ s.delivered, Sig.stops sig) := by
  intro h
  have hread := ((h ⟨3, 4, by decide, fun _ => none⟩ [.deliver .term] (by simp)).of_ok rfl
    (by rintro rest ⟨⟩) rfl).1
  cases hread

end LinuxDemo.Guarantees.EpollSig
