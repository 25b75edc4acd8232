import LinuxDemo.Invariant.EpollLtEt

/-!
# Guarantees of the level-triggered and the edge-triggered handler

About every run of the loop with either of them. The two runs share what the peers do and
nothing else: how arrivals, batches and calls of `recv` interleave is up to each.
-/
namespace LinuxDemo.Guarantees.EpollLtEt
open LinuxDemo.Lib LinuxDemo.Source.EpollLtEt LinuxDemo.Invariant.EpollLtEt

/-- A connection, bytes or an end that comes from a peer. -/
def fromPeer : Op → Bool
  | .connect | .bytes _ _ | .fin _ => true
  | _ => false

theorem arrived_filter (k : Nat) (ops : List Op) :
    arrived k (ops.filter fromPeer) = arrived k ops := by
  induction ops with
  | nil => rfl
  | cons op ops ih =>
    unfold arrived at ih ⊢
    cases op <;> simp [List.filter_cons, fromPeer, ih]

theorem fin_mem_filter (k : Nat) (ops : List Op) : .fin k ∈ ops.filter fromPeer ↔ .fin k ∈ ops := by
  simp [fromPeer]

theorem quiet_of_closed {env : Env} {s : Server} (events : s.events = [])
    (listen : s.notified env.listenfd = false) (fds : ∀ fd, s.fds fd = none) : Quiet env s := by
  refine ⟨events, fun fd hp => ?_⟩
  unfold Pending at hp
  split at hp
  next h => simp [h, listen] at hp
  next => simp [fds] at hp

/-- With no notification pending any more, both servers have received on every connection
they accepted what arrived on it, and closed it if its peer did. -/
theorem handlers_agree (env : Env) (opsLT opsET : List Op)
    (schedule : opsLT.filter fromPeer = opsET.filter fromPeer) :
    Safe (run (step env .useLT) Server.init opsLT) fun sLT =>
      Safe (run (step env .useET) Server.init opsET) fun sET =>
        Quiet env sLT → Quiet env sET → ∀ k, k ∈ sLT.accepted → k ∈ sET.accepted →
          sLT.received k = sET.received k ∧ sLT.received k = arrived k opsLT ∧
          (k ∈ sLT.closed ↔ k ∈ sET.closed) := by
  refine (run_delivers env .useLT opsLT).mono fun sLT level => ?_
  refine (run_delivers env .useET opsET).mono fun sET edge => ?_
  intro quietLT quietET k hLT hET
  obtain ⟨readLT, closedLT⟩ := level quietLT k hLT
  obtain ⟨readET, closedET⟩ := edge quietET k hET
  have same : arrived k opsLT = arrived k opsET := by
    rw [← arrived_filter, schedule, arrived_filter]
  have ends : .fin k ∈ opsLT ↔ .fin k ∈ opsET := by
    rw [← fin_mem_filter, schedule, fin_mem_filter]
  exact ⟨by rw [readLT, readET, same], readLT, by rw [closedLT, closedET, ends]⟩

/-- Ten bytes and an end: three reports for one server, one for the other. -/
theorem ten_bytes_agree :
    ∃ sLT sET, run (step ⟨3⟩ .useLT) Server.init [.connect, .wait [⟨3, true⟩], .accept (some 5),
        .bytes 0 [0, 1, 2, 3, 4, 5, 6, 7, 8, 9], .wait [⟨5, true⟩], .recv (.data 9), .fin 0,
        .wait [⟨5, true⟩], .recv (.data 1), .wait [⟨5, true⟩], .recv .eof] = .ok sLT ∧
      run (step ⟨3⟩ .useET) Server.init [.connect, .wait [⟨3, true⟩], .accept (some 6),
        .bytes 0 [0, 1, 2, 3, 4, 5, 6, 7, 8, 9], .fin 0, .wait [⟨6, true⟩], .recv (.data 9),
        .recv (.data 1), .recv .eof, .recv .error] = .ok sET ∧
      sLT.received 0 = sET.received 0 ∧ (0 ∈ sLT.closed ↔ 0 ∈ sET.closed) := by
  have h := handlers_agree ⟨3⟩
    [.connect, .wait [⟨3, true⟩], .accept (some 5), .bytes 0 [0, 1, 2, 3, 4, 5, 6, 7, 8, 9],
      .wait [⟨5, true⟩], .recv (.data 9), .fin 0, .wait [⟨5, true⟩], .recv (.data 1),
      .wait [⟨5, true⟩], .recv .eof]
    [.connect, .wait [⟨3, true⟩], .accept (some 6), .bytes 0 [0, 1, 2, 3, 4, 5, 6, 7, 8, 9],
      .fin 0, .wait [⟨6, true⟩], .recv (.data 9), .recv (.data 1), .recv .eof, .recv .error]
    (by decide)
  refine ⟨_, _, rfl, rfl, ?_⟩
  have agree := (h.of_ok rfl).of_ok rfl ?_ ?_ 0 (by decide) (by decide)
  · exact ⟨agree.1, agree.2.2⟩
  · refine quiet_of_closed rfl rfl fun fd => ?_
    change Function.update (Function.update (fun _ => none) 5 (some (Client.mk 0 false))) 5 none fd = none
    simp [Function.update_apply]
  · refine quiet_of_closed rfl rfl fun fd => ?_
    change Function.update (Function.update (fun _ => none) 6 (some (Client.mk 0 true))) 6 none fd = none
    simp [Function.update_apply]

end LinuxDemo.Guarantees.EpollLtEt
