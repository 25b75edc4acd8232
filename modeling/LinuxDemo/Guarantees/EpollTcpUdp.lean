import LinuxDemo.Invariant.EpollEcho
import LinuxDemo.Invariant.EpollTcpUdp

/-!
# Guarantees of the TCP and UDP server

About every run of the loop, with connections, datagrams and bytes arriving anywhere.
-/
namespace LinuxDemo.Guarantees.EpollTcpUdp
open LinuxDemo.Lib LinuxDemo.Source.EpollTcpUdp LinuxDemo.Invariant.EpollTcpUdp
open LinuxDemo.Invariant.EpollEcho

/-- At an event of the listening socket `accept` does return a connection: the assertion
behind it holds. -/
theorem accept_finds_connection (env : Env) (ops : List Op) :
    Safe (run (step env) Server.init ops) fun s =>
      ∀ e rest, s.events = e :: rest → e.fd = env.listenfd → s.backlog ≠ [] := by
  refine (run_backed env ops).mono fun s h e rest he hl hnil => ?_
  have enough := h.enough
  simp [he, hl, hnil] at enough

/-- Where every call of `accept` and `recvfrom` takes all there is, or the descriptor is
notified again, nothing is stranded: when the loop is about to call `epoll_wait`, there is a
notification for every descriptor with something pending. -/
theorem nothing_stranded (env : Env) (ops : List Op)
    (h : Along (step env) (Single env) Server.init ops) :
    Safe (run (step env) Server.init ops) fun s =>
      s.events = [] → ∀ fd, Readable env s fd → s.notified fd = true := by
  refine (run_attended env ops h).mono fun s hs hnil => ?_
  unfold Attended at hs
  rw [hnil] at hs
  exact Covered.nil_iff.mp hs

/-- Two connections that are reported one by one, and a client read up to EAGAIN. -/
theorem one_by_one_nothing_stranded :
    ∃ s, run (step ⟨3, 4, by decide⟩) Server.init
      [.connect, .wait [⟨3, true⟩], .connect, .accept 5, .bytes 0 [7], .wait [⟨3, true⟩, ⟨5, true⟩],
        .accept 6, .recv (.data 1 1), .recv .again] = .ok s ∧
      ∀ fd, Readable ⟨3, 4, by decide⟩ s fd → s.notified fd = true := by
  have h := nothing_stranded ⟨3, 4, by decide⟩
    [.connect, .wait [⟨3, true⟩], .connect, .accept 5, .bytes 0 [7], .wait [⟨3, true⟩, ⟨5, true⟩],
      .accept 6, .recv (.data 1 1), .recv .again]
    (by
      exact ⟨trivial, trivial, trivial, .inr rfl, trivial, trivial, .inl (by decide), trivial,
        trivial, trivial⟩)
  exact ⟨_, rfl, h.of_ok rfl rfl⟩

/-- Two connections arrive before the first report. -/
theorem second_connection_is_stranded : ¬ ∀ env ops,
    Safe (run (step env) Server.init ops) fun s =>
      s.events = [] → ∀ fd, Readable env s fd → s.notified fd = true := by
  intro h
  have hn := (h ⟨3, 4, by decide⟩ [.connect, .connect, .wait [⟨3, true⟩], .accept 5]).of_ok
    rfl rfl 3 (by decide)
  cases hn

/-- On every open connection, what was accepted for sending is what was received, and every
datagram that fits the buffer was answered by one like it to its sender. The loop keeps no
bytes to be sent later. -/
structure Echoed (s : Server) : Prop where
  tcp : ∀ fd k, s.fds fd = some k → acceptedOn s k = s.received k
  udp : ∀ a ∈ s.answers, 1 ≤ a.1.payload.length → a.1.payload.length ≤ UDP_BUFFER_SIZE - 1 →
    a.2 = [a.1]

/-- The echo is exact just where no `send` on an open connection was short, and no datagram
received was shorter than the buffer, but for empty ones. -/
theorem echoed_iff (env : Env) (ops : List Op) :
    Safe (run (step env) Server.init ops) fun s => Echoed s ↔
      (∀ fd k, s.fds fd = some k → ∀ x ∈ sendsOn s k, x.buf.length ≤ x.accepted) ∧
      ∀ a ∈ s.answers, a.1.payload = [] ∨ UDP_BUFFER_SIZE - 1 ≤ a.1.payload.length := by
  refine (run_logged env ops).mono fun s w => ?_
  constructor
  · rintro ⟨tcp, udp⟩
    refine ⟨fun fd k hk => (w.accepted_iff k).mp (tcp fd k hk), fun a ha => ?_⟩
    by_cases hne : a.1.payload = []
    · exact .inl hne
    · right
      by_contra hshort
      have he := udp a ha (List.length_pos_iff.mpr hne) (by omega)
      rw [w.answered a ha, replies_eq_iff hne] at he
      omega
  · rintro ⟨tcp, udp⟩
    refine ⟨fun fd k hk => (w.accepted_iff k).mpr (tcp fd k hk), fun a ha hpos hle => ?_⟩
    have hne : a.1.payload ≠ [] := List.length_pos_iff.mp hpos
    have hge := (udp a ha).resolve_left hne
    rw [w.answered a ha, replies_eq_iff hne]
    omega

/-- A `send` that accepts one byte of two loses the other, and a datagram of two bytes is
answered by one of 1023. -/
theorem short_send_and_long_reply :
    (¬ ∀ env ops, Safe (run (step env) Server.init ops) fun s => s.events = [] →
      ∀ fd k, s.fds fd = some k → acceptedOn s k = s.received k) ∧
    ¬ ∀ env ops, Safe (run (step env) Server.init ops) fun s => s.events = [] →
      ∀ a ∈ s.answers, 1 ≤ a.1.payload.length → a.1.payload.length ≤ UDP_BUFFER_SIZE - 1 →
        a.2 = [a.1] := by
  constructor
  · intro h
    have he := (h ⟨3, 4, by decide⟩
      [.connect, .wait [⟨3, true⟩], .accept 5, .bytes 0 [1, 2], .wait [⟨5, true⟩],
        .recv (.data 2 1), .recv .again]).of_ok rfl rfl 5 0 rfl
    have lost : [(1 : UInt8)] = [1, 2] := he
    cases lost
  · intro h
    have he := (h ⟨3, 4, by decide⟩ [.datagram ⟨9, [1, 2]⟩, .wait [⟨4, true⟩], .recvfrom]).of_ok
      rfl rfl _ List.mem_cons_self (by decide) (by decide)
    have padded := congrArg (List.map fun d => d.payload.length) he
    revert padded
    decide +kernel

end LinuxDemo.Guarantees.EpollTcpUdp
