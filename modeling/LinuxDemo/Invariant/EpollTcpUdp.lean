import LinuxDemo.Source.EpollTcpUdp

/-!
# What the TCP and UDP server leaves pending

`Effect` says once what an operation does; what is kept is proved from it, case by case.

Clients are read until there is nothing left, a listening or UDP socket is not: there
`Single` asks that one call takes all there is, or that the socket is notified again.
-/
namespace LinuxDemo.Invariant.EpollTcpUdp
open LinuxDemo.Lib LinuxDemo.Source.EpollTcpUdp

/-- What an operation does where it is possible. -/
inductive Effect (env : Env) (s : Server) : Op → Server → Prop where
  | connect : Effect env s .connect { s with
      backlog := s.backlog ++ [s.made]
      made := s.made + 1
      notified := raise s.notified (· = env.listenfd) }
  | datagram (d : Datagram) : Effect env s (.datagram d) { s with
      datagrams := s.datagrams ++ [d]
      notified := raise s.notified (· = env.udpfd) }
  | bytes (k : Nat) (buf : List UInt8) (made : k < s.made)
    (more : (s.conns k).eof = false ∧ buf ≠ []) :
    Effect env s (.bytes k buf) (arrive s k ⟨(s.conns k).input ++ buf, false⟩)
  | fin (k : Nat) (made : k < s.made) :
    Effect env s (.fin k) (arrive s k ⟨(s.conns k).input, true⟩)
  | wait (events : List Event) (none : s.events = []) (ready : Reportable env s events) :
    Effect env s (.wait events) { s with
      events := events
      notified := report s.notified (events.map Event.fd) }
  | accept {e : Event} {rest : List Event} {connfd k : Nat} {backlog : List Nat}
    (front : s.events = e :: rest) (first : s.backlog = k :: backlog) (listen : e.fd = env.listenfd)
    (apart : connfd ≠ env.listenfd ∧ connfd ≠ env.udpfd) (free : s.fds connfd = none) :
    Effect env s (.accept connfd) (acceptClient { s with events := rest } connfd k backlog)
  | recvfrom {e : Event} {rest : List Event} (front : s.events = e :: rest)
    (udp : e.fd = env.udpfd) : Effect env s .recvfrom (answer { s with events := rest })
  | data {e : Event} {rest : List Event} {k num2 accepted : Nat} (front : s.events = e :: rest)
    (client : e.fd ≠ env.listenfd ∧ e.fd ≠ env.udpfd) (conn : s.fds e.fd = some k)
    (chunk : 0 < num2 ∧ num2 ≤ TCP_BUFFER_SIZE - 1 ∧ num2 ≤ (s.conns k).input.length)
    (short : accepted ≤ num2) :
    Effect env s (.recv (.data num2 accepted)) { s with
      conns := Function.update s.conns k ⟨(s.conns k).input.drop num2, (s.conns k).eof⟩
      received := Function.update s.received k (s.received k ++ (s.conns k).input.take num2)
      sends := s.sends ++ [⟨k, (s.conns k).input.take num2, accepted⟩] }
  | eof {e : Event} {rest : List Event} {k : Nat} (front : s.events = e :: rest)
    (client : e.fd ≠ env.listenfd ∧ e.fd ≠ env.udpfd) (conn : s.fds e.fd = some k)
    (ended : (s.conns k).input = [] ∧ (s.conns k).eof = true) :
    Effect env s (.recv .eof) (close s e.fd)
  | again {e : Event} {rest : List Event} {k : Nat} (front : s.events = e :: rest)
    (client : e.fd ≠ env.listenfd ∧ e.fd ≠ env.udpfd) (conn : s.fds e.fd = some k)
    (drained : (s.conns k).input = [] ∧ (s.conns k).eof = false) :
    Effect env s (.recv .again) { s with events := rest }
  | error {e : Event} {rest : List Event} {k : Nat} (front : s.events = e :: rest)
    (client : e.fd ≠ env.listenfd ∧ e.fd ≠ env.udpfd) (conn : s.fds e.fd = some k) :
    Effect env s (.recv .error) { close s e.fd with events := rest }
  | closed {e : Event} {rest : List Event} (front : s.events = e :: rest)
    (client : e.fd ≠ env.listenfd ∧ e.fd ≠ env.udpfd) (gone : s.fds e.fd = none) :
    Effect env s (.recv .error) { s with events := rest }
  | somethingElse {e : Event} {rest : List Event} (front : s.events = e :: rest)
    (out : e.epollin = false) : Effect env s .somethingElse { s with events := rest }

theorem readOnce_effect {env : Env} {s : Server} {e : Event} {rest : List Event} (result : Recv)
    (he : s.events = e :: rest) (hclient : e.fd ≠ env.listenfd ∧ e.fd ≠ env.udpfd) :
    Safe (readOnce s e.fd rest result) (Effect env s (.recv result)) := by
  unfold readOnce
  split
  next hgone =>
    split
    next herr =>
      subst herr
      exact .closed he hclient hgone
    next => simp
  next k hconn =>
    cases result with
    | data num2 accepted =>
      dsimp only
      split
      next h => exact .data he hclient hconn ⟨h.1, h.2.1, h.2.2.1⟩ h.2.2.2
      next => simp
    | eof =>
      dsimp only
      split
      next hend => exact .eof he hclient hconn hend
      next => simp
    | again =>
      dsimp only
      split
      next hnone => exact .again he hclient hconn (by simpa using hnone)
      next => simp
    | error => exact .error he hclient hconn

theorem step_effect (env : Env) (s : Server) (op : Op) :
    Safe (step env s op) (Effect env s op) := by
  cases op with
  | connect => exact .connect
  | datagram d => exact .datagram d
  | bytes k buf =>
    simp only [step]
    split
    next h => exact .bytes k buf h.1 h.2
    next => simp
  | fin k =>
    simp only [step]
    split
    next h => exact .fin k h
    next => simp
  | wait events =>
    simp only [step]
    split
    next h => exact .wait events h.1 h.2
    next => simp
  | accept connfd =>
    simp only [step]
    split
    next e rest k backlog he hb =>
      split
      next h => exact .accept he hb h.1 ⟨h.2.1, h.2.2.1⟩ h.2.2.2
      next => simp
    next => simp
  | recvfrom =>
    simp only [step]
    split
    next e rest he =>
      split
      next h => exact .recvfrom he h.2
      next => simp
    next => simp
  | recv result =>
    simp only [step]
    split
    next e rest he =>
      split
      next h => exact readOnce_effect result he ⟨h.1, h.2.1⟩
      next => simp
    next => simp
  | somethingElse =>
    simp only [step]
    split
    next e rest he =>
      split
      next h => exact .somethingElse he (by simpa using h.2.2)
      next => simp
    next => simp

/-- The reports still to be handled that lead to a call on the descriptor. -/
def reports (events : List Event) : List Nat := (events.filter Event.epollin).map Event.fd

/-- Whatever is there has a notification, or a report still to be handled. -/
def Attended (env : Env) (s : Server) : Prop :=
  Covered (Readable env s) s.notified (reports s.events)

/-- One call of `accept` or `recvfrom` takes all there is, or it is notified again. -/
def Single (env : Env) (s : Server) : Op → Prop
  | .accept _ => s.backlog.length ≤ 1 ∨ s.notified env.listenfd = true
  | .recvfrom => s.datagrams.length ≤ 1 ∨ s.notified env.udpfd = true
  | _ => True

theorem attended_init (env : Env) : Attended env Server.init := by
  intro fd hfd
  unfold Readable at hfd
  split at hfd
  · exact absurd rfl hfd
  · split at hfd
    · exact absurd rfl hfd
    · exact hfd.elim

section Steps
variable {env : Env} {s s' : Server} {e : Event} {rest : List Event}

/-- A client, as the event table sees it. -/
theorem readable_client {fd : Nat} (hl : fd ≠ env.listenfd) (hu : fd ≠ env.udpfd) :
    Readable env s fd ↔
      ∃ k, s.fds fd = some k ∧ ((s.conns k).input ≠ [] ∨ (s.conns k).eof = true) := by
  unfold Readable
  rw [if_neg hl, if_neg hu]
  cases s.fds fd <;> simp

/-- What is readable at one descriptor depends on this alone. -/
theorem Readable.imp {fd : Nat} (h : Readable env s' fd)
    (hl : fd = env.listenfd → s'.backlog ≠ [] → s.backlog ≠ [])
    (hu : fd = env.udpfd → s'.datagrams ≠ [] → s.datagrams ≠ [])
    (hc : ∀ k, s'.fds fd = some k → ((s'.conns k).input ≠ [] ∨ (s'.conns k).eof = true) →
      s.fds fd = some k ∧ ((s.conns k).input ≠ [] ∨ (s.conns k).eof = true)) :
    Readable env s fd := by
  by_cases el : fd = env.listenfd
  · subst el
    simp only [Readable, if_true] at h ⊢
    exact hl rfl h
  · by_cases eu : fd = env.udpfd
    · subst eu
      simp only [Readable, if_neg el, if_true] at h ⊢
      exact hu rfl h
    · obtain ⟨k, hk, hin⟩ := (readable_client el eu).mp h
      exact (readable_client el eu).mpr ⟨k, hc k hk hin⟩

theorem reports_next (e : Event) (rest : List Event) :
    ∀ fd ∈ reports (e :: rest), fd ∈ e.fd :: reports rest := by
  intro fd hfd
  unfold reports at hfd ⊢
  rw [List.filter_cons] at hfd
  split at hfd
  · exact hfd
  · exact List.mem_cons_of_mem _ hfd

/-- The event in front is being handled. -/
theorem Attended.front (h : Attended env s) (he : s.events = e :: rest) :
    Covered (Readable env s) s.notified (e.fd :: reports rest) := by
  unfold Attended at h
  rw [he] at h
  exact h.mono (reports_next e rest)

theorem connect_attended (h : Attended env s) : Attended env { s with
    backlog := s.backlog ++ [s.made]
    made := s.made + 1
    notified := raise s.notified (· = env.listenfd) } := by
  refine Covered.raise h (· = env.listenfd) fun fd hfd => ?_
  by_cases e : fd = env.listenfd
  · exact .inr e
  · exact .inl (Readable.imp hfd (fun h => absurd h e) (fun _ h => h) (fun k hk hin => ⟨hk, hin⟩))

theorem datagram_attended (d : Datagram) (h : Attended env s) : Attended env { s with
    datagrams := s.datagrams ++ [d]
    notified := raise s.notified (· = env.udpfd) } := by
  refine Covered.raise h (· = env.udpfd) fun fd hfd => ?_
  by_cases e : fd = env.udpfd
  · exact .inr e
  · exact .inl (Readable.imp hfd (fun _ h => h) (fun h => absurd h e) (fun k hk hin => ⟨hk, hin⟩))

theorem arrive_attended (k : Nat) (conn : Conn) (h : Attended env s) :
    Attended env (arrive s k conn) := by
  refine Covered.raise h (fun fd => s.fds fd = some k) fun fd hfd => ?_
  by_cases e : s.fds fd = some k
  · exact .inr e
  · refine .inl (Readable.imp hfd (fun _ h => h) (fun _ h => h) (fun j hj hin => ⟨hj, ?_⟩))
    have hne : j ≠ k := by
      rintro rfl
      exact e hj
    simpa [arrive, hne] using hin

theorem wait_attended {events : List Event} (h : Attended env s) (hnil : s.events = [])
    (hready : Reportable env s events) : Attended env { s with
      events := events
      notified := report s.notified (events.map Event.fd) } := by
  have h₀ : Covered (Readable env s) s.notified [] := by
    unfold Attended at h
    rwa [hnil] at h
  refine Covered.report h₀ (events.map Event.fd) fun fd hmem hr => ?_
  obtain ⟨e, he, rfl⟩ := List.mem_map.mp hmem
  exact List.mem_map_of_mem (List.mem_filter.mpr ⟨he, (hready.2.2 e he).2 hr⟩)

/-- One connection is accepted; what it has brought is notified at once. -/
theorem accept_attended {connfd k : Nat} {backlog : List Nat} (h : Attended env s)
    (he : s.events = e :: rest) (hb : s.backlog = k :: backlog) (hl : e.fd = env.listenfd)
    (hconn : connfd ≠ env.listenfd) (hudp : connfd ≠ env.udpfd)
    (hs : Single env s (.accept connfd)) :
    Attended env (acceptClient { s with events := rest } connfd k backlog) := by
  have front := h.front he
  rw [hl] at front
  have left : Covered (Readable env { s with backlog := backlog, events := rest }) s.notified
      (reports rest) := by
    refine front.serve (fun hr => .inl ?_) fun fd hne hr => ?_
    · rcases hs with hs | hs
      · rw [hb, List.length_cons] at hs
        have hnil : backlog = [] := List.length_eq_zero_iff.mp (by omega)
        simp [Readable, hnil] at hr
      · exact hs
    · exact Readable.imp hr (fun h => absurd h hne) (fun _ h => h) (fun j hj hin => ⟨hj, hin⟩)
  refine left.register (fun hr => ?_) fun fd hne hr => ?_
  · obtain ⟨j, hj, hin⟩ := (readable_client hconn hudp).mp hr
    obtain rfl : k = j := by simpa [acceptClient] using hj
    simpa [acceptClient] using hin
  · refine Readable.imp hr (fun _ h => h) (fun _ h => h) (fun j hj hin => ⟨?_, hin⟩)
    simpa [acceptClient, hne] using hj

theorem recvfrom_attended (h : Attended env s) (he : s.events = e :: rest)
    (hu : e.fd = env.udpfd) (hs : Single env s .recvfrom) :
    Attended env (answer { s with events := rest }) := by
  have front := h.front he
  rw [hu] at front
  unfold answer
  split
  next hnil =>
    dsimp only at hnil
    refine front.serve (fun hr => ?_) fun fd _ hr => hr
    simp [Readable, env.distinct.symm, hnil] at hr
  next d datagrams hcons =>
    dsimp only at hcons
    refine front.serve (fun hr => .inl ?_) fun fd hne hr => ?_
    · rcases hs with hs | hs
      · rw [hcons, List.length_cons] at hs
        have hnil : datagrams = [] := List.length_eq_zero_iff.mp (by omega)
        simp [Readable, env.distinct.symm, hnil] at hr
      · exact hs
    · exact Readable.imp hr (fun _ h => h) (fun h => absurd h hne) (fun j hj hin => ⟨hj, hin⟩)

/-- A closed descriptor has nothing to read and no notification. -/
theorem close_attended {fd : Nat} {reps : List Nat} (hl : fd ≠ env.listenfd)
    (hu : fd ≠ env.udpfd) (h : Covered (Readable env s) s.notified reps) :
    Covered (Readable env (close s fd)) (close s fd).notified reps := by
  refine h.register (fun hr => ?_) fun fd' hne hr => ?_
  · obtain ⟨k, hk, -⟩ := (readable_client hl hu).mp hr
    simp [close] at hk
  · refine Readable.imp hr (fun _ h => h) (fun _ h => h) (fun j hj hin => ⟨?_, hin⟩)
    simpa [close, hne] using hj

/-- The bytes of a connection are taken from the front. -/
theorem data_attended {k num2 : Nat} {received : Nat → List UInt8} {sends : List Send}
    (h : Attended env s) : Attended env { s with
      conns := Function.update s.conns k ⟨(s.conns k).input.drop num2, (s.conns k).eof⟩
      received := received
      sends := sends } := by
  refine h.shrink fun fd hr => ?_
  refine Readable.imp hr (fun _ h => h) (fun _ h => h) (fun j hj hin => ⟨hj, ?_⟩)
  by_cases ej : j = k
  · subst ej
    simp only [Function.update_self] at hin
    exact hin.imp_left fun hd hnil => hd (by simp [hnil])
  · simpa [ej] using hin

/-- Nothing is left to read at the client whose event is done with. -/
theorem Attended.next {notified : Nat → Bool} (hl : e.fd ≠ env.listenfd) (hu : e.fd ≠ env.udpfd)
    (h : Covered (Readable env s) notified (e.fd :: reports rest))
    (hnone : ∀ k, s.fds e.fd = some k → (s.conns k).input = [] ∧ (s.conns k).eof = false) :
    Covered (Readable env s) notified (reports rest) := by
  refine h.serve (fun hr => ?_) fun fd _ hr => hr
  obtain ⟨k, hk, hin⟩ := (readable_client hl hu).mp hr
  simp [hnone k hk] at hin

theorem step_attended (env : Env) (s : Server) (op : Op) (h : Attended env s)
    (hs : Single env s op) : Safe (step env s op) (Attended env) := by
  refine (step_effect env s op).mono fun s' he => ?_
  cases he with
  | connect => exact connect_attended h
  | datagram d => exact datagram_attended d h
  | bytes k => exact arrive_attended k _ h
  | fin k => exact arrive_attended k _ h
  | wait events hnil hready => exact wait_attended h hnil hready
  | accept front first listen apart => exact accept_attended h front first listen apart.1 apart.2 hs
  | recvfrom front udp => exact recvfrom_attended h front udp hs
  | data => exact data_attended h
  | eof front client => exact close_attended client.1 client.2 h
  | again front client conn drained =>
    refine Attended.next client.1 client.2 (h.front front) fun j hj => ?_
    obtain rfl : _ = j := Option.some.inj (conn.symm.trans hj)
    exact drained
  | error front client =>
    have closed := close_attended client.1 client.2 (h.front front)
    exact Attended.next client.1 client.2 closed fun k hk => by simp [close] at hk
  | closed front client gone =>
    refine Attended.next client.1 client.2 (h.front front) fun k hk => ?_
    rw [gone] at hk
    cases hk
  | @somethingElse e rest front out =>
    have same : reports s.events = reports rest := by simp [front, reports, out]
    unfold Attended at h
    rw [same] at h
    exact h

end Steps

theorem run_attended (env : Env) (ops : List Op)
    (h : Along (step env) (Single env) Server.init ops) :
    Safe (run (step env) Server.init ops) (Attended env) :=
  run_ends_along (step env) (step_attended env) (attended_init env) ops h

/-! ## `accept` finds a connection -/

/-- Every notification and every report of the listening socket has a connection of its own. -/
structure Backed (env : Env) (s : Server) : Prop where
  enough : (if s.notified env.listenfd then 1 else 0) +
    (s.events.map Event.fd).count env.listenfd ≤ s.backlog.length
  apart : s.fds env.listenfd = none

theorem backed_init (env : Env) : Backed env Server.init := ⟨Nat.le_refl 0, rfl⟩

section Backed
variable {env : Env} {s s' : Server} {fd : Nat} {rest : List Event}

/-- The listening socket has what it had. -/
theorem Backed.congr (h : Backed env s) (hbacklog : s'.backlog = s.backlog)
    (hevents : s'.events.Sublist s.events)
    (hnotified : s'.notified env.listenfd = s.notified env.listenfd)
    (hfds : s'.fds env.listenfd = s.fds env.listenfd) : Backed env s' := by
  constructor
  · have hcount := (hevents.map Event.fd).count_le env.listenfd
    have henough := h.enough
    rw [hbacklog, hnotified]
    omega
  · rw [hfds, h.apart]

theorem Backed.close (h : Backed env s) (hl : fd ≠ env.listenfd) : Backed env (close s fd) :=
  h.congr rfl (List.Sublist.refl _) (Function.update_of_ne hl.symm _ _)
    (Function.update_of_ne hl.symm _ _)

theorem Backed.next (h : Backed env s) (hrest : rest.Sublist s.events) :
    Backed env { s with events := rest } := h.congr rfl hrest rfl rfl

theorem Backed.arrived (h : Backed env s) (k : Nat) (conn : Conn) : Backed env (arrive s k conn) := by
  refine h.congr rfl (List.Sublist.refl _) ?_ rfl
  simp [arrive, raise, h.apart]

/-- A report takes a notification away. -/
theorem wait_backed {events : List Event} (h : Backed env s) (hnil : s.events = [])
    (hready : Reportable env s events) : Backed env { s with
      events := events
      notified := report s.notified (events.map Event.fd) } := by
  obtain ⟨-, hnodup, hfd⟩ := hready
  have enough := h.enough
  rw [hnil] at enough
  refine ⟨?_, h.apart⟩
  by_cases hmem : env.listenfd ∈ events.map Event.fd
  · obtain ⟨e, he, hl⟩ := List.mem_map.mp hmem
    have hn : s.notified env.listenfd = true := hl ▸ (hfd e he).1
    simpa [report, hmem, hnodup.count, hn] using enough
  · simpa [report, hmem, hnodup.count] using enough

theorem answer_backed (h : Backed env s) : Backed env (answer s) := by
  unfold answer
  split
  next => exact h
  next => exact ⟨h.enough, h.apart⟩

theorem step_backed (env : Env) (s : Server) (op : Op) (h : Backed env s) :
    Safe (step env s op) (Backed env) := by
  have shorter {e : Event} {rest : List Event} (front : s.events = e :: rest) :
      rest.Sublist s.events := front ▸ List.sublist_cons_self e rest
  refine (step_effect env s op).mono fun s' he => ?_
  cases he with
  | connect =>
    have enough := h.enough
    refine ⟨?_, h.apart⟩
    simp only [List.length_append, List.length_singleton]
    split <;> omega
  | datagram d =>
    exact h.congr rfl (List.Sublist.refl s.events) (by simp [raise, env.distinct]) rfl
  | bytes k => exact h.arrived k _
  | fin k => exact h.arrived k _
  | wait events hnil hready => exact wait_backed h hnil hready
  | accept front first listen apart =>
    have enough := h.enough
    simp only [front, first, List.map_cons, listen, List.count_cons_self, List.length_cons] at enough
    constructor
    · simp only [acceptClient, Function.update_of_ne apart.1.symm]
      omega
    · simpa [acceptClient, apart.1.symm] using h.apart
  | recvfrom front => exact answer_backed (h.next (shorter front))
  | data => exact ⟨h.enough, h.apart⟩
  | eof front client => exact h.close client.1
  | error front client => exact (h.close client.1).next (shorter front)
  | again front => exact h.next (shorter front)
  | closed front => exact h.next (shorter front)
  | somethingElse front => exact h.next (shorter front)

theorem run_backed (env : Env) (ops : List Op) :
    Safe (run (step env) Server.init ops) (Backed env) :=
  run_ends (step env) (step_backed env) (backed_init env) ops

end Backed
end LinuxDemo.Invariant.EpollTcpUdp
