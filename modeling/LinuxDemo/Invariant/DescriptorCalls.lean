import LinuxDemo.Invariant.EpollLtEt
import LinuxDemo.Invariant.EpollTcpUdp
import LinuxDemo.Source.DescriptorCalls

/-!
# The descriptors of the edge-triggered loops

For each loop a step is judged: it leaves the descriptors tracked, unless `recv` returns 0,
behind which the loop calls `recv` on the number it has closed. In the chat room a chunk is
judged as well, by whether all that it is passed on to are connected.
-/
namespace LinuxDemo.Invariant
open LinuxDemo.Lib LinuxDemo.Source

namespace EpollTcpUdp
open LinuxDemo.Source.EpollTcpUdp
variable {env : Env} {s s' : Server} {op : Op} {e : Event} {rest : List Event} {uses : List FdCall}

def Opened (s : Server) (fd : Nat) : Prop := s.fds fd ≠ none

/-- A notification is for one of the two sockets or an open client. -/
def Registered (env : Env) (s : Server) : Prop :=
  ∀ fd, s.notified fd = true → fd = env.listenfd ∨ fd = env.udpfd ∨ s.fds fd ≠ none

theorem registered_init (env : Env) : Registered env Server.init :=
  fun _ h => by simp [Server.init] at h

/-- What is new is registered. -/
theorem Registered.raise (w : Registered env s) {fresh : Nat → Prop} [DecidablePred fresh]
    (hfresh : ∀ fd, fresh fd → fd = env.listenfd ∨ fd = env.udpfd ∨ s.fds fd ≠ none)
    (fds : s'.fds = s.fds) (notified : s'.notified = raise s.notified fresh) :
    Registered env s' := by
  intro fd hfd
  rw [fds]
  rw [notified, Lib.raise, Bool.or_eq_true, decide_eq_true_eq] at hfd
  rcases hfd with hold | hnew
  · exact w fd hold
  · exact hfresh fd hnew

theorem Registered.close (w : Registered env s) (fd : Nat) : Registered env (close s fd) := by
  intro d hd
  by_cases hne : d = fd
  · simp [Source.EpollTcpUdp.close, hne] at hd
  · simp only [Source.EpollTcpUdp.close, Function.update_of_ne hne] at hd ⊢
    exact w d hd

theorem Registered.acceptClient (w : Registered env s) (connfd k : Nat) (backlog : List Nat) :
    Registered env (acceptClient s connfd k backlog) := by
  intro d hd
  by_cases hne : d = connfd
  · simp [Source.EpollTcpUdp.acceptClient, hne]
  · simp only [Source.EpollTcpUdp.acceptClient, Function.update_of_ne hne] at hd ⊢
    exact w d hd

@[simp] theorem answer_fds (s : Server) : (answer s).fds = s.fds := by
  unfold answer
  split <;> rfl

@[simp] theorem answer_notified (s : Server) : (answer s).notified = s.notified := by
  unfold answer
  split <;> rfl

@[simp] theorem answer_events (s : Server) : (answer s).events = s.events := by
  unfold answer
  split <;> rfl

theorem step_registered (s : Server) (op : Op) (w : Registered env s) :
    Safe (step env s op) (Registered env) := by
  refine (step_effect env s op).mono fun s' he => ?_
  cases he with
  | connect => exact w.raise (fun _ h => .inl h) rfl rfl
  | datagram d => exact w.raise (fun _ h => .inr (.inl h)) rfl rfl
  | bytes k => exact w.raise (fun _ h => .inr (.inr (by simp [h]))) rfl rfl
  | fin k => exact w.raise (fun _ h => .inr (.inr (by simp [h]))) rfl rfl
  | wait events =>
    intro fd hfd
    simp only [report, Bool.and_eq_true] at hfd
    exact w fd hfd.1
  | @accept _ _ connfd k backlog => exact w.acceptClient connfd k backlog
  | recvfrom =>
    intro fd hfd
    rw [answer_notified] at hfd
    rw [answer_fds]
    exact w fd hfd
  | data => exact w
  | eof => exact w.close _
  | again => exact w
  | error => exact w.close _
  | closed => exact w
  | somethingElse => exact w

/-- The loop has called `recv`. -/
theorem recv_read {result : Recv} (h : step env s (.recv result) = .ok s')
    (front : s.events = e :: rest) : (e.report env).read = true := by
  simp only [step, front] at h
  split at h
  next hread => simpa [Event.report, and_assoc] using hread
  next => cases h

theorem calls_recv (front : s.events = e :: rest) (result : Recv) :
    calls s (.recv result) = readCalls e.fd result := by
  rw [calls, front]

theorem tracked_front (t : Tracked (Opened s) (batch env s) uses) (front : s.events = e :: rest) :
    Tracked (Opened s) (e.report env :: rest.map (Event.report env)) uses := by
  rwa [batch, front, List.map_cons] at t

theorem tracked_wait (t : Tracked (Opened s) (batch env s) uses) (w : Registered env s)
    {events : List Event} (ready : Reportable env s events) :
    Tracked (Opened s) (events.map (Event.report env)) uses := by
  apply t.reported _ ready.2.1
  intro e he hread
  have hclient : (e.fd ≠ env.listenfd ∧ e.fd ≠ env.udpfd) ∧ e.epollin = true := by
    simpa [Event.report] using hread
  rcases w e.fd (ready.2.2 e he).1 with hl | hu | hopen
  · exact absurd hl hclient.1.1
  · exact absurd hu hclient.1.2
  · exact hopen

theorem step_tracked (w : Registered env s) (t : Tracked (Opened s) (batch env s) uses)
    (hop : op ≠ .recv .eof) :
    Safe (step env s op) fun s' => Tracked (Opened s') (batch env s') (uses ++ calls s op) := by
  have idle : Tracked (Opened s) (batch env s) (uses ++ []) := by rwa [List.append_nil]
  refine (step_effect env s op).of_result fun s' hs' he => ?_
  cases he with
  | connect => exact idle
  | datagram => exact idle
  | bytes => exact idle
  | fin => exact idle
  | wait events none ready => exact tracked_wait idle w ready
  | accept front first listen apart free => exact (tracked_front t front).next.update_some free _
  | recvfrom front udp =>
    unfold Opened batch
    rw [answer_fds, answer_events]
    exact (tracked_front idle front).next
  | @data e rest k num2 accepted front client conn =>
    have opened : Opened s e.fd := by simp [Opened, conn]
    rw [calls_recv front]
    exact t.chunk opened (List.forall_mem_singleton.mpr opened)
  | eof => exact absurd rfl hop
  | @again e rest k front client conn =>
    have opened : Opened s e.fd := by simp [Opened, conn]
    rw [calls_recv front]
    exact (tracked_front t front).next.recv opened
  | @error e rest k front client conn =>
    have opened : s.fds (e.report env).fd ≠ none := by simp [Event.report, conn]
    rw [calls_recv front]
    exact (tracked_front t front).update_none opened
  | @closed e rest front client gone =>
    -- while the descriptors are tracked no `recv` is called on a closed one
    have opened := t.known (e.report env) (by simp [batch, front]) (recv_read hs' front)
    exact absurd gone opened
  | somethingElse front => exact (tracked_front idle front).next

theorem eof_lost (t : Tracked (Opened s) (batch env s) uses) :
    Safe (step env s (.recv .eof)) fun s' =>
      ¬ CallsInOrder (uses ++ calls s (.recv .eof)) (batch env s') := by
  refine (step_effect env s (.recv .eof)).of_result fun s' hs' he => ?_
  cases he with
  | @eof e rest k front client conn ended =>
    have opened : Opened s (e.report env).fd := by simp [Opened, Event.report, conn]
    have hbatch : batch env (close s e.fd) = e.report env :: rest.map (Event.report env) := by
      simp [batch, close, front]
    rw [calls_recv front, hbatch]
    exact (tracked_front t front).not_callsInOrder_close opened (recv_read hs' front)

/-- A step is judged by whether it is a `recv` that returns 0. -/
theorem step_judged (w : Registered env s) (t : Tracked (Opened s) (batch env s) uses) (op : Op) :
    Safe (step env s op) fun s' =>
      Judged (op ≠ .recv .eof) (Opened s') (batch env s') (uses ++ calls s op) := by
  by_cases hop : op = .recv .eof
  · subst hop
    exact (eof_lost t).mono fun s' lost => .of_lost lost fun hne => hne rfl
  · exact (step_tracked w t hop).mono fun s' tracked => .of_tracked tracked hop

end EpollTcpUdp

namespace EpollLtEt
open LinuxDemo.Source.EpollLtEt
variable {env : Env} {s s' : Server} {op : Op} {e : Event} {rest : List Event} {uses : List FdCall}

def Opened (s : Server) (fd : Nat) : Prop := s.fds fd ≠ none

theorem stepET_of_ne (h : op ≠ .recv .error) : stepET env s op = step env .useET s op := by
  unfold stepET
  split
  next => exact absurd rfl h
  next => rfl

/-- `use_ET` has called `recv`. -/
theorem recv_read {result : Recv} (h : step env .useET s (.recv result) = .ok s')
    (front : s.events = e :: rest) : (e.report env).read = true := by
  simp only [step, front] at h
  split at h
  next hread => simpa [Event.report] using hread
  next => cases h

theorem calls_recv (front : s.events = e :: rest) (result : Recv) :
    calls s (.recv result) = readCalls e.fd result := by
  rw [calls, front]

theorem tracked_front (t : Tracked (Opened s) (batch env s) uses) (front : s.events = e :: rest) :
    Tracked (Opened s) (e.report env :: rest.map (Event.report env)) uses := by
  rwa [batch, front, List.map_cons] at t

/-- What is pending is the listening socket's or open. -/
theorem opened_of_pending {fd : Nat} (hl : fd ≠ env.listenfd) (h : Pending env s fd) :
    Opened s fd := by
  intro hnone
  simp [Pending, hl, hnone] at h

theorem tracked_wait (t : Tracked (Opened s) (batch env s) uses) {events : List Event}
    (ready : Reportable env s events) :
    Tracked (Opened s) (events.map (Event.report env)) uses := by
  apply t.reported _ ready.2.1
  intro e he hread
  have hclient : e.fd ≠ env.listenfd ∧ e.epollin = true := by simpa [Event.report] using hread
  exact opened_of_pending hclient.1 (ready.2.2 e he).1

theorem stepET_safe (env : Env) (s : Server) (op : Op) : Safe (stepET env s op) fun _ => True := by
  by_cases herr : op = .recv .error
  · subst herr
    simp only [stepET]
    split
    next =>
      split
      next => trivial
      next => rfl
    next => rfl
  · rw [stepET_of_ne herr]
    exact (step_effect env .useET s op).mono fun _ _ => trivial

/-- Behind an error the number in front is closed; while the descriptors are tracked it was
open. -/
theorem error_tracked (t : Tracked (Opened s) (batch env s) uses) :
    Safe (stepET env s (.recv .error)) fun s' =>
      Tracked (Opened s') (batch env s') (uses ++ calls s (.recv .error)) := by
  simp only [stepET]
  split
  next e rest front =>
    split
    next hread =>
      have opened : s.fds (e.report env).fd ≠ none := by
        apply t.known (e.report env)
        · simp [batch, front]
        · simpa [Event.report] using hread
      obtain ⟨c, hc⟩ : ∃ c, s.fds e.fd = some c := Option.ne_none_iff_exists'.mp opened
      rw [calls_recv front, close_of_open hc]
      exact (tracked_front t front).update_none opened
    next => rfl
  next => rfl

theorem step_tracked (t : Tracked (Opened s) (batch env s) uses) (hop : op ≠ .recv .eof) :
    Safe (stepET env s op) fun s' =>
      Tracked (Opened s') (batch env s') (uses ++ calls s op) := by
  have idle : Tracked (Opened s) (batch env s) (uses ++ []) := by rwa [List.append_nil]
  by_cases herr : op = .recv .error
  · subst herr
    exact error_tracked t
  · rw [stepET_of_ne herr]
    refine (step_effect env .useET s op).mono fun s' he => ?_
    cases he with
    | connect => exact idle
    | bytes => exact idle
    | fin => exact idle
    | wait events none ready => exact tracked_wait idle ready
    | refused front listen => exact (tracked_front idle front).next
    | accept front listen first apart free =>
      exact (tracked_front t front).next.update_some free _
    | @data e rest c ret front client conn =>
      have opened : Opened s e.fd := by simp [Opened, conn]
      rw [calls_recv front]
      exact (tracked_front t front).recv opened
    | eof => exact absurd rfl hop
    | givenUp level => cases level
    | @again e rest c edge front client conn =>
      have opened : Opened s e.fd := by simp [Opened, conn]
      rw [calls_recv front]
      exact (tracked_front t front).next.recv opened
    | gone => exact absurd rfl herr
    | somethingElse front => exact (tracked_front idle front).next

theorem eof_lost (t : Tracked (Opened s) (batch env s) uses) :
    Safe (stepET env s (.recv .eof)) fun s' =>
      ¬ CallsInOrder (uses ++ calls s (.recv .eof)) (batch env s') := by
  rw [stepET_of_ne (by simp)]
  refine (step_effect env .useET s (.recv .eof)).of_result fun s' hs' he => ?_
  cases he with
  | @eof e rest c front client conn ended =>
    have opened : Opened s (e.report env).fd := by simp [Opened, Event.report, conn]
    rw [calls_recv front]
    exact (tracked_front t front).not_callsInOrder_close opened (recv_read hs' front)

theorem step_judged (t : Tracked (Opened s) (batch env s) uses) (op : Op) :
    Safe (stepET env s op) fun s' =>
      Judged (op ≠ .recv .eof) (Opened s') (batch env s') (uses ++ calls s op) := by
  by_cases hop : op = .recv .eof
  · subst hop
    exact (eof_lost t).mono fun s' lost => .of_lost lost fun hne => hne rfl
  · exact (step_tracked t hop).mono fun s' tracked => .of_tracked tracked hop

end EpollLtEt

namespace EpollChatroom
open LinuxDemo.Source.EpollChatroom
variable {listenfd : Nat} {s s' : Server} {e : Event} {rest : List Event} {uses : List FdCall}

def Opened (s : Server) (fd : Nat) : Prop := fd ∈ s.connected

/-- `recv` does not return 0, and a chunk comes when all members of `client_list_fd` but its
sender are connected. -/
def Proper (s : Server) : Op → Prop
  | .recv .eof => False
  | .recv (.data _) =>
    ∀ e ∈ s.events.head?, ∀ fd ∈ s.clientListFd, fd ≠ e.fd → fd ∈ s.connected
  | _ => True

theorem readOnce_safe (s : Server) (fd : Nat) (rest : List Event) (result : Recv) :
    Safe (readOnce s fd rest result) fun _ => True := by
  cases result with
  | error => trivial
  | _ =>
    simp only [readOnce]
    split
    next => trivial
    next => rfl

theorem step_safe (listenfd : Nat) (s : Server) (op : Op) :
    Safe (step listenfd s op) fun _ => True := by
  cases op with
  | wait =>
    simp only [step]
    split
    next => trivial
    next => rfl
  | recv result =>
    simp only [step]
    split
    next =>
      split
      next => exact readOnce_safe s _ _ result
      next => rfl
    next => rfl
  | _ =>
    simp only [step]
    split
    next =>
      split
      next => trivial
      next => rfl
    next => rfl

theorem calls_recv (front : s.events = e :: rest) (result : Recv) :
    calls s (.recv result) = readCalls s.clientListFd e.fd result := by
  rw [calls, front]

theorem tracked_front (t : Tracked (Opened s) (batch listenfd s) uses)
    (front : s.events = e :: rest) :
    Tracked (Opened s) (e.report listenfd :: rest.map (Event.report listenfd)) uses := by
  rwa [batch, front, List.map_cons] at t

theorem tracked_wait (t : Tracked (Opened s) (batch listenfd s) uses) {events : List Event}
    (ready : Reportable listenfd s events) :
    Tracked (Opened s) (events.map (Event.report listenfd)) uses := by
  apply t.reported _ ready.1
  intro e he hread
  have hclient : e.fd ≠ listenfd ∧ e.epollin = true := by simpa [Event.report] using hread
  exact (ready.2 e he).resolve_left hclient.1

theorem close_of_open {fd : Nat} (hfd : fd ∈ s.connected) :
    close s fd = { s with connected := s.connected.erase fd, closed := s.closed ++ [fd] } := by
  rw [close, if_pos hfd]

/-- The descriptor in front is closed, and its event may be done with or not. -/
theorem tracked_close (nodup : s.connected.Nodup) (t : Tracked (Opened s) (batch listenfd s) uses)
    (front : s.events = e :: rest) (opened : e.fd ∈ s.connected) :
    Tracked (fun d => d ∈ s.connected.erase e.fd) (rest.map (Event.report listenfd))
      (uses ++ [.recv e.fd true, .close e.fd]) := by
  have hclosed := (tracked_front t front).close (r := e.report listenfd) opened
  exact hclosed.congr fun d => nodup.mem_erase_iff

/-- A round of the read loop, on the event in front. -/
theorem readOnce_judged (nodup : s.connected.Nodup)
    (t : Tracked (Opened s) (batch listenfd s) uses) (front : s.events = e :: rest)
    (hread : (e.report listenfd).read = true) (result : Recv) :
    Safe (readOnce s e.fd rest result) fun s' => s'.connected.Nodup ∧
      Judged (Proper s (.recv result)) (Opened s') (batch listenfd s')
        (uses ++ readCalls s.clientListFd e.fd result) := by
  have opened : e.fd ∈ s.connected :=
    t.known (e.report listenfd) (by simp [batch, front]) hread
  cases result with
  | data buf =>
    simp only [readOnce]
    split
    next =>
      refine ⟨nodup, fun hproper => ?_, fun hnot => ?_⟩
      · apply t.chunk opened
        intro fd hfd
        obtain ⟨hmem, hne⟩ := List.mem_filter.mp hfd
        exact hproper e (by simp [front]) fd hmem (by simpa using hne)
      · obtain ⟨fd, hmem, hne, hclosed⟩ : ∃ fd ∈ s.clientListFd, fd ≠ e.fd ∧ fd ∉ s.connected := by
          simpa [Proper, front] using hnot
        exact t.not_callsInOrder_chunk hne hclosed (List.mem_filter.mpr ⟨hmem, by simpa using hne⟩)
    next => rfl
  | eof =>
    simp only [readOnce, if_pos opened, close_of_open opened]
    refine ⟨nodup.erase e.fd, .of_lost ?_ not_false⟩
    unfold batch
    rw [front, List.map_cons]
    exact (tracked_front t front).not_callsInOrder_close (r := e.report listenfd) opened hread
  | again =>
    simp only [readOnce, if_pos opened]
    exact ⟨nodup, .of_tracked ((tracked_front t front).next.recv opened) trivial⟩
  | error =>
    simp only [readOnce, close_of_open opened]
    exact ⟨nodup.erase e.fd, .of_tracked (tracked_close nodup t front opened) trivial⟩

theorem step_judged (nodup : s.connected.Nodup) (t : Tracked (Opened s) (batch listenfd s) uses)
    (op : Op) :
    Safe (step listenfd s op) fun s' => s'.connected.Nodup ∧
      Judged (Proper s op) (Opened s') (batch listenfd s') (uses ++ calls s op) := by
  have idle : Tracked (Opened s) (batch listenfd s) (uses ++ []) := by rwa [List.append_nil]
  cases op with
  | wait events =>
    simp only [step]
    split
    next h => exact ⟨nodup, .of_tracked (tracked_wait idle h.2) trivial⟩
    next => rfl
  | accept connfd =>
    simp only [step]
    split
    next e rest front =>
      split
      next h =>
        refine ⟨?_, .of_tracked ?_ trivial⟩
        · exact nodup.append (List.nodup_singleton connfd) (by simpa using h.2.2)
        · apply ((tracked_front t front).next.accept h.2.2).congr
          intro d
          simp [Opened, or_comm]
      next => rfl
    next => rfl
  | recv result =>
    simp only [step]
    split
    next e rest front =>
      split
      next h =>
        rw [calls_recv front]
        exact readOnce_judged nodup t front (by simpa [Event.report] using h) result
      next => rfl
    next => rfl
  | somethingElse =>
    simp only [step]
    split
    next e rest front =>
      split
      next => exact ⟨nodup, .of_tracked (tracked_front idle front).next trivial⟩
      next => rfl
    next => rfl

end EpollChatroom
end LinuxDemo.Invariant
