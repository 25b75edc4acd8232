import LinuxDemo.Invariant.ChatMember
import LinuxDemo.Lib.Counting
import LinuxDemo.Lib.Progress
import LinuxDemo.Lib.SharedLog

/-!
# The chat room as a whole

One log of chunks orders all that is said. Whoever has been accepted is shown, or has on the
way to him, what the others have put there since; what he has typed is in the log, on the way
to it, or unread. Everything on its way is announced to who is to take it.
-/
namespace LinuxDemo.Invariant.ChatRoom
open LinuxDemo.Lib LinuxDemo.Source LinuxDemo.Source.ChatRoom

/-- The server behind a chunk. -/
def chunkRead (server : EpollChatroom.Server) (fd : Nat) (buf : List UInt8) :
    EpollChatroom.Server :=
  EpollChatroom.sendAll { server with received := server.received ++ [(fd, buf)] } fd buf

/-- What a step of the room does where it is possible. -/
inductive Effect (env : Env) (s : Room) : Room → Prop where
  | member {i : Nat} {m : Member} (known : i < env.clients) (acts : Acts (s.member i) m) :
    Effect env s { s with
      member := Function.update s.member i m
      notified := raise s.notified fun fd => s.fds fd = some i ∧ (s.member i).up ≠ m.up }
  | connect {i : Nat} (known : i < env.clients) (starting : (s.member i).phase = .starting)
    (room : s.backlog.length < env.queue) : Effect env s { s with
      member := Function.update s.member i { s.member i with phase := .connected }
      backlog := s.backlog ++ [i]
      arrived := s.arrived + 1
      notified := raise s.notified (· = env.listenfd) }
  | wait (events : List EpollChatroom.Event) (idle : s.server.events = [])
    (once : (events.map EpollChatroom.Event.fd).Nodup) (ready : Reportable env s events) :
    Effect env s { s with
      server := { s.server with events := events }
      notified := report s.notified (events.map EpollChatroom.Event.fd) }
  | accept {e : EpollChatroom.Event} {rest : List EpollChatroom.Event} {connfd i : Nat}
    {backlog : List Nat} (front : s.server.events = e :: rest) (listen : e.fd = env.listenfd)
    (apart : connfd ≠ env.listenfd) (free : connfd ∉ s.server.connected)
    (first : s.backlog = i :: backlog) : Effect env s { s with
      server := { s.server with
        events := rest
        clientListFd := s.server.clientListFd ++ [connfd]
        connected := s.server.connected ++ [connfd] }
      backlog := backlog
      fds := Function.update s.fds connfd (some i)
      notified := Function.update s.notified connfd (decide ((s.member i).up ≠ []))
      member := Function.update s.member i { s.member i with joined := some s.log.length }
      accepts := s.accepts ++ [s.arrived]
      arrived := 0 }
  | relay {e : EpollChatroom.Event} {rest : List EpollChatroom.Event} {i : Nat}
    (front : s.server.events = e :: rest) (client : e.fd ≠ env.listenfd)
    (conn : s.fds e.fd = some i) (buf : List UInt8) (some_bytes : buf ≠ [])
    (there : buf <+: (s.member i).up) : Effect env s
      { relay s i buf (s.server.clientListFd.filter (· ≠ e.fd)) with
        server := chunkRead s.server e.fd buf }
  | again {e : EpollChatroom.Event} {rest : List EpollChatroom.Event} {i : Nat}
    (front : s.server.events = e :: rest) (client : e.fd ≠ env.listenfd)
    (conn : s.fds e.fd = some i) (drained : (s.member i).up = []) :
    Effect env s { s with server := { s.server with events := rest } }

variable {env : Env} {s s' : Room}

theorem memberStep_effect (i : Nat) (act : Member → Except Fault Member)
    (acts : Safe (act (s.member i)) (Acts (s.member i))) :
    Safe (memberStep env s i act) (Effect env s) := by
  unfold memberStep
  split
  next known => exact acts.bind fun m h => .member known h
  next => simp

theorem connect_effect (i : Nat) : Safe (connect env s i) (Effect env s) := by
  unfold connect
  split
  next h => exact .connect h.1 h.2.1 h.2.2
  next => simp

theorem recv_effect (result : EpollChatroom.Recv) :
    Safe (serverStep env s (.recv result)) (Effect env s) := by
  simp only [serverStep, EpollChatroom.step]
  split
  next e rest front =>
    split
    next ready =>
      cases result with
      | data buf =>
        simp only [EpollChatroom.readOnce]
        split
        next chunk =>
          rw [ok_bind]
          split
          next => simp
          next i conn =>
            split
            next there =>
              have conn : s.fds e.fd = some i := by simpa [front] using conn
              have targets : ((chunkRead s.server e.fd buf).broadcasts.getLast?.map
                  EpollChatroom.Broadcast.targets).getD [] =
                  s.server.clientListFd.filter (· ≠ e.fd) := by
                simp [chunkRead, EpollChatroom.sendAll]
              have moved := Effect.relay front ready.1 conn buf chunk.2.1 there
              rw [← targets] at moved
              exact moved
            next => simp
        next => simp
      | again =>
        simp only [EpollChatroom.readOnce]
        split
        next chunk =>
          rw [ok_bind]
          split
          next => simp
          next i conn =>
            split
            next drained =>
              exact .again front ready.1 (by simpa [front] using conn) drained
            next => simp
        next => simp
      | eof =>
        simp only [EpollChatroom.readOnce]
        split
        next =>
          rw [ok_bind]
          split <;> simp
        next => simp
      | error =>
        simp only [EpollChatroom.readOnce, ok_bind]
        split <;> simp
    next => simp
  next => simp

/-- The descriptors the server has in its event table. -/
def seats (env : Env) (s : Room) : List Nat := env.listenfd :: s.server.connected

/-- The descriptors that `epoll_wait` has reported, as far as they are not done with. -/
def reported (s : Room) : List Nat := s.server.events.map EpollChatroom.Event.fd

/-- Who sits where, and who waits to be let in. -/
structure Seated (env : Env) (s : Room) : Prop where
  list : s.server.clientListFd = s.server.connected
  open_ : s.server.closed = []
  distinct : (seats env s).Nodup
  owned : ∀ fd, fd ∈ s.server.connected ↔ ∃ i, s.fds fd = some i
  own : ∀ fd fd' i, s.fds fd = some i → s.fds fd' = some i → fd = fd'
  joined : ∀ i, (∃ k, (s.member i).joined = some k) ↔ ∃ fd, s.fds fd = some i
  queue : s.backlog.Nodup
  waiting : ∀ i, i ∈ s.backlog ↔ (s.member i).phase ≠ .starting ∧ (s.member i).joined = none
  early : ∀ i, (s.member i).phase = .starting → (s.member i).joined = none
  known : ∀ i, (s.member i).phase ≠ .starting → i < env.clients
  fits : s.backlog.length ≤ env.queue
  newcomers : s.backlog.length = left 1 s.accepts + s.arrived
  taken : s.server.connected.length = s.accepts.length
  once : (reported s).Nodup
  events : ∀ e ∈ s.server.events, e.epollin = true ∧ e.fd ∈ seats env s
  queued : env.listenfd ∈ reported s → s.backlog ≠ []
  good : ∀ i, Good (s.member i)

theorem seated_init (env : Env) : Seated env (.init env) := by
  constructor
  case good => exact fun i => good_init (env.script i)
  all_goals simp [Room.init, EpollChatroom.Server.init, Member.init, seats, reported]

/-- Whoever has been accepted is one of the clients, and connected. -/
theorem Seated.in_room (h : Seated env s) {i : Nat} (hi : ∃ k, (s.member i).joined = some k) :
    (s.member i).phase ≠ .starting ∧ i < env.clients := by
  obtain ⟨k, hk⟩ := hi
  have connected : (s.member i).phase ≠ .starting := fun starting => by
    simp [h.early i starting] at hk
  exact ⟨connected, h.known i connected⟩

/-- Whoever waits is not among those who are in, so there is a descriptor left for him. -/
theorem Seated.seat_free (h : Seated env s) (some_one : s.backlog ≠ []) :
    s.server.connected.length < env.limit := by
  obtain ⟨i, hi⟩ := List.exists_mem_of_ne_nil _ some_one
  obtain ⟨started, out⟩ := (h.waiting i).mp hi
  let owner (fd : Nat) : Nat := (s.fds fd).getD 0
  have owned {fd : Nat} (hfd : fd ∈ s.server.connected) : s.fds fd = some (owner fd) := by
    obtain ⟨j, hj⟩ := (h.owned fd).mp hfd
    simp [owner, hj]
  have in_room {fd : Nat} (hfd : fd ∈ s.server.connected) :
      ∃ k, (s.member (owner fd)).joined = some k := (h.joined _).mpr ⟨fd, owned hfd⟩
  have distinct : (s.server.connected.map owner).Nodup := by
    refine (List.nodup_cons.mp h.distinct).2.map_on fun fd hfd fd' hfd' same => ?_
    exact h.own fd fd' (owner fd) (owned hfd) (same ▸ owned hfd')
  have outside : i ∉ s.server.connected.map owner := by
    intro hmem
    obtain ⟨fd, hfd, rfl⟩ := List.mem_map.mp hmem
    obtain ⟨k, hk⟩ := in_room hfd
    simp [out] at hk
  have known : i :: s.server.connected.map owner ⊆ List.range env.clients := by
    refine List.cons_subset.mpr ⟨List.mem_range.mpr (h.known i started), fun j hj => ?_⟩
    obtain ⟨fd, hfd, rfl⟩ := List.mem_map.mp hj
    exact List.mem_range.mpr (h.in_room (in_room hfd)).2
  have length := ((List.nodup_cons.mpr ⟨outside, distinct⟩).subperm known).length_le
  have enough := env.enough
  simp only [List.length_cons, List.length_map, List.length_range] at length
  omega

theorem serverStep_effect (h : Seated env s) (op : EpollChatroom.Op) :
    Safe (serverStep env s op) (Effect env s) := by
  cases op with
  | wait events =>
    simp only [serverStep, EpollChatroom.step]
    split
    next possible =>
      rw [ok_bind]
      split
      next ready => exact .wait events possible.1 possible.2.1 ready
      next => simp
    next => simp
  | accept connfd =>
    simp only [serverStep, EpollChatroom.step]
    split
    next e rest front =>
      split
      next fresh =>
        rw [ok_bind]
        have some_one : s.backlog ≠ [] := h.queued (by simp [reported, front, fresh.1])
        split
        next i backlog first =>
          rw [if_pos (h.seat_free some_one)]
          exact .accept front fresh.1 fresh.2.1 fresh.2.2 first
        next none => exact absurd none some_one
      next => simp
    next => simp
  | recv result => exact recv_effect result
  | somethingElse =>
    simp only [serverStep, EpollChatroom.step]
    split
    next => split <;> simp
    next => simp

theorem step_effect (h : Seated env s) (op : Op) : Safe (step env s op) (Effect env s) := by
  cases op with
  | type i => exact memberStep_effect i Member.type (type_acts _)
  | connect i => exact connect_effect i
  | register i => exact memberStep_effect i Member.register (register_acts _)
  | client i op => exact memberStep_effect i (Member.step · op) (step_acts _ op)
  | server op => exact serverStep_effect h op

/-- Nobody comes or goes, and no event is new. -/
theorem Seated.congr (h : Seated env s) (list : s'.server.clientListFd = s.server.clientListFd)
    (connected : s'.server.connected = s.server.connected)
    (closed : s'.server.closed = s.server.closed)
    (events : s'.server.events <:+ s.server.events) (fds : s'.fds = s.fds)
    (queue : s'.backlog = s.backlog ∧ s'.accepts = s.accepts ∧ s'.arrived = s.arrived)
    (joined : ∀ i, (s'.member i).joined = (s.member i).joined)
    (started : ∀ i, (s'.member i).phase = .starting ↔ (s.member i).phase = .starting)
    (good : ∀ i, Good (s'.member i)) : Seated env s' where
  list := by rw [list, connected, h.list]
  open_ := by rw [closed, h.open_]
  distinct := by simpa only [seats, connected] using h.distinct
  owned := by simpa only [connected, fds] using h.owned
  own := by simpa only [fds] using h.own
  joined := by simpa only [joined, fds] using h.joined
  queue := by simpa only [queue.1] using h.queue
  waiting i := by simpa only [queue.1, joined, ne_eq, started] using h.waiting i
  early i := by simpa only [joined, started] using h.early i
  known i := by simpa only [ne_eq, started] using h.known i
  fits := by simpa only [queue.1] using h.fits
  newcomers := by simpa only [queue.1, queue.2.1, queue.2.2] using h.newcomers
  taken := by simpa only [connected, queue.2.1] using h.taken
  once := h.once.sublist (events.map _).sublist
  events e he := by simpa only [seats, connected] using h.events e (events.subset he)
  queued he := by simpa only [queue.1] using h.queued ((events.map _).subset he)
  good := good

theorem Seated.member (h : Seated env s) {i : Nat} {m : Member} (acts : Acts (s.member i) m)
    (notified : Nat → Bool) :
    Seated env { s with member := Function.update s.member i m, notified := notified } := by
  have moves := acts.moves
  refine h.congr rfl rfl rfl List.suffix_rfl rfl ⟨rfl, rfl, rfl⟩ ?_ ?_ ?_
  all_goals
    intro j
    by_cases e : j = i
  · subst e
    simp [moves.joined]
  · simp [e]
  · subst e
    simp [moves.started]
  · simp [e]
  · subst e
    simpa using acts.good (h.good j)
  · simpa [e] using h.good j

theorem Seated.connect (h : Seated env s) {i : Nat} (known : i < env.clients)
    (starting : (s.member i).phase = .starting) (room : s.backlog.length < env.queue)
    (notified : Nat → Bool) : Seated env { s with
      member := Function.update s.member i { s.member i with phase := .connected }
      backlog := s.backlog ++ [i]
      arrived := s.arrived + 1
      notified := notified } := by
  have outside : i ∉ s.backlog := fun hi => ((h.waiting i).mp hi).1 starting
  refine { h with
    joined := ?_, queue := ?queue, waiting := ?_, early := ?_, known := ?_, fits := ?fits
    newcomers := ?newcomers, queued := ?queued, good := ?_ }
  case queue => simpa [List.nodup_append, h.queue] using fun a ha => ne_of_mem_of_not_mem ha outside
  case fits => simpa using Nat.succ_le_of_lt room
  case newcomers =>
    have newcomers := h.newcomers
    simp only [List.length_append, List.length_singleton]
    omega
  case queued => simp
  all_goals
    intro j
    by_cases e : j = i
  · subst e
    simpa using h.joined j
  · simpa [e] using h.joined j
  · subst e
    simp [h.early j starting]
  · simpa [e] using h.waiting j
  · subst e
    simp
  · simpa [e] using h.early j
  · subst e
    simpa using known
  · simpa [e] using h.known j
  · subst e
    simpa using (h.good j).congr (by simp [starting]) _ _
  · simpa [e] using h.good j

theorem Seated.wait (h : Seated env s) {events : List EpollChatroom.Event}
    (once : (events.map EpollChatroom.Event.fd).Nodup) (ready : Reportable env s events)
    (notified : Nat → Bool) :
    Seated env { s with server := { s.server with events := events }, notified := notified } := by
  obtain ⟨-, -, ready⟩ := ready
  refine { h with once := once, events := fun e he => ⟨(ready e he).1, ?_⟩, queued := fun he => ?_ }
  · have readable := (ready e he).2.2
    by_cases listen : e.fd = env.listenfd
    · simp [seats, listen]
    · cases conn : s.fds e.fd with
      | none => simp [Readable, listen, conn] at readable
      | some i => exact List.mem_cons_of_mem _ ((h.owned e.fd).mpr ⟨i, conn⟩)
  · obtain ⟨e, he, listen⟩ := List.mem_map.mp he
    simpa [Readable, listen] using (ready e he).2.2

section Update

variable {α β : Type} [DecidableEq α] {f : α → Option β} {a : α} {y : β}

/-- A place that was free is given to somebody who had none. -/
theorem own_update (own : ∀ b c x, f b = some x → f c = some x → b = c)
    (nowhere : ∀ b, f b ≠ some y) (b c : α) (x : β)
    (hb : Function.update f a (some y) b = some x)
    (hc : Function.update f a (some y) c = some x) : b = c := by
  by_cases e : b = a
  · by_cases e' : c = a
    · rw [e, e']
    · obtain rfl : y = x := by simpa [e] using hb
      exact absurd (by simpa [e'] using hc) (nowhere c)
  · by_cases e' : c = a
    · obtain rfl : y = x := by simpa [e'] using hc
      exact absurd (by simpa [e] using hb) (nowhere b)
    · exact own b c x (by simpa [e] using hb) (by simpa [e'] using hc)

theorem exists_update_of_ne (vacant : f a = none) {x : β} (hx : x ≠ y) :
    (∃ b, Function.update f a (some y) b = some x) ↔ ∃ b, f b = some x := by
  refine exists_congr fun b => ?_
  by_cases hb : b = a
  · simp [hb, vacant, Ne.symm hx]
  · simp [hb]

end Update

theorem Seated.accept (h : Seated env s) {e : EpollChatroom.Event}
    {rest : List EpollChatroom.Event} {connfd i : Nat} {backlog : List Nat}
    (front : s.server.events = e :: rest) (listen : e.fd = env.listenfd)
    (apart : connfd ≠ env.listenfd) (free : connfd ∉ s.server.connected)
    (first : s.backlog = i :: backlog) (notified : Nat → Bool) : Seated env { s with
      server := { s.server with
        events := rest
        clientListFd := s.server.clientListFd ++ [connfd]
        connected := s.server.connected ++ [connfd] }
      backlog := backlog
      fds := Function.update s.fds connfd (some i)
      notified := notified
      member := Function.update s.member i { s.member i with joined := some s.log.length }
      accepts := s.accepts ++ [s.arrived]
      arrived := 0 } := by
  have once := h.once
  have queue := h.queue
  have distinct := h.distinct
  have started := (h.waiting i).mp (by simp [first])
  have nowhere : ∀ fd, s.fds fd ≠ some i := by
    intro fd hfd
    obtain ⟨k, hk⟩ := (h.joined i).mpr ⟨fd, hfd⟩
    simp [started.2] at hk
  rw [reported, front, List.map_cons, List.nodup_cons] at once
  rw [first, List.nodup_cons] at queue
  have vacant : s.fds connfd = none := by
    rw [Option.eq_none_iff_forall_ne_some]
    intro j hj
    exact free ((h.owned connfd).mpr ⟨j, hj⟩)
  refine { h with
    list := by simp [h.list]
    distinct := ?distinct, owned := ?owned, own := ?own, joined := ?_, queue := queue.2
    waiting := ?_, early := ?_, known := ?_, fits := ?fits, newcomers := ?newcomers
    taken := by simp [h.taken], once := once.2, events := ?events, queued := ?queued, good := ?_ }
  case distinct =>
    refine (distinct.append (List.nodup_singleton connfd) ?_)
    rw [List.disjoint_singleton, seats, List.mem_cons]
    exact not_or.mpr ⟨apart, free⟩
  case owned =>
    intro fd
    by_cases hfd : fd = connfd
    · simp [hfd]
    · simpa [hfd] using h.owned fd
  case own => exact own_update h.own nowhere
  case fits =>
    have fits := h.fits
    rw [first, List.length_cons] at fits
    exact Nat.le_of_succ_le fits
  case newcomers =>
    have newcomers := h.newcomers
    rw [first, List.length_cons] at newcomers
    simp only [left_concat]
    omega
  case events =>
    intro e' he'
    obtain ⟨epollin, known⟩ := h.events e' (by simp [front, he'])
    exact ⟨epollin, by simpa [seats] using (List.mem_cons.mp known).imp_right .inl⟩
  case queued => exact fun hl => absurd hl (listen ▸ once.1)
  all_goals
    intro j
    by_cases e : j = i
  · subst e
    exact iff_of_true ⟨s.log.length, by simp⟩ ⟨connfd, by simp⟩
  · simpa [e, exists_update_of_ne vacant e] using h.joined j
  · subst e
    simp [queue.1]
  · simpa [e, first] using h.waiting j
  · subst e
    simp [started.1]
  · simpa [e] using h.early j
  · subst e
    simpa using h.known j
  · simpa [e] using h.known j
  · subst e
    simpa using (h.good j).congr Iff.rfl _ _
  · simpa [e] using h.good j

theorem Seated.relay (h : Seated env s) (i : Nat) (buf : List UInt8) (targets : List Nat)
    (fd : Nat) :
    Seated env { relay s i buf targets with server := chunkRead s.server fd buf } := by
  refine h.congr rfl rfl rfl List.suffix_rfl rfl ⟨rfl, rfl, rfl⟩ ?_ ?_ ?_
  all_goals
    intro j
    by_cases e : j = i
  · subst e
    simp [ChatRoom.relay, Member.deliver]
  · simp [ChatRoom.relay, Member.deliver, e]
  · subst e
    simp [ChatRoom.relay, Member.deliver]
  · simp [ChatRoom.relay, Member.deliver, e]
  · subst e
    simpa [ChatRoom.relay] using ((h.good j).congr Iff.rfl _ _).deliver _ buf
  · simpa [ChatRoom.relay, e] using (h.good j).deliver _ buf

theorem Effect.seated (h : Seated env s) (e : Effect env s s') : Seated env s' := by
  cases e with
  | member known acts => exact h.member acts _
  | connect known starting room => exact h.connect known starting room _
  | wait events idle once ready => exact h.wait once ready _
  | accept front listen apart free first => exact h.accept front listen apart free first _
  | relay front client conn buf some_bytes there => exact h.relay _ buf _ _
  | @again e rest i front client conn drained =>
    exact h.congr rfl rfl rfl (by simp [front]) rfl ⟨rfl, rfl, rfl⟩ (fun _ => rfl)
      (fun _ => Iff.rfl) h.good

/-- What is said and heard. -/
structure Relayed (env : Env) (s : Room) : Prop where
  typing : ∀ i, (s.member i).typed ++ (s.member i).script.flatten = (env.script i).flatten
  said : ∀ i, (s.member i).typed = said i s.log ++ (s.member i).up ++ (s.member i).stdin
  heard : ∀ i k, (s.member i).joined = some k → k ≤ s.log.length ∧
    (s.member i).client.received.flatten ++ (s.member i).down = heard i (s.log.drop k)
  before : ∀ i, (s.member i).joined = none →
    (s.member i).client.received.flatten ++ (s.member i).down = []

theorem relayed_init (env : Env) : Relayed env (.init env) := by
  constructor <;> simp [Room.init, Member.init, EpollChatroomClient.Client.init]

/-- The `send`s of one chunk that go to `j`. -/
def sends (s : Room) (fd j : Nat) : List Nat :=
  (s.server.clientListFd.filter (· ≠ fd)).filter fun fd' => s.fds fd' = some j

/-- Nothing goes back to the sender, or to somebody who is not in the room. -/
theorem Seated.sends_nil (h : Seated env s) {fd i j : Nat} (conn : s.fds fd = some i)
    (hj : j = i ∨ (s.member j).joined = none) : sends s fd j = [] := by
  rw [sends, List.filter_eq_nil_iff]
  intro fd' hmem hfd'
  have conn' : s.fds fd' = some j := by simpa using hfd'
  rcases hj with rfl | out
  · have same := h.own fd' fd j conn' conn
    simp [same] at hmem
  · obtain ⟨k, hk⟩ := (h.joined j).mpr ⟨fd', conn'⟩
    simp [out] at hk

/-- To everybody else in the room it goes once. -/
theorem Seated.sends_one (h : Seated env s) {fd i j k : Nat} (conn : s.fds fd = some i)
    (other : j ≠ i) (hj : (s.member j).joined = some k) : ∃ fd', sends s fd j = [fd'] := by
  obtain ⟨fd', conn'⟩ := (h.joined j).mp ⟨k, hj⟩
  have distinct : s.server.connected.Nodup := (List.nodup_cons.mp h.distinct).2
  refine ⟨fd', List.perm_singleton.mp ?_⟩
  rw [sends, h.list, List.perm_ext_iff_of_nodup ((distinct.filter _).filter _)
    (List.nodup_singleton fd')]
  intro fd''
  simp only [List.mem_filter, decide_eq_true_eq, List.mem_singleton]
  constructor
  · exact fun hmem => h.own _ _ j hmem.2 conn'
  · rintro rfl
    refine ⟨⟨(h.owned fd'').mpr ⟨j, conn'⟩, ?_⟩, conn'⟩
    rintro rfl
    exact other (Option.some.inj (conn'.symm.trans conn))

theorem Relayed.member (h : Relayed env s) {i : Nat} {m : Member} (acts : Acts (s.member i) m)
    (notified : Nat → Bool) :
    Relayed env { s with member := Function.update s.member i m, notified := notified } := by
  have moves := acts.moves
  constructor
  all_goals
    intro j
    by_cases e : j = i
  · subst e
    simpa [moves.typing] using h.typing j
  · simpa [e] using h.typing j
  · subst e
    simpa using moves.said _ (h.said j)
  · simpa [e] using h.said j
  · subst e
    simpa [moves.shown, moves.joined] using h.heard j
  · simpa [e] using h.heard j
  · subst e
    simpa [moves.shown, moves.joined] using h.before j
  · simpa [e] using h.before j

theorem Seated.sends_le_one (h : Seated env s) {fd i : Nat} (conn : s.fds fd = some i) (j : Nat) :
    (sends s fd j).length ≤ 1 := by
  by_cases out : j = i ∨ (s.member j).joined = none
  · simp [h.sends_nil conn out]
  · obtain ⟨other, in_room⟩ := not_or.mp out
    obtain ⟨k, hk⟩ := Option.ne_none_iff_exists'.mp in_room
    obtain ⟨fd', one⟩ := h.sends_one conn other hk
    simp [one]

/-- What one chunk adds for `j` is what it adds to what `j` hears. -/
theorem Seated.delivered (h : Seated env s) {fd i : Nat} (conn : s.fds fd = some i) (j : Nat)
    (buf : List UInt8) : ((sends s fd j).flatMap fun _ => buf) =
      if i = j ∨ (s.member j).joined = none then [] else buf := by
  by_cases out : i = j ∨ (s.member j).joined = none
  · rw [h.sends_nil conn (out.imp_left Eq.symm), if_pos out]
    rfl
  · obtain ⟨other, in_room⟩ := not_or.mp out
    obtain ⟨k, hk⟩ := Option.ne_none_iff_exists'.mp in_room
    obtain ⟨fd', one⟩ := h.sends_one conn (Ne.symm other) hk
    rw [one, if_neg out]
    simp

theorem Relayed.relay (h : Relayed env s) (seated : Seated env s) {fd i : Nat}
    (conn : s.fds fd = some i) {buf : List UInt8} (there : buf <+: (s.member i).up)
    (server : EpollChatroom.Server) :
    Relayed env { relay s i buf (s.server.clientListFd.filter (· ≠ fd)) with server := server } := by
  obtain ⟨rest, hrest⟩ := there
  have delivered := seated.delivered conn
  simp only [sends] at delivered
  constructor
  all_goals
    intro j
    simp only [ChatRoom.relay, Member.deliver, delivered]
  case typing =>
    by_cases e : j = i
    · subst e
      simpa using h.typing j
    · simpa [e] using h.typing j
  case said =>
    by_cases e : j = i
    · subst e
      simpa [said_concat, ← hrest] using h.said j
    · simpa [e, said_concat, Ne.symm e] using h.said j
  case heard =>
    intro k hk
    by_cases e : j = i
    · subst e
      obtain ⟨early, heard⟩ := h.heard j k (by simpa using hk)
      simp only [List.length_append, List.length_singleton]
      exact ⟨by omega, by simpa [List.drop_append_of_le_length early, heard_concat] using heard⟩
    · have in_room : (s.member j).joined = some k := by simpa [e] using hk
      obtain ⟨early, heard⟩ := h.heard j k in_room
      simp only [List.length_append, List.length_singleton]
      refine ⟨by omega, ?_⟩
      simp [e, Ne.symm e, in_room, List.drop_append_of_le_length early, heard_concat, ← heard]
  case before =>
    intro out
    by_cases e : j = i
    · subst e
      simpa using h.before j (by simpa using out)
    · have outside : (s.member j).joined = none := by simpa [e] using out
      simpa [e, outside] using h.before j outside

theorem Relayed.connect (h : Relayed env s) (i : Nat) (backlog : List Nat) (arrived : Nat)
    (notified : Nat → Bool) : Relayed env { s with
      member := Function.update s.member i { s.member i with phase := .connected }
      backlog := backlog
      arrived := arrived
      notified := notified } := by
  have same (j : Nat) : ∃ phase, Function.update s.member i
      { s.member i with phase := .connected } j = { s.member j with phase := phase } := by
    by_cases e : j = i
    · subst e
      exact ⟨.connected, by simp⟩
    · exact ⟨(s.member j).phase, by simp [e]⟩
  constructor
  all_goals
    intro j
    obtain ⟨phase, hphase⟩ := same j
    simp only [hphase]
  · exact h.typing j
  · exact h.said j
  · exact h.heard j
  · exact h.before j

theorem Relayed.accept (h : Relayed env s) (i : Nat) (server : EpollChatroom.Server)
    (fds : Nat → Option Nat) (notified : Nat → Bool) (backlog accepts : List Nat)
    (out : (s.member i).joined = none) :
    Relayed env { s with
      server := server
      backlog := backlog
      fds := fds
      notified := notified
      member := Function.update s.member i { s.member i with joined := some s.log.length }
      accepts := accepts
      arrived := 0 } := by
  constructor
  all_goals
    intro j
    by_cases e : j = i
  · subst e
    simpa using h.typing j
  · simpa [e] using h.typing j
  · subst e
    simpa using h.said j
  · simpa [e] using h.said j
  · subst e
    rintro k hk
    obtain rfl : s.log.length = k := by simpa using hk
    simpa using h.before j out
  · simpa [e] using h.heard j
  · subst e
    simp
  · simpa [e] using h.before j

theorem Effect.relayed (h : Relayed env s) (seated : Seated env s) (e : Effect env s s') :
    Relayed env s' := by
  cases e with
  | member known acts => exact h.member acts _
  | connect known starting room => exact h.connect _ _ _ _
  | wait events idle once ready => exact { h with }
  | accept front listen apart free first =>
    exact h.accept _ _ _ _ _ _ ((seated.waiting _).mp (by simp [first])).2
  | relay front client conn buf some_bytes there => exact h.relay seated conn there _
  | again front client conn drained => exact { h with }

/-- Something new for the descriptor: a connection no `accept` has been told of, or bytes. -/
def Pending (env : Env) (s : Room) (fd : Nat) : Prop :=
  (fd = env.listenfd ∧ 0 < s.arrived) ∨ ∃ i, s.fds fd = some i ∧ (s.member i).up ≠ []

/-- What is new is announced to the server. -/
def Announced (env : Env) (s : Room) : Prop := Covered (Pending env s) s.notified (reported s)

theorem announced_init (env : Env) : Announced env (.init env) := by
  intro fd hfd
  simp [Pending, Room.init] at hfd

theorem Announced.member (h : Announced env s) (i : Nat) (m : Member) :
    Announced env { s with
      member := Function.update s.member i m
      notified := raise s.notified fun fd => s.fds fd = some i ∧ (s.member i).up ≠ m.up } := by
  refine Covered.raise h _ fun fd hfd => ?_
  rcases hfd with listen | ⟨j, conn, some_bytes⟩
  · exact .inl (.inl listen)
  · by_cases e : j = i
    · subst e
      by_cases same : (s.member j).up = m.up
      · exact .inl (.inr ⟨j, conn, by simpa [same] using some_bytes⟩)
      · exact .inr ⟨conn, same⟩
    · exact .inl (.inr ⟨j, conn, by simpa [e] using some_bytes⟩)

/-- The part of `Pending` that is about clients looks at their `up` alone. -/
theorem up_update (s : Room) {i : Nat} {m : Member} (same : m.up = (s.member i).up) (j : Nat) :
    (Function.update s.member i m j).up = (s.member j).up := by
  by_cases e : j = i
  · subst e
    simpa using same
  · simp [e]

theorem Announced.connect (h : Announced env s) {i : Nat} {m : Member}
    (same : m.up = (s.member i).up) (backlog : List Nat) :
    Announced env { s with
      member := Function.update s.member i m
      backlog := backlog
      arrived := s.arrived + 1
      notified := raise s.notified (· = env.listenfd) } := by
  refine Covered.raise h _ fun fd hfd => ?_
  rcases hfd with listen | ⟨j, conn, some_bytes⟩
  · exact .inr listen.1
  · exact .inl (.inr ⟨j, conn, by simpa [up_update s same] using some_bytes⟩)

theorem Announced.accept (h : Announced env s) (seated : Seated env s) {e : EpollChatroom.Event}
    {rest : List EpollChatroom.Event} (front : s.server.events = e :: rest)
    (listen : e.fd = env.listenfd) (connfd : Nat) {i : Nat} {m : Member}
    (same : m.up = (s.member i).up) (list connected backlog accepts : List Nat) :
    Announced env { s with
      server := { s.server with events := rest, clientListFd := list, connected := connected }
      backlog := backlog
      fds := Function.update s.fds connfd (some i)
      notified := Function.update s.notified connfd (decide ((s.member i).up ≠ []))
      member := Function.update s.member i m
      accepts := accepts
      arrived := 0 } := by
  have served : Covered (fun fd => ∃ j, s.fds fd = some j ∧ (s.member j).up ≠ []) s.notified
      (rest.map EpollChatroom.Event.fd) := by
    have before : Covered (Pending env s) s.notified (e.fd :: rest.map EpollChatroom.Event.fd) := by
      simpa [Announced, reported, front] using h
    refine before.serve ?_ fun fd _ hfd => .inr hfd
    rintro ⟨j, conn, -⟩
    have seat := (seated.owned e.fd).mpr ⟨j, conn⟩
    exact absurd (listen ▸ seat) (List.nodup_cons.mp seated.distinct).1
  refine served.register ?_ ?_
  · rintro (⟨-, none⟩ | ⟨j, conn, some_bytes⟩)
    · exact absurd none (Nat.lt_irrefl 0)
    · obtain rfl : i = j := by simpa using conn
      simpa [same] using some_bytes
  · rintro fd hfd (⟨-, none⟩ | ⟨j, conn, some_bytes⟩)
    · exact absurd none (Nat.lt_irrefl 0)
    · exact ⟨j, by simpa [hfd] using conn, by simpa [up_update s same] using some_bytes⟩

theorem Effect.announced (h : Announced env s) (seated : Seated env s) (e : Effect env s s') :
    Announced env s' := by
  cases e with
  | @member i m known acts => exact h.member i m
  | connect known starting room => exact h.connect (by rfl) _
  | wait events idle once ready =>
    have before : Covered (Pending env s) s.notified [] := by
      simpa [Announced, reported, idle] using h
    exact before.report _ fun fd hfd _ => hfd
  | accept front listen apart free first => exact h.accept seated front listen _ (by rfl) _ _ _ _
  | @relay e rest i front client conn buf some_bytes there =>
    refine h.shrink fun fd hfd => hfd.imp_right ?_
    rintro ⟨j, conn', some_left⟩
    refine ⟨j, conn', fun none => some_left ?_⟩
    by_cases same : j = i
    · subst same
      simp [ChatRoom.relay, Member.deliver, none]
    · simpa [ChatRoom.relay, Member.deliver, same] using none
  | @again e rest i front client conn drained =>
    have before : Covered (Pending env s) s.notified (e.fd :: rest.map EpollChatroom.Event.fd) := by
      simpa [Announced, reported, front] using h
    refine before.serve ?_ fun fd _ hfd => hfd
    rintro (⟨listen, -⟩ | ⟨j, conn', some_bytes⟩)
    · exact absurd listen client
    · obtain rfl : i = j := Option.some.inj (conn.symm.trans conn')
      exact absurd drained some_bytes

end LinuxDemo.Invariant.ChatRoom
