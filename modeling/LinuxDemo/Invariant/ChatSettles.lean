import LinuxDemo.Invariant.ChatRoom

/-!
# The chat room comes to rest

Every step lowers a weight: a byte is worth less on every stage of its way, a notification
more than the event it becomes. Where no step is possible, whatever was sent has been shown.
-/
namespace LinuxDemo.Invariant.ChatRoom
open LinuxDemo.Lib LinuxDemo.Source LinuxDemo.Source.ChatRoom

/-- What is still to do for the clients and for the server. -/
def work (env : Env) (s : Room) : Nat :=
  weigh (weight env.clients) s.member env.clients + 3 * s.backlog.length +
    2 * (seats env s).countP s.notified + s.server.events.length

variable {env : Env} {s s' : Room}

/-- At most one descriptor is that of `i`, and none is told of nothing. -/
theorem Seated.countP_raise (h : Seated env s) (i : Nat) (m : Member) :
    (seats env s).countP (raise s.notified fun fd => s.fds fd = some i ∧ (s.member i).up ≠ m.up) ≤
      (seats env s).countP s.notified + if (s.member i).up = m.up then 0 else 1 := by
  by_cases same : (s.member i).up = m.up
  · rw [raise_none _ fun fd hfd => hfd.2 same, if_pos same, Nat.add_zero]
  · rw [if_neg same]
    exact countP_raise_le h.distinct fun fd fd' hfd hfd' => h.own fd fd' i hfd.1 hfd'.1

theorem Seated.member_lowers (h : Seated env s) {i : Nat} {m : Member} (known : i < env.clients)
    (acts : Acts (s.member i) m) : work env { s with
      member := Function.update s.member i m
      notified := raise s.notified fun fd => s.fds fd = some i ∧ (s.member i).up ≠ m.up } <
    work env s := by
  have raised := h.countP_raise i m
  have weight_lowers := acts.lowers env.clients
  have weighs := weigh_update (weight env.clients) s.member known m
  simp only [work, seats] at raised ⊢
  split at weight_lowers <;> simp_all only [if_true, if_false] <;> omega

theorem connect_weight (n : Nat) {m : Member} (starting : m.phase = .starting) :
    weight n { m with phase := .connected } + 6 = weight n m := by
  unfold weight
  simp only [starting, phaseWeight]
  omega

theorem Seated.connect_lowers (h : Seated env s) {i : Nat} (known : i < env.clients) {m : Member}
    (lighter : weight env.clients m + 6 = weight env.clients (s.member i)) : work env { s with
      member := Function.update s.member i m
      backlog := s.backlog ++ [i]
      arrived := s.arrived + 1
      notified := raise s.notified (· = env.listenfd) } < work env s := by
  have raised : (seats env s).countP (raise s.notified (· = env.listenfd)) ≤
      (seats env s).countP s.notified + 1 :=
    countP_raise_le h.distinct fun fd fd' hfd hfd' => hfd.trans hfd'.symm
  have weighs := weigh_update (weight env.clients) s.member known m
  simp only [work, seats, List.length_append, List.length_singleton] at raised ⊢
  omega

theorem Seated.wait_lowers (h : Seated env s) {events : List EpollChatroom.Event}
    (idle : s.server.events = []) (once : (events.map EpollChatroom.Event.fd).Nodup)
    (ready : Reportable env s events) : work env { s with
      server := { s.server with events := events }
      notified := report s.notified (events.map EpollChatroom.Event.fd) } < work env s := by
  have taken : (seats env s).countP (report s.notified (events.map EpollChatroom.Event.fd)) +
      (events.map EpollChatroom.Event.fd).length = (seats env s).countP s.notified := by
    refine countP_report h.distinct once ?_ ?_
    · intro fd hfd
      obtain ⟨e, he, rfl⟩ := List.mem_map.mp hfd
      exact ((h.wait once ready s.notified).events e he).2
    · intro fd hfd
      obtain ⟨e, he, rfl⟩ := List.mem_map.mp hfd
      exact (ready.2.2 e he).2.1
  have some_event := List.length_pos_iff.mpr ready.1
  simp only [work, seats, idle, List.length_map, List.length_nil] at taken ⊢
  omega

theorem joined_weight (n : Nat) (m : Member) (joined : Option Nat) :
    weight n { m with joined := joined } = weight n m := rfl

theorem Seated.accept_lowers (h : Seated env s) {e : EpollChatroom.Event}
    {rest : List EpollChatroom.Event} {connfd i : Nat} {backlog : List Nat}
    (front : s.server.events = e :: rest) (apart : connfd ≠ env.listenfd)
    (free : connfd ∉ s.server.connected) (first : s.backlog = i :: backlog) {m : Member}
    (same : weight env.clients m = weight env.clients (s.member i)) (list accepts : List Nat)
    (flag : Bool) : work env { s with
      server := { s.server with
        events := rest
        clientListFd := list
        connected := s.server.connected ++ [connfd] }
      backlog := backlog
      fds := Function.update s.fds connfd (some i)
      notified := Function.update s.notified connfd flag
      member := Function.update s.member i m
      accepts := accepts
      arrived := 0 } < work env s := by
  have known : i < env.clients := h.known i ((h.waiting i).mp (by simp [first])).1
  have weighs := weigh_update (weight env.clients) s.member known m
  have others : (seats env s).countP (Function.update s.notified connfd flag) =
      (seats env s).countP s.notified := by
    refine List.countP_congr fun fd hfd => ?_
    have : fd ≠ connfd := by
      rintro rfl
      exact (List.mem_cons.mp hfd).elim apart free
    simp [this]
  have seat : [connfd].countP (Function.update s.notified connfd flag) ≤ 1 := List.countP_le_length
  simp only [work, seats, front, first, List.length_cons, ← List.cons_append,
    List.countP_append] at others ⊢
  omega

theorem relay_weight (n : Nat) (m : Member) {buf : List UInt8} (there : buf <+: m.up) :
    weight n { m with up := m.up.drop buf.length } + (3 * n + 1) * buf.length = weight n m := by
  have fits := there.length_le
  have split : (3 * n + 1) * m.up.length =
      (3 * n + 1) * (m.up.drop buf.length).length + (3 * n + 1) * buf.length := by
    rw [← Nat.mul_add, List.length_drop, Nat.sub_add_cancel fits]
  unfold weight
  dsimp only
  omega

theorem Seated.relay_lowers (h : Seated env s) {fd i : Nat} (conn : s.fds fd = some i)
    {buf : List UInt8} (some_bytes : buf ≠ []) (there : buf <+: (s.member i).up) :
    work env { ChatRoom.relay s i buf (s.server.clientListFd.filter (· ≠ fd)) with
      server := chunkRead s.server fd buf } < work env s := by
  have known : i < env.clients := by
    obtain ⟨k, hk⟩ := (h.joined i).mpr ⟨fd, conn⟩
    refine h.known i fun starting => ?_
    simp [h.early i starting] at hk
  have weighs := weigh_update (weight env.clients) s.member known
    { s.member i with up := (s.member i).up.drop buf.length }
  have lighter := relay_weight env.clients (s.member i) there
  have shown := weigh_le_add (weight env.clients) (n := env.clients) fun j (_ : j < env.clients) =>
    deliver_weight env.clients (Function.update s.member i
      { s.member i with up := (s.member i).up.drop buf.length } j) (h.sends_le_one conn j) buf
  have some_length := List.length_pos_iff.mpr some_bytes
  have enough : env.clients * (buf.length + 2) < (3 * env.clients + 1) * buf.length := by
    have := Nat.le_mul_of_pos_right (2 * env.clients) some_length
    calc env.clients * (buf.length + 2) = env.clients * buf.length + 2 * env.clients := by ring
      _ ≤ env.clients * buf.length + 2 * env.clients * buf.length := by omega
      _ < env.clients * buf.length + 2 * env.clients * buf.length + buf.length := by omega
      _ = (3 * env.clients + 1) * buf.length := by ring
  simp only [work, seats, ChatRoom.relay, chunkRead, EpollChatroom.sendAll]
  simp only [sends] at shown
  dsimp only at weighs lighter shown ⊢
  omega

theorem Effect.lowers (h : Seated env s) (e : Effect env s s') : work env s' < work env s := by
  cases e with
  | member known acts => exact h.member_lowers known acts
  | connect known starting room => exact h.connect_lowers known (connect_weight _ starting)
  | wait events idle once ready => exact h.wait_lowers idle once ready
  | accept front listen apart free first =>
    exact h.accept_lowers front apart free first (joined_weight _ _ _) _ _ _
  | relay front client conn buf some_bytes there => exact h.relay_lowers conn some_bytes there
  | again front client conn drained =>
    simp only [work, seats, front, List.length_cons]
    omega

section Client
variable {m : Member}

theorem read_moves {rest : List EpollChatroomClient.Event} (front : m.client.events = .stdin :: rest) :
    ∃ op m', m.step op = .ok m' := by
  refine ⟨.read (m.stdin.take EpollChatroomClient.BUFFER_SIZE), ?_⟩
  have fits : (m.stdin.take EpollChatroomClient.BUFFER_SIZE).length ≤
      EpollChatroomClient.BUFFER_SIZE := List.length_take_le _ _
  have whole : m.stdin.take EpollChatroomClient.BUFFER_SIZE = [] → m.stdin = [] := by
    simp [EpollChatroomClient.BUFFER_SIZE]
  simp only [Member.step, EpollChatroomClient.step, front, fits, if_true, ok_bind]
  exact ⟨_, if_pos ⟨List.take_prefix _ _, whole⟩⟩

theorem recv_moves (h : Good m) {rest : List EpollChatroomClient.Event}
    (front : m.client.events = .clifd true :: rest) : ∃ op m', m.step op = .ok m' := by
  by_cases drained : m.down = []
  · refine ⟨.recv .again, ?_⟩
    simp only [Member.step, EpollChatroomClient.step, front, EpollChatroomClient.readOnce, h.opened,
      drained, if_true, ok_bind]
    exact ⟨_, rfl⟩
  · refine ⟨.recv (.data (m.down.take (EpollChatroomClient.BUFFER_SIZE - 1))), ?_⟩
    have some_bytes : m.down.take (EpollChatroomClient.BUFFER_SIZE - 1) ≠ [] := by
      simpa [EpollChatroomClient.BUFFER_SIZE] using drained
    have fits : (m.down.take (EpollChatroomClient.BUFFER_SIZE - 1)).length ≤
        EpollChatroomClient.BUFFER_SIZE - 1 := List.length_take_le _ _
    simp only [Member.step, EpollChatroomClient.step, front, EpollChatroomClient.readOnce, h.opened,
      some_bytes, fits, List.take_prefix, ne_eq, not_false_eq_true, and_self, if_true, ok_bind]
    exact ⟨_, rfl⟩

theorem wait_moves (idle : m.client.events = []) {e : EpollChatroomClient.Event}
    (ready : m.Ready e) : ∃ op m', m.step op = .ok m' := by
  refine ⟨.wait [e], ?_⟩
  simp only [Member.step, EpollChatroomClient.step, idle, if_true, ok_bind, ne_eq, List.cons_ne_nil,
    not_false_eq_true, List.nodup_cons, List.not_mem_nil, List.nodup_nil, and_self, List.mem_singleton,
    forall_eq, ready]
  exact ⟨_, rfl⟩

/-- A client that cannot go on has nothing to do. -/
theorem Good.at_rest (h : Good m) (stuck : ∀ op m', m.step op ≠ .ok m') :
    m.client.events = [] ∧ (m.phase = .inLoop → m.down = [] ∧ m.unseen = 0) := by
  have idle : m.client.events = [] := by
    cases front : m.client.events with
    | nil => rfl
    | cons e rest =>
      rcases h.kinds e (by simp [front]) with rfl | rfl
      · obtain ⟨op, m', hop⟩ := read_moves front
        exact absurd hop (stuck op m')
      · obtain ⟨op, m', hop⟩ := recv_moves h front
        exact absurd hop (stuck op m')
  have unready (e : EpollChatroomClient.Event) : ¬ m.Ready e := by
    intro ready
    obtain ⟨op, m', hop⟩ := wait_moves idle ready
    exact stuck op m' hop
  refine ⟨idle, fun inLoop => ⟨?_, ?_⟩⟩
  · by_contra some_bytes
    have told : m.clifdNotified = true := by simpa [idle] using h.clifdTold inLoop some_bytes
    exact unready (.clifd true) ⟨rfl, told, some_bytes⟩
  · by_contra some_new
    have some_new : 0 < m.unseen := Nat.pos_of_ne_zero some_new
    have told : m.stdinNotified = true := by simpa [idle] using h.stdinTold inLoop some_new
    exact unready .stdin ⟨told, .inl (h.unseen_unread some_new)⟩

end Client

theorem accept_moves (h : Seated env s) {e : EpollChatroom.Event} {rest : List EpollChatroom.Event}
    (front : s.server.events = e :: rest) (listen : e.fd = env.listenfd) :
    ∃ op s', step env s op = .ok s' := by
  obtain ⟨connfd, fresh⟩ := Infinite.exists_notMem_finset (seats env s).toFinset
  have fresh : connfd ≠ env.listenfd ∧ connfd ∉ s.server.connected := by
    simpa [seats] using fresh
  have some_one := h.queued (by simp [reported, front, listen])
  refine ⟨.server (.accept connfd), ?_⟩
  cases first : s.backlog with
  | nil => exact absurd first some_one
  | cons i backlog =>
    have room := h.seat_free some_one
    simp only [step, serverStep, EpollChatroom.step, front, listen, fresh, first, room, ne_eq,
      not_false_eq_true, and_self, if_true, ok_bind]
    exact ⟨_, rfl⟩

theorem receive_moves (h : Seated env s) {e : EpollChatroom.Event}
    {rest : List EpollChatroom.Event} (front : s.server.events = e :: rest)
    (client : e.fd ≠ env.listenfd) : ∃ op s', step env s op = .ok s' := by
  obtain ⟨epollin, known⟩ := h.events e (by simp [front])
  have connected := (List.mem_cons.mp known).resolve_left client
  obtain ⟨i, conn⟩ := (h.owned e.fd).mp connected
  by_cases drained : (s.member i).up = []
  · refine ⟨.server (.recv .again), ?_⟩
    simp only [step, serverStep, EpollChatroom.step, EpollChatroom.readOnce, front, client, epollin,
      connected, conn, drained, ne_eq, not_false_eq_true, and_self, if_true, ok_bind,
      List.head?_cons, Option.bind_some]
    exact ⟨_, rfl⟩
  · refine ⟨.server (.recv (.data ((s.member i).up.take EpollChatroom.maxChunk))), ?_⟩
    have some_bytes : (s.member i).up.take EpollChatroom.maxChunk ≠ [] := by
      simpa [EpollChatroom.maxChunk] using drained
    have fits : ((s.member i).up.take EpollChatroom.maxChunk).length ≤ EpollChatroom.maxChunk :=
      List.length_take_le _ _
    simp only [step, serverStep, EpollChatroom.step, EpollChatroom.readOnce, front, client, epollin,
      connected, conn, some_bytes, fits, List.take_prefix, ne_eq, not_false_eq_true, and_self,
      if_true, ok_bind, List.head?_cons, Option.bind_some]
    exact ⟨_, rfl⟩

theorem report_moves (h : Seated env s) (idle : s.server.events = []) {fd : Nat}
    (told : s.notified fd = true) (readable : Readable env s fd) :
    ∃ op s', step env s op = .ok s' := by
  refine ⟨.server (.wait [⟨fd, true⟩]), ?_⟩
  have known : fd = env.listenfd ∨ fd ∈ s.server.connected := by
    by_cases listen : fd = env.listenfd
    · exact .inl listen
    · cases conn : s.fds fd with
      | none => simp [Readable, listen, conn] at readable
      | some i => exact .inr ((h.owned fd).mpr ⟨i, conn⟩)
  have ready : Reportable env s [⟨fd, true⟩] := by
    simp [Reportable, MAX_EVENTS_NUMBER, told, readable]
  have possible : EpollChatroom.Reportable env.listenfd s.server [⟨fd, true⟩] := by
    simpa [EpollChatroom.Reportable] using known
  simp only [step, serverStep, EpollChatroom.step, idle, possible, ready, and_self, if_true, ok_bind]
  exact ⟨_, rfl⟩

/-- Where the room is stuck the server waits, and nothing is announced to it. -/
theorem Seated.server_at_rest (h : Seated env s) (stuck : Stuck (step env) s) :
    s.server.events = [] ∧ ∀ fd, s.notified fd = true → ¬ Readable env s fd := by
  have none_moves : ¬ ∃ op s', step env s op = .ok s' := by
    rintro ⟨op, s', hop⟩
    exact stuck op s' hop
  have idle : s.server.events = [] := by
    cases front : s.server.events with
    | nil => rfl
    | cons e rest =>
      by_cases listen : e.fd = env.listenfd
      · exact absurd (accept_moves h front listen) none_moves
      · exact absurd (receive_moves h front listen) none_moves
  exact ⟨idle, fun fd told readable => none_moves (report_moves h idle told readable)⟩

/-- Where the room is stuck everything typed is read that a `read` has been told of, and
nothing is on its way. -/
theorem Seated.member_at_rest (h : Seated env s) (stuck : Stuck (step env) s) {i : Nat}
    (known : i < env.clients) :
    (s.member i).script = [] ∧
    ((s.member i).phase = .starting ∧ s.backlog.length = env.queue ∨
      (s.member i).phase = .inLoop ∧ (s.member i).down = [] ∧ (s.member i).unseen = 0) := by
  have still (act : Member → Except Fault Member) (op : Op)
      (hop : step env s op = memberStep env s i act) : ∀ m', act (s.member i) ≠ .ok m' := by
    intro m' hact
    exact stuck op _ (by rw [hop, memberStep, if_pos known, hact]; rfl)
  have typed := still Member.type (.type i) rfl
  have registered := still Member.register (.register i) rfl
  have rest := (h.good i).at_rest fun op => still (Member.step · op) (.client i op) rfl
  constructor
  · cases hscript : (s.member i).script with
    | nil => rfl
    | cons part script => exact absurd (by simp only [Member.type, hscript]; rfl) (typed _)
  · cases hphase : (s.member i).phase with
    | connected => exact absurd (by simp only [Member.register, hphase, if_true]; rfl) (registered _)
    | inLoop => exact .inr ⟨rfl, rest.2 hphase⟩
    | starting =>
      refine .inl ⟨rfl, Nat.le_antisymm h.fits ?_⟩
      by_contra room
      exact stuck (.connect i) _ (by
        simp only [step, ChatRoom.connect, known, hphase, Nat.lt_of_not_le room, and_self, if_true]
        rfl)

structure Kept (env : Env) (s : Room) : Prop where
  seated : Seated env s
  relayed : Relayed env s
  announced : Announced env s

theorem kept_init (env : Env) : Kept env (.init env) :=
  ⟨seated_init env, relayed_init env, announced_init env⟩

theorem Effect.kept (h : Kept env s) (e : Effect env s s') : Kept env s' :=
  ⟨e.seated h.seated, e.relayed h.relayed h.seated, e.announced h.announced h.seated⟩

theorem run_kept (env : Env) (ops : List Op) : Safe (run (step env) (.init env) ops) (Kept env) :=
  run_ends _ (fun _ op h => (step_effect h.seated op).mono fun _ e => e.kept h) (kept_init env) ops

/-- All is done that will be done. -/
structure Settled (env : Env) (s : Room) : Prop where
  shown : ∀ i < env.clients, ∀ k, (s.member i).joined = some k →
    (s.member i).client.received.flatten = heard i (s.log.drop k)
  said : ∀ i < env.clients, (∃ k, (s.member i).joined = some k) →
    (env.script i).flatten = said i s.log ++ (s.member i).stdin
  unread : ∀ i < env.clients, (∃ k, (s.member i).joined = some k) →
    (s.member i).stdin.length = remaining (s.member i).looks ∧
    ((s.member i).looks.map Prod.fst).sum = (env.script i).flatten.length ∧
    ((s.member i).looks.map Prod.snd).sum + (s.member i).stdin.length =
      (env.script i).flatten.length
  outside : ∀ i < env.clients, (s.member i).joined = none →
    i ∈ s.backlog ∨ s.backlog.length = env.queue
  waiting : s.backlog.length = left 1 s.accepts
  someone : 0 < env.clients → ∃ i < env.clients, ∃ k, (s.member i).joined = some k

/-- Who has sent something is told of to the server. -/
theorem Seated.readable (h : Seated env s) {i fd : Nat} (conn : s.fds fd = some i)
    (some_bytes : (s.member i).up ≠ []) : Readable env s fd := by
  have seat : fd ∈ s.server.connected := (h.owned fd).mpr ⟨i, conn⟩
  have client : fd ≠ env.listenfd :=
    ne_of_mem_of_not_mem seat (List.nodup_cons.mp h.distinct).1
  simpa [Readable, client, conn] using some_bytes

theorem Kept.quiet (h : Kept env s) (stuck : Stuck (step env) s) :
    s.arrived = 0 ∧ ∀ i, (∃ k, (s.member i).joined = some k) → (s.member i).up = [] := by
  obtain ⟨seated, relayed, announced⟩ := h
  obtain ⟨idle, quiet⟩ := seated.server_at_rest stuck
  have no_news (fd : Nat) (readable : Readable env s fd) : ¬ Pending env s fd := by
    intro pending
    have told : s.notified fd = true := by simpa [reported, idle] using announced fd pending
    exact quiet fd told readable
  constructor
  · by_contra some_new
    have newcomers := seated.newcomers
    have some_one : s.backlog ≠ [] := by
      rw [← List.length_pos_iff]
      omega
    exact no_news env.listenfd (by simpa [Readable] using some_one)
      (.inl ⟨rfl, Nat.pos_of_ne_zero some_new⟩)
  · intro i in_room
    obtain ⟨fd, conn⟩ := (seated.joined i).mp in_room
    by_contra some_bytes
    exact no_news fd (seated.readable conn some_bytes) (.inr ⟨i, conn, some_bytes⟩)

theorem Kept.settled (h : Kept env s) (stuck : Stuck (step env) s) : Settled env s := by
  obtain ⟨arrived, drained⟩ := h.quiet stuck
  have newcomers := h.seated.newcomers
  have waiting : s.backlog.length = left 1 s.accepts := by omega
  have rest {i : Nat} (known : i < env.clients) := h.seated.member_at_rest stuck known
  have at_rest {i : Nat} (in_room : ∃ k, (s.member i).joined = some k) :
      (s.member i).down = [] ∧ (s.member i).unseen = 0 := by
    obtain ⟨connected, known⟩ := h.seated.in_room in_room
    rcases (rest known).2 with ⟨starting, -⟩ | ⟨-, rest⟩
    · exact absurd starting connected
    · exact rest
  have outside : ∀ i < env.clients, (s.member i).joined = none →
      i ∈ s.backlog ∨ s.backlog.length = env.queue := by
    intro i known out
    rcases (rest known).2 with ⟨-, full⟩ | ⟨inLoop, -⟩
    · exact .inr full
    · exact .inl ((h.seated.waiting i).mpr ⟨by simp [inLoop], out⟩)
  refine ⟨?_, ?_, ?_, outside, waiting, ?_⟩
  · intro i known k hk
    simpa [(at_rest ⟨k, hk⟩).1] using (h.relayed.heard i k hk).2
  · intro i known in_room
    have typing := h.relayed.typing i
    have said := h.relayed.said i
    simpa [(rest known).1, drained i in_room, said] using typing.symm
  · intro i known in_room
    have unread := (h.seated.good i).unread
    have total := (h.seated.good i).total
    have taken := (h.seated.good i).taken
    have typing := h.relayed.typing i
    rw [(rest known).1, List.flatten_nil, List.append_nil] at typing
    rw [(at_rest in_room).2, Nat.add_zero] at unread total
    rw [typing] at total taken
    exact ⟨unread, total.symm, taken⟩
  · intro some_client
    cases seats : s.server.connected with
    | cons fd connected =>
      obtain ⟨i, conn⟩ := (h.seated.owned fd).mp (by simp [seats])
      have in_room := (h.seated.joined i).mpr ⟨fd, conn⟩
      exact ⟨i, (h.seated.in_room in_room).2, in_room⟩
    | nil =>
      -- nobody was ever accepted, so there is room in the queue and nobody in it
      have never : s.accepts = [] := by
        rw [← List.length_eq_zero_iff, ← h.seated.taken, seats, List.length_nil]
      have empty : s.backlog = [] := by
        rw [← List.length_eq_zero_iff, waiting, never, left_nil]
      have out : (s.member 0).joined = none := by
        rw [Option.eq_none_iff_forall_ne_some]
        intro k hk
        obtain ⟨fd, conn⟩ := (h.seated.joined 0).mp ⟨k, hk⟩
        simpa [seats] using (h.seated.owned fd).mpr ⟨0, conn⟩
      have some_queue := env.someQueue
      have := outside 0 some_client out
      simp only [empty, List.not_mem_nil, List.length_nil, false_or] at this
      omega

theorem room_completes (env : Env) : Completes (step env) (.init env) (Settled env) :=
  .of_measure (work env)
    (fun s op s' h hop => by
      have e := (step_effect h.seated op).of_ok hop
      exact ⟨e.kept h, e.lowers h.seated⟩)
    (fun _ h stuck => h.settled stuck) (kept_init env)

end LinuxDemo.Invariant.ChatRoom
