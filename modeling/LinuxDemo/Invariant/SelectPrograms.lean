import LinuxDemo.Invariant.SelectClient
import LinuxDemo.Invariant.SelectEcho
import LinuxDemo.Invariant.SelectServer

/-!
# The two programs on the connection

A run of `str_cli` and the server on one connection, call by call, is a run of each of the
two loops, round by round. A round of `str_cli` is matched where it is known what it reads:
at the `read` from `fp`, or else at the end of the part about the socket. A round of the
server is matched at its `read`.
-/
namespace LinuxDemo.Invariant.SelectPrograms
open LinuxDemo.Lib LinuxDemo.Lib.CString LinuxDemo.Lib.ReadBuffer LinuxDemo.Lib.Transcript
open LinuxDemo.Source LinuxDemo.Source.SelectEcho LinuxDemo.Invariant.SelectEcho

/-! ## Rounds of `str_cli` -/

section Rounds
variable {program : SelectClient.Env} {c : SelectClient.State}

theorem mem_select_sockfd (ready : Finset Nat) :
    program.sockfd ∈ (SelectClient.select program ready c).rset ↔ program.sockfd ∈ ready := by
  have below : ¬ SelectClient.maxfdp1 program ≤ program.sockfd := by
    unfold SelectClient.maxfdp1
    omega
  simp [SelectClient.select, below]

theorem mem_select_fp (asked : c.stdineof = 0) (ready : Finset Nat) :
    program.fp ∈ (SelectClient.select program ready c).rset ↔ program.fp ∈ ready := by
  have below : ¬ SelectClient.maxfdp1 program ≤ program.fp := by
    unfold SelectClient.maxfdp1
    omega
  simp [SelectClient.select, asked, below]

theorem not_mem_select_fp {ready : Finset Nat} (quiet : program.fp ∉ ready) :
    program.fp ∉ (SelectClient.select program ready c).rset := by
  have below : ¬ SelectClient.maxfdp1 program ≤ program.fp := by
    unfold SelectClient.maxfdp1
    omega
  simp [SelectClient.select, quiet, below]

theorem chunk_eq {data rest : List UInt8} (some : data ≠ []) (fits : data.length ≤ program.MAXLINE) :
    SelectClient.chunk program data.length (data ++ rest) = data := by
  have positive := List.length_pos_iff.mpr some
  rw [SelectClient.chunk, max_eq_right positive, min_eq_right fits, List.take_left]

theorem serveSocket_data {data rest : List UInt8} (ready : program.sockfd ∈ c.rset)
    (left : c.sockLeft = data ++ rest) (some : data ≠ []) (fits : data.length ≤ program.MAXLINE) :
    SelectClient.serveSocket program data.length c = { c with
      buf := fill c.buf data, n := data.length, sockLeft := rest
      calls := c.calls ++ [.read program.sockfd data, .write program.stdout data] } := by
  simp [SelectClient.serveSocket, ready, left, chunk_eq some fits, some]

theorem serveSocket_end (ready : program.sockfd ∈ c.rset) (left : c.sockLeft = []) (len : Nat) :
    SelectClient.serveSocket program len c = { c with
      buf := fill c.buf [], n := 0, calls := c.calls ++ [.read program.sockfd []]
      ended := some (SelectClient.endOutcome c.stdineof) } := by
  simp only [SelectClient.serveSocket, ready, if_true, left, SelectClient.chunk, List.take_nil,
    List.length_nil, List.drop_nil, SelectClient.endOutcome]
  split <;> rfl

theorem serveFp_data {data rest : List UInt8} (ready : program.fp ∈ c.rset)
    (left : c.fpLeft = data ++ rest) (some : data ≠ []) (fits : data.length ≤ program.MAXLINE) :
    SelectClient.serveFp program data.length c = { c with
      buf := fill c.buf data, n := data.length, fpLeft := rest
      calls := c.calls ++ [.read program.fp data, .write program.sockfd data] } := by
  simp [SelectClient.serveFp, ready, left, chunk_eq some fits, some]

theorem serveFp_end (ready : program.fp ∈ c.rset) (left : c.fpLeft = []) (len : Nat) :
    SelectClient.serveFp program len c = { c with
      buf := fill c.buf [], n := 0, stdineof := 1, rset := c.rset.erase program.fp
      calls := c.calls ++ [.read program.fp [], .shutdown program.sockfd] } := by
  simp [SelectClient.serveFp, ready, left, SelectClient.chunk]

theorem step_live (live : c.ended = none) (r : SelectClient.Round)
    (still : (SelectClient.serveSocket program r.fromSocket
      (SelectClient.select program r.ready c)).ended = none) :
    SelectClient.step program c r = .ok (SelectClient.serveFp program r.fromFp
      (SelectClient.serveSocket program r.fromSocket (SelectClient.select program r.ready c))) := by
  simp only [SelectClient.step, live, if_true, still]

/-- A round about the socket alone. -/
theorem round_socket {data rest : List UInt8} (live : c.ended = none)
    (left : c.sockLeft = data ++ rest) (some : data ≠ []) (fits : data.length ≤ program.MAXLINE) :
    ∃ c', SelectClient.step program c ⟨{program.sockfd}, data.length, 0⟩ = .ok c' ∧
      c'.ended = none ∧ c'.sockLeft = rest ∧ c'.fpLeft = c.fpLeft ∧ c'.stdineof = c.stdineof := by
  have ready : program.sockfd ∈ (SelectClient.select program {program.sockfd} c).rset :=
    (mem_select_sockfd _).mpr (by simp)
  have quiet : program.fp ∉ (SelectClient.select program {program.sockfd} c).rset :=
    not_mem_select_fp (by simp [program.distinct])
  have first := serveSocket_data ready left some fits
  simp only [SelectClient.step, live, if_true, first, SelectClient.serveFp, if_neg quiet]
  simp [SelectClient.select, live]

/-- A round at the end of the server's stream. -/
theorem round_end (live : c.ended = none) (left : c.sockLeft = []) (at_end : c.stdineof = 1) :
    ∃ c', SelectClient.step program c ⟨{program.sockfd}, 0, 0⟩ = .ok c' ∧
      c'.ended = some .returned ∧ c'.fpLeft = c.fpLeft ∧ c'.stdineof = c.stdineof := by
  have ready : program.sockfd ∈ (SelectClient.select program {program.sockfd} c).rset :=
    (mem_select_sockfd _).mpr (by simp)
  have first := serveSocket_end ready left 0
  simp only [SelectClient.step, live, if_true, first, reduceCtorEq, if_false]
  exact ⟨_, rfl, by simp [SelectClient.select, SelectClient.endOutcome, at_end], rfl, rfl⟩

/-- The part about the socket in a round in which `fp` is ready; `data` is empty if the socket
is not. -/
theorem round_upto_fp {data rest : List UInt8} (live : c.ended = none) (asked : c.stdineof = 0)
    (left : c.sockLeft = data ++ rest) (fits : data.length ≤ program.MAXLINE) :
    ∃ ready c₁, (∀ len, SelectClient.step program c ⟨ready, data.length, len⟩ =
        .ok (SelectClient.serveFp program len c₁)) ∧
      c₁.ended = none ∧ program.fp ∈ c₁.rset ∧ c₁.sockLeft = rest ∧ c₁.fpLeft = c.fpLeft ∧
      c₁.stdineof = 0 := by
  by_cases some : data = []
  · subst some
    have quiet : program.sockfd ∉ (SelectClient.select program {program.fp} c).rset := by
      rw [mem_select_sockfd]
      simp [program.distinct.symm]
    have first : SelectClient.serveSocket program 0 (SelectClient.select program {program.fp} c) =
        SelectClient.select program {program.fp} c := by
      simp [SelectClient.serveSocket, quiet]
    have still : (SelectClient.serveSocket program 0
        (SelectClient.select program {program.fp} c)).ended = none := by
      rw [first]
      exact live
    refine ⟨_, _, fun len => step_live live ⟨_, _, len⟩ still, still, ?_⟩
    rw [first]
    exact ⟨(mem_select_fp asked _).mpr (by simp), left, rfl, asked⟩
  · have ready :
        program.sockfd ∈ (SelectClient.select program {program.fp, program.sockfd} c).rset :=
      (mem_select_sockfd _).mpr (by simp)
    have first := serveSocket_data ready left some fits
    have still : (SelectClient.serveSocket program data.length
        (SelectClient.select program {program.fp, program.sockfd} c)).ended = none := by
      rw [first]
      exact live
    refine ⟨_, _, fun len => step_live live ⟨_, _, len⟩ still, still, ?_⟩
    rw [first]
    exact ⟨(mem_select_fp asked _).mpr (by simp), rfl, rfl, asked⟩

end Rounds
/-! ## The client -/

/-- What the client will still get from the socket. -/
def toCome (s : State) : List UInt8 :=
  s.down ++ toReply s.server ++ s.up ++ toSend s.client ++ s.stdin

/-- What `str_cli` has of the socket. In a round that is not matched yet it is behind by what
the client has received in it. -/
def Matched (program : SelectClient.Env) (s : State) (c : SelectClient.State) : Client → Prop
  | .printing buf _ => c.ended = none ∧ buf ≠ [] ∧ buf.length ≤ program.MAXLINE ∧
      c.sockLeft = buf ++ toCome s
  | .readingFp => c.ended = none ∧ ∃ buf, buf.length ≤ program.MAXLINE ∧
      c.sockLeft = buf ++ toCome s
  | .ended _ => c.ended = some .returned
  | _ => c.ended = none ∧ c.sockLeft = toCome s

structure ClientFollows (program : SelectClient.Env) (s : State) (c : SelectClient.State) :
    Prop where
  fpLeft : c.fpLeft = s.stdin
  stdineof : c.stdineof = if s.stdineof then 1 else 0
  socket : Matched program s c s.client

variable {program : SelectClient.Env} {env : Env} {input : List UInt8} {n : Nat} {s s' : State}
  {c : SelectClient.State}

theorem clientFollows_init (buf : Buffer) :
    ClientFollows program (.init input) (.init buf input input) := by
  constructor <;> simp [State.init, SelectClient.State.init, Matched, toCome, toReply, toSend]

theorem ServerMove.toCome_eq (move : ServerMove env n s s') : toCome s' = toCome s := by
  cases move with
  | receive place | reply rest place => simp [toCome, place, toReply, List.append_assoc]
  | look place | close place | replied place => simp [toCome, place, toReply]

theorem ServerMove.clientFollows (move : ServerMove env n s s')
    (h : ClientFollows program s c) : ClientFollows program s' c := by
  have same := ServerMove.toCome_eq move
  have kept : s'.client = s.client ∧ s'.stdin = s.stdin ∧ s'.stdineof = s.stdineof := by
    cases move <;> exact ⟨rfl, rfl, rfl⟩
  obtain ⟨client, stdin, stdineof⟩ := kept
  refine ⟨stdin ▸ h.fpLeft, stdineof ▸ h.stdineof, ?_⟩
  rw [client]
  have socket := h.socket
  cases hc : s.client <;> simpa [hc, Matched, same] using socket

theorem stdineof_false (linked : Linked env input s) (reads : readsFp s.client = true) :
    s.stdineof = false := by
  by_contra at_end
  rw [Bool.not_eq_false] at at_end
  simp [(linked.fpEnd at_end).2] at reads

/-- When the server has closed the connection, nothing is on its way any more. -/
theorem toCome_eq_nil (linked : Linked env input s) (down_end : s.downEnd = true)
    (empty : s.down = []) (idle : toSend s.client = []) :
    s.stdineof = true ∧ toCome s = [] := by
  have closed := linked.closed.mp down_end
  have at_end : s.stdineof = true := linked.shut.mpr (.inl (linked.closedEnd closed).1)
  refine ⟨at_end, ?_⟩
  simp [toCome, empty, closed, toReply, (linked.closedEnd closed).2, idle, (linked.fpEnd at_end).1]

theorem take_ne_nil {l : List UInt8} (positive : 0 < n) (there : n ≤ l.length) : l.take n ≠ [] := by
  have some : l ≠ [] := List.length_pos_iff.mp (by omega)
  simp [some, Nat.ne_of_gt positive]

/-- Whatever the client does, `str_cli` has a round for it or need not move. -/
theorem ClientMove.clientFollows (fitting : program.MAXLINE = env.MAXLINE)
    (move : ClientMove env n s s') (linked : Linked env input s) (h : ClientFollows program s c) :
    ∃ c', Reaches (SelectClient.step program) c c' ∧ ClientFollows program s' c' := by
  have socket := h.socket
  cases move with
  | toSocket fp place | sent place | shutdown place =>
    rw [place] at socket
    exact ⟨c, .refl c, h.fpLeft, h.stdineof, by simpa [Matched, toCome, place, toSend] using socket⟩
  | toFp place more quiet =>
    rw [place] at socket
    refine ⟨c, .refl c, h.fpLeft, h.stdineof, socket.1, [], by simp, ?_⟩
    simpa [toCome, place, toSend] using socket.2
  | socketEnd fp place empty down_end =>
    rw [place] at socket
    obtain ⟨at_end, nothing⟩ := toCome_eq_nil linked down_end empty (by simp [place, toSend])
    have drained : c.sockLeft = [] := socket.2.trans nothing
    obtain ⟨c', round, ended, fpLeft, stdineof⟩ := round_end socket.1 drained (by simp [h.stdineof, at_end])
    refine ⟨c', Reaches.step_to (.refl c) round, fpLeft.trans h.fpLeft, ?_, ended⟩
    exact stdineof.trans h.stdineof
  | receive fp place positive fits there =>
    rw [place] at socket
    refine ⟨c, .refl c, h.fpLeft, h.stdineof, socket.1, take_ne_nil positive there, ?_, ?_⟩
    · rw [fitting]
      exact Nat.le_trans (List.length_take_le n s.down) fits
    · simpa [toCome, place, toSend, List.append_assoc, ← List.append_assoc (List.take n s.down)]
        using socket.2
  | print buf fp place =>
    rw [place] at socket
    obtain ⟨live, full, fits, left⟩ := socket
    cases fp with
    | true =>
      refine ⟨c, .refl c, h.fpLeft, h.stdineof, live, buf, fits, ?_⟩
      simpa [toCome, place, behindSocket, toSend] using left
    | false =>
      obtain ⟨c', round, live', left', fpLeft, stdineof⟩ := round_socket live left full fits
      refine ⟨c', Reaches.step_to (.refl c) round, fpLeft.trans h.fpLeft,
        stdineof.trans h.stdineof, live', ?_⟩
      simpa [toCome, place, behindSocket, toSend] using left'
  | fpEnd place empty =>
    rw [place] at socket
    obtain ⟨live, buf, fits, left⟩ := socket
    have more := stdineof_false linked (by simp [place, readsFp])
    obtain ⟨ready, c₁, round, live₁, ready₁, left₁, fpLeft, -⟩ :=
      round_upto_fp live (by simp [h.stdineof, more]) left fits
    have last := serveFp_end ready₁ (fpLeft.trans (h.fpLeft.trans empty)) 0
    refine ⟨_, Reaches.step_to (.refl c) (round 0), ?_⟩
    rw [last]
    refine ⟨fpLeft.trans h.fpLeft, rfl, live₁, ?_⟩
    simpa [toCome, place, toSend] using left₁
  | readFp place positive fits there =>
    rw [place] at socket
    obtain ⟨live, buf, small, left⟩ := socket
    have more := stdineof_false linked (by simp [place, readsFp])
    obtain ⟨ready, c₁, round, live₁, ready₁, left₁, fpLeft, asked⟩ :=
      round_upto_fp live (by simp [h.stdineof, more]) left small
    have cut : c₁.fpLeft = s.stdin.take n ++ s.stdin.drop n := by
      rw [fpLeft, h.fpLeft, List.take_append_drop]
    have last := serveFp_data ready₁ cut (take_ne_nil positive there)
      (fitting ▸ Nat.le_trans (List.length_take_le n s.stdin) fits)
    refine ⟨_, Reaches.step_to (.refl c) (round (s.stdin.take n).length), ?_⟩
    rw [last]
    refine ⟨rfl, by simp [asked, more], live₁, ?_⟩
    simpa [toCome, place, toSend] using left₁
  | send rest place open_back positive there fits =>
    rw [place] at socket
    refine ⟨c, .refl c, h.fpLeft, h.stdineof, socket.1, ?_⟩
    simpa [toCome, place, toSend, List.append_assoc, ← List.append_assoc (List.take n rest)]
      using socket.2

/-! ## The server -/

variable {listenfd connfd : Int} {server : SelectServer.Server}

abbrev roundStep (listenfd : Int) (server : SelectServer.Server) (r : SelectServer.Round) :
    Except Fault SelectServer.Server :=
  SelectServer.round listenfd r server

/-- The server has this connection and no other. -/
structure Serving (listenfd connfd : Int) (server : SelectServer.Server) : Prop where
  entry : server.client 0 = connfd
  maxi : server.maxi = 0
  inRange : SelectServer.fdInRange connfd ∧ SelectServer.fdInRange listenfd
  apart : connfd ≠ listenfd
  member : connfd ∈ server.allset ∧ connfd ≤ server.maxfd
  opened : ∀ fd ∈ server.allset, fd ∈ server.opened

/-- A round in which the connection alone is ready. -/
theorem round_serves (h : Serving listenfd connfd server) (n : Int) :
    SelectServer.round listenfd ⟨{connfd}, 0, 0, fun _ => n⟩ server =
      .ok (SelectServer.served server 0 n) := by
  have all : ∀ fd ∈ server.allset, fd ≤ server.maxfd → fd ∈ server.opened :=
    fun fd hfd _ => h.opened fd hfd
  have answer : SelectServer.select server ⟨{connfd}, 0, 0, fun _ => n⟩ = .ok (1, {connfd}) := by
    rw [SelectServer.select, if_pos all]
    simp [h.member]
  have served := SelectServer.serve_spec (s := server) (i := 0) (by decide)
    (h.entry ▸ h.inRange.1) n {connfd}
  rw [h.entry] at served
  have taken : ¬ connfd < 0 := not_lt.mpr h.inRange.1.1
  have entries : (server.maxi + 1).toNat = 1 := by simp [h.maxi]
  have room : 0 < SelectServer.FD_SETSIZE := by decide
  rw [SelectServer.round_eq, answer]
  simp only [ok_bind, SelectServer.afterSelect, SelectServer.fdIsset, h.inRange.2, if_true,
    decide_eq_true_eq, entries, SelectServer.scan, SelectServer.Server.clientAt, room,
    h.entry, taken, if_false, h.inRange.1, Finset.mem_singleton, h.apart.symm, served, pure_ok,
    ite_self]

/-- The calls that echo these chunks. -/
def echo (connfd : Int) (chunks : List (List UInt8)) : List SelectServer.Call :=
  chunks.flatMap fun data => [.read connfd data.length, .write connfd data.length]

/-- Its table and calls after the connection has come, the listening socket being ready. -/
def welcomed (start : SelectServer.Env) (connfd : Int) : SelectServer.Server :=
  SelectServer.connected (SelectServer.accepted start.start connfd) connfd 0

theorem serving_welcomed (start : SelectServer.Env)
    (inRange : SelectServer.fdInRange connfd) (new : connfd ∉ start.opened) :
    Serving start.listenfd connfd (welcomed start connfd) := by
  have listening := start.listening
  have apart : connfd ≠ start.listenfd := by
    rintro rfl
    exact new listening
  refine ⟨(SelectServer.connected_client _ _ _ _).trans (if_pos rfl), rfl,
    ⟨inRange, start.inRange⟩, apart, ⟨Finset.mem_insert_self _ _, le_max_right _ _⟩, ?_⟩
  simp [welcomed, SelectServer.connected, SelectServer.accepted, SelectServer.Env.start,
    SelectServer.Server.init, listening]

theorem place_first (free : server.client 0 < 0) :
    SelectServer.place connfd SelectServer.FD_SETSIZE 0 server =
      .ok (0, { server with client := Function.update server.client 0 connfd }) := by
  have room : 0 < SelectServer.FD_SETSIZE := by decide
  change SelectServer.place connfd (1023 + 1) 0 server = _
  rw [SelectServer.place]
  simp only [SelectServer.Server.clientAt, SelectServer.Server.setClient, room, if_true, ok_bind,
    free, pure_ok]

theorem round_welcomes (start : SelectServer.Env)
    (inRange : SelectServer.fdInRange connfd) :
    SelectServer.round start.listenfd ⟨{start.listenfd}, connfd, 0, fun _ => 0⟩ start.start =
      .ok (welcomed start connfd) := by
  have answer : SelectServer.select start.start
      ⟨{start.listenfd}, connfd, 0, fun _ => 0⟩ = .ok (1, {start.listenfd}) := by
    have all : ∀ fd ∈ start.start.allset, fd ≤ start.start.maxfd →
        fd ∈ start.start.opened := by
      intro fd hfd _
      rw [Finset.mem_singleton.mp hfd]
      exact start.listening
    have ready : {start.listenfd} ⊆ start.start.allset.filter (· ≤ start.start.maxfd) :=
      Finset.singleton_subset_iff.mpr
        (Finset.mem_filter.mpr ⟨Finset.mem_singleton_self _, le_refl _⟩)
    rw [SelectServer.select, if_pos all, if_pos ⟨Finset.singleton_nonempty _, ready⟩]
    rfl
  have free : (SelectServer.accepted start.start connfd).client 0 < 0 := Int.negSucc_lt_zero 0
  have new := SelectServer.newClient_of_place inRange (place_first free)
  have valid : ¬ connfd < 0 := not_lt.mpr inRange.1
  rw [SelectServer.round_eq, answer]
  simp only [ok_bind, SelectServer.afterSelect, SelectServer.fdIsset, start.inRange, if_true,
    decide_eq_true_eq, Finset.mem_singleton, valid, if_false, lt_irrefl]
  change (SelectServer.newClient connfd (SelectServer.accepted start.start connfd) >>= _) = _
  rw [new]
  rfl

/-- Where the server is, and its calls: a round is matched at its `read`. -/
structure ServerFollows (listenfd connfd : Int) (input : List UInt8) (s : State)
    (server : SelectServer.Server) : Prop where
  serving : s.server ≠ .closed → Serving listenfd connfd server
  calls : ∃ chunks, chunks.flatten ++ s.up ++ toSend s.client ++ s.stdin = input ∧
    server.calls = .accept connfd :: echo connfd chunks ++
      if s.server = .closed then [.read connfd 0, .close connfd] else []

theorem ClientMove.upstream (move : ClientMove env n s s') :
    s'.up ++ toSend s'.client ++ s'.stdin = s.up ++ toSend s.client ++ s.stdin ∧
      s'.server = s.server := by
  refine ⟨?_, by cases move <;> rfl⟩
  cases move with
  | print buf fp place => cases fp <;> simp [place, behindSocket, toSend]
  | send rest place => simp [place, toSend]
  | toSocket fp place | toFp place | socketEnd fp place | receive fp place | fpEnd place
  | readFp place | sent place | shutdown place => simp [place, toSend]

theorem ClientMove.serverFollows (move : ClientMove env n s s')
    (h : ServerFollows listenfd connfd input s server) :
    ServerFollows listenfd connfd input s' server := by
  obtain ⟨same, place⟩ := ClientMove.upstream move
  obtain ⟨chunks, all, calls⟩ := h.calls
  refine ⟨place ▸ h.serving, chunks, ?_, place ▸ calls⟩
  rw [← all, List.append_assoc, List.append_assoc, ← List.append_assoc s'.up, same]
  simp

theorem ServerMove.serverFollows (move : ServerMove env n s s')
    (h : ServerFollows listenfd connfd input s server) :
    ∃ server', Reaches (roundStep listenfd) server server' ∧
      ServerFollows listenfd connfd input s' server' := by
  obtain ⟨chunks, all, calls⟩ := h.calls
  have serving : Serving listenfd connfd server := h.serving (by cases move <;> simp [*])
  cases move with
  | look place | replied place | reply rest place =>
    exact ⟨server, .refl server, fun _ => serving, chunks, all, by simpa [place] using calls⟩
  | close place empty up_end =>
    refine ⟨_, Reaches.step_to (.refl _) (round_serves serving 0), by simp, chunks, all, ?_⟩
    simp [SelectServer.served, calls, place, serving.entry]
  | receive place positive fits there =>
    have some : ((s.up.take n).length : Int) ≠ 0 := by
      simp only [List.length_take]
      omega
    refine ⟨_, Reaches.step_to (.refl _) (round_serves serving (s.up.take n).length), ?_,
      chunks ++ [s.up.take n], ?_, ?_⟩
    · rw [SelectServer.served, if_neg some]
      exact fun _ => { serving with }
    · simpa [List.append_assoc, ← List.append_assoc (List.take n s.up)] using all
    · rw [SelectServer.served, if_neg some]
      simp [calls, place, serving.entry, echo]

/-! ## Runs -/

theorem step_clientFollows (fitting : program.MAXLINE = env.MAXLINE) (s : State) (op : Op)
    (c : SelectClient.State) (h : Linked env input s ∧ ClientFollows program s c) :
    Safe (step env s op) fun s' => ∃ c', Reaches (SelectClient.step program) c c' ∧
      Linked env input s' ∧ ClientFollows program s' c' := by
  obtain ⟨linked, follows⟩ := h
  cases op with
  | client fp n =>
    refine (clientStep_moves fp n).mono fun s' move => ?_
    obtain ⟨c', reached, follows'⟩ := ClientMove.clientFollows fitting move linked follows
    exact ⟨c', reached, move.linked linked, follows'⟩
  | server n =>
    refine (serverStep_moves n).mono fun s' move => ?_
    exact ⟨c, .refl c, move.linked linked, ServerMove.clientFollows move follows⟩

theorem run_clientFollows (fitting : program.MAXLINE = env.MAXLINE) (buf : Buffer)
    (input : List UInt8) (ops : List Op) :
    Safe (run (step env) (.init input) ops) fun s =>
      ∃ c, Reaches (SelectClient.step program) (.init buf input input) c ∧
        Linked env input s ∧ ClientFollows program s c :=
  run_simulated _ (step_clientFollows fitting) ⟨linked_init, clientFollows_init buf⟩ ops

theorem step_serverFollows (s : State) (op : Op) (server : SelectServer.Server)
    (h : ServerFollows listenfd connfd input s server) :
    Safe (step env s op) fun s' => ∃ server', Reaches (roundStep listenfd) server server' ∧
      ServerFollows listenfd connfd input s' server' := by
  cases op with
  | client fp n =>
    refine (clientStep_moves fp n).mono fun s' move => ?_
    exact ⟨server, .refl server, ClientMove.serverFollows move h⟩
  | server n => exact (serverStep_moves n).mono fun s' move => ServerMove.serverFollows move h

/-- The first round of the server takes the connection. -/
theorem run_serverFollows (start : SelectServer.Env) (inRange : SelectServer.fdInRange connfd)
    (new : connfd ∉ start.opened) (input : List UInt8) (ops : List Op) :
    Safe (run (step env) (.init input) ops) fun s =>
      ∃ server, Reaches (roundStep start.listenfd) start.start server ∧
        ServerFollows start.listenfd connfd input s server := by
  have first : ServerFollows start.listenfd connfd input (.init input) (welcomed start connfd) :=
    ⟨fun _ => serving_welcomed start inRange new, [], rfl, rfl⟩
  refine (run_simulated _ step_serverFollows first ops).mono ?_
  rintro s ⟨server, reached, follows⟩
  exact ⟨server, (Reaches.step_to (.refl _) (round_welcomes start inRange)).trans reached, follows⟩

/-- The client is in front of its `select`, or behind its loop. -/
def BetweenRounds : Client → Prop
  | .selecting | .ended _ => True
  | _ => False

theorem ClientFollows.sockLeft_eq (h : ClientFollows program s c) (linked : Linked env input s)
    {sockStream : List UInt8} (relaying : SelectClient.Relaying program input sockStream c)
    (between : BetweenRounds s.client) : c.sockLeft = toCome s ∧ toPrint s.client = [] := by
  have socket := h.socket
  cases place : s.client with
  | selecting =>
    rw [place] at socket
    exact ⟨socket.2, rfl⟩
  | ended how =>
    rw [place] at socket
    obtain ⟨-, down_end, empty⟩ := linked.ended how place
    have nothing := (toCome_eq_nil linked down_end empty (by simp [place, toSend])).2
    exact ⟨(relaying.finished _ socket).1.trans nothing.symm, rfl⟩
  | readingSocket | printing | readingFp | sending | shutting =>
    simp [place, BetweenRounds] at between

/-- Between two rounds `str_cli` has printed what stands on standard output, and has sent what
is not left of the input. -/
theorem run_written (fitting : program.MAXLINE = env.MAXLINE) (buf : Buffer)
    (input : List UInt8) (ops : List Op) :
    Safe (run (step env) (.init input) ops) fun s => BetweenRounds s.client →
      ∃ c, Reaches (SelectClient.step program) (.init buf input input) c ∧
        written program.stdout c.calls = s.stdout ∧
        written program.sockfd c.calls ++ s.stdin = input ∧
        ∀ how, s.client = .ended how → c.ended = some .returned := by
  refine (run_clientFollows fitting buf input ops).mono ?_
  rintro s ⟨c, reached, linked, follows⟩ between
  have relaying := reached.of_ends fun rounds => SelectClient.run_relaying buf rounds
  obtain ⟨left, shown⟩ := follows.sockLeft_eq linked relaying between
  refine ⟨c, reached, ?_, ?_, ?_⟩
  · have conserved := linked.conserved
    rw [shown, List.append_nil] at conserved
    have got := relaying.fromSocket
    rw [left] at got
    rw [relaying.backward.all]
    have joined : received program.sockfd c.calls ++ toCome s = s.stdout ++ toCome s := by
      rw [got, ← conserved]
      simp [toCome]
    exact List.append_cancel_right joined
  · rw [relaying.forward.all, ← follows.fpLeft]
    exact relaying.fromFp
  · intro how place
    have socket := follows.socket
    rwa [place] at socket

end LinuxDemo.Invariant.SelectPrograms
