import LinuxDemo.Invariant.SelectEcho

/-!
# Ways into the deadlock

A server with more in hand than the way back holds is held up for good once the client has
filled the way to it. Where a `read` can give less than is there, a client that reads one
byte and sends two in each of its rounds fills both ways, however wide they are.
-/
namespace LinuxDemo.Invariant.SelectEcho
open LinuxDemo.Lib LinuxDemo.Source.SelectEcho

variable {env : Env} {s s' : State}

theorem reaches_of_whole (h : Reaches (wholeStep env) s s') : Reaches (step env) s s' :=
  h.with_more fun _ _ _ hs => (wholeStep_ok hs).2

/-- The client between two rounds, with `left` bytes to read and `up` on their way. -/
def filling (left up : Nat) (server : Server) : State :=
  ⟨.selecting, false, List.replicate left 0, [], List.replicate up 0, false, server, [], false⟩

/-- One round in which the client finds nothing at the socket and sends one byte. -/
theorem filling_round {left up : Nat} {server : Server} (room : up + 1 ≤ env.toServer) :
    Reaches (wholeStep env) (filling (left + 1) up server) (filling left (up + 1) server) := by
  have positive := env.positive
  have taken : run (wholeStep env) (filling (left + 1) up server)
      [.client true 0, .client true 1] =
      .ok { filling left up server with client := .sending [0] } := by
    simp [filling, wholeStep, wholeRead, step, clientStep, clientSelect, behindSocket,
      Nat.succ_le_of_lt positive, List.replicate_succ]
  have sent : wholeStep env { filling left up server with client := .sending [0] }
      (.client true 1) = .ok { filling left (up + 1) server with client := .sending [] } := by
    rw [wholeStep_eq (by simp [wholeRead])]
    simp only [step, clientStep, filling, List.length_replicate, List.length_singleton]
    rw [if_pos ⟨by simp, by omega, by omega, room⟩, List.replicate_succ']
    rfl
  have again : wholeStep env { filling left (up + 1) server with client := .sending [] }
      (.client true 0) = .ok (filling left (up + 1) server) := by
    rw [wholeStep_eq (by simp [wholeRead])]
    rfl
  exact ((Reaches.of_run taken).step_to sent).step_to again

theorem filling_reaches {left up n : Nat} {server : Server} (room : up + n ≤ env.toServer) :
    Reaches (wholeStep env) (filling (left + n) up server) (filling left (up + n) server) := by
  induction n generalizing left up with
  | zero => exact Reaches.refl _
  | succ n ih =>
    have first : Reaches (wholeStep env) (filling (left + (n + 1)) up server)
        (filling (left + n) (up + 1) server) := filling_round (by omega)
    have rest := @ih left (up + 1) (by omega)
    rw [show up + 1 + n = up + (n + 1) by omega] at rest
    exact first.trans rest

/-- The server has a whole buffer in hand, and more of it than the way back holds. -/
def overfull (env : Env) : State :=
  ⟨.sending [0], false, [], [], List.replicate env.toServer 0, false,
    .replying (List.replicate (env.MAXLINE - env.toClient) 0), List.replicate env.toClient 0, false⟩

theorem overfull_deadlocked (small : env.toClient < env.MAXLINE) : Deadlocked env (overfull env) := by
  obtain ⟨k, hk⟩ := Nat.exists_eq_add_of_lt small
  have hand : env.MAXLINE - env.toClient = k + 1 := by omega
  constructor <;> simp [overfull, toSend, toReply, hand, List.replicate_succ]

theorem serverStep_reply {rest : List UInt8} (hs : s.server = .replying rest) {n : Nat}
    (some_bytes : 0 < n) (hn : n ≤ rest.length) (fits : s.down.length + n ≤ env.toClient) :
    serverStep env n s =
      .ok { s with server := .replying (rest.drop n), down := s.down ++ rest.take n } := by
  cases rest with
  | nil =>
    simp only [List.length_nil] at hn
    omega
  | cons b rest => simp only [serverStep, hs, if_pos (And.intro some_bytes (And.intro hn fits))]

/-- A server that has a whole buffer in hand cannot get it rid while the client fills the way
to it. -/
theorem overfull_reachable (wide : env.MAXLINE ≤ env.toServer) (small : env.toClient < env.MAXLINE) :
    ∃ input, Reaches (wholeStep env) (.init input) (overfull env) := by
  have positive := env.positive
  refine ⟨List.replicate (env.toServer + 1 + env.MAXLINE) 0, ?_⟩
  have first : Reaches (wholeStep env) (filling (env.toServer + 1 + env.MAXLINE) 0 .selecting)
      (filling (env.toServer + 1) (0 + env.MAXLINE) .selecting) := filling_reaches (by omega)
  have taken : Reaches (wholeStep env) (filling (env.toServer + 1) (0 + env.MAXLINE) .selecting)
      (filling (env.toServer + 1) 0 (.replying (List.replicate env.MAXLINE 0))) := by
    refine ⟨[.server 0, .server env.MAXLINE], ?_⟩
    have some_up : env.MAXLINE ≠ 0 := by omega
    simp [filling, wholeStep, wholeRead, step, serverStep, some_up, positive]
  have second : Reaches (wholeStep env)
      (filling (env.toServer + 1) 0 (.replying (List.replicate env.MAXLINE 0)))
      (filling 1 (0 + env.toServer) (.replying (List.replicate env.MAXLINE 0))) := by
    rw [Nat.add_comm]
    exact filling_reaches (by omega)
  have last : Reaches (wholeStep env)
      (filling 1 (0 + env.toServer) (.replying (List.replicate env.MAXLINE 0))) (overfull env) := by
    have back := env.someBack
    have clients : run (wholeStep env) (filling 1 (0 + env.toServer)
        (.replying (List.replicate env.MAXLINE 0))) [.client true 0, .client true 1] =
        .ok { filling 0 (0 + env.toServer) (.replying (List.replicate env.MAXLINE 0)) with
          client := .sending [0] } := by
      simp [filling, wholeStep, wholeRead, step, clientStep, clientSelect, behindSocket,
        Nat.succ_le_of_lt positive]
    refine ⟨[.client true 0, .client true 1] ++ [.server env.toClient], ?_⟩
    refine (run_append_eq_ok _).mpr ⟨_, clients, ?_⟩
    rw [run_singleton, wholeStep_eq (by simp [wholeRead, filling]), step,
      serverStep_reply rfl back (by simp; omega) (by simp [filling])]
    simp [filling, overfull, Nat.min_eq_left (Nat.le_of_lt small)]
  exact ((first.trans taken).trans second).trans last

/-- The server gets rid of the byte in its hand and takes the next one. -/
theorem server_turns {b c : UInt8} (rest : List UInt8) (hs : s.server = .replying [b])
    (hu : s.up = c :: rest) (room : s.down.length < env.toClient) :
    Reaches (step env) s { s with server := .replying [c], up := rest, down := s.down ++ [b] } := by
  have positive := env.positive
  refine ⟨[.server 1, .server 0, .server 0, .server 1], ?_⟩
  simp only [run_cons, run_nil, step, serverStep, hs, hu]
  rw [if_pos ⟨by omega, by simp, by omega⟩]
  simp [Nat.succ_le_of_lt positive]

/-- The client gets rid of the next byte. -/
theorem client_puts {b : UInt8} {rest : List UInt8} (hc : s.client = .sending (b :: rest))
    (open_back : s.downEnd = false) (room : s.up.length < env.toServer) :
    Reaches (step env) s { s with client := .sending rest, up := s.up ++ [b] } := by
  refine ⟨[.client false 1], ?_⟩
  rw [run_singleton]
  simp only [step, clientStep, hc]
  rw [if_pos ⟨open_back, by omega, by simp, by omega⟩]
  rfl

/-- Each has a byte in hand, and the way to the server is full. -/
def pressed (env : Env) (left shown back : Nat) : State :=
  ⟨.sending [0], false, List.replicate left 0, List.replicate shown 0,
    List.replicate env.toServer 0, false, .replying [0], List.replicate back 0, false⟩

theorem pressed_deadlocked (left shown : Nat) :
    Deadlocked env (pressed env left shown env.toClient) := by
  constructor <;> simp [pressed, toSend, toReply]

/-- The server makes room for the client, and so fills the way back. -/
theorem pressed_yields (left shown : Nat) {back : Nat} (room : back < env.toClient)
    (rest : List UInt8) :
    Reaches (step env) { pressed env left shown back with client := .sending (0 :: rest) }
      { pressed env left shown (back + 1) with client := .sending rest } := by
  obtain ⟨t, ht⟩ := Nat.exists_eq_add_one_of_ne_zero (Nat.ne_of_gt env.someUp)
  refine (server_turns (List.replicate t 0) (b := 0) (c := 0) rfl ?_ ?_).trans ?_
  · simp [pressed, ht, List.replicate_succ]
  · simpa [pressed] using room
  · have put : Reaches (step env)
        { pressed env left shown (back + 1) with
          client := .sending (0 :: rest), up := List.replicate t 0 } _ :=
      client_puts rfl rfl (by simp [ht])
    simpa [pressed, ht, List.replicate_succ'] using put

/-- A round in which the client reads one byte of two and sends two for it. -/
theorem pressed_round (two : 2 ≤ env.MAXLINE) {left shown back : Nat} (room : back < env.toClient) :
    Reaches (step env) (pressed env (left + 2) shown back)
      (pressed env left (shown + 1) (back + 1)) := by
  have free : Reaches (step env) (pressed env (left + 2) shown back)
      { pressed env (left + 2) shown (back + 1) with client := .sending [] } :=
    pressed_yields (left + 2) shown room []
  have taken : Reaches (step env)
      { pressed env (left + 2) shown (back + 1) with client := .sending [] }
      { pressed env left (shown + 1) back with client := .sending [0, 0] } := by
    refine ⟨[.client true 0, .client true 0, .client true 1, .client true 0, .client true 2], ?_⟩
    have one : 1 ≤ env.MAXLINE := by omega
    simp [pressed, step, clientStep, clientSelect, behindSocket, List.replicate_succ, one, two,
      ← List.replicate_succ']
  exact (free.trans taken).trans (pressed_yields left (shown + 1) room [0])

theorem pressed_reaches (two : 2 ≤ env.MAXLINE) {left shown back n : Nat}
    (room : back + n ≤ env.toClient) :
    Reaches (step env) (pressed env (left + 2 * n) shown back)
      (pressed env left (shown + n) (back + n)) := by
  induction n generalizing shown back with
  | zero => exact Reaches.refl _
  | succ n ih =>
    have first : Reaches (step env) (pressed env (left + 2 * n + 2) shown back)
        (pressed env (left + 2 * n) (shown + 1) (back + 1)) := pressed_round two (by omega)
    have rest := @ih (shown + 1) (back + 1) (by omega)
    rw [show shown + 1 + n = shown + (n + 1) by omega,
      show back + 1 + n = back + (n + 1) by omega] at rest
    exact first.trans rest

/-- However wide the ways are, `read`s that give less than is there lead into the deadlock. -/
theorem pressed_reachable (two : 2 ≤ env.MAXLINE) : ∃ input,
    Reaches (step env) (.init input) (pressed env 0 env.toClient env.toClient) := by
  obtain ⟨t, ht⟩ := Nat.exists_eq_add_one_of_ne_zero (Nat.ne_of_gt env.someUp)
  have positive := env.positive
  have one : 1 ≤ env.MAXLINE := positive
  refine ⟨List.replicate (2 * env.toClient + 2 + env.toServer) 0, ?_⟩
  have first : Reaches (step env) (filling (2 * env.toClient + 2 + env.toServer) 0 .selecting)
      (filling (2 * env.toClient + 2) (0 + env.toServer) .selecting) :=
    reaches_of_whole (filling_reaches (by omega))
  have taken : Reaches (step env) (filling (2 * env.toClient + 2) (0 + env.toServer) .selecting)
      { filling (2 * env.toClient + 1) t (.replying [0]) with client := .sending [0] } := by
    refine ⟨[.client true 0, .client true 1, .server 0, .server 1], ?_⟩
    simp [filling, step, clientStep, serverStep, clientSelect, behindSocket, List.replicate_succ, one,
      ht]
  have put : Reaches (step env)
      { filling (2 * env.toClient + 1) t (.replying [0]) with client := .sending [0] }
      { filling (2 * env.toClient + 1) env.toServer (.replying [0]) with client := .sending [] } := by
    have put : Reaches (step env)
        { filling (2 * env.toClient + 1) t (.replying [0]) with client := .sending [0] } _ :=
      client_puts rfl rfl (by simp [filling, ht])
    simpa [filling, ht, List.replicate_succ'] using put
  have again : Reaches (step env)
      { filling (2 * env.toClient + 1) env.toServer (.replying [0]) with client := .sending [] }
      (pressed env (2 * env.toClient) 0 0) := by
    refine ⟨[.client true 0, .client true 0, .client true 1], ?_⟩
    simp [filling, pressed, step, clientStep, clientSelect, behindSocket, List.replicate_succ, one]
  have last : Reaches (step env) (pressed env (0 + 2 * env.toClient) 0 0)
      (pressed env 0 (0 + env.toClient) (0 + env.toClient)) := pressed_reaches two (by omega)
  simp only [Nat.zero_add] at last
  exact (((first.trans taken).trans put).trans again).trans last

end LinuxDemo.Invariant.SelectEcho
