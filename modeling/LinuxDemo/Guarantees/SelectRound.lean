import LinuxDemo.Invariant.SelectRound

/-!
# Guarantees of one round of the select server

About every table and every answer of `select`, whatever the descriptors are and whether
clients come or leave in the round.
-/
namespace LinuxDemo.Guarantees.SelectRound
open LinuxDemo.Lib LinuxDemo.Source.SelectServer LinuxDemo.Invariant.SelectServer

/-- A round that does not end the process reads every ready client exactly once, and nothing
else, exactly if the descriptors it handles fit an `fd_set`. -/
theorem ready_clients_read_iff {listenfd : Int} {s : Server} {r : Round} {rset : Finset Int}
    (t : Table listenfd s) (a : Answer listenfd r rset s) :
    (∃ s', afterSelect listenfd r rset.card rset s = .ok s' ∧
        (s'.quit = true ∨ ReadOnce rset s s')) ↔
      Fits listenfd r rset s :=
  (afterSelect_reads t a).iff

/-- Client 4 in the first entry. -/
def oneClient (opened : Finset Int) : Server :=
  { Server.init 3 opened with
    client := Function.update (fun _ => -1) 0 4
    maxi := 0
    maxfd := 4
    allset := {3, 4} }

/-- It is ready, and a new connection gets the descriptor `connfd`. -/
def newcomer (connfd : Int) : Round := ⟨{3, 4}, connfd, 0, fun _ => 1⟩

section OneClient
variable {opened : Finset Int}

theorem oneClient_client (i : Nat) : (oneClient opened).client i = if i = 0 then 4 else -1 := by
  simp [oneClient, Function.update_apply]

theorem isClient_oneClient {fd : Int} : IsClient (oneClient opened) fd ↔ fd = 4 := by
  constructor
  · rintro ⟨hpos, i, -, rfl⟩
    rw [oneClient_client] at hpos ⊢
    split
    next => rfl
    next h =>
      rw [if_neg h] at hpos
      omega
  · rintro rfl
    exact ⟨by decide, 0, by decide, rfl⟩

theorem table_oneClient : Table 3 (oneClient opened) where
  distinct j _ k _ := by
    rw [oneClient_client, oneClient_client]
    split <;> split <;> omega
  apart h := absurd (isClient_oneClient.mp h) (by decide)
  free := ⟨1, by decide, by rw [oneClient_client]; decide⟩
  above i _ h := by
    have h : (0 : Int) < i := h
    rw [oneClient_client, if_neg (by omega)]

theorem answer_newcomer {connfd : Int} (h : 4 < connfd) :
    Answer 3 (newcomer connfd) {3, 4} (oneClient opened) where
  nonempty := ⟨3, by decide⟩
  known fd hfd := by
    rw [isClient_oneClient]
    simpa using hfd
  accepted _ _ := by
    rw [isClient_oneClient]
    change 0 ≤ connfd ∧ connfd ≠ 3 ∧ ¬ connfd = 4
    omega

end OneClient

/-- A ready client and a new connection in one round. -/
theorem client_is_read_beside_newcomer :
    ∃ s', afterSelect 3 (newcomer 5) (({3, 4} : Finset Int).card) {3, 4}
        (oneClient {0, 1, 2, 3, 4}) = .ok s' ∧
      (s'.quit = true ∨ ReadOnce {3, 4} (oneClient {0, 1, 2, 3, 4}) s') := by
  refine (ready_clients_read_iff table_oneClient (answer_newcomer (by decide))).mpr ?_
  refine ⟨by decide, fun _ _ => by decide, fun _ j _ _ => ?_⟩
  rw [oneClient_client]
  split
  next => exact fun _ => by decide
  next => exact fun h => by omega

/-- The descriptors below 1024 are taken, and `FD_SET` gets one that it cannot take. -/
theorem large_newcomer_ends_round : ¬ ∀ listenfd s r rset, Table listenfd s →
    Answer listenfd r rset s → ∃ s', afterSelect listenfd r rset.card rset s = .ok s' ∧
      (s'.quit = true ∨ ReadOnce rset s s') := by
  intro h
  obtain ⟨s', hround, -⟩ :=
    h 3 (oneClient (Finset.Icc 0 1023)) (newcomer 1024) {3, 4} table_oneClient
      (answer_newcomer (by decide))
  cases hround

end LinuxDemo.Guarantees.SelectRound
