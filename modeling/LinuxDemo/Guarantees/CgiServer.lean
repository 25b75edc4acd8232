import LinuxDemo.Invariant.CgiServer

/-!
# Guarantees of a connection of the CGI server

About every stream of the client, whatever pieces `recv` hands it out in.
-/
namespace LinuxDemo.Guarantees.CgiServer
open LinuxDemo.Lib LinuxDemo.Lib.CString LinuxDemo.Source.CgiServer LinuxDemo.Invariant.CgiServer

/-- The loop keeps within its buffer for any number of rounds, and it returns. If the first
CRLF of the stream lies within the first 1023 bytes, `access` and `execl` get the C string
of what is in front of it; otherwise the connection is removed and nothing else is called. -/
theorem request_independent_of_cutting (epollfd sockfd : Int) (k : Kernel) (cuts : Nat → Nat) :
    (∀ n, Total (process n (start epollfd sockfd { k with ready := fun i => .upTo (cuts i) }))
      fun (w, _) => w.conn.mReadIdx ≤ 1023 ∧ w.conn.mBuff 1023 = 0) ∧
    ∃ n w, process n (start epollfd sockfd { k with ready := fun i => .upTo (cuts i) }) =
        .ok (w, false) ∧
      ((∃ i, i + 2 ≤ 1023 ∧ FirstCrlf k.stream i ∧
          w.log.filter acts = served epollfd sockfd k (k.stream.take i)) ∨
        (∀ i, i + 2 ≤ 1023 → ¬ CrlfAt k.stream i) ∧
          w.log.filter acts = [.removefd epollfd sockfd]) := by
  let k' : Kernel := { k with ready := fun i => .upTo (cuts i) }
  have hex : ∃ n, EndsAt k' n := by
    obtain ⟨n, -, h⟩ := exists_endsAt k'
    exact ⟨n, h⟩
  classical
  have before : ∀ i < Nat.find hex, (∃ c, k'.ready i = .upTo c) ∧ ¬ EndsAt k' i :=
    fun i hi => ⟨⟨cuts i, rfl⟩, Nat.find_min hex hi⟩
  obtain ⟨w, hw, ended⟩ := ended_after epollfd sockfd before
    (show k'.ready (Nat.find hex) = .upTo (cuts (Nat.find hex)) from rfl) (Nat.find_spec hex)
  refine ⟨fun n => ?_, _, w, hw, ended.outcome⟩
  by_cases hn : n ≤ Nat.find hex
  · obtain ⟨v, hv, reading⟩ := reading_after epollfd sockfd
      fun i (hi : i < n) => before i (by omega)
    rw [show process n (start epollfd sockfd k') = .ok (v, true) from hv]
    exact reading.bounded
  · obtain ⟨m, rfl⟩ : ∃ m, n = Nat.find hex + 1 + m := ⟨n - (Nat.find hex + 1), by omega⟩
    rw [show process (Nat.find hex + 1 + m) (start epollfd sockfd k') = .ok (w, false) from
      process_done hw m]
    exact ended.bounded

/-- `process` returns with its calls in order exactly if no `recv` fails up to the one that
ends the request. In order means that `removefd` comes at most once and no call on the
socket follows it, that no `recv` follows an error, the end of the stream or a complete
request line, and nothing at all follows EAGAIN, when `m_buff` and `m_read_idx` are to be
what they were. -/
theorem errors_handled_iff (epollfd sockfd : Int) (k : Kernel) :
    (∃ n w p, process n (start epollfd sockfd k) = .ok (w, false) ∧ phase w.log = some p ∧
      ∀ received, p = .waiting received →
        w.conn.mReadIdx = received.length ∧ Holds w.conn.mBuff 0 received) ↔
      ∃ n, (∀ i ≤ n, ∃ c, k.ready i = .upTo c) ∧ EndsAt k n := by
  have hex : ∃ n, EndsAt k n := by
    obtain ⟨n, -, h⟩ := exists_endsAt k
    exact ⟨n, h⟩
  classical
  have before : ∀ i < Nat.find hex, (∃ c, k.ready i = .upTo c) ∧ ¬ EndsAt k i := fun i hi =>
    ⟨upTo_of_not_endsAt (Nat.find_min hex hi), Nat.find_min hex hi⟩
  constructor
  · rintro ⟨n, w, p, hreturn, hphase, -⟩
    obtain ⟨v, hv, reading⟩ := reading_after epollfd sockfd before
    have later : Nat.find hex ≤ n := by
      by_contra hn
      obtain ⟨u, hu, -⟩ := reading_after epollfd sockfd
        fun i (hi : i < n) => before i (by omega)
      simp [hu] at hreturn
    obtain ⟨m, rfl⟩ := Nat.exists_eq_add_of_le later
    rw [process_add hv] at hreturn
    refine ⟨Nat.find hex, fun i hi => ?_, Nat.find_spec hex⟩
    rcases Nat.eq_or_lt_of_le hi with rfl | hlt
    · by_contra hfail
      have := failure_not_handled reading (fun c hc => hfail ⟨c, hc⟩) hreturn
      simp [hphase] at this
    · exact (before i hlt).1
  · rintro ⟨n, upTo, hend⟩
    have hle : Nat.find hex ≤ n := Nat.find_min' hex hend
    obtain ⟨c, hc⟩ := upTo _ hle
    obtain ⟨w, hw, ended⟩ :=
      ended_after epollfd sockfd before hc (Nat.find_spec hex)
    obtain ⟨p, hp, hnot⟩ := ended.inOrder
    exact ⟨_, w, p, hw, hp, fun received h => absurd h (hnot received)⟩

/-- A client that sends `ab`, and what its socket answers to each `recv`. -/
def client (ready : Nat → Ready) : Kernel :=
  ⟨[97, 98], ready, 0, true, 0, 1, true⟩

/-- After a hard error the loop never returns: it goes on with `recv` and `removefd` on the
closed socket. After EAGAIN it calls `recv` again at once. -/
theorem error_loops_forever :
    (∀ n, ∃ w, process n (start 3 5 (client fun _ => .error)) = .ok (w, true)) ∧
    (∃ w, process 2 (start 3 5 (client fun _ => .error)) = .ok (w, true) ∧
      w.log = [.recv 5 1023 .error, .removefd 3 5, .recv 5 1023 .error, .removefd 3 5]) ∧
    ∃ w, process 2 (start 3 5 (client fun _ => .again)) = .ok (w, true) ∧
      w.log = [.recv 5 1023 .again, .recv 5 1023 .again] := by
  refine ⟨fun n => ?_, ⟨_, rfl, rfl⟩, _, rfl, rfl⟩
  cases n with
  | zero => exact ⟨_, rfl⟩
  | succ n =>
    obtain ⟨w₁, hround, hclosed⟩ :=
      round_error (reading_start 3 5 (client fun _ => .error)) rfl
    obtain ⟨w, hw⟩ := process_closed hclosed n
    exact ⟨w, by rw [Nat.add_comm, process_add (process_one hround), hw]⟩

end LinuxDemo.Guarantees.CgiServer
