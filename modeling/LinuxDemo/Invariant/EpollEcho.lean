import LinuxDemo.Invariant.EpollTcpUdp
import Mathlib.Data.List.TakeDrop

/-!
# What the TCP and UDP server sends back

Every chunk read from a connection is passed to `send` once, and the rest that `send` does
not accept is gone. Every datagram that is not empty is answered once, with
`UDP_BUFFER_SIZE-1` bytes.
-/
namespace LinuxDemo.Invariant.EpollEcho
open LinuxDemo.Lib LinuxDemo.Source.EpollTcpUdp LinuxDemo.Invariant.EpollTcpUdp

/-- The calls of `send` on a connection. -/
def sendsOn (s : Server) (k : Nat) : List Send := s.sends.filter (·.connection = k)

/-- The bytes accepted for sending on a connection. -/
def acceptedOn (s : Server) (k : Nat) : List UInt8 :=
  (sendsOn s k).flatMap fun x => x.buf.take x.accepted

/-- What is sent in answer to a datagram. -/
def replies (d : Datagram) : List Datagram :=
  if d.payload = [] then [] else [⟨d.peer, (udpBuf d.payload).take (UDP_BUFFER_SIZE - 1)⟩]

structure Logged (s : Server) : Prop where
  received : ∀ k, s.received k = (sendsOn s k).flatMap Send.buf
  answered : ∀ a ∈ s.answers, a.2 = replies a.1

theorem logged_init : Logged Server.init := by
  constructor
  · simp [Server.init, sendsOn]
  · simp [Server.init]

section Buffers
variable {payload : List UInt8}

theorem length_udpBuf (payload : List UInt8) : (udpBuf payload).length = UDP_BUFFER_SIZE := by
  simp only [udpBuf, List.length_append, List.length_replicate, List.length_take, UDP_BUFFER_SIZE]
  omega

/-- A payload of the size of the buffer is sent back as it is. -/
theorem take_udpBuf (h : payload.length = UDP_BUFFER_SIZE - 1) :
    (udpBuf payload).take (UDP_BUFFER_SIZE - 1) = payload := by
  simp [udpBuf, ← h]

/-- The reply carries the payload of the datagram exactly if that fills the buffer. -/
theorem replies_eq_iff {d : Datagram} (h : d.payload ≠ []) :
    replies d = [d] ↔ d.payload.length = UDP_BUFFER_SIZE - 1 := by
  simp only [replies, if_neg h, List.cons.injEq, and_true]
  constructor
  · intro he
    have hlen : ((udpBuf d.payload).take (UDP_BUFFER_SIZE - 1)).length = d.payload.length := by
      exact congrArg (fun x => x.payload.length) he
    rw [← hlen, List.length_take, length_udpBuf]
    rfl
  · intro he
    rw [take_udpBuf he]

end Buffers

/-- Concatenations of pieces, and of beginnings of them. -/
theorem flatMap_eq_iff_of_prefix {α β : Type} {f g : α → List β} (l : List α)
    (h : ∀ x, f x <+: g x) : l.flatMap f = l.flatMap g ↔ ∀ x ∈ l, f x = g x := by
  have short (l : List α) : (l.flatMap f).length ≤ (l.flatMap g).length := by
    induction l with
    | nil => simp
    | cons x l ih =>
      have hx := (h x).length_le
      simp only [List.flatMap_cons, List.length_append]
      omega
  constructor
  · intro he
    induction l with
    | nil => simp
    | cons x l ih =>
      have hlen := congrArg List.length he
      simp only [List.flatMap_cons, List.length_append] at hlen
      have hx := (h x).length_le
      have hl := short l
      have heads : (f x).length = (g x).length := by omega
      obtain ⟨hhead, htail⟩ := List.append_inj he heads
      simp only [List.forall_mem_cons]
      exact ⟨hhead, ih htail⟩
  · intro he
    rw [List.flatMap_def, List.flatMap_def, List.map_congr_left he]

/-- All bytes received on a connection were accepted exactly if every `send` on it accepted
all it was given. -/
theorem Logged.accepted_iff {s : Server} (w : Logged s) (k : Nat) :
    acceptedOn s k = s.received k ↔ ∀ x ∈ sendsOn s k, x.buf.length ≤ x.accepted := by
  have pieces := flatMap_eq_iff_of_prefix (f := fun x : Send => x.buf.take x.accepted)
    (g := Send.buf) (sendsOn s k) fun x => List.take_prefix x.accepted x.buf
  rw [w.received, acceptedOn, pieces]
  simp only [List.take_eq_self_iff]

theorem answer_logged {s : Server} (w : Logged s) : Logged (answer s) := by
  unfold answer
  split
  next => exact w
  next d datagrams _ =>
    constructor
    · exact w.received
    · intro a ha
      rcases List.mem_append.mp ha with h | h
      · exact w.answered a h
      · obtain rfl := List.mem_singleton.mp h
        simp only [replies, List.length_take, UDP_BUFFER_SIZE]
        by_cases hnil : d.payload = []
        · simp [hnil]
        · have hpos := List.length_pos_iff.mpr hnil
          rw [if_pos (by omega), if_neg hnil]

/-- What is read is passed to `send`. -/
theorem data_logged {s : Server} {conns : Nat → Conn} {k accepted : Nat} {buf : List UInt8}
    (w : Logged s) : Logged { s with
      conns := conns
      received := Function.update s.received k (s.received k ++ buf)
      sends := s.sends ++ [⟨k, buf, accepted⟩] } := by
  refine ⟨fun j => ?_, w.answered⟩
  by_cases e : j = k
  · subst e
    simp [sendsOn, w.received]
  · have e' : k ≠ j := fun h => e h.symm
    simp [sendsOn, w.received, e, e']

theorem step_logged (env : Env) (s : Server) (op : Op) (w : Logged s) :
    Safe (step env s op) Logged := by
  refine (step_effect env s op).mono fun s' he => ?_
  cases he with
  | @recvfrom e rest =>
    have w' : Logged { s with events := rest } := ⟨w.received, w.answered⟩
    exact answer_logged w'
  | data => exact data_logged w
  | _ => exact ⟨w.received, w.answered⟩

theorem run_logged (env : Env) (ops : List Op) :
    Safe (run (step env) Server.init ops) Logged :=
  run_ends (step env) (step_logged env) logged_init ops

end LinuxDemo.Invariant.EpollEcho
