import LinuxDemo.Lib.Backlog
import LinuxDemo.Source.ChatRoom
import Mathlib.Data.List.Perm.Subperm
import Mathlib.Tactic.Common
import Mathlib.Tactic.Ring

/-!
# One client of the chat room

What its user has typed is sent or unread, and what has come from the server is printed or
waits. What waits is announced; of what is typed, only what no `read` has been told of is.
-/
namespace LinuxDemo.Invariant.ChatRoom
open LinuxDemo.Lib LinuxDemo.Source LinuxDemo.Source.ChatRoom

/-- What a step of a client does where it is possible. -/
inductive Acts (m : Member) : Member → Prop where
  | type (part : List UInt8) (script : List (List UInt8)) (next : m.script = part :: script) :
    Acts m { m with
      script := script
      stdin := m.stdin ++ part
      typed := m.typed ++ part
      unseen := m.unseen + part.length
      stdinNotified := m.stdinNotified || (decide (m.phase = .inLoop) && decide (part ≠ [])) }
  | finish (none : m.script = []) (open_ : m.eof = false) : Acts m { m with
      eof := true
      stdinNotified := m.stdinNotified || decide (m.phase = .inLoop) }
  | register (phase : m.phase = .connected) : Acts m { m with
      phase := .inLoop
      clifdNotified := decide (m.down ≠ [])
      stdinNotified := decide (m.stdin ≠ [] ∨ m.eof = true) }
  | wait (events : List EpollChatroomClient.Event) (idle : m.client.events = [])
    (some_event : events ≠ []) (once : events.Nodup) (ready : ∀ e ∈ events, m.Ready e) :
    Acts m { m with
      client := { m.client with events := events }
      stdinNotified := m.stdinNotified && decide (.stdin ∉ events)
      clifdNotified := m.clifdNotified && decide (.clifd true ∉ events) }
  | read {rest : List EpollChatroomClient.Event} (front : m.client.events = .stdin :: rest)
    (buffer : List UInt8) (there : buffer <+: m.stdin) : Acts m { m with
      client := { m.client with events := rest, sent := m.client.sent ++ buffer }
      stdin := m.stdin.drop buffer.length
      up := m.up ++ buffer
      looks := m.looks ++ [(m.unseen, buffer.length)]
      unseen := 0 }
  | print {rest : List EpollChatroomClient.Event} (front : m.client.events = .clifd true :: rest)
    (buf : List UInt8) (some_bytes : buf ≠ []) (there : buf <+: m.down) :
    Acts m { m with
      client := { m.client with
        received := m.client.received ++ [buf]
        printed := m.client.printed ++ [EpollChatroomClient.content buf] }
      down := m.down.drop buf.length }
  | again {rest : List EpollChatroomClient.Event} (front : m.client.events = .clifd true :: rest)
    (drained : m.down = []) : Acts m { m with client := { m.client with events := rest } }

variable {m m' : Member}

theorem type_acts (m : Member) : Safe m.type (Acts m) := by
  unfold Member.type
  split
  next part script next => exact .type part script next
  next none =>
    split
    next => simp
    next open_ => exact .finish none (by simpa using open_)

theorem register_acts (m : Member) : Safe m.register (Acts m) := by
  unfold Member.register
  split
  next phase => exact .register phase
  next => simp

theorem wait_acts (m : Member) (events : List EpollChatroomClient.Event) :
    Safe (m.step (.wait events)) (Acts m) := by
  simp only [Member.step, EpollChatroomClient.step]
  split
  next idle =>
    rw [ok_bind]
    split
    next h => exact .wait events idle h.1 h.2.1 h.2.2
    next => simp
  next => simp

theorem read_acts (m : Member) (buffer : List UInt8) :
    Safe (m.step (.read buffer)) (Acts m) := by
  simp only [Member.step, EpollChatroomClient.step]
  split
  next rest front =>
    split
    next =>
      rw [ok_bind]
      split
      next there => exact .read front buffer there.1
      next => simp
    next => simp
  next => simp

theorem recv_acts (m : Member) (result : EpollChatroomClient.Recv) :
    Safe (m.step (.recv result)) (Acts m) := by
  simp only [Member.step, EpollChatroomClient.step]
  split
  next rest front =>
    cases result with
    | data buf =>
      simp only [EpollChatroomClient.readOnce]
      split
      next h =>
        rw [ok_bind]
        split
        next there => exact .print front buf h.2.1 there
        next => simp
      next => simp
    | again =>
      simp only [EpollChatroomClient.readOnce]
      split
      next =>
        rw [ok_bind]
        split
        next drained => exact .again front drained
        next => simp
      next => simp
    | eof =>
      simp only [EpollChatroomClient.readOnce]
      split <;> simp
    | error => simp [EpollChatroomClient.readOnce]
  next => simp

theorem step_acts (m : Member) (op : EpollChatroomClient.Op) : Safe (m.step op) (Acts m) := by
  cases op with
  | wait events => exact wait_acts m events
  | read buffer => exact read_acts m buffer
  | recv result => exact recv_acts m result
  | pass =>
    simp only [Member.step, EpollChatroomClient.step]
    split <;> simp

/-- What is true of a client by itself. -/
structure Good (m : Member) : Prop where
  opened : m.client.opened = true
  early : m.phase ≠ .inLoop →
    m.client.events = [] ∧ m.stdinNotified = false ∧ m.clifdNotified = false
  once : m.client.events.Nodup
  kinds : ∀ e ∈ m.client.events, e = .stdin ∨ e = .clifd true
  readable : .stdin ∈ m.client.events → m.stdin ≠ [] ∨ m.eof = true
  stdinTold : m.phase = .inLoop → 0 < m.unseen →
    m.stdinNotified = true ∨ .stdin ∈ m.client.events
  clifdTold : m.phase = .inLoop → m.down ≠ [] →
    m.clifdNotified = true ∨ .clifd true ∈ m.client.events
  unread : m.stdin.length = remaining m.looks + m.unseen
  total : m.typed.length = (m.looks.map Prod.fst).sum + m.unseen
  taken : (m.looks.map Prod.snd).sum + m.stdin.length = m.typed.length
  printed : m.client.printed = m.client.received.map EpollChatroomClient.content

theorem good_init (script : List (List UInt8)) : Good (.init script) := by
  constructor <;> simp [Member.init, EpollChatroomClient.Client.init]

theorem Good.unseen_unread (h : Good m) (hu : 0 < m.unseen) : m.stdin ≠ [] := by
  have unread := h.unread
  intro hs
  rw [hs, List.length_nil] at unread
  omega

theorem Good.inLoop (h : Good m) (he : m.client.events ≠ []) : m.phase = .inLoop := by
  by_contra hp
  exact he (h.early hp).1

theorem Good.type (h : Good m) (part : List UInt8) (script : List (List UInt8)) :
    Good { m with
      script := script
      stdin := m.stdin ++ part
      typed := m.typed ++ part
      unseen := m.unseen + part.length
      stdinNotified := m.stdinNotified || (decide (m.phase = .inLoop) && decide (part ≠ [])) } where
  opened := h.opened
  early hp := by simpa [hp] using h.early hp
  once := h.once
  kinds := h.kinds
  readable he := (h.readable he).imp_left (by simp +contextual)
  stdinTold (hp : m.phase = .inLoop) hu := by
    by_cases none : part = []
    · simpa [none] using h.stdinTold hp (by simpa [none] using hu)
    · simp [hp, none]
  clifdTold := h.clifdTold
  unread := by
    have unread := h.unread
    simp only [List.length_append]
    omega
  total := by
    have total := h.total
    simp only [List.length_append]
    omega
  taken := by
    have taken := h.taken
    simp only [List.length_append]
    omega
  printed := h.printed

theorem Good.finish (h : Good m) :
    Good { m with
      eof := true
      stdinNotified := m.stdinNotified || decide (m.phase = .inLoop) } where
  opened := h.opened
  early hp := by simpa [hp] using h.early hp
  once := h.once
  kinds := h.kinds
  readable _ := .inr rfl
  stdinTold (hp : m.phase = .inLoop) _ := by simp [hp]
  clifdTold := h.clifdTold
  unread := h.unread
  total := h.total
  taken := h.taken
  printed := h.printed

theorem Good.register (h : Good m) :
    Good { m with
      phase := .inLoop
      clifdNotified := decide (m.down ≠ [])
      stdinNotified := decide (m.stdin ≠ [] ∨ m.eof = true) } where
  opened := h.opened
  early hp := absurd rfl hp
  once := h.once
  kinds := h.kinds
  readable := h.readable
  stdinTold _ hu := .inl (by simp [h.unseen_unread hu])
  clifdTold _ hd := .inl (by simp [hd])
  unread := h.unread
  total := h.total
  taken := h.taken
  printed := h.printed

theorem Good.wait (h : Good m) {events : List EpollChatroomClient.Event}
    (idle : m.client.events = []) (some_event : events ≠ []) (once : events.Nodup)
    (ready : ∀ e ∈ events, m.Ready e) :
    Good { m with
      client := { m.client with events := events }
      stdinNotified := m.stdinNotified && decide (.stdin ∉ events)
      clifdNotified := m.clifdNotified && decide (.clifd true ∉ events) } where
  opened := h.opened
  early hp := by
    -- without a notification nothing is reported
    obtain ⟨-, stdin, clifd⟩ := h.early hp
    obtain ⟨e, he⟩ := List.exists_mem_of_ne_nil events some_event
    have told := ready e he
    cases e <;> simp [Member.Ready, stdin, clifd] at told
  once := once
  kinds e he := by
    have told := ready e he
    cases e with
    | stdin => exact .inl rfl
    | clifd epollin => exact .inr (by rw [told.1])
  readable he := (ready .stdin he).2
  stdinTold hp hu := by
    by_cases he : .stdin ∈ events
    · exact .inr he
    · simpa [idle, he] using h.stdinTold hp hu
  clifdTold hp hd := by
    by_cases he : .clifd true ∈ events
    · exact .inr he
    · simpa [idle, he] using h.clifdTold hp hd
  unread := h.unread
  total := h.total
  taken := h.taken
  printed := h.printed

theorem Good.read (h : Good m) {rest : List EpollChatroomClient.Event}
    (front : m.client.events = .stdin :: rest) {buffer : List UInt8} (there : buffer <+: m.stdin)
    (sent up : List UInt8) :
    Good { m with
      client := { m.client with events := rest, sent := sent }
      stdin := m.stdin.drop buffer.length
      up := up
      looks := m.looks ++ [(m.unseen, buffer.length)]
      unseen := 0 } where
  opened := h.opened
  early hp := by
    have none := (h.early hp).1
    simp [front] at none
  once := (List.nodup_cons.mp (front ▸ h.once)).2
  kinds e he := h.kinds e (by simp [front, he])
  readable he := absurd he (List.nodup_cons.mp (front ▸ h.once)).1
  stdinTold _ hu := absurd hu (Nat.lt_irrefl 0)
  clifdTold hp hd := by simpa [front] using h.clifdTold hp hd
  unread := by
    have unread := h.unread
    simp only [List.length_drop, remaining_concat]
    omega
  total := by
    have total := h.total
    simp only [List.map_append, List.map_singleton, List.sum_append, List.sum_singleton]
    omega
  taken := by
    have taken := h.taken
    have fits := there.length_le
    simp only [List.map_append, List.map_singleton, List.sum_append, List.sum_singleton,
      List.length_drop]
    omega
  printed := h.printed

theorem Good.print (h : Good m) {rest : List EpollChatroomClient.Event}
    (front : m.client.events = .clifd true :: rest) (buf down : List UInt8) :
    Good { m with
      client := { m.client with
        received := m.client.received ++ [buf]
        printed := m.client.printed ++ [EpollChatroomClient.content buf] }
      down := down } where
  opened := h.opened
  early := h.early
  once := h.once
  kinds := h.kinds
  readable := h.readable
  stdinTold := h.stdinTold
  clifdTold _ _ := .inr (by simp [front])
  unread := h.unread
  total := h.total
  taken := h.taken
  printed := by simp [h.printed]

theorem Good.again (h : Good m) {rest : List EpollChatroomClient.Event}
    (front : m.client.events = .clifd true :: rest) (drained : m.down = []) :
    Good { m with client := { m.client with events := rest } } where
  opened := h.opened
  early hp := by
    have none := (h.early hp).1
    simp [front] at none
  once := (List.nodup_cons.mp (front ▸ h.once)).2
  kinds e he := h.kinds e (by simp [front, he])
  readable he := h.readable (by simp [front, he])
  stdinTold hp hu := by simpa [front] using h.stdinTold hp hu
  clifdTold _ hd := absurd drained hd
  unread := h.unread
  total := h.total
  taken := h.taken
  printed := h.printed

theorem Acts.good (h : Good m) (ha : Acts m m') : Good m' := by
  cases ha with
  | type part script next => exact h.type part script
  | finish none open_ => exact h.finish
  | register phase => exact h.register
  | wait events idle some_event once ready => exact h.wait idle some_event once ready
  | read front buffer there => exact h.read front there _ _
  | print front buf some_bytes there => exact h.print front _ _
  | again front drained => exact h.again front drained

theorem Good.deliver (h : Good m) (sends : List Nat) (buf : List UInt8) :
    Good (m.deliver sends buf) where
  opened := h.opened
  early (hp : m.phase ≠ .inLoop) := by simpa [Member.deliver, hp] using h.early hp
  once := h.once
  kinds := h.kinds
  readable := h.readable
  stdinTold := h.stdinTold
  clifdTold (hp : m.phase = .inLoop) hd := by
    by_cases none : sends = []
    · simpa [Member.deliver, none] using h.clifdTold hp (by simpa [Member.deliver, none] using hd)
    · simp [Member.deliver, hp, none]
  unread := h.unread
  total := h.total
  taken := h.taken
  printed := h.printed

theorem Good.congr (h : Good m) {phase : Phase} (hp : phase = .inLoop ↔ m.phase = .inLoop)
    (up : List UInt8) (joined : Option Nat) :
    Good { m with phase := phase, up := up, joined := joined } where
  opened := h.opened
  early hn := h.early (by simpa [hp] using hn)
  once := h.once
  kinds := h.kinds
  readable := h.readable
  stdinTold hn := h.stdinTold (by simpa [hp] using hn)
  clifdTold hn := h.clifdTold (by simpa [hp] using hn)
  unread := h.unread
  total := h.total
  taken := h.taken
  printed := h.printed

/-- What its own steps do to the two streams of a client. -/
structure Moves (m m' : Member) : Prop where
  shown : m'.client.received.flatten ++ m'.down = m.client.received.flatten ++ m.down
  said : ∀ before, m.typed = before ++ m.up ++ m.stdin → m'.typed = before ++ m'.up ++ m'.stdin
  typing : m'.typed ++ m'.script.flatten = m.typed ++ m.script.flatten
  joined : m'.joined = m.joined
  started : m'.phase = .starting ↔ m.phase = .starting

theorem Acts.moves (ha : Acts m m') : Moves m m' := by
  cases ha with
  | type part script next =>
    refine ⟨rfl, fun before h => ?_, ?_, rfl, Iff.rfl⟩
    · simp [h]
    · simp [next]
  | finish none open_ => exact ⟨rfl, fun _ h => h, rfl, rfl, Iff.rfl⟩
  | register phase => exact ⟨rfl, fun _ h => h, rfl, rfl, by simp [phase]⟩
  | wait events idle some_event once ready => exact ⟨rfl, fun _ h => h, rfl, rfl, Iff.rfl⟩
  | read front buffer there =>
    refine ⟨rfl, fun before h => ?_, rfl, rfl, Iff.rfl⟩
    obtain ⟨rest, hrest⟩ := there
    simp [h, ← hrest]
  | print front buf some_bytes there =>
    refine ⟨?_, fun _ h => h, rfl, rfl, Iff.rfl⟩
    obtain ⟨rest, hrest⟩ := there
    simp [← hrest]
  | again front drained => exact ⟨rfl, fun _ h => h, rfl, rfl, Iff.rfl⟩

def phaseWeight : Phase → Nat
  | .starting => 11
  | .connected => 5
  | .inLoop => 0

/-- What is still to do for a client among `n`; a byte sent is one that `n` may be shown. -/
def weight (n : Nat) (m : Member) : Nat :=
  phaseWeight m.phase + (m.script.map fun part => (3 * n + 3) * part.length + 3).sum +
  (if m.eof then 0 else 3) + (3 * n + 3) * m.stdin.length + (3 * n + 1) * m.up.length + m.down.length +
  2 * m.stdinNotified.toNat + 2 * m.clifdNotified.toNat + m.client.events.length

/-- A batch has an event for each of the descriptors it is about. -/
theorem length_le_kinds {events : List EpollChatroomClient.Event} (once : events.Nodup)
    (kinds : ∀ e ∈ events, e = .stdin ∨ e = .clifd true) :
    events.length ≤ (decide (.stdin ∈ events)).toNat + (decide (.clifd true ∈ events)).toNat := by
  have room (all : List EpollChatroomClient.Event) (h : events ⊆ all) :
      events.length ≤ all.length := (once.subperm h).length_le
  by_cases hs : .stdin ∈ events
  · by_cases hc : .clifd true ∈ events
    · have two := room [.stdin, .clifd true] (fun e he => by simpa using kinds e he)
      simpa [hs, hc] using two
    · have one := room [.stdin] (fun e he => by grind)
      simpa [hs, hc] using one
  · by_cases hc : .clifd true ∈ events
    · have one := room [.clifd true] (fun e he => by grind)
      simpa [hs, hc] using one
    · have none := room [] (fun e he => by grind)
      simpa [hs, hc] using none

theorem toNat_and_not {f : Bool} {p : Prop} [Decidable p] (h : p → f = true) :
    (f && decide (¬ p)).toNat + (decide p).toNat = f.toNat := by
  by_cases hp : p
  · simp [hp, h hp]
  · simp [hp]

/-- A report takes two off for its notification and adds one to the batch. -/
theorem wait_lowers {events : List EpollChatroomClient.Event} (some_event : events ≠ [])
    (once : events.Nodup) (ready : ∀ e ∈ events, m.Ready e) :
    2 * (m.stdinNotified && decide (.stdin ∉ events)).toNat +
      2 * (m.clifdNotified && decide (.clifd true ∉ events)).toNat + events.length <
      2 * m.stdinNotified.toNat + 2 * m.clifdNotified.toNat := by
  have kinds : ∀ e ∈ events, e = .stdin ∨ e = .clifd true := by
    intro e he
    cases e with
    | stdin => exact .inl rfl
    | clifd epollin => exact .inr (by rw [(ready _ he).1])
  have length := length_le_kinds once kinds
  have some_length := List.length_pos_iff.mpr some_event
  have stdin := toNat_and_not fun he => (ready .stdin he).1
  have clifd := toNat_and_not fun he => (ready (.clifd true) he).2.1
  omega

/-- A byte weighs two less once it is sent. -/
theorem read_lowers (n : Nat) {stdin buffer : List UInt8} (up : List UInt8)
    (there : buffer <+: stdin) :
    (3 * n + 3) * (stdin.drop buffer.length).length + (3 * n + 1) * (up ++ buffer).length +
      (if up = up ++ buffer then 0 else 2) ≤
      (3 * n + 3) * stdin.length + (3 * n + 1) * up.length := by
  have split : buffer.length + (stdin.drop buffer.length).length = stdin.length := by
    rw [List.length_drop, Nat.add_sub_cancel' there.length_le]
  have step : (3 * n + 3) * stdin.length = (3 * n + 3) * (stdin.drop buffer.length).length +
      (3 * n + 1) * buffer.length + 2 * buffer.length := by
    rw [← split]
    ring
  rw [step, List.length_append, Nat.mul_add]
  split
  next => omega
  next some_bytes =>
    have : 0 < buffer.length := by
      rw [List.length_pos_iff]
      intro none
      exact some_bytes (by rw [none, List.append_nil])
    omega

theorem Acts.lowers (n : Nat) (ha : Acts m m') :
    weight n m' + (if m.up = m'.up then 0 else 2) < weight n m := by
  cases ha with
  | type part script next =>
    have flag : (m.stdinNotified || (decide (m.phase = .inLoop) && decide (part ≠ []))).toNat ≤ 1 :=
      Bool.toNat_le _
    simp only [weight, next, List.map_cons, List.sum_cons, List.length_append, Nat.mul_add, if_true]
    omega
  | finish none open_ =>
    have flag : (m.stdinNotified || decide (m.phase = .inLoop)).toNat ≤ 1 := Bool.toNat_le _
    simp only [weight, open_, if_true, Bool.false_eq_true, if_false]
    omega
  | register phase =>
    have stdin : (decide (m.stdin ≠ [] ∨ m.eof = true)).toNat ≤ 1 := Bool.toNat_le _
    have clifd : (decide (m.down ≠ [])).toNat ≤ 1 := Bool.toNat_le _
    simp only [weight, phase, phaseWeight, if_true]
    omega
  | wait events idle some_event once ready =>
    have lowers := wait_lowers some_event once ready
    simp only [weight, idle, if_true, List.length_nil]
    omega
  | read front buffer there =>
    have lowers := read_lowers n m.up there
    simp only [weight, front, List.length_cons]
    omega
  | print front buf some_bytes there =>
    have split := List.length_drop (i := buf.length) (l := m.down)
    have fits := there.length_le
    have some_length := List.length_pos_iff.mpr some_bytes
    simp only [weight, if_true]
    omega
  | again front drained =>
    simp only [weight, front, if_true, List.length_cons]
    omega

theorem deliver_weight (n : Nat) (m : Member) {sends : List Nat} (once : sends.length ≤ 1)
    (buf : List UInt8) : weight n (m.deliver sends buf) ≤ weight n m + (buf.length + 2) := by
  have flag : (m.clifdNotified || (decide (m.phase = .inLoop) && decide (sends ≠ []))).toNat ≤ 1 :=
    Bool.toNat_le _
  have bytes : (sends.flatMap fun _ => buf).length ≤ buf.length := by
    rcases sends with _ | ⟨fd, _ | ⟨fd', rest⟩⟩
    · simp
    · simp
    · simp at once
  unfold weight Member.deliver
  dsimp only
  rw [List.length_append]
  omega

end LinuxDemo.Invariant.ChatRoom
