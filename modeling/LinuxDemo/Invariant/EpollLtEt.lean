import LinuxDemo.Source.EpollLtEt
import Mathlib.Data.List.Nodup

/-!
# What the two handlers do to a connection

`Effect` says once what an operation does. What was received is a prefix of what arrived
with either handler; they differ in why nothing is left behind. With `use_LT` every report
still to be handled has something to read, so that its one `recv` never finds nothing.
With `use_ET` everything there is to read has a notification or a report.
-/
namespace LinuxDemo.Invariant.EpollLtEt
open LinuxDemo.Lib LinuxDemo.Source.EpollLtEt

/-- The batch behind a `recv` that returned data. -/
def left : Handler → Event → List Event → List Event
  | .useLT, _, rest => rest
  | .useET, e, rest => e :: rest

/-- Connection `k` has been read. -/
def taken (s : Server) (k ret : Nat) : Server :=
  { s with
    conns := Function.update s.conns k ⟨(s.conns k).input.drop ret, (s.conns k).eof⟩
    received := Function.update s.received k (s.received k ++ (s.conns k).input.take ret) }

/-- The descriptor of connection `k` has been closed. -/
def hungUp (s : Server) (fd k : Nat) : Server :=
  { s with
    fds := Function.update s.fds fd none
    notified := Function.update s.notified fd false
    closed := s.closed ++ [k] }

/-- What an operation does where it is possible. -/
inductive Effect (env : Env) (h : Handler) (s : Server) : Op → Server → Prop where
  | connect : Effect env h s .connect { s with
      backlog := s.backlog ++ [s.made]
      made := s.made + 1
      notified := raise s.notified (· = env.listenfd) }
  | bytes (k : Nat) (buf : List UInt8) (more : (s.conns k).eof = false) :
    Effect env h s (.bytes k buf) (arrive s k ⟨(s.conns k).input ++ buf, false⟩)
  | fin (k : Nat) (more : (s.conns k).eof = false) :
    Effect env h s (.fin k) (arrive s k ⟨(s.conns k).input, true⟩)
  | wait (events : List Event) (none : s.events = []) (ready : Reportable env s events) :
    Effect env h s (.wait events) { s with
      events := events
      notified := report s.notified (events.map Event.fd) }
  | refused {e : Event} {rest : List Event} (front : s.events = e :: rest)
    (listen : e.fd = env.listenfd) : Effect env h s (.accept none) { s with events := rest }
  | accept {e : Event} {rest : List Event} {fd k : Nat} {backlog : List Nat}
    (front : s.events = e :: rest) (listen : e.fd = env.listenfd) (first : s.backlog = k :: backlog)
    (apart : fd ≠ env.listenfd) (free : s.fds fd = none) :
    Effect env h s (.accept (some fd))
      (addfd { s with events := rest, backlog := backlog } fd k h.enableEt)
  | data {e : Event} {rest : List Event} {c : Client} {ret : Nat} (front : s.events = e :: rest)
    (client : e.fd ≠ env.listenfd) (conn : s.fds e.fd = some c) :
    Effect env h s (.recv (.data ret)) { taken s c.connection ret with events := left h e rest }
  | eof {e : Event} {rest : List Event} {c : Client} (front : s.events = e :: rest)
    (client : e.fd ≠ env.listenfd) (conn : s.fds e.fd = some c)
    (ended : (s.conns c.connection).input = [] ∧ (s.conns c.connection).eof = true) :
    Effect env h s (.recv .eof) { hungUp s e.fd c.connection with events := left h e rest }
  | givenUp {e : Event} {rest : List Event} {c : Client} (level : h = .useLT)
    (front : s.events = e :: rest) (client : e.fd ≠ env.listenfd) (conn : s.fds e.fd = some c)
    (drained : ¬ (s.conns c.connection).Readable) :
    Effect env h s (.recv .again) { hungUp s e.fd c.connection with events := rest }
  | again {e : Event} {rest : List Event} {c : Client} (edge : h = .useET)
    (front : s.events = e :: rest) (client : e.fd ≠ env.listenfd) (conn : s.fds e.fd = some c)
    (drained : ¬ (s.conns c.connection).Readable) :
    Effect env h s (.recv .again) { s with events := rest }
  | gone {e : Event} {rest : List Event} (front : s.events = e :: rest)
    (client : e.fd ≠ env.listenfd) (gone : s.fds e.fd = none) :
    Effect env h s (.recv .error) { s with events := rest }
  | somethingElse {e : Event} {rest : List Event} (front : s.events = e :: rest)
    (client : e.fd ≠ env.listenfd) (out : e.epollin = false) :
    Effect env h s .somethingElse { s with events := rest }

theorem close_of_open {s : Server} {fd : Nat} {c : Client} (hc : s.fds fd = some c) :
    close s fd = hungUp s fd c.connection := by
  simp [close, hc, hungUp]

theorem close_of_closed {s : Server} {fd : Nat} (hc : s.fds fd = none) : close s fd = s := by
  simp [close, hc]

theorem not_readable {c : Conn} (h : c.input = [] ∧ c.eof = false) : ¬ c.Readable := by
  simp [Conn.Readable, h]

theorem read_effect {env : Env} {h : Handler} {s : Server} {e : Event} {rest : List Event}
    (result : Recv) (he : s.events = e :: rest) (hclient : e.fd ≠ env.listenfd) :
    Safe (h.read s e.fd rest result) (Effect env h s (.recv result)) := by
  cases hc : s.fds e.fd with
  | none =>
    cases result with
    | error =>
      cases h with
      | useLT =>
        simp only [Handler.read, useLT, recv, hc, if_true, ok_bind, close_of_closed hc]
        exact .gone he hclient hc
      | useET =>
        simp only [Handler.read, useET, recv, hc, if_true, ok_bind, close_of_closed hc]
        exact .gone he hclient hc
    | data ret => cases h <;> simp [Handler.read, useLT, useET, recv, hc]
    | eof => cases h <;> simp [Handler.read, useLT, useET, recv, hc]
    | again => cases h <;> simp [Handler.read, useLT, useET, recv, hc]
  | some c =>
    cases result with
    | data ret =>
      have effect : Effect env h s (.recv (.data ret)) _ := .data he hclient hc
      by_cases hret : 0 < ret ∧ ret ≤ BUFFSIZE - 1 ∧ ret ≤ (s.conns c.connection).input.length
      · cases h with
        | useLT =>
          simp only [Handler.read, useLT, recv, hc, if_pos hret, ok_bind]
          exact effect
        | useET =>
          simp only [Handler.read, useET, recv, hc, if_pos hret, ok_bind]
          simpa [left, taken, ← he] using effect
      · cases h <;> simp [Handler.read, useLT, useET, recv, hc, hret]
    | eof =>
      by_cases hend : (s.conns c.connection).input = [] ∧ (s.conns c.connection).eof = true
      · have effect : Effect env h s (.recv .eof) _ := .eof he hclient hc hend
        cases h with
        | useLT =>
          simp only [Handler.read, useLT, recv, hc, if_pos hend, ok_bind, close_of_open hc]
          exact effect
        | useET =>
          simp only [Handler.read, useET, recv, hc, if_pos hend, ok_bind, close_of_open hc]
          simpa [left, hungUp, ← he] using effect
      · cases h <;> simp [Handler.read, useLT, useET, recv, hc, hend]
    | again =>
      by_cases hnone : (s.conns c.connection).input = [] ∧ (s.conns c.connection).eof = false
      · cases h with
        | useLT =>
          simp only [Handler.read, useLT, recv, hc, if_pos hnone, ok_bind, close_of_open hc]
          exact .givenUp rfl he hclient hc (not_readable hnone)
        | useET =>
          simp only [Handler.read, useET, recv, hc, if_pos hnone, ok_bind]
          exact .again rfl he hclient hc (not_readable hnone)
      · cases h <;> simp [Handler.read, useLT, useET, recv, hc, hnone]
    | error => cases h <;> simp [Handler.read, useLT, useET, recv, hc]

theorem acceptClient_effect {env : Env} {h : Handler} {s : Server} {e : Event} {rest : List Event}
    (clientfd : Option Nat) (he : s.events = e :: rest) (hl : e.fd = env.listenfd) :
    Safe (acceptClient env h { s with events := rest } clientfd)
      (Effect env h s (.accept clientfd)) := by
  unfold acceptClient
  split
  next => exact .refused he hl
  next fd k backlog hb =>
    split
    next hfd => exact .accept he hl hb hfd.1 hfd.2
    next => simp
  next => simp

theorem step_effect (env : Env) (h : Handler) (s : Server) (op : Op) :
    Safe (step env h s op) (Effect env h s op) := by
  cases op with
  | connect => exact .connect
  | bytes k buf =>
    simp only [step]
    split
    next hk => exact .bytes k buf hk.2.1
    next => simp
  | fin k =>
    simp only [step]
    split
    next hk => exact .fin k hk.2
    next => simp
  | wait events =>
    simp only [step]
    split
    next hw => exact .wait events hw.1 hw.2
    next => simp
  | accept clientfd =>
    simp only [step]
    split
    next e rest he =>
      split
      next hl => exact acceptClient_effect clientfd he hl
      next => simp
    next => simp
  | recv result =>
    simp only [step]
    split
    next e rest he =>
      split
      next hr => exact read_effect result he hr.1
      next => simp
    next => simp
  | somethingElse =>
    simp only [step]
    split
    next e rest he =>
      split
      next ho => exact .somethingElse he ho.1 (by simpa using ho.2)
      next => simp
    next => simp

/-! ## What has been received -/

/-- The bytes that arrive on connection `k`. -/
def arrived (k : Nat) (ops : List Op) : List UInt8 :=
  ops.flatMap fun op => match op with
    | .bytes j buf => if j = k then buf else []
    | _ => []

/-- What was received and what is there to read is what arrived. -/
structure Streams (done : List Op) (s : Server) : Prop where
  bytes : ∀ k, s.received k ++ (s.conns k).input = arrived k done
  ended : ∀ k, (s.conns k).eof = true ↔ .fin k ∈ done

theorem arrived_snoc (k : Nat) (done : List Op) (op : Op) :
    arrived k (done ++ [op]) = arrived k done ++ arrived k [op] := List.flatMap_append

section Streams
variable {env : Env} {h : Handler} {done : List Op} {s s' : Server} {op : Op}

/-- Nothing arrives, and nothing is lost. -/
theorem Streams.keep (w : Streams done s) (quiet : ∀ k, arrived k [op] = [])
    (open' : ∀ k, op ≠ .fin k)
    (bytes : ∀ k, s'.received k ++ (s'.conns k).input = s.received k ++ (s.conns k).input)
    (eof : ∀ k, (s'.conns k).eof = (s.conns k).eof) : Streams (done ++ [op]) s' := by
  constructor
  · intro k
    rw [arrived_snoc, quiet, List.append_nil, bytes, w.bytes]
  · intro k
    have hne : .fin k ≠ op := (open' k).symm
    simp [eof, w.ended, hne]

theorem taken_bytes (s : Server) (k ret j : Nat) :
    (taken s k ret).received j ++ ((taken s k ret).conns j).input =
      s.received j ++ (s.conns j).input := by
  by_cases e : j = k
  · subst e
    simp [taken]
  · simp [taken, e]

theorem taken_eof (s : Server) (k ret j : Nat) :
    ((taken s k ret).conns j).eof = (s.conns j).eof := by
  by_cases e : j = k <;> simp [taken, e]

theorem step_streams (done : List Op) (s : Server) (op : Op) (w : Streams done s) :
    Safe (step env h s op) (Streams (done ++ [op])) := by
  refine (step_effect env h s op).mono fun s' he => ?_
  cases he with
  | bytes k buf more =>
    constructor
    · intro j
      rw [arrived_snoc, ← w.bytes]
      by_cases e : j = k
      · subst e
        simp [arrive, arrived]
      · simp [arrive, arrived, e, Ne.symm e]
    · intro j
      by_cases e : j = k
      · subst e
        simp [arrive, ← w.ended, more]
      · simp [arrive, ← w.ended, e]
  | fin k more =>
    constructor
    · intro j
      rw [arrived_snoc, ← w.bytes]
      by_cases e : j = k
      · subst e
        simp [arrive, arrived]
      · simp [arrive, arrived, e]
    · intro j
      by_cases e : j = k
      · subst e
        simp [arrive]
      · simp [arrive, ← w.ended, e]
  | data => exact w.keep (fun _ => rfl) nofun (taken_bytes s _ _) (taken_eof s _ _)
  | connect | wait | refused | accept | eof | givenUp | again | gone | somethingElse =>
    exact w.keep (fun _ => rfl) nofun (fun _ => rfl) fun _ => rfl

end Streams

/-! ## Which connections are open -/

/-- An accepted connection has one open descriptor, or has been closed. -/
structure Table (env : Env) (h : Handler) (s : Server) : Prop where
  waiting : s.backlog.Nodup ∧ ∀ k ∈ s.backlog, k < s.made ∧ k ∉ s.accepted
  known : ∀ k ∈ s.accepted, k < s.made
  client : ∀ fd c, s.fds fd = some c → fd ≠ env.listenfd ∧ c.et = h.enableEt ∧
    c.connection ∈ s.accepted ∧ c.connection ∉ s.closed
  apart : ∀ fd fd' c c', s.fds fd = some c → s.fds fd' = some c' →
    c.connection = c'.connection → fd = fd'
  kept : ∀ k ∈ s.accepted, k ∈ s.closed ∨ ∃ fd c, s.fds fd = some c ∧ c.connection = k
  finished : ∀ k ∈ s.closed, k ∈ s.accepted ∧ (s.conns k).input = [] ∧ (s.conns k).eof = true

theorem table_init (env : Env) (h : Handler) : Table env h Server.init := by
  constructor <;> simp [Server.init]

section Table
variable {env : Env} {h : Handler} {s s' : Server}

/-- The batch and the notifications do not matter. -/
theorem Table.congr (t : Table env h s) (backlog : s'.backlog = s.backlog) (made : s'.made = s.made)
    (fds : s'.fds = s.fds) (accepted : s'.accepted = s.accepted) (closed : s'.closed = s.closed)
    (finished : ∀ k ∈ s.closed, s'.conns k = s.conns k) : Table env h s' := by
  constructor
  · rw [backlog, made, accepted]
    exact t.waiting
  · rw [made, accepted]
    exact t.known
  · rw [fds, accepted, closed]
    exact t.client
  · rw [fds]
    exact t.apart
  · rw [accepted, closed, fds]
    exact t.kept
  · rw [accepted, closed]
    intro k hk
    rw [finished k hk]
    exact t.finished k hk

theorem Table.connect (t : Table env h s) {notified : Nat → Bool} : Table env h { s with
    backlog := s.backlog ++ [s.made]
    made := s.made + 1
    notified := notified } := by
  have fresh : s.made ∉ s.backlog ∧ s.made ∉ s.accepted :=
    ⟨fun hm => Nat.lt_irrefl _ (t.waiting.2 _ hm).1, fun hm => Nat.lt_irrefl _ (t.known _ hm)⟩
  refine ⟨⟨List.concat_eq_append ▸ t.waiting.1.concat fresh.1, ?_⟩, ?_, t.client, t.apart, t.kept,
    t.finished⟩
  · intro k hk
    rcases List.mem_append.mp hk with hk | hk
    · exact ⟨Nat.lt_succ_of_lt (t.waiting.2 k hk).1, (t.waiting.2 k hk).2⟩
    · obtain rfl := List.mem_singleton.mp hk
      exact ⟨Nat.lt_succ_self _, fresh.2⟩
  · exact fun k hk => Nat.lt_succ_of_lt (t.known k hk)

/-- Nothing arrives on a connection that has ended, and only such ones are closed. -/
theorem Table.arrive (t : Table env h s) {k : Nat} (conn : Conn) (more : (s.conns k).eof = false) :
    Table env h (arrive s k conn) := by
  refine t.congr rfl rfl rfl rfl rfl fun j hj => Function.update_of_ne ?_ _ _
  rintro rfl
  simp [(t.finished j hj).2.2] at more

theorem addfd_fds_eq_some {fd k fd' : Nat} {et : Bool} {c : Client} :
    (addfd s fd k et).fds fd' = some c ↔
      fd' = fd ∧ c = ⟨k, et⟩ ∨ fd' ≠ fd ∧ s.fds fd' = some c := by
  by_cases e : fd' = fd
  · simp [addfd, e, eq_comm]
  · simp [addfd, e]

theorem hungUp_fds_eq_some {fd k fd' : Nat} {c : Client} :
    (hungUp s fd k).fds fd' = some c ↔ fd' ≠ fd ∧ s.fds fd' = some c := by
  by_cases e : fd' = fd
  · simp [hungUp, e]
  · simp [hungUp, e]

theorem Table.addfd (t : Table env h s) {fd k : Nat} {backlog : List Nat}
    (first : s.backlog = k :: backlog) (apart : fd ≠ env.listenfd) (free : s.fds fd = none) :
    Table env h (addfd { s with backlog := backlog } fd k h.enableEt) := by
  obtain ⟨nodup, waits⟩ := t.waiting
  rw [first, List.nodup_cons] at nodup
  rw [first] at waits
  have new : k < s.made ∧ k ∉ s.accepted := waits k (by simp)
  have other : ∀ fd' c, s.fds fd' = some c → c.connection ≠ k := by
    rintro fd' c hc rfl
    exact new.2 (t.client fd' c hc).2.2.1
  constructor
  · refine ⟨nodup.2, fun j hj => ?_⟩
    obtain ⟨made, out⟩ := waits j (List.mem_cons_of_mem k hj)
    refine ⟨made, fun hmem => ?_⟩
    rcases List.mem_append.mp hmem with hmem | hmem
    · exact out hmem
    · obtain rfl := List.mem_singleton.mp hmem
      exact nodup.1 hj
  · intro j hj
    rcases List.mem_append.mp hj with hj | hj
    · exact t.known j hj
    · obtain rfl := List.mem_singleton.mp hj
      exact new.1
  · intro fd' c hc
    rcases addfd_fds_eq_some.mp hc with ⟨rfl, rfl⟩ | ⟨-, hc⟩
    · exact ⟨apart, rfl, List.mem_append_right _ (List.mem_singleton_self _),
        fun hk => new.2 (t.finished k hk).1⟩
    · obtain ⟨h₁, h₂, h₃, h₄⟩ := t.client fd' c hc
      exact ⟨h₁, h₂, List.mem_append_left _ h₃, h₄⟩
  · intro fd₁ fd₂ c₁ c₂ hc₁ hc₂ same
    rcases addfd_fds_eq_some.mp hc₁ with ⟨rfl, rfl⟩ | ⟨-, hc₁⟩
    · rcases addfd_fds_eq_some.mp hc₂ with ⟨rfl, -⟩ | ⟨-, hc₂⟩
      · rfl
      · exact absurd same.symm (other fd₂ c₂ hc₂)
    · rcases addfd_fds_eq_some.mp hc₂ with ⟨-, rfl⟩ | ⟨-, hc₂⟩
      · exact absurd same (other fd₁ c₁ hc₁)
      · exact t.apart fd₁ fd₂ c₁ c₂ hc₁ hc₂ same
  · intro j hj
    rcases List.mem_append.mp hj with hj | hj
    · refine (t.kept j hj).imp_right ?_
      rintro ⟨fd', c, hc, hcj⟩
      refine ⟨fd', c, addfd_fds_eq_some.mpr (.inr ⟨?_, hc⟩), hcj⟩
      rintro rfl
      rw [free] at hc
      cases hc
    · obtain rfl := List.mem_singleton.mp hj
      exact .inr ⟨fd, ⟨j, h.enableEt⟩, addfd_fds_eq_some.mpr (.inl ⟨rfl, rfl⟩), rfl⟩
  · intro j hj
    exact ⟨List.mem_append_left _ (t.finished j hj).1, (t.finished j hj).2⟩

/-- A connection is closed that has been read to its end. -/
theorem Table.hungUp (t : Table env h s) {fd : Nat} {c : Client} (conn : s.fds fd = some c)
    (ended : (s.conns c.connection).input = [] ∧ (s.conns c.connection).eof = true)
    (events : List Event) : Table env h { hungUp s fd c.connection with events := events } := by
  have stays : ∀ fd' c', (EpollLtEt.hungUp s fd c.connection).fds fd' = some c' ↔
      fd' ≠ fd ∧ s.fds fd' = some c' := fun _ _ => hungUp_fds_eq_some
  constructor
  · exact t.waiting
  · exact t.known
  · intro fd' c' hc'
    obtain ⟨hne, hc'⟩ := (stays fd' c').mp hc'
    obtain ⟨h₁, h₂, h₃, h₄⟩ := t.client fd' c' hc'
    refine ⟨h₁, h₂, h₃, fun hmem => ?_⟩
    rcases List.mem_append.mp hmem with hmem | hmem
    · exact h₄ hmem
    · exact hne (t.apart fd' fd c' c hc' conn (List.mem_singleton.mp hmem))
  · intro fd₁ fd₂ c₁ c₂ hc₁ hc₂
    exact t.apart fd₁ fd₂ c₁ c₂ ((stays fd₁ c₁).mp hc₁).2 ((stays fd₂ c₂).mp hc₂).2
  · intro j hj
    rcases t.kept j hj with hclosed | ⟨fd', c', hc', rfl⟩
    · exact .inl (List.mem_append_left _ hclosed)
    · by_cases e : fd' = fd
      · subst e
        obtain rfl : c = c' := Option.some.inj (conn.symm.trans hc')
        exact .inl (List.mem_append_right _ (List.mem_singleton_self _))
      · exact .inr ⟨fd', c', (stays fd' c').mpr ⟨e, hc'⟩, rfl⟩
  · intro j hj
    rcases List.mem_append.mp hj with hj | hj
    · exact t.finished j hj
    · obtain rfl := List.mem_singleton.mp hj
      exact ⟨(t.client fd c conn).2.2.1, ended⟩

theorem Table.connection_ne (t : Table env h s) {fd fd' : Nat} {c c' : Client}
    (hc : s.fds fd = some c) (hc' : s.fds fd' = some c') (hne : fd' ≠ fd) :
    c'.connection ≠ c.connection := fun e => hne (t.apart fd' fd c' c hc' hc e)

end Table

theorem readable_iff {s : Server} {fd : Nat} :
    Readable s fd ↔ ∃ c, s.fds fd = some c ∧ (s.conns c.connection).Readable := by
  simp [Readable]

/-- More arrives on a connection that has not ended. -/
theorem readable_arrive {s : Server} {k fd : Nat} {buf : List UInt8} {eof : Bool}
    (hr : Readable s fd) (more : (s.conns k).eof = false) :
    Readable (arrive s k ⟨(s.conns k).input ++ buf, eof⟩) fd := by
  obtain ⟨c, hc, hin⟩ := readable_iff.mp hr
  refine readable_iff.mpr ⟨c, hc, ?_⟩
  by_cases e : c.connection = k
  · subst e
    have unread : (s.conns c.connection).input ≠ [] := hin.resolve_right (by simp [more])
    simp [Source.EpollLtEt.arrive, Conn.Readable, unread]
  · simpa [Source.EpollLtEt.arrive, e] using hin

/-! ## Level-triggered: a report has something to read -/

structure Ready (env : Env) (s : Server) : Prop where
  nodup : (s.events.map Event.fd).Nodup
  there : ∀ e ∈ s.events, e.fd ≠ env.listenfd → Readable s e.fd

section Ready
variable {env : Env} {s s' : Server} {e : Event} {rest : List Event}

theorem Ready.keep (r : Ready env s) (events : s'.events = s.events)
    (there : ∀ fd, Readable s fd → Readable s' fd) : Ready env s' := by
  constructor
  · rw [events]
    exact r.nodup
  · rw [events]
    exact fun e he hl => there e.fd (r.there e he hl)

/-- The event in front is done with, and the others still have what they had. -/
theorem Ready.next (r : Ready env s) (front : s.events = e :: rest) (events : s'.events = rest)
    (there : ∀ fd, fd ≠ e.fd → Readable s fd → Readable s' fd) : Ready env s' := by
  have nodup := r.nodup
  rw [front, List.map_cons, List.nodup_cons] at nodup
  constructor
  · rw [events]
    exact nodup.2
  · rw [events]
    intro e' he' hl
    refine there e'.fd (fun same => nodup.1 ?_) (r.there e' (by simp [front, he']) hl)
    rw [← same]
    exact List.mem_map_of_mem he'

/-- Without EPOLLET only what can be read is reported. -/
theorem Table.readable_of_pending (t : Table env .useLT s) {fd : Nat} (hl : fd ≠ env.listenfd)
    (hp : Pending env s fd) : Readable s fd := by
  unfold Pending at hp
  rw [if_neg hl] at hp
  split at hp
  next c hc =>
    have level : c.et = false := (t.client fd c hc).2.1
    rw [level] at hp
    exact readable_iff.mpr ⟨c, hc, by simpa using hp⟩
  next => exact hp.elim

end Ready

/-! ## Edge-triggered: what can be read is notified -/

/-- The reports still to be handled that lead to a call on the descriptor. -/
def reports (events : List Event) : List Nat := (events.filter Event.epollin).map Event.fd

def Attended (s : Server) : Prop := Covered (Readable s) s.notified (reports s.events)

section Attended
variable {env : Env} {s s' : Server} {e : Event} {rest : List Event}

/-- The event in front is being handled. -/
theorem Attended.front (a : Attended s) (front : s.events = e :: rest) :
    Covered (Readable s) s.notified (e.fd :: reports rest) := by
  unfold Attended at a
  rw [front] at a
  refine a.mono fun fd hfd => ?_
  unfold reports at hfd
  rw [List.filter_cons] at hfd
  split at hfd
  · exact hfd
  · exact List.mem_cons_of_mem _ hfd

/-- Nothing can be read at the event in front. -/
theorem Attended.next (a : Attended s) (front : s.events = e :: rest) (none : ¬ Readable s e.fd) :
    Covered (Readable s) s.notified (reports rest) :=
  (a.front front).serve (fun hr => absurd hr none) fun _ _ hr => hr

theorem Attended.arrive (a : Attended s) (k : Nat) (conn : Conn) : Attended (arrive s k conn) := by
  refine Covered.raise a (fun fd => (s.fds fd).map Client.connection = some k) fun fd hfd => ?_
  obtain ⟨c, hc, hin⟩ := readable_iff.mp hfd
  have hc : s.fds fd = some c := hc
  by_cases e : c.connection = k
  · exact .inr (by rw [hc, Option.map_some, e])
  · refine .inl (readable_iff.mpr ⟨c, hc, ?_⟩)
    simpa [Source.EpollLtEt.arrive, e] using hin

theorem Attended.wait {events : List Event} (a : Attended s) (none : s.events = [])
    (ready : Reportable env s events) : Attended { s with
      events := events
      notified := report s.notified (events.map Event.fd) } := by
  unfold Attended at a
  rw [none] at a
  refine Covered.report a (events.map Event.fd) fun fd hmem hr => ?_
  obtain ⟨e, he, rfl⟩ := List.mem_map.mp hmem
  exact List.mem_map_of_mem (List.mem_filter.mpr ⟨he, (ready.2.2 e he).2 hr⟩)

/-- A registered descriptor is notified of what is there. -/
theorem Attended.addfd {reps : List Nat} {fd k : Nat} {et : Bool}
    (a : Covered (Readable s) s.notified reps) :
    Covered (Readable (addfd s fd k et)) (addfd s fd k et).notified reps := by
  refine a.register (fun hr => ?_) fun fd' hne hr => ?_
  · obtain ⟨c, hc, hin⟩ := readable_iff.mp hr
    obtain rfl : _ = c := by simpa [Source.EpollLtEt.addfd] using hc
    simpa [Source.EpollLtEt.addfd] using hin
  · obtain ⟨c, hc, hin⟩ := readable_iff.mp hr
    refine readable_iff.mpr ⟨c, ?_, hin⟩
    simpa [Source.EpollLtEt.addfd, hne] using hc

theorem Attended.hungUp (a : Attended s) (fd k : Nat) : Attended (hungUp s fd k) := by
  refine Covered.register a (fun hr => ?_) fun fd' hne hr => ?_
  · obtain ⟨c, hc, -⟩ := readable_iff.mp hr
    simp [EpollLtEt.hungUp] at hc
  · obtain ⟨c, hc, hin⟩ := readable_iff.mp hr
    refine readable_iff.mpr ⟨c, ?_, hin⟩
    simpa [EpollLtEt.hungUp, hne] using hc

theorem Attended.taken (a : Attended s) (k ret : Nat) : Attended (taken s k ret) := by
  refine Covered.shrink a fun fd hr => ?_
  obtain ⟨c, hc, hin⟩ := readable_iff.mp hr
  refine readable_iff.mpr ⟨c, hc, ?_⟩
  by_cases e : c.connection = k
  · subst e
    rcases hin with unread | ended
    · refine .inl fun hnil => unread ?_
      simp [EpollLtEt.taken, hnil]
    · exact .inr (by simpa [EpollLtEt.taken] using ended)
  · simpa [EpollLtEt.taken, e] using hin

end Attended

/-! ## Both handlers -/

/-- The connections, and why nothing is left behind. -/
structure Settled (env : Env) (h : Handler) (s : Server) : Prop where
  table : Table env h s
  level : h = .useLT → Ready env s
  edge : h = .useET → Attended s

theorem settled_init (env : Env) (h : Handler) : Settled env h Server.init := by
  refine ⟨table_init env h, fun _ => ⟨by simp [Server.init], by simp [Server.init]⟩, ?_⟩
  intro _ fd hfd
  simp [readable_iff, Server.init] at hfd

section Settled
variable {env : Env} {h : Handler} {s s' : Server} {e : Event} {rest : List Event}

theorem Settled.connect (w : Settled env h s) : Settled env h { s with
    backlog := s.backlog ++ [s.made]
    made := s.made + 1
    notified := raise s.notified (· = env.listenfd) } where
  table := w.table.connect
  level hl := (w.level hl).keep rfl fun _ hr => hr
  edge he := Covered.raise (w.edge he) (· = env.listenfd) fun _ hr => .inl hr

theorem Settled.arrive (w : Settled env h s) {k : Nat} (more : (s.conns k).eof = false)
    (buf : List UInt8) (eof : Bool) :
    Settled env h (arrive s k ⟨(s.conns k).input ++ buf, eof⟩) where
  table := w.table.arrive _ more
  level hl := (w.level hl).keep rfl fun _ hr => readable_arrive hr more
  edge he := (w.edge he).arrive k _

theorem Settled.wait (w : Settled env h s) {events : List Event} (none : s.events = [])
    (ready : Reportable env s events) : Settled env h { s with
      events := events
      notified := report s.notified (events.map Event.fd) } where
  table := w.table.congr rfl rfl rfl rfl rfl fun _ _ => rfl
  level hl := by
    subst hl
    exact ⟨ready.2.1, fun e he hne => w.table.readable_of_pending hne (ready.2.2 e he).1⟩
  edge he := (w.edge he).wait none ready

theorem Settled.not_readable_listen (w : Settled env h s) (listen : e.fd = env.listenfd) :
    ¬ Readable s e.fd := by
  intro hr
  obtain ⟨c, hc, -⟩ := readable_iff.mp hr
  exact (w.table.client _ c hc).1 listen

/-- An event is passed over at which there is nothing to read. -/
theorem Settled.next (w : Settled env h s) (front : s.events = e :: rest)
    (none : ¬ Readable s e.fd) : Settled env h { s with events := rest } where
  table := w.table.congr rfl rfl rfl rfl rfl fun _ _ => rfl
  level hl := (w.level hl).next front rfl fun _ _ hr => hr
  edge he := (w.edge he).next front none

theorem Settled.accept (w : Settled env h s) {fd k : Nat} {backlog : List Nat}
    (front : s.events = e :: rest) (listen : e.fd = env.listenfd) (first : s.backlog = k :: backlog)
    (apart : fd ≠ env.listenfd) (free : s.fds fd = none) :
    Settled env h (addfd { s with events := rest, backlog := backlog } fd k h.enableEt) where
  table := (w.next front (w.not_readable_listen listen)).table.addfd first apart free
  level hl := by
    refine (w.level hl).next front rfl fun fd' _ hr => ?_
    obtain ⟨c, hc, hin⟩ := readable_iff.mp hr
    refine readable_iff.mpr ⟨c, ?_, hin⟩
    have hne : fd' ≠ fd := by
      rintro rfl
      rw [free] at hc
      cases hc
    simpa [addfd, hne] using hc
  edge he := Attended.addfd ((w.edge he).next front (w.not_readable_listen listen))

theorem Settled.data (w : Settled env h s) {c : Client} {ret : Nat} (front : s.events = e :: rest)
    (conn : s.fds e.fd = some c) :
    Settled env h { taken s c.connection ret with events := left h e rest } := by
  refine ⟨w.table.congr rfl rfl rfl rfl rfl fun k hk => ?_, fun hl => ?_, fun he => ?_⟩
  · have hne : k ≠ c.connection := by
      rintro rfl
      exact (w.table.client _ c conn).2.2.2 hk
    simp [taken, hne]
  · subst hl
    refine (w.level rfl).next front rfl fun fd hne hr => ?_
    obtain ⟨c', hc', hin⟩ := readable_iff.mp hr
    refine readable_iff.mpr ⟨c', hc', ?_⟩
    simpa [taken, w.table.connection_ne conn hc' hne] using hin
  · subst he
    have a := (w.edge rfl).taken c.connection ret
    unfold Attended at a ⊢
    rwa [show (taken s c.connection ret).events = e :: rest from front] at a

theorem Settled.eof (w : Settled env h s) {c : Client} (front : s.events = e :: rest)
    (conn : s.fds e.fd = some c)
    (ended : (s.conns c.connection).input = [] ∧ (s.conns c.connection).eof = true) :
    Settled env h { hungUp s e.fd c.connection with events := left h e rest } := by
  refine ⟨w.table.hungUp conn ended _, fun hl => ?_, fun he => ?_⟩
  · subst hl
    refine (w.level rfl).next front rfl fun fd hne hr => ?_
    obtain ⟨c', hc', hin⟩ := readable_iff.mp hr
    refine readable_iff.mpr ⟨c', ?_, hin⟩
    simpa [hungUp, hne] using hc'
  · subst he
    have a := (w.edge rfl).hungUp e.fd c.connection
    unfold Attended at a ⊢
    rwa [show (hungUp s e.fd c.connection).events = e :: rest from front] at a

theorem step_settled (s : Server) (op : Op) (w : Settled env h s) :
    Safe (step env h s op) (Settled env h) := by
  have nothing {e : Event} {c : Client} (conn : s.fds e.fd = some c)
      (drained : ¬ (s.conns c.connection).Readable) : ¬ Readable s e.fd := by
    rintro ⟨c', hc', hin⟩
    obtain rfl : c = c' := Option.some.inj (conn.symm.trans hc')
    exact drained hin
  refine (step_effect env h s op).mono fun s' he => ?_
  cases he with
  | connect => exact w.connect
  | bytes k buf more => exact w.arrive more buf false
  | fin k more => simpa using w.arrive more [] true
  | wait events none ready => exact w.wait none ready
  | refused front listen => exact w.next front (w.not_readable_listen listen)
  | accept front listen first apart free => exact w.accept front listen first apart free
  | data front client conn => exact w.data front conn
  | eof front client conn ended => exact w.eof front conn ended
  | givenUp level front client conn drained =>
    have there := (w.level level).there _ (by rw [front]; exact List.mem_cons_self) client
    exact absurd there (nothing conn drained)
  | again edge front client conn drained => exact w.next front (nothing conn drained)
  | gone front client gone =>
    refine w.next front fun hr => ?_
    obtain ⟨c, hc, -⟩ := readable_iff.mp hr
    rw [gone] at hc
    cases hc
  | @somethingElse e rest front client out =>
    refine ⟨w.table.congr rfl rfl rfl rfl rfl fun _ _ => rfl,
      fun hl => (w.level hl).next front rfl fun _ _ hr => hr, fun he => ?_⟩
    have a := w.edge he
    have same : reports s.events = reports rest := by simp [front, reports, out]
    unfold Attended at a
    rwa [same] at a

/-- Nothing is pending, and the batch is done with. -/
def Quiet (env : Env) (s : Server) : Prop := s.events = [] ∧ ∀ fd, ¬ Pending env s fd

/-- Without a pending notification there is nothing to read, with either handler. -/
theorem Settled.not_readable (w : Settled env h s) (quiet : Quiet env s) (fd : Nat) :
    ¬ Readable s fd := by
  intro hr
  obtain ⟨c, hc, hin⟩ := readable_iff.mp hr
  obtain ⟨hl, mode, -⟩ := w.table.client fd c hc
  apply quiet.2 fd
  unfold Pending
  rw [if_neg hl, hc]
  cases h with
  | useLT => simpa [mode, Handler.enableEt] using hin
  | useET =>
    have a := w.edge rfl
    unfold Attended at a
    rw [quiet.1] at a
    simpa [mode, Handler.enableEt] using Covered.nil_iff.mp a fd hr

theorem run_streams (env : Env) (h : Handler) (ops : List Op) :
    Safe (run (step env h) Server.init ops) (Streams ops) := by
  have start : Streams [] Server.init := ⟨fun _ => rfl, by simp [Server.init]⟩
  simpa using run_ends_history (step env h) step_streams start ops

theorem run_settled (env : Env) (h : Handler) (ops : List Op) :
    Safe (run (step env h) Server.init ops) (Settled env h) :=
  run_ends (step env h) step_settled (settled_init env h) ops

/-- With no notification pending, an accepted connection has been read to the end of what
arrived, and is closed if its peer has closed it. -/
theorem run_delivers (env : Env) (h : Handler) (ops : List Op) :
    Safe (run (step env h) Server.init ops) fun s => Quiet env s → ∀ k ∈ s.accepted,
      s.received k = arrived k ops ∧ (k ∈ s.closed ↔ .fin k ∈ ops) := by
  refine ((run_streams env h ops).and (run_settled env h ops)).mono ?_
  rintro s ⟨w, settled⟩ quiet k hk
  have table := settled.table
  have hbytes := w.bytes k
  rw [← w.ended]
  rcases table.kept k hk with closed | ⟨fd, c, hc, rfl⟩
  · obtain ⟨-, read, ended⟩ := table.finished k closed
    rw [read, List.append_nil] at hbytes
    exact ⟨hbytes, iff_of_true closed ended⟩
  · have none := settled.not_readable quiet fd
    have drained : ¬ (s.conns c.connection).Readable := fun hin => none (readable_iff.mpr ⟨c, hc, hin⟩)
    simp only [Conn.Readable, not_or, not_not] at drained
    rw [drained.1, List.append_nil] at hbytes
    exact ⟨hbytes, iff_of_false (table.client fd c hc).2.2.2 drained.2⟩

end Settled
end LinuxDemo.Invariant.EpollLtEt
