import LinuxDemo.Source.EpollChatroom
import Mathlib.Data.List.Nodup

/-!
# Guarantees of the chat room

`client_list_fd` is never shortened. A descriptor stands in it once for each time it was
accepted, so it stands there too often as soon as it has been closed.
-/
namespace LinuxDemo.Guarantees.EpollChatroom
open LinuxDemo.Lib LinuxDemo.Source.EpollChatroom

/-- The chunk is passed to `send` once for each other client connected at that moment, and
for no other descriptor. -/
def Exact (b : Broadcast) : Prop :=
  ∀ fd, b.targets.count fd = if fd ∈ b.connected ∧ fd ≠ b.sender then 1 else 0

/-- No descriptor but the sender's own had been closed. -/
def OnlySenderClosed (b : Broadcast) : Prop := ∀ fd ∈ b.closed, fd = b.sender

/-- `client_list_fd` has each descriptor once for its open connection and once for each
time that it was closed. -/
structure Counted (clientListFd connected closed : List Nat) : Prop where
  nodup : connected.Nodup
  count : ∀ fd, clientListFd.count fd = connected.count fd + closed.count fd

theorem Counted.exact_iff {clientListFd connected closed : List Nat}
    (h : Counted clientListFd connected closed) (fd : Nat) (buf : List UInt8) :
    Exact ⟨fd, buf, clientListFd.filter (· ≠ fd), connected, closed⟩ ↔
      OnlySenderClosed ⟨fd, buf, clientListFd.filter (· ≠ fd), connected, closed⟩ := by
  have hconn : ∀ d, connected.count d = if d ∈ connected then 1 else 0 := fun d => h.nodup.count
  have htargets : ∀ d, (clientListFd.filter (· ≠ fd)).count d =
      if d = fd then 0 else clientListFd.count d := by
    intro d
    split
    next hd =>
      subst hd
      apply List.count_eq_zero_of_not_mem
      simp
    next hd => exact List.count_filter (by simpa using hd)
  unfold Exact OnlySenderClosed
  dsimp only
  constructor
  · intro hexact d hd
    by_contra hne
    have hcount := hexact d
    have hpos := List.count_pos_iff.mpr hd
    rw [htargets, if_neg hne, h.count, hconn] at hcount
    simp only [hne, ne_eq, not_false_eq_true, and_true] at hcount
    omega
  · intro honly d
    rw [htargets]
    by_cases hd : d = fd
    · simp [hd]
    · have hclosed : closed.count d = 0 :=
        List.count_eq_zero_of_not_mem fun hmem => hd (honly d hmem)
      rw [if_neg hd, h.count, hconn, hclosed]
      simp [hd]

/-- What every step keeps. -/
structure Sound (s : Server) : Prop where
  counted : Counted s.clientListFd s.connected s.closed
  broadcasts : ∀ b ∈ s.broadcasts, Exact b ↔ OnlySenderClosed b
  chunks : s.broadcasts.map (fun b => (b.sender, b.buf)) = s.received

theorem sound_init : Sound Server.init :=
  ⟨⟨List.nodup_nil, by simp [Server.init]⟩, by simp [Server.init], rfl⟩

variable {s : Server}

theorem Sound.close (w : Sound s) (fd : Nat) : Sound (close s fd) := by
  unfold Source.EpollChatroom.close
  split
  next hmem =>
    refine ⟨⟨w.counted.nodup.erase fd, ?_⟩, w.broadcasts, w.chunks⟩
    intro d
    have hcount := w.counted.count d
    by_cases hd : d = fd
    · subst hd
      have hpos := List.count_pos_iff.mpr hmem
      simp only [List.count_erase_self, List.count_append, List.count_singleton_self]
      omega
    · have hne : fd ≠ d := fun e => hd e.symm
      simpa [List.count_erase_of_ne hd, List.count_append, List.count_singleton, hne] using hcount
  next => exact w

/-- A chunk that is received is broadcast at once. -/
theorem Sound.sendAll (w : Sound s) (fd : Nat) (buf : List UInt8) :
    Sound (sendAll { s with received := s.received ++ [(fd, buf)] } fd buf) := by
  refine ⟨w.counted, ?_, ?_⟩
  · intro b hb
    rcases List.mem_append.mp hb with hb | hb
    · exact w.broadcasts b hb
    · rw [List.mem_singleton.mp hb]
      exact w.counted.exact_iff fd buf
  · simp [Source.EpollChatroom.sendAll, w.chunks]

theorem readOnce_sound (w : Sound s) (fd : Nat) (rest : List Event) (result : Recv) :
    Safe (readOnce s fd rest result) Sound := by
  cases result with
  | data buf =>
    simp only [readOnce]
    split
    next => exact w.sendAll fd buf
    next => rfl
  | eof =>
    simp only [readOnce]
    split
    next => exact w.close fd
    next => rfl
  | again =>
    simp only [readOnce]
    split
    next => exact ⟨w.counted, w.broadcasts, w.chunks⟩
    next => rfl
  | error => exact ⟨(w.close fd).counted, (w.close fd).broadcasts, (w.close fd).chunks⟩

theorem step_sound (listenfd : Nat) (s : Server) (op : Op) (w : Sound s) :
    Safe (step listenfd s op) Sound := by
  cases op with
  | wait events =>
    simp only [step]
    split
    next => exact ⟨w.counted, w.broadcasts, w.chunks⟩
    next => rfl
  | accept connfd =>
    simp only [step]
    split
    next e rest _ =>
      split
      next h =>
        refine ⟨⟨?_, ?_⟩, w.broadcasts, w.chunks⟩
        · exact w.counted.nodup.append (List.nodup_singleton connfd) (by simpa using h.2.2)
        · intro d
          have hcount := w.counted.count d
          simp only [List.count_append]
          omega
      next => rfl
    next => rfl
  | recv result =>
    simp only [step]
    split
    next e rest _ =>
      split
      next => exact readOnce_sound w e.fd rest result
      next => rfl
    next => rfl
  | somethingElse =>
    simp only [step]
    split
    next e rest _ =>
      split
      next => exact ⟨w.counted, w.broadcasts, w.chunks⟩
      next => rfl
    next => rfl

/-- In every run there is one broadcast for each chunk received, in order, and it is exact if
and only if the chunk came when no descriptor but its sender's had been closed. So all of them
are exact if and only if that is so for each chunk. -/
theorem broadcasts_exact_iff (listenfd : Nat) (ops : List Op) :
    Safe (run (step listenfd) Server.init ops) fun s =>
      s.broadcasts.map (fun b => (b.sender, b.buf)) = s.received ∧
      (∀ b ∈ s.broadcasts, Exact b ↔ OnlySenderClosed b) ∧
      ((∀ b ∈ s.broadcasts, Exact b) ↔ ∀ b ∈ s.broadcasts, OnlySenderClosed b) := by
  apply (run_ends _ (step_sound listenfd) sound_init ops).mono
  intro s w
  refine ⟨w.chunks, w.broadcasts, ?_, ?_⟩
  · intro h b hb
    exact (w.broadcasts b hb).mp (h b hb)
  · intro h b hb
    exact (w.broadcasts b hb).mpr (h b hb)

/-- Clients 5 and 6 connect, 5 leaves, and 6 sends one byte. -/
def leaving : List Op :=
  [.wait [⟨3, true⟩], .accept 5, .wait [⟨3, true⟩], .accept 6, .wait [⟨5, true⟩], .recv .eof,
    .recv .error, .wait [⟨6, true⟩], .recv (.data [97])]

theorem leaving_broadcast : ¬ ∀ listenfd ops, Safe (run (step listenfd) Server.init ops) fun s =>
    ∀ b ∈ s.broadcasts, Exact b := by
  intro h
  have hrun : run (step 3) Server.init leaving =
      .ok ⟨[5, 6], [⟨6, true⟩], [6], [5], [(6, [97])], [⟨6, [97], [5], [6], [5]⟩]⟩ := by decide
  have hexact := (h 3 leaving).of_ok hrun ⟨6, [97], [5], [6], [5]⟩ (by simp) 5
  exact absurd hexact (by decide)

end LinuxDemo.Guarantees.EpollChatroom
