import LinuxDemo.Source.CreateDaemon
import Mathlib.Tactic.Common

/-!
# The way of a daemon through the process table

A number that is in use for nothing makes a session nobody else is in; its leader leaves
before the function returns. The descriptors are what the flags ask for.
-/
namespace LinuxDemo.Invariant.CreateDaemon
open LinuxDemo.Lib LinuxDemo.Source.CreateDaemon

namespace World
open LinuxDemo.Source.CreateDaemon.World

variable {w : World} {pid q : Nat} {p : Proc}

theorem proc_set : (w.set pid p).proc q = if q = pid then some p else w.proc q := by
  by_cases e : q = pid <;> simp [World.set, e]

theorem lt_bound (h : w.proc q = some p) : q < w.bound := by
  by_contra hle
  simp [w.above q (by omega)] at h

theorem unused_iff : w.Unused pid ↔
    w.proc pid = none ∧ ∀ q p, w.proc q = some p → p.pgid ≠ pid ∧ p.sid ≠ pid := by
  refine and_congr_right fun _ => ⟨fun h q p hp => ?_, fun h q _ => ?_⟩
  · simpa [hp] using h q (lt_bound hp)
  · cases hp : w.proc q with
    | none => simp
    | some p => simpa using h q p hp

theorem group_iff : w.Group pid ↔ ∃ q p, w.proc q = some p ∧ p.pgid = pid := by
  constructor
  · rintro ⟨q, -, h⟩
    cases hp : w.proc q with
    | none => simp [hp] at h
    | some p => exact ⟨q, p, hp, by simpa [hp] using h⟩
  · rintro ⟨q, p, hp, h⟩
    exact ⟨q, lt_bound hp, by simp [hp, h]⟩

theorem fork_spec (self child : Nat) : Safe (w.fork self child) fun w' =>
    ∃ p, w.proc self = some p ∧ p.ended = false ∧ w.Unused child ∧
      w' = w.set child { p with ppid := self } := by
  unfold fork
  cases hp : w.proc self with
  | none => simp
  | some p =>
    simp only
    split
    next ok => exact ⟨p, rfl, ok.1, ok.2, rfl⟩
    next => simp

variable (k : Kernel)

@[simp] theorem sid_hangUp : (w.hangUp k pid q p).sid = p.sid := by
  unfold hangUp
  split <;> rfl

@[simp] theorem pgid_hangUp : (w.hangUp k pid q p).pgid = p.pgid := by
  unfold hangUp
  split <;> rfl

theorem hangUp_ppid (ppid : Nat) :
    w.hangUp k pid q { p with ppid := ppid } = { w.hangUp k pid q p with ppid := ppid } := by
  unfold hangUp
  split <;> rfl

theorem hangUp_of_not_leads (h : w.leads pid = false) : w.hangUp k pid q p = p := by
  simp [hangUp, h]

/-- A process that a hang-up leaves running has lost its terminal at most. -/
theorem hangUp_running (running : p.ended = false) (h : (w.hangUp k pid q p).ended = false) :
    ∃ tty, w.hangUp k pid q p = { p with tty := tty } := by
  unfold hangUp at h ⊢
  split
  next lost =>
    simp only [if_pos lost, running, Bool.false_or] at h
    exact ⟨false, by simp [h, running]⟩
  next => exact ⟨p.tty, rfl⟩

/-- A leader hangs up its own children. -/
theorem ended_hangUp (hp : w.proc pid = some p) (running : p.ended = false) :
    (w.hangUp k pid q p).ended = (w.leads pid && k.hup q) := by
  unfold hangUp
  cases hl : w.leads pid with
  | false => simp [running]
  | true =>
    have leader : p.sid = pid := by simp_all [leads]
    simp [leader, running]

theorem leads_set {child : Nat} {new : Proc} (h : pid ≠ child) :
    (w.set child new).leads pid = w.leads pid := by
  simp [leads, proc_set, h]

theorem hangUp_set {child : Nat} {new : Proc} (h : pid ≠ child) :
    (w.set child new).hangUp k pid q p = w.hangUp k pid q p := by
  simp [hangUp, leads_set h]

end World

/-- The same process, but for its parent. -/
def SameButParent (p p' : Proc) : Prop := ∃ ppid, p' = { p with ppid := ppid }

theorem SameButParent.trans {p p' p'' : Proc} (h : SameButParent p p') (h' : SameButParent p' p'') :
    SameButParent p p'' := by
  obtain ⟨a, rfl⟩ := h
  obtain ⟨b, rfl⟩ := h'
  exact ⟨b, rfl⟩

theorem orphan_same (k : Kernel) (self : Nat) (p : Proc) :
    SameButParent p (World.orphan k self p) := by
  unfold World.orphan
  split
  · exact ⟨k.reaper, rfl⟩
  · exact ⟨p.ppid, rfl⟩

/-- A fork followed by the exit of the parent. -/
structure HandedOver (k : Kernel) (w : World) (parent child : Nat) (p : Proc) (w' : World) :
    Prop where
  caller : w.proc parent = some p
  running : p.ended = false
  unused : w.Unused child
  left : ∀ p', w'.proc parent = some p' → p'.ended = true ∧ p'.pgid = p.pgid ∧ p'.sid = p.sid
  heir : w'.proc child = some { w.hangUp k parent child p with ppid := k.reaper }
  others : ∀ q, q ≠ parent → q ≠ child → ∀ p', w'.proc q = some p' →
    ∃ p₀, w.proc q = some p₀ ∧ SameButParent (w.hangUp k parent q p₀) p'
  kept : ∀ q, q ≠ parent → ∀ p₀, w.proc q = some p₀ →
    ∃ p', w'.proc q = some p' ∧ SameButParent (w.hangUp k parent q p₀) p'

theorem exit_spec (k : Kernel) (w : World) (self : Nat) : Safe (w.exit k self) fun w' =>
    ∀ q, w'.proc q = (w.proc q).bind (w.afterExit k self q) := by
  unfold World.exit
  split
  · simp
  · exact fun _ => rfl

theorem fork_exit (k : Kernel) (w : World) (self child : Nat) :
    Safe (do let w₁ ← w.fork self child; w₁.exit k self) fun w' =>
      ∃ p, HandedOver k w self child p w' := by
  refine (World.fork_spec self child).bind ?_
  rintro _ ⟨p, hp, running, unused, rfl⟩
  have hne : self ≠ child := by
    rintro rfl
    rw [(World.unused_iff.mp unused).1] at hp
    cases hp
  refine (exit_spec k _ self).mono fun w' after => ⟨p, hp, running, unused, ?_, ?_, ?_, ?_⟩
  · intro p' hp'
    rw [after, World.proc_set, if_neg hne, hp] at hp'
    simp only [Option.bind_some, World.afterExit, if_true, World.hangUp_set k hne] at hp'
    split at hp'
    · cases hp'
    · obtain rfl := Option.some.inj hp'
      simp
  · rw [after, World.proc_set, if_pos rfl]
    simp [World.afterExit, hne.symm, World.hangUp_set k hne, World.hangUp_ppid, World.orphan]
  · intro q hq hc p' hp'
    rw [after, World.proc_set, if_neg hc] at hp'
    obtain ⟨p₀, h₀, hp'⟩ := Option.bind_eq_some_iff.mp hp'
    simp only [World.afterExit, if_neg hq, World.hangUp_set k hne] at hp'
    obtain rfl := Option.some.inj hp'
    exact ⟨p₀, h₀, orphan_same k self _⟩
  · intro q hq p₀ h₀
    have hc : q ≠ child := by
      rintro rfl
      rw [(World.unused_iff.mp unused).1] at h₀
      cases h₀
    refine ⟨World.orphan k self (w.hangUp k self q p₀), ?_, orphan_same k self _⟩
    rw [after, World.proc_set, if_neg hc, h₀]
    simp only [Option.bind_some, World.afterExit, if_neg hq, World.hangUp_set k hne]

/-- The child goes on, unless it is hung up together with its parent. -/
theorem handOver_spec (k : Kernel) (w : World) (self child : Nat) :
    Safe (w.handOver k self child) fun o =>
      (o = none ↔ w.leads self = true ∧ k.hup child = true) ∧
      ∀ w', o = some w' → ∃ p, HandedOver k w self child p w' ∧
        (w.hangUp k self child p).ended = false := by
  have assoc : w.handOver k self child = (do let w₁ ← w.fork self child; w₁.exit k self) >>=
      fun w' => .ok (if w'.alive child then some w' else none) := by
    unfold World.handOver
    cases w.fork self child <;> rfl
  rw [assoc]
  refine (fork_exit k w self child).bind ?_
  rintro w' ⟨p, h⟩
  have state : w'.alive child = !(w.leads self && k.hup child) := by
    rw [World.alive, h.heir, ← World.ended_hangUp k h.caller h.running]
    rfl
  have fate := World.ended_hangUp k (q := child) h.caller h.running
  rw [Ends.ok_iff, state]
  cases hb : (w.leads self && k.hup child) with
  | true => simpa using hb
  | false =>
    rw [hb] at fate
    refine ⟨by simpa using hb, ?_⟩
    rintro w'' hw
    obtain rfl : w' = w'' := by simpa using hw
    exact ⟨p, h, fate⟩

/-- The first child, in a session of its own. -/
def leaderOf (k : Kernel) (child : Nat) (p : Proc) : Proc :=
  { p with ppid := k.reaper, pgid := child, sid := child, tty := false }

/-- A fresh number is the number of no group, so `setsid` succeeds. -/
theorem setsid_spec {k : Kernel} {w w' : World} {self child : Nat} {p : Proc}
    (h : HandedOver k w self child p w') (alive : (w.hangUp k self child p).ended = false) :
    w'.setsid child = some (w'.set child (leaderOf k child p)) := by
  have free := (World.unused_iff.mp h.unused).2
  have no_group : ¬ w'.Group child := by
    rw [World.group_iff]
    rintro ⟨q, p', hq, hg⟩
    by_cases hc : q = child
    · subst hc
      rw [h.heir] at hq
      obtain rfl := Option.some.inj hq
      exact (free self p h.caller).1 (by simpa using hg)
    · by_cases hs : q = self
      · subst hs
        exact (free q p h.caller).1 ((h.left p' hq).2.1 ▸ hg)
      · obtain ⟨p₀, h₀, ppid, rfl⟩ := h.others q hs hc p' hq
        exact (free q p₀ h₀).1 (by simpa using hg)
  obtain ⟨tty, same⟩ := World.hangUp_running k h.running alive
  simp [World.setsid, no_group, h.heir, same, leaderOf]

section Descriptors
variable {k : Kernel} {fds : FdTable File}

theorem allowed_of_le {limit : Option Nat} {a b : Nat} (h : FdTable.Allowed limit b) (hab : a ≤ b) :
    FdTable.Allowed limit a := by
  intro n hn
  have := h n hn
  omega

/-- The standard descriptors are reopened exactly if `/dev/null` can be opened and the limit
leaves room for three; then all three are it, and nothing else is touched. -/
theorem reopen_spec (k : Kernel) (fds : FdTable File) :
    ((reopen k fds).1 = some () ↔ k.devNull = true ∧ FdTable.Allowed k.limit 2) ∧
    ((reopen k fds).1 = some () → ∀ fd, (reopen k fds).2.file fd =
      if fd ≤ 2 then some .devNull else fds.file fd) := by
  have free : (fds.close 0).lowestFree = 0 := FdTable.lowestFree_eq_zero (by simp)
  have opened : (if k.devNull then (fds.close STDIN_FILENO).openFile k.limit .devNull else none) =
      if k.devNull = true ∧ FdTable.Allowed k.limit 0 then some (0, (fds.close 0).put 0 .devNull)
      else none := by
    by_cases hd : k.devNull = true <;> simp [hd, FdTable.openFile, free, STDIN_FILENO]
  by_cases h2 : k.devNull = true ∧ FdTable.Allowed k.limit 2
  · -- every call succeeds
    obtain ⟨hd, h2⟩ := h2
    have h1 : FdTable.Allowed k.limit 1 := allowed_of_le h2 (by omega)
    have result : reopen k fds =
        (some (), (((fds.close 0).put 0 .devNull).put 1 .devNull).put 2 .devNull) := by
      simp only [reopen, opened, if_pos (And.intro hd (allowed_of_le h2 (show 0 ≤ 2 by omega)))]
      simp [FdTable.dup2, h1, h2, STDIN_FILENO, STDOUT_FILENO, STDERR_FILENO]
    rw [result]
    refine ⟨by simp [hd, h2], fun _ fd => ?_⟩
    simp only [FdTable.file_put, FdTable.file_close]
    by_cases hfd : fd ≤ 2
    · rw [if_pos hfd]
      grind
    · rw [if_neg hfd, if_neg (by omega), if_neg (by omega), if_neg (by omega), if_neg (by omega)]
  · -- one of them does not
    have failed : (reopen k fds).1 ≠ some () := by
      simp only [reopen, opened]
      by_cases h0 : k.devNull = true ∧ FdTable.Allowed k.limit 0
      · have h2 : ¬ FdTable.Allowed k.limit 2 := fun h => h2 ⟨h0.1, h⟩
        by_cases h1 : FdTable.Allowed k.limit 1 <;>
          simp [h0, h1, h2, FdTable.dup2, STDIN_FILENO, STDOUT_FILENO, STDERR_FILENO]
      · simp [if_neg h0]
    exact ⟨iff_of_false failed h2, fun h => absurd h failed⟩

end Descriptors

/-- The standard descriptors can be had, if they are asked for. -/
def Reopens (k : Kernel) (flags : BitVec 32) : Prop :=
  lacks flags BD_NO_REOPEN_STD_FDS = true → k.devNull = true ∧ FdTable.Allowed k.limit 2

/-- What stands behind each descriptor when the function returns 0. -/
def daemonFile (k : Kernel) (flags : BitVec 32) (fds : FdTable File) (fd : Nat) : Option File :=
  if lacks flags BD_NO_REOPEN_STD_FDS = true ∧ fd ≤ 2 then some .devNull
  else if lacks flags BD_NO_CLOSE_FILE = true ∧ fd < maxfd k then none
  else fds.file fd

structure Configured (k : Kernel) (flags : BitVec 32) (p : Proc) (r : Int × Proc) : Prop where
  value : r.1 = 0 ∨ r.1 = -1
  success : r.1 = 0 ↔ Reopens k flags
  place : r.2.ppid = p.ppid ∧ r.2.pgid = p.pgid ∧ r.2.sid = p.sid ∧ r.2.tty = p.tty ∧
    r.2.ended = p.ended
  umask : r.2.umask = if lacks flags BD_NO_UMASK then 0 else p.umask
  cwd : r.2.cwd = if lacks flags BD_NO_CHDIR then "/" else p.cwd
  files : r.1 = 0 → ∀ fd, r.2.fds.file fd = daemonFile k flags p.fds fd

theorem settle_spec (k : Kernel) (flags : BitVec 32) (p : Proc) :
    settle k flags p = { p with
      umask := if lacks flags BD_NO_UMASK then 0 else p.umask
      cwd := if lacks flags BD_NO_CHDIR then "/" else p.cwd
      fds := if lacks flags BD_NO_CLOSE_FILE then p.fds.closeRange 0 (maxfd k) else p.fds } := by
  unfold settle
  split <;> split <;> split <;> rfl

theorem settle_file (k : Kernel) (flags : BitVec 32) (p : Proc) (fd : Nat) :
    (settle k flags p).fds.file fd =
      if lacks flags BD_NO_CLOSE_FILE = true ∧ fd < maxfd k then none else p.fds.file fd := by
  rw [settle_spec]
  by_cases hc : lacks flags BD_NO_CLOSE_FILE = true
  · simp [hc, FdTable.file_closeRange]
  · simp [hc]

theorem configure_spec (k : Kernel) (flags : BitVec 32) (p : Proc) :
    Configured k flags p (configure k flags p) := by
  obtain ⟨reopened, standard⟩ := reopen_spec k (settle k flags p).fds
  have files := settle_file k flags p
  by_cases asked : lacks flags BD_NO_REOPEN_STD_FDS = true
  · obtain ⟨outcome, fds, hr⟩ : ∃ outcome fds, reopen k (settle k flags p).fds = (outcome, fds) :=
      ⟨_, _, rfl⟩
    rw [hr] at reopened standard
    simp only [configure, asked, if_true, hr]
    cases outcome with
    | some u =>
      refine ⟨.inl rfl, iff_of_true rfl fun _ => reopened.mp rfl, ?_, ?_, ?_, fun _ fd => ?_⟩
      · simp [settle_spec]
      · simp [settle_spec]
      · simp [settle_spec]
      · rw [show fds.file fd = _ from standard rfl fd, files fd]
        simp [daemonFile, asked]
    | none =>
      refine ⟨.inr rfl, iff_of_false (by simp) fun h => ?_, ?_, ?_, ?_, fun h => ?_⟩
      · simpa using reopened.mpr (h asked)
      · simp [settle_spec]
      · simp [settle_spec]
      · simp [settle_spec]
      · simp at h
  · simp only [configure, asked, Bool.false_eq_true, if_false]
    refine ⟨.inl rfl, iff_of_true rfl fun h => absurd h asked, ?_, ?_, ?_, fun _ fd => ?_⟩
    · simp [settle_spec]
    · simp [settle_spec]
    · simp [settle_spec]
    · rw [files fd]
      simp [daemonFile, asked]

/-- Nobody of this number is running. -/
def Ended (w : World) (pid : Nat) : Prop := ∀ p, w.proc pid = some p → p.ended = true

/-- The process `r.pid`, which a process with the record `before` has become, in the session
of `child`. -/
structure Daemon (k : Kernel) (flags : BitVec 32) (child : Nat) (before : Proc) (r : Result)
    (after : Proc) : Prop where
  there : r.world.proc r.pid = some after
  running : after.ended = false
  orphan : after.ppid = k.reaper
  session : after.sid = child ∧ after.pgid = child ∧ after.tty = false
  follower : r.pid ≠ child
  leaderless : Ended r.world child
  alone : ∀ q p, r.world.proc q = some p → p.sid = child → q = r.pid ∨ q = child
  umask : after.umask = if lacks flags BD_NO_UMASK then 0 else before.umask
  cwd : after.cwd = if lacks flags BD_NO_CHDIR then "/" else before.cwd
  value : r.value = 0 ∨ r.value = -1
  success : r.value = 0 ↔ Reopens k flags
  files : r.value = 0 → ∀ fd, after.fds.file fd = daemonFile k flags before.fds fd

/-- Everybody but the caller is still there, and hung up where the caller led the session. -/
def Spared (k : Kernel) (w : World) (self : Nat) (w' : World) : Prop :=
  ∀ q p, q ≠ self → w.proc q = some p →
    ∃ p', w'.proc q = some p' ∧ SameButParent (w.hangUp k self q p) p'

theorem HandedOver.ne_of_some {k : Kernel} {w w' : World} {parent child q : Nat} {p p' : Proc}
    (h : HandedOver k w parent child p w') (hq : w.proc q = some p') : q ≠ child := by
  rintro rfl
  rw [(World.unused_iff.mp h.unused).1] at hq
  cases hq

section Twice
variable {k : Kernel} {w w₁ w₂ : World} {self child daemon : Nat} {p p₁ leader : Proc}

/-- The leader of the new session has no terminal to hang up. -/
theorem not_leads_set (h : leader.tty = false) : (w₁.set child leader).leads child = false := by
  simp [World.leads, World.proc_set, h]

/-- After the first hand-over the session is new; after the second one member of it is left. -/
theorem HandedOver.alone (h₁ : HandedOver k w self child p w₁) (quiet : leader.tty = false)
    (h₂ : HandedOver k (w₁.set child leader) child daemon p₁ w₂) {q : Nat} {p' : Proc}
    (hq : w₂.proc q = some p') (hs : p'.sid = child) : q = daemon ∨ q = child := by
  by_contra hne
  obtain ⟨hd, hc⟩ := not_or.mp hne
  have free := (World.unused_iff.mp h₁.unused).2
  obtain ⟨p₂, hp₂, ppid₂, rfl⟩ := h₂.others q hc hd p' hq
  rw [World.hangUp_of_not_leads k (not_leads_set quiet)] at hs
  rw [World.proc_set, if_neg hc] at hp₂
  by_cases hself : q = self
  · subst hself
    exact (free q p h₁.caller).2 ((h₁.left p₂ hp₂).2.2 ▸ hs)
  · obtain ⟨p₀, hp₀, ppid₁, rfl⟩ := h₁.others q hself hc p₂ hp₂
    exact (free q p₀ hp₀).2 (by simpa using hs)

theorem HandedOver.spared (h₁ : HandedOver k w self child p w₁) (quiet : leader.tty = false)
    (h₂ : HandedOver k (w₁.set child leader) child daemon p₁ w₂) (after : Proc) :
    Spared k w self (w₂.set daemon after) := by
  intro q p₀ hself hq
  have hc := h₁.ne_of_some hq
  obtain ⟨p', hp', same⟩ := h₁.kept q hself p₀ hq
  have between : (w₁.set child leader).proc q = some p' := by
    rw [World.proc_set, if_neg hc]
    exact hp'
  obtain ⟨p'', hp'', same'⟩ := h₂.kept q hc p' between
  rw [World.hangUp_of_not_leads k (not_leads_set quiet)] at same'
  refine ⟨p'', ?_, same.trans same'⟩
  rw [World.proc_set, if_neg (h₂.ne_of_some between)]
  exact hp''

/-- The caller has ended, unless its number has been given out again. -/
theorem HandedOver.caller_ended (h₁ : HandedOver k w self child p w₁) (quiet : leader.tty = false)
    (h₂ : HandedOver k (w₁.set child leader) child daemon p₁ w₂) (after : Proc)
    (hs : daemon ≠ self) : Ended (w₂.set daemon after) self := by
  intro p' hp'
  rw [World.proc_set, if_neg hs.symm] at hp'
  have hc := h₁.ne_of_some h₁.caller
  obtain ⟨p₀, hp₀, ppid, rfl⟩ := h₂.others self hc hs.symm p' hp'
  rw [World.proc_set, if_neg hc] at hp₀
  rw [World.hangUp_of_not_leads k (not_leads_set quiet)]
  exact (h₁.left p₀ hp₀).1

end Twice

/-- From the second fork on. -/
theorem second_handOver {k : Kernel} {w w₁ w₂ : World} {self child daemon : Nat} {p p₁ : Proc}
    (h₁ : HandedOver k w self child p w₁)
    (h₂ : HandedOver k (w₁.set child (leaderOf k child p)) child daemon p₁ w₂)
    (flags : BitVec 32) {r : Int × Proc} (hr : configure k flags (leaderOf k child p) = r) :
    w₂.proc daemon = some (leaderOf k child p) ∧
    (daemon ≠ self → Ended (w₂.set daemon r.2) self) ∧ Spared k w self (w₂.set daemon r.2) ∧
    Daemon k flags child p ⟨r.1, daemon, w₂.set daemon r.2⟩ r.2 := by
  have quiet : (leaderOf k child p).tty = false := rfl
  have leader := h₂.caller
  rw [World.proc_set, if_pos rfl] at leader
  obtain rfl := Option.some.inj leader
  have hne : child ≠ daemon := h₂.ne_of_some h₂.caller
  have heir := h₂.heir
  rw [World.hangUp_of_not_leads k (not_leads_set quiet)] at heir
  have conf := configure_spec k flags (leaderOf k child p)
  rw [hr] at conf
  obtain ⟨place₁, place₂, place₃, place₄, place₅⟩ := conf.place
  refine ⟨heir, h₁.caller_ended quiet h₂ r.2, h₁.spared quiet h₂ r.2, ?_⟩
  constructor
  · simp [World.proc_set]
  · exact place₅.trans h₁.running
  · exact place₁
  · exact ⟨place₃, place₂, place₄⟩
  · exact hne.symm
  · intro p' hp'
    rw [World.proc_set, if_neg hne] at hp'
    exact (h₂.left p' hp').1
  · intro q p' hq hs
    rw [World.proc_set] at hq
    split at hq
    next e => exact .inl e
    next => exact h₁.alone quiet h₂ hq hs
  · exact conf.umask
  · exact conf.cwd
  · exact conf.value
  · exact conf.success
  · exact conf.files

/-- Both forks succeed. -/
theorem becomeDaemon_forked {k : Kernel} {child daemon : Nat} (hc : k.first = some child)
    (hd : k.second = some daemon) (flags : BitVec 32) (self : Nat) (w : World) :
    Safe (becomeDaemon k flags self w) fun o =>
      (o = none ↔ w.leads self = true ∧ k.hup child = true) ∧
      ∀ r, o = some r →
        r.pid = daemon ∧ (daemon ≠ self → Ended r.world self) ∧ Spared k w self r.world ∧
        ∃ before after, w.proc self = some before ∧ Daemon k flags child before r after := by
  simp only [becomeDaemon, hc, hd]
  refine (handOver_spec k w self child).bind ?_
  rintro (_ | w₁) ⟨killed, goes⟩
  · exact ⟨by simpa using killed, by simp⟩
  obtain ⟨p, h₁, alive⟩ := goes w₁ rfl
  simp only [setsid_spec h₁ alive]
  refine (handOver_spec k _ child daemon).bind ?_
  have quiet : (leaderOf k child p).tty = false := rfl
  rintro (_ | w₂) ⟨killed', goes'⟩
  · have := (killed'.mp rfl).1
    rw [not_leads_set quiet] at this
    cases this
  obtain ⟨p₁, h₂, -⟩ := goes' w₂ rfl
  obtain ⟨heir, ended, spared, daemon⟩ := second_handOver h₁ h₂ flags rfl
  simp only [heir]
  refine ⟨by simpa using killed, ?_⟩
  rintro r hr
  obtain rfl := Option.some.inj hr
  exact ⟨rfl, ended, spared, p, _, h₁.caller, daemon⟩

end LinuxDemo.Invariant.CreateDaemon
