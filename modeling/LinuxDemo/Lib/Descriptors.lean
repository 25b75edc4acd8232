import LinuxDemo.Lib.Run
import Mathlib.Data.List.Nodup
import Mathlib.Logic.Function.Basic

/-!
# Calls on descriptors

The calls on one number make up a life: accepted, received from and sent to, received from
until there is an end, closed once, and then left alone until the number is accepted again.
Between two steps of a server every number is live or gone.

A `Loop` is a server seen from there: the calls that each of its steps makes, and the reports
it has still to handle. `Tracked` is what a loop keeps, with a rule for each thing it does.
-/
namespace LinuxDemo.Lib

/-- A call, and for `recv` whether it returned 0 or an error other than EAGAIN. -/
inductive FdCall where
  | accept (fd : Nat)
  | recv (fd : Nat) (ended : Bool)
  | send (fd : Nat)
  | close (fd : Nat)
  deriving DecidableEq, Repr

@[simp] def FdCall.fd : FdCall → Nat
  | .accept fd => fd
  | .recv fd _ => fd
  | .send fd => fd
  | .close fd => fd

inductive Life where
  | gone | live | ended | misused
  deriving DecidableEq, Repr

def Life.next : Life → FdCall → Life
  | .gone, .accept _ => .live
  | .live, .recv _ false => .live
  | .live, .recv _ true => .ended
  | .live, .send _ => .live
  | .ended, .close _ => .gone
  | _, _ => .misused

/-- What the calls have made of one number. -/
def life (uses : List FdCall) (fd : Nat) : Life :=
  uses.foldl (fun l u => if u.fd = fd then l.next u else l) .gone

@[simp] theorem life_nil (fd : Nat) : life [] fd = .gone := rfl

@[simp] theorem life_snoc (uses : List FdCall) (u : FdCall) (fd : Nat) :
    life (uses ++ [u]) fd = if u.fd = fd then (life uses fd).next u else life uses fd := by
  simp [life]

theorem Life.next_misused (u : FdCall) : Life.misused.next u = .misused := by
  cases u <;> rfl

theorem Life.next_send_of_ne {l : Life} (h : l ≠ .live) (fd : Nat) :
    l.next (.send fd) = .misused := by
  cases l with
  | live => exact absurd rfl h
  | gone => rfl
  | ended => rfl
  | misused => rfl

/-- What has been misused stays so. -/
theorem life_misused {uses : List FdCall} {fd : Nat} (h : life uses fd = .misused) (new : List FdCall) :
    life (uses ++ new) fd = .misused := by
  induction new generalizing uses with
  | nil => simpa using h
  | cons u new ih =>
    have hu : life (uses ++ [u]) fd = .misused := by
      rw [life_snoc, h]
      split
      next => exact Life.next_misused u
      next => rfl
    simpa using ih hu

theorem life_sends {uses : List FdCall} {fd : Nat} (dead : life uses fd ≠ .live) {targets : List Nat}
    (hmem : fd ∈ targets) : life (uses ++ targets.map FdCall.send) fd = .misused := by
  induction targets generalizing uses with
  | nil => cases hmem
  | cons target targets ih =>
    have happ : uses ++ (target :: targets).map FdCall.send =
        (uses ++ [.send target]) ++ targets.map FdCall.send := by simp
    rw [happ]
    by_cases e : target = fd
    · apply life_misused
      rw [life_snoc, FdCall.fd, if_pos e]
      exact Life.next_send_of_ne dead target
    · apply ih
      · rw [life_snoc, FdCall.fd, if_neg e]
        exact dead
      · exact (List.mem_cons.mp hmem).resolve_left fun h => e h.symm

/-- A report of `epoll_wait`, and whether the loop calls `recv` for it. -/
structure Report where
  fd : Nat
  read : Bool
  deriving DecidableEq, Repr

/-- The calls so far are in order, and the `recv` that is due is on a live number. -/
def CallsInOrder (uses : List FdCall) (batch : List Report) : Prop :=
  (∀ fd, life uses fd = .gone ∨ life uses fd = .live) ∧
    ∀ r ∈ batch.head?, r.read = true → life uses r.fd = .live

/-- The calls have left the numbers `opened` live and all others gone, and of each number
there is at most one report. -/
structure Tracked (opened : Nat → Prop) (batch : List Report) (uses : List FdCall) : Prop where
  live : ∀ fd, opened fd → life uses fd = .live
  gone : ∀ fd, ¬ opened fd → life uses fd = .gone
  known : ∀ r ∈ batch, r.read = true → opened r.fd
  once : (batch.map Report.fd).Nodup

namespace Tracked
variable {opened opened' : Nat → Prop} {batch batch' : List Report} {uses : List FdCall} {r : Report}
  {fd : Nat}

theorem init : Tracked (fun _ => False) [] [] where
  live _ h := h.elim
  gone fd _ := life_nil fd
  known _ h := absurd h List.not_mem_nil
  once := List.nodup_nil

theorem callsInOrder (h : Tracked opened batch uses) : CallsInOrder uses batch := by
  constructor
  · intro fd
    by_cases hfd : opened fd
    · exact .inr (h.live fd hfd)
    · exact .inl (h.gone fd hfd)
  · intro r hr hread
    exact h.live r.fd (h.known r (List.mem_of_head? hr) hread)

theorem congr (h : Tracked opened batch uses) (ho : ∀ fd, opened' fd ↔ opened fd) :
    Tracked opened' batch uses where
  live fd hfd := h.live fd ((ho fd).mp hfd)
  gone fd hfd := h.gone fd fun hold => hfd ((ho fd).mpr hold)
  known r hr hread := (ho r.fd).mpr (h.known r hr hread)
  once := h.once

/-- New events are reported. -/
theorem reported {ε : Type} {events : List ε} {report : ε → Report}
    (h : Tracked opened batch uses)
    (known : ∀ e ∈ events, (report e).read = true → opened (report e).fd)
    (once : (events.map fun e => (report e).fd).Nodup) :
    Tracked opened (events.map report) uses where
  live := h.live
  gone := h.gone
  known r hr hread := by
    obtain ⟨e, he, rfl⟩ := List.mem_map.mp hr
    exact known e he hread
  once := by
    rw [List.map_map]
    exact once

theorem next (h : Tracked opened (r :: batch) uses) : Tracked opened batch uses where
  live := h.live
  gone := h.gone
  known r' hr := h.known r' (List.mem_cons_of_mem r hr)
  once := h.once.of_cons

theorem accept (h : Tracked opened batch uses) (free : ¬ opened fd) :
    Tracked (fun d => d = fd ∨ opened d) batch (uses ++ [.accept fd]) where
  live d hd := by
    rw [life_snoc, FdCall.fd]
    split
    next e => rw [← e, h.gone fd free, Life.next]
    next hne => exact h.live d (hd.resolve_left fun e => hne e.symm)
  gone d hd := by
    rw [not_or] at hd
    rw [life_snoc, FdCall.fd, if_neg fun e => hd.1 e.symm]
    exact h.gone d hd.2
  known r hr hread := .inr (h.known r hr hread)
  once := h.once

/-- A call that leaves its number live. -/
theorem call (h : Tracked opened batch uses) {u : FdCall} (hu : opened u.fd)
    (keeps : Life.live.next u = .live) : Tracked opened batch (uses ++ [u]) where
  live d hd := by
    rw [life_snoc, h.live d hd, keeps, ite_self]
  gone d hd := by
    have hne : u.fd ≠ d := by
      intro e
      rw [e] at hu
      exact hd hu
    rw [life_snoc, if_neg hne, h.gone d hd]
  known := h.known
  once := h.once

theorem recv (h : Tracked opened batch uses) (hfd : opened fd) :
    Tracked opened batch (uses ++ [.recv fd false]) :=
  h.call hfd rfl

theorem sends (h : Tracked opened batch uses) {targets : List Nat} (ht : ∀ t ∈ targets, opened t) :
    Tracked opened batch (uses ++ targets.map FdCall.send) := by
  induction targets generalizing uses with
  | nil => simpa using h
  | cons target targets ih =>
    rw [List.forall_mem_cons] at ht
    have hsent : Tracked opened batch (uses ++ [.send target]) := h.call ht.1 rfl
    simpa using ih hsent ht.2

/-- A chunk is received and passed on. -/
theorem chunk (h : Tracked opened batch uses) (hfd : opened fd) {targets : List Nat}
    (ht : ∀ t ∈ targets, opened t) :
    Tracked opened batch (uses ++ .recv fd false :: targets.map FdCall.send) := by
  simpa using (h.recv hfd).sends ht

theorem not_callsInOrder_chunk (h : Tracked opened batch uses) {t : Nat} (hne : t ≠ fd)
    (closed : ¬ opened t) {targets : List Nat} (hmem : t ∈ targets) :
    ¬ CallsInOrder (uses ++ .recv fd false :: targets.map FdCall.send) batch' := by
  have dead : life (uses ++ [.recv fd false]) t ≠ .live := by
    rw [life_snoc, FdCall.fd, if_neg hne.symm, h.gone t closed]
    decide
  have hmisused : life (uses ++ .recv fd false :: targets.map FdCall.send) t = .misused := by
    simpa using life_sends dead hmem
  intro hin
  rcases hin.1 t with hg | hl
  · simp [hmisused] at hg
  · simp [hmisused] at hl

theorem life_close (h : Tracked opened batch uses) (hfd : opened fd) (d : Nat) :
    life (uses ++ [.recv fd true, .close fd]) d = if fd = d then .gone else life uses d := by
  have happ : uses ++ [.recv fd true, .close fd] = (uses ++ [.recv fd true]) ++ [.close fd] := by
    simp
  rw [happ]
  by_cases e : fd = d
  · have hended : life (uses ++ [.recv fd true]) d = .ended := by
      rw [life_snoc, FdCall.fd, if_pos e, ← e, h.live fd hfd, Life.next]
    rw [life_snoc, hended, FdCall.fd, if_pos e, if_pos e, Life.next]
  · rw [life_snoc, life_snoc, FdCall.fd, FdCall.fd, if_neg e, if_neg e, if_neg e]

/-- The number in front is received from to its end and closed, and the loop turns to the
next report. -/
theorem close (h : Tracked opened (r :: batch) uses) (hr : opened r.fd) :
    Tracked (fun d => d ≠ r.fd ∧ opened d) batch (uses ++ [.recv r.fd true, .close r.fd]) where
  live d hd := by
    rw [h.life_close hr, if_neg hd.1.symm]
    exact h.live d hd.2
  gone d hd := by
    rw [h.life_close hr]
    split
    next => rfl
    next hne => exact h.gone d fun hopen => hd ⟨fun e => hne e.symm, hopen⟩
  known r' hr' hread := by
    have honce := h.once
    rw [List.map_cons, List.nodup_cons] at honce
    have hne : r'.fd ≠ r.fd := by
      intro e
      apply honce.1
      rw [← e]
      exact List.mem_map_of_mem hr'
    exact ⟨hne, h.known r' (List.mem_cons_of_mem r hr') hread⟩
  once := h.next.once

/-- It is closed, and another `recv` is due on it. -/
theorem not_callsInOrder_close (h : Tracked opened batch uses) (hr : opened r.fd)
    (hread : r.read = true) :
    ¬ CallsInOrder (uses ++ [.recv r.fd true, .close r.fd]) (r :: batch') := by
  intro hin
  have hlive := hin.2 r rfl hread
  simp [h.life_close hr] at hlive

section Table
variable {α : Type} {fds : Nat → Option α}

/-- The same where a table says which numbers are open. -/
theorem update_some (h : Tracked (fun d => fds d ≠ none) batch uses) (free : fds fd = none)
    (a : α) : Tracked (fun d => Function.update fds fd (some a) d ≠ none) batch
      (uses ++ [.accept fd]) := by
  apply (h.accept (not_not.mpr free)).congr
  intro d
  by_cases e : d = fd
  · simp [e]
  · simp [e]

theorem update_none (h : Tracked (fun d => fds d ≠ none) (r :: batch) uses)
    (hr : fds r.fd ≠ none) :
    Tracked (fun d => Function.update fds r.fd none d ≠ none) batch
      (uses ++ [.recv r.fd true, .close r.fd]) := by
  apply (h.close hr).congr
  intro d
  by_cases e : d = r.fd
  · simp [e]
  · simp [e]

end Table
end Tracked

/-- A condition that decides whether a step stays in order. -/
structure Judged (cond : Prop) (opened : Nat → Prop) (batch : List Report) (uses : List FdCall) :
    Prop where
  kept : cond → Tracked opened batch uses
  lost : ¬ cond → ¬ CallsInOrder uses batch

theorem Judged.of_tracked {cond : Prop} {opened : Nat → Prop} {batch : List Report}
    {uses : List FdCall} (h : Tracked opened batch uses) (hc : cond) :
    Judged cond opened batch uses :=
  ⟨fun _ => h, fun hn => absurd hc hn⟩

theorem Judged.of_lost {cond : Prop} {opened : Nat → Prop} {batch : List Report}
    {uses : List FdCall} (h : ¬ CallsInOrder uses batch) (hc : ¬ cond) :
    Judged cond opened batch uses :=
  ⟨fun hn => absurd hn hc, fun _ => h⟩

/-- The steps of a server, the calls that each makes, and the reports still to be handled. -/
structure Loop (σ ο : Type) where
  start : σ
  step : σ → ο → Except Fault σ
  calls : σ → ο → List FdCall
  batch : σ → List Report

namespace Loop
variable {σ ο : Type} (l : Loop σ ο)

/-- A step, with its calls put behind those made so far. -/
def record (t : σ × List FdCall) (op : ο) : Except Fault (σ × List FdCall) := do
  let s ← l.step t.1 op
  return (s, t.2 ++ l.calls t.1 op)

/-- A run from the start, with all the calls made. -/
abbrev recorded (ops : List ο) : Except Fault (σ × List FdCall) := run l.record (l.start, []) ops

/-- Wherever the run gets, all is in order. -/
def Orderly (ops : List ο) : Prop :=
  ∀ pre post t, ops = pre ++ post → l.recorded pre = .ok t → CallsInOrder t.2 (l.batch t.1)

/-- Every step of the run meets a condition on the state before it. -/
def Meets (cond : σ → ο → Prop) (ops : List ο) : Prop :=
  Along l.record (fun t op => cond t.1 op) (l.start, []) ops

/-- No operation of the run is the bad one. -/
theorem meets_ne_iff {l : Loop σ ο} (bad : ο) {ops : List ο} {t : σ × List FdCall}
    (ok : l.recorded ops = .ok t) : l.Meets (fun _ op => op ≠ bad) ops ↔ bad ∉ ops := by
  rw [Meets, along_iff_forall l.record ⟨t, ok⟩]
  constructor
  · intro h hmem
    exact h bad hmem rfl
  · intro h op hmem e
    rw [e] at hmem
    exact h hmem

theorem record_ends {E : Fault → Prop} {t : σ × List FdCall} {op : ο} {P : σ → Prop}
    (h : Ends E (l.step t.1 op) P) :
    Ends E (l.record t op) fun t' => P t'.1 ∧ t'.2 = t.2 ++ l.calls t.1 op :=
  h.bind fun _ hs => ⟨hs, rfl⟩

/-- Where the condition judges each step, it decides whether a run is orderly. -/
theorem orderly_iff {E : Fault → Prop} {cond : σ → ο → Prop} {I : σ → Prop}
    {opened : σ → Nat → Prop} (start : I l.start)
    (tracked : Tracked (opened l.start) (l.batch l.start) [])
    (excused : ∀ s op, Ends E (l.step s op) fun _ => True)
    (hstep : ∀ s op uses, I s → Tracked (opened s) (l.batch s) uses →
      Ends E (l.step s op) fun s' =>
        I s' ∧ Judged (cond s op) (opened s') (l.batch s') (uses ++ l.calls s op))
    (ops : List ο) : Ends E (l.recorded ops) fun _ => l.Orderly ops ↔ l.Meets cond ops := by
  let Kept (t : σ × List FdCall) : Prop := I t.1 ∧ Tracked (opened t.1) (l.batch t.1) t.2
  let Fine (t : σ × List FdCall) : Prop := CallsInOrder t.2 (l.batch t.1)
  -- what is kept may be lost, but then the run has gone out of order already
  have step_fine : ∀ t op, (Fine t → Kept t) → Fine t → Ends E (l.record t op) fun t' =>
      (Fine t' → Kept t') ∧ (Fine t' ↔ cond t.1 op) := by
    intro t op hkept hfine
    obtain ⟨hI, htracked⟩ := hkept hfine
    apply (l.record_ends (hstep t.1 op t.2 hI htracked)).mono
    rintro ⟨s', uses'⟩ ⟨⟨hI', hjudged⟩, huses⟩
    dsimp only at huses hI' hjudged
    subst huses
    have hcond : Fine (s', t.2 ++ l.calls t.1 op) → cond t.1 op := by
      intro hfine'
      by_contra hc
      exact hjudged.lost hc hfine'
    refine ⟨fun hfine' => ⟨hI', hjudged.kept (hcond hfine')⟩, hcond, fun hc => ?_⟩
    exact (hjudged.kept hc).callsInOrder
  have safe : Ends E (l.recorded ops) fun _ => True := by
    apply run_ends l.record (I := fun _ => True) _ trivial
    intro t op _
    exact (l.record_ends (excused t.1 op)).mono fun _ _ => trivial
  refine safe.of_result fun t ht _ => ?_
  exact along_iff_reached l.record step_fine (fun _ => ⟨start, tracked⟩) tracked.callsInOrder ops
    ⟨t, ht⟩

end Loop
end LinuxDemo.Lib
