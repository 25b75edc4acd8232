import LinuxDemo.Invariant.SelectRound

/-!
# The bounds of the select server

Over runs in which `accept` may return any descriptor. The tables stay as they should as
long as the descriptors of new connections fit an `fd_set`, and `client[]` then has a free
entry; the first one that does not fit is passed to `FD_SET` nevertheless.
-/
namespace LinuxDemo.Invariant.SelectServer
open LinuxDemo.Lib LinuxDemo.Source.SelectServer

/-- The round takes a new connection: `listenfd` is ready and `getsockname` succeeds. -/
def Takes (listenfd : Int) (s : Server) (r : Round) : Prop :=
  0 ≤ r.named ∧ ∃ answer, select s r = .ok answer ∧ listenfd ∈ answer.2

instance (listenfd : Int) (s : Server) (r : Round) : Decidable (Takes listenfd s r) :=
  match h : select s r with
  | .ok answer => decidable_of_iff (0 ≤ r.named ∧ listenfd ∈ answer.2) (by simp [Takes, h])
  | .error _ => isFalse (by simp [Takes, h])

/-- What can happen in a round: the process is there, and a new connection has a descriptor
that was not in use. -/
def Allowed (listenfd : Int) (s : Server) (r : Round) : Prop :=
  s.quit = false ∧ (Takes listenfd s r → 0 ≤ r.connfd ∧ r.connfd ∉ s.opened)

instance (listenfd : Int) (s : Server) (r : Round) : Decidable (Allowed listenfd s r) :=
  inferInstanceAs (Decidable (_ ∧ _))

/-- One round, whatever descriptor `accept` returns. -/
def anyStep (listenfd : Int) (s : Server) (r : Round) : Except Fault Server :=
  if Allowed listenfd s r then round listenfd r s else .error .contract

def Accepts (listenfd : Int) (s : Server) (r : Round) : Prop :=
  Allowed listenfd s r ∧ Takes listenfd s r

/-- What the round does to the tables stays within bounds: every index and every descriptor
fits, and a connection without an entry changes nothing. -/
structure Bounded (listenfd : Int) (s : Server) (r : Round) : Prop where
  inside : anyStep listenfd s r ≠ .error .outOfBounds
  maxi : ∀ s', anyStep listenfd s r = .ok s' → s'.maxi < FD_SETSIZE
  full : Accepts listenfd s r → (∀ i < FD_SETSIZE, 0 ≤ s.client i) →
    ∀ s', newClient r.connfd (accepted s r.connfd) = .ok s' →
      s'.client = s.client ∧ s'.maxi = s.maxi ∧ s'.maxfd = s.maxfd ∧ s'.allset = s.allset

/-- The condition: a new connection has a descriptor below `FD_SETSIZE`. -/
def AcceptsInRange (listenfd : Int) (s : Server) (r : Round) : Prop :=
  Accepts listenfd s r → r.connfd < FD_SETSIZE

variable {listenfd : Int} {env : Env} {s : Server} {r : Round}

theorem boot_of_inRange (h : fdInRange listenfd) (opened : Finset Int) :
    boot listenfd opened = .ok (Server.init listenfd opened) := by
  rw [boot, fdSet, if_pos h]
  rfl

theorem boot_out_of_range (h : ¬ fdInRange listenfd) (opened : Finset Int) :
    boot listenfd opened = .error .outOfBounds := by
  rw [boot, fdSet, if_neg h]
  rfl

/-- `accept` was called, and the process is ended. -/
theorem Tables.quit (t : Tables env s) (connfd : Int) : Tables env { s with
    opened := if connfd < 0 then s.opened else insert connfd s.opened
    calls := s.calls ++ [Call.accept connfd]
    quit := true } := by
  have hopened : ∀ fd ∈ s.opened, fd ∈ if connfd < 0 then s.opened else insert connfd s.opened := by
    intro fd hfd
    split
    next => exact hfd
    next => exact Finset.mem_insert_of_mem hfd
  refine ⟨fun i hi => ?_, t.distinct, t.above, t.maxi_range, ⟨t.listening.1, hopened _ t.listening.2⟩,
    t.bounded⟩
  exact (t.entry i hi).imp_right fun h => ⟨h.1, hopened _ h.2.1, h.2.2⟩

theorem afterSelect_tables (t : Tables env s) {nready : Int} {rset : Finset Int}
    (hnew : env.listenfd ∈ rset → 0 ≤ r.named → fdInRange r.connfd ∧ r.connfd ∉ s.opened) :
    Total (afterSelect env.listenfd r nready rset s) (Tables env) := by
  by_cases hmem : env.listenfd ∈ rset
  · by_cases hnamed : 0 ≤ r.named
    · obtain ⟨hrange, hunused⟩ := hnew hmem hnamed
      obtain ⟨i, -, -, s₁, -, t₁, is, hsub, hround, -⟩ := afterSelect_new t hmem hnamed hrange hunused
      have ⟨nodup, used⟩ := t₁.usable hsub
      rw [hround]
      exact t₁.servedAll nodup used
    · unfold Source.SelectServer.afterSelect
      simp only [fdIsset, env.inRange, if_true, ok_bind, decide_eq_true_eq, if_pos hmem,
        if_pos (not_le.mp hnamed), pure_ok]
      exact t.quit r.connfd
  · obtain ⟨is, hsub, hround, -⟩ := afterSelect_quiet t hmem
    have ⟨nodup, used⟩ := t.usable hsub
    rw [hround]
    exact t.servedAll nodup used

theorem afterSelect_out_of_range {nready : Int} {rset : Finset Int} (hlisten : fdInRange listenfd)
    (hmem : listenfd ∈ rset) (hnamed : 0 ≤ r.named) (hlarge : ¬ fdInRange r.connfd) :
    afterSelect listenfd r nready rset s = .error .outOfBounds := by
  unfold Source.SelectServer.afterSelect
  simp only [fdIsset, hlisten, if_true, ok_bind, decide_eq_true_eq, if_pos hmem,
    if_neg (not_lt.mpr hnamed), newClient_out_of_range hlarge, error_bind]

theorem anyStep_tables (s : Server) (r : Round) (t : Tables env s)
    (h : AcceptsInRange env.listenfd s r) : Safe (anyStep env.listenfd s r) (Tables env) := by
  unfold anyStep
  split
  next hallowed =>
    rw [round_eq]
    cases hsel : select s r with
    | error f =>
      rcases select_cases s r with h | ⟨-, -, h⟩ | ⟨-, h⟩
      · exact (Except.error.inj (hsel.symm.trans h))
      · cases hsel.symm.trans h
      · cases hsel.symm.trans h
    | ok answer =>
      rw [ok_bind]
      refine (afterSelect_tables t fun hmem hnamed => ?_).safe
      have takes : Takes env.listenfd s r := ⟨hnamed, answer, hsel, hmem⟩
      have hunused := hallowed.2 takes
      exact ⟨⟨hunused.1, h ⟨hallowed, takes⟩⟩, hunused.2⟩
  next => rfl

theorem anyStep_out_of_range (hlisten : fdInRange listenfd) (h : ¬ AcceptsInRange listenfd s r) :
    anyStep listenfd s r = .error .outOfBounds := by
  obtain ⟨⟨hallowed, hnamed, answer, hsel, hmem⟩, hlarge⟩ := Classical.not_imp.mp h
  rw [anyStep, if_pos hallowed, round_eq, hsel, ok_bind]
  exact afterSelect_out_of_range hlisten hmem hnamed fun hrange => hlarge hrange.2

theorem Tables.bounded_iff (t : Tables env s) :
    Bounded env.listenfd s r ↔ AcceptsInRange env.listenfd s r := by
  constructor
  · intro h
    by_contra hlarge
    exact h.inside (anyStep_out_of_range env.inRange hlarge)
  · intro h
    have hstep := anyStep_tables s r t h
    refine ⟨fun hfault => ?_, fun s' hok => (hstep.of_ok hok).maxi_range.2, fun _ hfull => ?_⟩
    · rw [hfault] at hstep
      cases hstep
    · obtain ⟨i, hi, hneg⟩ := t.exists_free
      have := hfull i hi
      omega

end LinuxDemo.Invariant.SelectServer
