import LinuxDemo.Source.SelectServer
import LinuxDemo.Lib.Run
import Mathlib.Data.Finset.Image
import Mathlib.Order.Interval.Finset.Nat
import Mathlib.Data.Int.Interval

/-!
# The tables of the select server

What `client[]`, `maxi`, `maxfd` and `allset` say about each other, over runs of the loop
with fewer than `FD_SETSIZE` descriptors in use.
-/
namespace LinuxDemo.Invariant.SelectServer
open LinuxDemo.Lib LinuxDemo.Source.SelectServer

/-- A listening socket, and the descriptors open in front of the loop. -/
structure Env where
  listenfd : Int
  opened : Finset Int
  listening : listenfd ∈ opened
  inRange : fdInRange listenfd

def Env.start (env : Env) : Server := Server.init env.listenfd env.opened

/-- One round in which `accept` and `getsockname` succeed if they are called: the new
descriptor is not in use and, the kernel taking the lowest free one, below `FD_SETSIZE`. -/
def step (env : Env) (s : Server) (r : Round) : Except Fault Server :=
  if fdInRange r.connfd ∧ r.connfd ∉ s.opened ∧ 0 ≤ r.named then round env.listenfd r s
  else .error .contract

/-- What holds at a call of `select` according to the roles of the four tables. -/
structure Consistent (env : Env) (s : Server) : Prop where
  members : ∀ fd, fd ∈ s.allset ↔ fd = env.listenfd ∨ 0 ≤ fd ∧ ∃ i < FD_SETSIZE, s.client i = fd
  opened : ∀ fd ∈ s.allset, fd ∈ s.opened
  distinct : ∀ i < FD_SETSIZE, ∀ j < FD_SETSIZE, 0 ≤ s.client i → s.client i = s.client j → i = j
  above : ∀ i < FD_SETSIZE, s.maxi < i → s.client i = -1
  maxfd : ∀ fd ∈ s.allset, fd ≤ s.maxfd

/-- What holds whatever the clients do. -/
structure Tables (env : Env) (s : Server) : Prop where
  entry : ∀ i < FD_SETSIZE, s.client i = -1 ∨ fdInRange (s.client i) ∧ s.client i ∈ s.opened ∧
    s.client i ∈ s.allset ∧ s.client i ≠ env.listenfd
  distinct : ∀ i < FD_SETSIZE, ∀ j < FD_SETSIZE, 0 ≤ s.client i → s.client i = s.client j → i = j
  above : ∀ i < FD_SETSIZE, s.maxi < i → s.client i = -1
  maxi_range : -1 ≤ s.maxi ∧ s.maxi < FD_SETSIZE
  listening : env.listenfd ∈ s.allset ∧ env.listenfd ∈ s.opened
  bounded : ∀ fd ∈ s.allset, fdInRange fd ∧ fd ≤ s.maxfd

def Distinct (s : Server) : Prop :=
  ∀ j < FD_SETSIZE, ∀ k < FD_SETSIZE, 0 ≤ s.client j → s.client j = s.client k → j = k

/-- No member of `allset` without an entry of its own. -/
def NoStale (env : Env) (s : Server) : Prop :=
  ∀ fd ∈ s.allset, fd = env.listenfd ∨ ∃ i < FD_SETSIZE, s.client i = fd

variable {env : Env} {s : Server}

theorem Tables.opened_of_noStale (t : Tables env s) (h : NoStale env s) :
    ∀ fd ∈ s.allset, fd ∈ s.opened := by
  intro fd hfd
  rcases h fd hfd with rfl | ⟨i, hi, rfl⟩
  · exact t.listening.2
  · rcases t.entry i hi with e | h
    · have hrange := (t.bounded _ hfd).1.1
      omega
    · exact h.2.1

theorem Tables.consistent_iff (t : Tables env s) : Consistent env s ↔ NoStale env s := by
  constructor
  · intro c fd hfd
    exact ((c.members fd).mp hfd).imp_right fun h => h.2
  · intro h
    refine ⟨fun fd => ⟨fun hfd => (h fd hfd).imp_right fun h => ⟨(t.bounded fd hfd).1.1, h⟩, ?_⟩,
      t.opened_of_noStale h, t.distinct, t.above, fun fd hfd => (t.bounded fd hfd).2⟩
    rintro (rfl | ⟨h0, i, hi, rfl⟩)
    · exact t.listening.1
    · rcases t.entry i hi with e | h
      · omega
      · exact h.2.2.1

theorem tables_start (env : Env) : Tables env env.start := by
  have h := env.inRange.1
  constructor
  all_goals simp [Env.start, Server.init, env.listening, env.inRange]
  omega

theorem noStale_start (env : Env) : NoStale env env.start := by
  simp [NoStale, Env.start, Server.init]

/-! ## A new connection -/

/-- `place` takes the first free entry. -/
theorem place_spec (connfd : Int) (s : Server) : ∀ n i, i + n = FD_SETSIZE →
    (∃ j, i ≤ j ∧ j < FD_SETSIZE ∧ s.client j < 0 ∧ place connfd n i s =
      .ok (j, { s with client := Function.update s.client j connfd })) ∨
    ((∀ j, i ≤ j → j < FD_SETSIZE → 0 ≤ s.client j) ∧ place connfd n i s = .ok (FD_SETSIZE, s)) := by
  intro n
  induction n with
  | zero =>
    intro i hi
    exact .inr ⟨fun j h1 h2 => by omega, by simp [place, ← hi]⟩
  | succ n ih =>
    intro i hi
    have hlt : i < FD_SETSIZE := by omega
    simp only [place, Server.clientAt, Server.setClient, hlt, if_true, ok_bind]
    split
    next hfree => exact .inl ⟨i, le_refl i, hlt, hfree, rfl⟩
    next htaken =>
      rcases ih (i + 1) (by omega) with ⟨j, h1, h2, h3, h4⟩ | ⟨hall, h⟩
      · exact .inl ⟨j, by omega, h2, h3, h4⟩
      · refine .inr ⟨fun j h1 h2 => ?_, h⟩
        rcases eq_or_lt_of_le h1 with rfl | h1
        · omega
        · exact hall j h1 h2

/-- The entries cannot all be taken: they are descriptors in range, all different, and the
listening one is not among them. -/
theorem Tables.exists_free (t : Tables env s) : ∃ j < FD_SETSIZE, s.client j < 0 := by
  by_contra hfull
  have hnone : ∀ i < FD_SETSIZE, 0 ≤ s.client i := by
    intro i hi
    by_contra hneg
    exact hfull ⟨i, hi, not_le.mp hneg⟩
  have hentry : ∀ i < FD_SETSIZE, fdInRange (s.client i) ∧ s.client i ≠ env.listenfd := by
    intro i hi
    have h0 := hnone i hi
    rcases t.entry i hi with e | h
    · omega
    · exact ⟨h.1, h.2.2.2⟩
  have hsub : (Finset.range FD_SETSIZE).image s.client ⊆
      (Finset.Ico 0 (FD_SETSIZE : Int)).erase env.listenfd := by
    intro fd hfd
    obtain ⟨i, hi, rfl⟩ := Finset.mem_image.mp hfd
    have h := hentry i (Finset.mem_range.mp hi)
    exact Finset.mem_erase.mpr ⟨h.2, Finset.mem_Ico.mpr h.1⟩
  have hcard := Finset.card_le_card hsub
  have hico : (Finset.Ico 0 (FD_SETSIZE : Int)).card = FD_SETSIZE := by simp
  rw [Finset.card_image_of_injOn, Finset.card_range,
    Finset.card_erase_of_mem (Finset.mem_Ico.mpr env.inRange), hico] at hcard
  · have hpos := env.inRange
    unfold fdInRange at hpos
    omega
  · intro i hi j hj e
    have hi := Finset.mem_range.mp (Finset.mem_coe.mp hi)
    exact t.distinct i hi j (Finset.mem_range.mp (Finset.mem_coe.mp hj)) (hnone i hi) e

/-- The state behind the branch of a new connection, with the entry `i`. -/
def connected (s : Server) (connfd : Int) (i : Nat) : Server :=
  { s with
    client := Function.update s.client i connfd
    allset := insert connfd s.allset
    maxfd := max s.maxfd connfd
    maxi := max s.maxi i }

/-- A connection accepted: the descriptor is open. -/
def accepted (s : Server) (connfd : Int) : Server :=
  { s with opened := insert connfd s.opened, calls := s.calls ++ [Call.accept connfd] }

theorem connected_client (s : Server) (connfd : Int) (i j : Nat) :
    (connected s connfd i).client j = if j = i then connfd else s.client j :=
  Function.update_apply s.client i connfd j

theorem Distinct.connected (distinct : Distinct s) {connfd : Int} {i : Nat}
    (hnew : ∀ j < FD_SETSIZE, s.client j ≠ connfd) : Distinct (connected s connfd i) := by
  intro j hj k hk
  rw [connected_client, connected_client]
  by_cases ej : j = i
  · by_cases ek : k = i
    · simp [ej, ek]
    · rw [if_pos ej, if_neg ek]
      intro _ e
      exact absurd e.symm (hnew k hk)
  · rw [if_neg ej]
    by_cases ek : k = i
    · rw [if_pos ek]
      intro _ e
      exact absurd e (hnew j hj)
    · rw [if_neg ek]
      exact distinct j hj k hk

theorem newClient_of_place {connfd : Int} (hrange : fdInRange connfd) {i : Nat}
    (h : place connfd FD_SETSIZE 0 s =
      .ok (i, { s with client := Function.update s.client i connfd })) :
    newClient connfd s = .ok (connected s connfd i) := by
  simp only [newClient, h, ok_bind, fdSet, hrange, if_true, connected, pure_ok]
  congr 1
  have hmaxfd : max s.maxfd connfd = if connfd > s.maxfd then connfd else s.maxfd := by
    split <;> omega
  have hmaxi : max s.maxi i = if (i : Int) > s.maxi then (i : Int) else s.maxi := by
    split <;> omega
  rw [hmaxfd, hmaxi]
  split <;> split <;> simp_all

theorem newClient_of_free {connfd : Int} (hrange : fdInRange connfd)
    (free : ∃ j < FD_SETSIZE, s.client j < 0) :
    ∃ i < FD_SETSIZE, s.client i < 0 ∧ newClient connfd s = .ok (connected s connfd i) := by
  rcases place_spec connfd s FD_SETSIZE 0 (by omega) with ⟨i, -, hi, hfree, h⟩ | ⟨hall, -⟩
  · exact ⟨i, hi, hfree, newClient_of_place hrange h⟩
  · obtain ⟨j, hj, hneg⟩ := free
    have := hall j (Nat.zero_le j) hj
    omega

theorem newClient_out_of_range {connfd : Int} (h : ¬ fdInRange connfd) :
    newClient connfd s = .error .outOfBounds := by
  rcases place_spec connfd s FD_SETSIZE 0 (by omega) with ⟨i, -, -, -, hplace⟩ | ⟨-, hplace⟩
  · simp only [newClient, hplace, ok_bind, fdSet, if_neg h, error_bind]
  · simp only [newClient, hplace, ok_bind, fdSet, if_neg h, error_bind]

theorem newClient_spec (t : Tables env s) {connfd : Int} (hrange : fdInRange connfd) :
    ∃ i < FD_SETSIZE, s.client i < 0 ∧
      newClient connfd (accepted s connfd) = .ok (connected (accepted s connfd) connfd i) :=
  newClient_of_free (s := accepted s connfd) hrange t.exists_free

theorem Tables.connected (t : Tables env s) {connfd : Int} (hrange : fdInRange connfd)
    (hnew : connfd ∉ s.opened) {i : Nat} (hi : i < FD_SETSIZE) :
    Tables env (connected (accepted s connfd) connfd i) := by
  have hne : ∀ j < FD_SETSIZE, s.client j ≠ connfd := by
    rintro j hj rfl
    rcases t.entry j hj with e | h
    · have h0 := hrange.1
      omega
    · exact hnew h.2.1
  have hcell : ∀ j, (SelectServer.connected (accepted s connfd) connfd i).client j =
      if j = i then connfd else s.client j := connected_client (accepted s connfd) connfd i
  constructor
  · intro j hj
    rw [hcell]
    by_cases e : j = i
    · rw [if_pos e]
      refine .inr ⟨hrange, by simp [SelectServer.connected, accepted], by simp [SelectServer.connected], ?_⟩
      rintro rfl
      exact hnew t.listening.2
    · rw [if_neg e]
      refine (t.entry j hj).imp_right fun h => ⟨h.1, ?_, ?_, h.2.2.2⟩
      · simp [SelectServer.connected, accepted, h.2.1]
      · simp [SelectServer.connected, accepted, h.2.2.1]
  · exact Distinct.connected (s := accepted s connfd) t.distinct hne
  · intro j hj hlt
    have hlt : max s.maxi i < j := hlt
    rw [hcell, if_neg (by omega)]
    exact t.above j hj (by omega)
  · have h := t.maxi_range
    simp only [SelectServer.connected, accepted]
    omega
  · simp [SelectServer.connected, accepted, t.listening]
  · intro fd hfd
    simp only [SelectServer.connected, accepted, Finset.mem_insert] at hfd ⊢
    rcases hfd with rfl | hfd
    · exact ⟨hrange, le_max_right _ _⟩
    · exact ⟨(t.bounded fd hfd).1, (t.bounded fd hfd).2.trans (le_max_left _ _)⟩

/-- The new descriptor has its entry. -/
theorem NoStale.connected (h : NoStale env s) {connfd : Int} {i : Nat} (hi : i < FD_SETSIZE)
    (hfree : s.client i < 0) (hpos : ∀ fd ∈ s.allset, 0 ≤ fd) :
    NoStale env (connected (accepted s connfd) connfd i) := by
  intro fd hfd
  simp only [SelectServer.connected, accepted, Finset.mem_insert] at hfd ⊢
  rcases hfd with rfl | hfd
  · exact .inr ⟨i, hi, Function.update_self _ _ _⟩
  · refine (h fd hfd).imp_right ?_
    rintro ⟨j, hj, rfl⟩
    have hpos := hpos _ hfd
    refine ⟨j, hj, Function.update_of_ne ?_ _ _⟩
    rintro rfl
    omega

/-! ## The scan -/

/-- `client[i]` is read, with the result `n`. -/
def served (s : Server) (i : Nat) (n : Int) : Server :=
  if n = 0 then
    { s with
      opened := s.opened.erase (s.client i)
      client := Function.update s.client i (-1)
      calls := s.calls ++ [Call.read (s.client i) 0, Call.close (s.client i)] }
  else { s with calls := s.calls ++ [Call.read (s.client i) n, Call.write (s.client i) n] }

def servedAll (read : Nat → Int) (s : Server) (is : List Nat) : Server :=
  is.foldl (fun s i => served s i (read i)) s

/-- The entries from `i` on, `n` of them, whose descriptor is in `rset`. -/
def readyEntries (s : Server) (rset : Finset Int) (i n : Nat) : List Nat :=
  (List.range' i n).filter fun j => decide (0 ≤ s.client j ∧ s.client j ∈ rset)

theorem served_client (s : Server) (i : Nat) (n : Int) (j : Nat) :
    (served s i n).client j = if j = i ∧ n = 0 then -1 else s.client j := by
  by_cases hn : n = 0
  · by_cases e : j = i <;> simp [served, hn, e]
  · simp [served, hn]

theorem Distinct.served (distinct : Distinct s) (i : Nat) (n : Int) :
    Distinct (served s i n) := by
  intro j hj k hk
  rw [served_client, served_client]
  split
  next => omega
  next =>
    split
    next => omega
    next => exact distinct j hj k hk

theorem serve_spec {i : Nat} (hi : i < FD_SETSIZE) (hrange : fdInRange (s.client i)) (n : Int)
    (rset : Finset Int) : serve i (s.client i) n s rset =
      .ok (served s i n, if n = 0 then rset.erase (s.client i) else rset) := by
  by_cases hn : n = 0
  · simp [serve, served, hn, fdClr, hrange, Server.setClient, hi]
  · simp [serve, served, hn]

/-- Entries in use are descriptors in range, no two of them the same. -/
structure Entries (s : Server) : Prop where
  inRange : ∀ j < FD_SETSIZE, 0 ≤ s.client j → fdInRange (s.client j)
  distinct : ∀ j < FD_SETSIZE, ∀ k < FD_SETSIZE, 0 ≤ s.client j → s.client j = s.client k → j = k

theorem Entries.served (e : Entries s) (i : Nat) (n : Int) : Entries (served s i n) := by
  refine ⟨fun j hj => ?_, Distinct.served e.distinct i n⟩
  rw [served_client]
  split
  next => omega
  next => exact e.inRange j hj

/-- What is done for one client changes nothing for those behind it. -/
theorem readyEntries_served (distinct : Distinct s) {rset : Finset Int} {i m : Nat} (n : Int)
    (hm : i + 1 + m ≤ FD_SETSIZE) (hpos : 0 ≤ s.client i) :
    readyEntries (served s i n) (if n = 0 then rset.erase (s.client i) else rset) (i + 1) m =
      readyEntries s rset (i + 1) m := by
  refine List.filter_congr fun j hj => ?_
  have hj := List.mem_range'_1.mp hj
  have hne : s.client j ≠ s.client i := by
    intro h
    have := distinct i (by omega) j (by omega) hpos h.symm
    omega
  rw [served_client, if_neg (by omega)]
  split <;> simp [hne]

theorem readyEntries_succ (s : Server) (rset : Finset Int) (i n : Nat) :
    readyEntries s rset i (n + 1) =
      (if 0 ≤ s.client i ∧ s.client i ∈ rset then [i] else []) ++ readyEntries s rset (i + 1) n := by
  simp only [readyEntries, List.range'_succ, List.filter_cons, decide_eq_true_eq]
  split <;> rfl

/-- The scan serves entries whose descriptor is ready, in order, and all of them if
`nready` counts them. -/
theorem scan_spec (read : Nat → Int) : ∀ (n i : Nat) (s : Server) (rset : Finset Int) (nready : Int),
    i + n ≤ FD_SETSIZE → Entries s →
    ∃ is, is.Sublist (readyEntries s rset i n) ∧ scan read n i s rset nready = .ok (servedAll read s is) ∧
      (nready = (readyEntries s rset i n).length → is = readyEntries s rset i n) := by
  intro n
  induction n with
  | zero =>
    intro i s rset nready _ _
    exact ⟨[], by simp, rfl, by simp [readyEntries]⟩
  | succ n ih =>
    intro i s rset nready hn e
    have hi : i < FD_SETSIZE := by omega
    have hsplit := readyEntries_succ s rset i n
    simp only [scan, Server.clientAt, hi, if_true, ok_bind]
    split
    next hfree =>
      rw [hsplit, if_neg (by omega)]
      exact ih (i + 1) s rset nready (by omega) e
    next htaken =>
      have hpos : 0 ≤ s.client i := by omega
      have hrange := e.inRange i hi hpos
      simp only [fdIsset, hrange, if_true, ok_bind, decide_eq_true_eq]
      split
      next hready =>
        rw [hsplit, if_pos ⟨hpos, hready⟩, serve_spec hi hrange]
        simp only [ok_bind, List.singleton_append, List.length_cons]
        split
        next hlast =>
          refine ⟨[i], by simp, rfl, fun hcount => ?_⟩
          have hnone : readyEntries s rset (i + 1) n = [] := List.length_eq_zero_iff.mp (by omega)
          rw [hnone]
        next hmore =>
          obtain ⟨is, hsub, hscan, hall⟩ := ih (i + 1) (served s i (read i)) _ (nready - 1) (by omega)
            (e.served i (read i))
          rw [readyEntries_served e.distinct (read i) (by omega) hpos] at hsub hall
          refine ⟨i :: is, hsub.cons_cons i, hscan, fun hcount => ?_⟩
          rw [hall (by omega)]
      next hnot =>
        rw [hsplit, if_neg (fun h => hnot h.2)]
        exact ih (i + 1) s rset nready (by omega) e

/-! ## A round -/

theorem Tables.entries (t : Tables env s) : Entries s where
  inRange j hj hpos := by
    rcases t.entry j hj with h | h
    · omega
    · exact h.1
  distinct := t.distinct

theorem Tables.served (t : Tables env s) {i : Nat} (hi : i < FD_SETSIZE) (hpos : 0 ≤ s.client i)
    (n : Int) : Tables env (served s i n) := by
  by_cases hn : n = 0
  · have hentry := (t.entry i hi).resolve_left (by omega)
    constructor
    · intro j hj
      rw [served_client]
      by_cases e : j = i
      · simp [e, hn]
      · simp only [e, false_and, if_false]
        refine (t.entry j hj).imp_right fun h => ⟨h.1, ?_, ?_, h.2.2.2⟩
        · simp only [SelectServer.served, hn, if_true, Finset.mem_erase]
          refine ⟨fun hsame => e ?_, h.2.1⟩
          exact (t.distinct i hi j hj hpos hsame.symm).symm
        · simpa [SelectServer.served, hn] using h.2.2.1
    · exact (t.entries.served i n).distinct
    · intro j hj hlt
      rw [served_client]
      split
      next => rfl
      next => exact t.above j hj (by simpa [SelectServer.served, hn] using hlt)
    · simpa [SelectServer.served, hn] using t.maxi_range
    · simp only [SelectServer.served, hn, if_true, Finset.mem_erase]
      exact ⟨t.listening.1, Ne.symm hentry.2.2.2, t.listening.2⟩
    · simpa [SelectServer.served, hn] using t.bounded
  · have h : SelectServer.served s i n = { s with
        calls := s.calls ++ [Call.read (s.client i) n, Call.write (s.client i) n] } := by
      simp [SelectServer.served, hn]
    rw [h]
    exact ⟨t.entry, t.distinct, t.above, t.maxi_range, t.listening, t.bounded⟩

section ServedAll
variable {read : Nat → Int} {is : List Nat}

theorem servedAll_allset : (servedAll read s is).allset = s.allset := by
  induction is generalizing s with
  | nil => rfl
  | cons i is ih =>
    refine (ih (s := served s i (read i))).trans ?_
    unfold served
    split <;> rfl

theorem servedAll_client (j : Nat) :
    (servedAll read s is).client j = if j ∈ is ∧ read j = 0 then -1 else s.client j := by
  induction is generalizing s with
  | nil => simp [servedAll]
  | cons i is ih =>
    refine (ih (s := served s i (read i))).trans ?_
    rw [served_client]
    by_cases e : j = i
    · subst e
      by_cases hr : read j = 0 <;> simp [hr]
    · simp [e]

theorem Tables.servedAll (t : Tables env s) (nodup : is.Nodup)
    (used : ∀ i ∈ is, i < FD_SETSIZE ∧ 0 ≤ s.client i) : Tables env (servedAll read s is) := by
  induction is generalizing s with
  | nil => exact t
  | cons i is ih =>
    have ⟨hi, hpos⟩ := used i (by simp)
    have ⟨hnot, nodup⟩ := List.nodup_cons.mp nodup
    refine ih (t.served hi hpos (read i)) nodup fun j hj => ?_
    have hne : j ≠ i := fun e => hnot (e ▸ hj)
    rw [served_client, if_neg (by simp [hne])]
    exact used j (by simp [hj])

/-- A client that left keeps its place in `allset`. -/
theorem Tables.noStale_servedAll_iff (t : Tables env s) (h : NoStale env s)
    (used : ∀ i ∈ is, i < FD_SETSIZE ∧ 0 ≤ s.client i) :
    NoStale env (SelectServer.servedAll read s is) ↔ ∀ i ∈ is, read i ≠ 0 := by
  constructor
  · intro h' i hi heof
    have ⟨hlt, hpos⟩ := used i hi
    obtain ⟨-, -, hset, hne⟩ := (t.entry i hlt).resolve_left (by omega)
    obtain ⟨k, hk, hclient⟩ := (h' (s.client i) (by rwa [servedAll_allset])).resolve_left hne
    rw [servedAll_client] at hclient
    split at hclient
    next => omega
    next hkept =>
      obtain rfl := t.distinct i hlt k hk hpos hclient.symm
      exact hkept ⟨hi, heof⟩
  · intro hstay fd hfd
    rw [servedAll_allset] at hfd
    refine (h fd hfd).imp_right ?_
    rintro ⟨i, hi, rfl⟩
    refine ⟨i, hi, ?_⟩
    rw [servedAll_client, if_neg]
    exact fun hc => hstay i hc.1 hc.2

end ServedAll

theorem Tables.mem_readyEntries (t : Tables env s) {rset : Finset Int} {j : Nat} :
    j ∈ readyEntries s rset 0 (s.maxi + 1).toNat ↔
      j < FD_SETSIZE ∧ 0 ≤ s.client j ∧ s.client j ∈ rset := by
  have hm := t.maxi_range
  simp only [readyEntries, List.mem_filter, List.mem_range'_1, decide_eq_true_eq]
  constructor
  · rintro ⟨hj, h⟩
    exact ⟨by omega, h⟩
  · rintro ⟨hj, h⟩
    refine ⟨⟨Nat.zero_le j, ?_⟩, h⟩
    by_contra hlt
    have := t.above j hj (by omega)
    omega

/-- Different entries in use hold different descriptors. -/
theorem nodup_map_client (distinct : Distinct s) {is : List Nat} (nodup : is.Nodup)
    (used : ∀ i ∈ is, i < FD_SETSIZE ∧ 0 ≤ s.client i) : (is.map s.client).Nodup := by
  refine List.Nodup.map_on ?_ nodup
  intro j hj k hk e
  have hj := used j hj
  exact distinct j hj.1 k (used k hk).1 hj.2 e

/-- A set of descriptors has one member for each entry that it holds, and `listenfd` if that
is in it. -/
theorem card_of_entries (distinct : Distinct s) {listenfd : Int} {rset : Finset Int} {is : List Nat}
    (nodup : is.Nodup)
    (mem : ∀ j, j ∈ is ↔ j < FD_SETSIZE ∧ 0 ≤ s.client j ∧ s.client j ∈ rset)
    (apart : ∀ j < FD_SETSIZE, 0 ≤ s.client j → s.client j ≠ listenfd)
    (known : ∀ fd ∈ rset, fd = listenfd ∨ 0 ≤ fd ∧ ∃ i < FD_SETSIZE, s.client i = fd) :
    rset.card = (if listenfd ∈ rset then 1 else 0) + is.length := by
  have hset : (is.map s.client).toFinset = rset.erase listenfd := by
    ext fd
    simp only [List.mem_toFinset, List.mem_map, mem, Finset.mem_erase]
    constructor
    · rintro ⟨j, ⟨hj, hpos, hready⟩, rfl⟩
      exact ⟨apart j hj hpos, hready⟩
    · rintro ⟨hne, hready⟩
      obtain ⟨hpos, j, hj, rfl⟩ := (known fd hready).resolve_left hne
      exact ⟨j, ⟨hj, hpos, hready⟩, rfl⟩
  have hcard := List.toFinset_card_of_nodup
    (nodup_map_client distinct nodup fun i hi => ⟨((mem i).mp hi).1, ((mem i).mp hi).2.1⟩)
  rw [hset, List.length_map] at hcard
  rw [← hcard]
  split
  next hmem => rw [← Finset.card_erase_add_one hmem, Nat.add_comm]
  next hmem => rw [Finset.erase_eq_of_notMem hmem, Nat.zero_add]

/-- Up to `maxi` there is one entry for every ready client. -/
theorem Tables.card_ready (t : Tables env s) {ready : Finset Int}
    (known : ∀ fd ∈ ready, fd = env.listenfd ∨ 0 ≤ fd ∧ ∃ i < FD_SETSIZE, s.client i = fd) :
    ready.card = (if env.listenfd ∈ ready then 1 else 0) +
      (readyEntries s ready 0 (s.maxi + 1).toNat).length := by
  have apart : ∀ j < FD_SETSIZE, 0 ≤ s.client j → s.client j ≠ env.listenfd :=
    fun j hj hpos => ((t.entry j hj).resolve_left (by omega)).2.2.2
  exact card_of_entries t.distinct (List.Nodup.filter _ List.nodup_range')
    (fun _ => t.mem_readyEntries) apart known

theorem Tables.scan (t : Tables env s) (read : Nat → Int) (rset : Finset Int) (nready : Int) :
    ∃ is, is.Sublist (readyEntries s rset 0 (s.maxi + 1).toNat) ∧
      scan read (s.maxi + 1).toNat 0 s rset nready = .ok (SelectServer.servedAll read s is) ∧
      (nready = (readyEntries s rset 0 (s.maxi + 1).toNat).length →
        is = readyEntries s rset 0 (s.maxi + 1).toNat) := by
  have hm := t.maxi_range
  exact scan_spec read _ 0 s rset nready (by omega) t.entries

/-- `afterSelect` is the round behind `select`. -/
theorem round_eq (listenfd : Int) (r : Round) (s : Server) :
    Source.SelectServer.round listenfd r s =
      (select s r >>= fun answer => afterSelect listenfd r answer.1 answer.2 s) := rfl

/-- The answers of `select`: it waits, names descriptors of `allset`, or fails. -/
theorem select_cases (s : Server) (r : Round) :
    select s r = .error .contract ∨
    ((∀ fd ∈ s.allset, fd ≤ s.maxfd → fd ∈ s.opened) ∧ (∀ fd ∈ r.ready, fd ∈ s.allset) ∧
      select s r = .ok (r.ready.card, r.ready)) ∨
    ((¬ ∀ fd ∈ s.allset, fd ≤ s.maxfd → fd ∈ s.opened) ∧ select s r = .ok (-1, s.allset)) := by
  unfold select
  split
  next hopen =>
    split
    next hready =>
      exact .inr (.inl ⟨hopen, fun fd hfd => (Finset.mem_filter.mp (hready.2 hfd)).1, rfl⟩)
    next => exact .inl rfl
  next hclosed => exact .inr (.inr ⟨hclosed, rfl⟩)

section AfterSelect
variable {r : Round} {nready : Int} {rset : Finset Int}

/-- Behind a new connection the scan serves ready clients, and all of them if `nready`
counts them and the connection. -/
theorem afterSelect_new (t : Tables env s) (hlisten : env.listenfd ∈ rset)
    (hnamed : 0 ≤ r.named) (hrange : fdInRange r.connfd) (hnew : r.connfd ∉ s.opened) :
    ∃ i < FD_SETSIZE, s.client i < 0 ∧ ∃ s₁, s₁ = connected (accepted s r.connfd) r.connfd i ∧
      Tables env s₁ ∧ ∃ is, is.Sublist (readyEntries s₁ rset 0 (s₁.maxi + 1).toNat) ∧
      afterSelect env.listenfd r nready rset s = .ok (servedAll r.read s₁ is) ∧
      (nready = 1 + (readyEntries s₁ rset 0 (s₁.maxi + 1).toNat).length →
        is = readyEntries s₁ rset 0 (s₁.maxi + 1).toNat) := by
  obtain ⟨i, hi, hfree, hclient⟩ := newClient_spec t hrange
  have t₁ := t.connected hrange hnew hi
  refine ⟨i, hi, hfree, _, rfl, t₁, ?_⟩
  simp only [afterSelect, fdIsset, env.inRange, if_true, ok_bind, decide_eq_true_eq, if_pos hlisten,
    if_neg (not_lt.mpr hnamed), if_neg (not_lt.mpr hrange.1)]
  change ∃ is, _ ∧ (newClient r.connfd (accepted s r.connfd) >>= _) = _ ∧ _
  rw [hclient, ok_bind]
  split
  next hlast =>
    refine ⟨[], List.nil_sublist _, rfl, fun hcount => ?_⟩
    exact (List.length_eq_zero_iff.mp (by omega)).symm
  next hmore =>
    obtain ⟨is, hsub, hscan, hall⟩ := t₁.scan r.read rset (nready - 1)
    exact ⟨is, hsub, hscan, fun hcount => hall (by omega)⟩

theorem afterSelect_quiet (t : Tables env s) (hnot : env.listenfd ∉ rset) :
    ∃ is, is.Sublist (readyEntries s rset 0 (s.maxi + 1).toNat) ∧
      afterSelect env.listenfd r nready rset s = .ok (servedAll r.read s is) ∧
      (nready = (readyEntries s rset 0 (s.maxi + 1).toNat).length →
        is = readyEntries s rset 0 (s.maxi + 1).toNat) := by
  simp only [afterSelect, fdIsset, env.inRange, if_true, ok_bind, decide_eq_true_eq, if_neg hnot]
  exact t.scan r.read rset nready

end AfterSelect

/-- A round serves some ready clients behind a new connection, if there is one; with no
stale member in `allset`, all of them. -/
structure Rounded (env : Env) (s : Server) (r : Round) (s₁ : Server) (is : List Nat) : Prop where
  tables : Tables env s₁
  used : ∃ rset, is.Sublist (readyEntries s₁ rset 0 (s₁.maxi + 1).toNat)
  noStale : NoStale env s → NoStale env s₁
  same : NoStale env s → ∀ j < FD_SETSIZE,
    0 ≤ s₁.client j ∧ s₁.client j ∈ r.ready ↔ s.client j ∈ r.ready
  all : NoStale env s → is = readyEntries s₁ r.ready 0 (s₁.maxi + 1).toNat

/-- Members of `allset` that `select` names are counted by the entries. -/
theorem Tables.card_of_noStale (t : Tables env s) (h : NoStale env s) {ready : Finset Int}
    (hin : ∀ fd ∈ ready, fd ∈ s.allset) : ready.card = (if env.listenfd ∈ ready then 1 else 0) +
      (readyEntries s ready 0 (s.maxi + 1).toNat).length :=
  t.card_ready fun fd hfd =>
    (h fd (hin fd hfd)).imp_right fun h => ⟨(t.bounded fd (hin fd hfd)).1.1, h⟩

/-- Neither the new descriptor nor the entry that it gets is in the set. -/
theorem connected_ready_iff {ready : Finset Int} {connfd : Int} {i : Nat} (hfree : s.client i < 0)
    (hnot : connfd ∉ ready) (hpos : ∀ fd ∈ ready, 0 ≤ fd) (j : Nat) :
    0 ≤ (connected (accepted s connfd) connfd i).client j ∧
        (connected (accepted s connfd) connfd i).client j ∈ ready ↔ s.client j ∈ ready := by
  rw [connected_client]
  split
  next e =>
    subst e
    have hfree' : s.client j ∉ ready := by
      intro h
      have := hpos _ h
      omega
    simp [hnot, hfree']
  next => exact and_iff_right_of_imp (hpos _)

theorem round_spec (t : Tables env s) {r : Round} (hrange : fdInRange r.connfd)
    (hnew : r.connfd ∉ s.opened) (hnamed : 0 ≤ r.named) :
    Safe (round env.listenfd r s) fun s' => ∃ s₁ is, Rounded env s r s₁ is ∧
      s' = servedAll r.read s₁ is := by
  have hpos : ∀ fd ∈ s.allset, 0 ≤ fd := fun fd hfd => (t.bounded fd hfd).1.1
  rw [round_eq]
  rcases select_cases s r with hsel | ⟨hopen, hin, hsel⟩ | ⟨hclosed, hsel⟩
  · rw [hsel]
    rfl
  · rw [hsel, ok_bind]
    by_cases hlisten : env.listenfd ∈ r.ready
    · obtain ⟨i, hi, hfree, s₁, rfl, t₁, is, hsub, hround, hall⟩ :=
        afterSelect_new t hlisten hnamed hrange hnew
      have hnot : r.connfd ∉ r.ready := by
        intro h
        exact hnew (hopen _ (hin _ h) (t.bounded _ (hin _ h)).2)
      rw [hround]
      refine ⟨_, is, ⟨t₁, ⟨_, hsub⟩, fun h => h.connected hi hfree hpos, fun _ j _ =>
        connected_ready_iff hfree hnot (fun fd hfd => hpos fd (hin fd hfd)) j, fun h => hall ?_⟩, rfl⟩
      have hcard := t₁.card_of_noStale (h.connected hi hfree hpos)
        fun fd hfd => Finset.mem_insert_of_mem (hin fd hfd)
      rw [if_pos hlisten] at hcard
      rw [hcard, Nat.cast_add, Nat.cast_one]
    · obtain ⟨is, hsub, hround, hall⟩ := afterSelect_quiet t hlisten
      rw [hround]
      refine ⟨_, is, ⟨t, ⟨_, hsub⟩, id, fun _ j _ => and_iff_right_of_imp fun h => hpos _ (hin _ h),
        fun h => hall ?_⟩, rfl⟩
      rw [t.card_of_noStale h hin, if_neg hlisten, Nat.zero_add]
  · have stale : ¬ NoStale env s := fun h => hclosed fun fd hfd _ => t.opened_of_noStale h fd hfd
    rw [hsel, ok_bind]
    obtain ⟨i, -, -, s₁, rfl, t₁, is, hsub, hround, -⟩ :=
      afterSelect_new t t.listening.1 hnamed hrange hnew
    rw [hround]
    exact ⟨_, is, ⟨t₁, ⟨_, hsub⟩, fun h => absurd h stale, fun h => absurd h stale,
      fun h => absurd h stale⟩, rfl⟩

/-- No client that is ready has closed its connection. -/
def NoneLeaves (s : Server) (r : Round) : Prop :=
  ∀ i < FD_SETSIZE, s.client i ∈ r.ready → r.read i ≠ 0

/-- A scan handles entries in use, each once. -/
theorem Tables.usable (t : Tables env s) {rset : Finset Int} {is : List Nat}
    (hsub : is.Sublist (readyEntries s rset 0 (s.maxi + 1).toNat)) :
    is.Nodup ∧ ∀ i ∈ is, i < FD_SETSIZE ∧ 0 ≤ s.client i := by
  refine ⟨(List.Nodup.filter _ List.nodup_range').sublist hsub, fun i hi => ?_⟩
  have hi := t.mem_readyEntries.mp (hsub.subset hi)
  exact ⟨hi.1, hi.2.1⟩

theorem Rounded.usable {r : Round} {s₁ : Server} {is : List Nat} (h : Rounded env s r s₁ is) :
    is.Nodup ∧ ∀ i ∈ is, i < FD_SETSIZE ∧ 0 ≤ s₁.client i := by
  obtain ⟨rset, hsub⟩ := h.used
  exact h.tables.usable hsub

theorem step_tables (s : Server) (r : Round) (t : Tables env s) : Safe (step env s r) (Tables env) := by
  unfold step
  split
  next hkernel =>
    refine (round_spec t hkernel.1 hkernel.2.1 hkernel.2.2).mono ?_
    rintro s' ⟨s₁, is, h, rfl⟩
    exact h.tables.servedAll h.usable.1 h.usable.2
  next => simp

theorem step_noStale_iff (s : Server) (r : Round) (t : Tables env s) (h : NoStale env s) :
    Safe (step env s r) fun s' => Tables env s' ∧ (NoStale env s' ↔ NoneLeaves s r) := by
  unfold step
  split
  next hkernel =>
    refine (round_spec t hkernel.1 hkernel.2.1 hkernel.2.2).mono ?_
    rintro s' ⟨s₁, is, hr, rfl⟩
    refine ⟨hr.tables.servedAll hr.usable.1 hr.usable.2, ?_⟩
    rw [hr.tables.noStale_servedAll_iff (hr.noStale h) hr.usable.2, hr.all h]
    constructor
    · intro hstay i hi hready
      exact hstay i (hr.tables.mem_readyEntries.mpr ⟨hi, (hr.same h i hi).mpr hready⟩)
    · intro hstay i hi
      obtain ⟨hi, hready⟩ := hr.tables.mem_readyEntries.mp hi
      exact hstay i hi ((hr.same h i hi).mp hready)
  next => simp

end LinuxDemo.Invariant.SelectServer
