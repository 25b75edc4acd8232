import LinuxDemo.Invariant.SelectServer

/-!
# A round of the select server with any descriptors

The scan tests the entries of `client[]` one after another up to the last ready one. It
serves each ready client once, unless it meets a descriptor on the way that does not fit
an `fd_set`.
-/
namespace LinuxDemo.Invariant.SelectServer
open LinuxDemo.Lib LinuxDemo.Source.SelectServer

variable {listenfd : Int} {s : Server} {r : Round} {rset : Finset Int}

def IsClient (s : Server) (fd : Int) : Prop := 0 ≤ fd ∧ ∃ i < FD_SETSIZE, s.client i = fd

instance (s : Server) (fd : Int) : Decidable (IsClient s fd) := inferInstanceAs (Decidable (_ ∧ _))

/-- The ready clients from entry `i` on. -/
def readyFrom (s : Server) (rset : Finset Int) (i : Nat) : List Nat :=
  readyEntries s rset i (FD_SETSIZE - i)

/-- Every descriptor that a scan from entry `i` on tests fits an `fd_set`. -/
def TestsInRange (s : Server) (rset : Finset Int) (i : Nat) : Prop :=
  ∀ j, i ≤ j → (∃ k ∈ readyFrom s rset i, j ≤ k) → 0 ≤ s.client j → fdInRange (s.client j)

theorem mem_readyFrom {i j : Nat} : j ∈ readyFrom s rset i ↔
    (i ≤ j ∧ j < FD_SETSIZE) ∧ 0 ≤ s.client j ∧ s.client j ∈ rset := by
  simp only [readyFrom, readyEntries, List.mem_filter, List.mem_range'_1, decide_eq_true_eq]
  constructor
  · rintro ⟨hj, h⟩
    exact ⟨by omega, h⟩
  · rintro ⟨hj, h⟩
    exact ⟨by omega, h⟩

theorem readyFrom_succ (s : Server) (rset : Finset Int) {i : Nat} (hi : i < FD_SETSIZE) :
    readyFrom s rset i = (if 0 ≤ s.client i ∧ s.client i ∈ rset then [i] else []) ++ readyFrom s rset (i + 1) := by
  have hn : FD_SETSIZE - i = FD_SETSIZE - (i + 1) + 1 := by omega
  rw [readyFrom, hn, readyEntries_succ]
  rfl

theorem readyFrom_served (distinct : Distinct s) (rset : Finset Int) {i : Nat} (hi : i < FD_SETSIZE)
    (hpos : 0 ≤ s.client i) (n : Int) :
    readyFrom (served s i n) (if n = 0 then rset.erase (s.client i) else rset) (i + 1) =
      readyFrom s rset (i + 1) :=
  readyEntries_served distinct n (by omega) hpos

/-- A tested entry in range leaves the question to those behind it. -/
theorem testsInRange_iff {i : Nat}
    (hone : 0 ≤ s.client i → fdInRange (s.client i)) :
    TestsInRange s rset i ↔ TestsInRange s rset (i + 1) := by
  constructor
  · intro h j hj hready
    refine h j (by omega) ?_
    obtain ⟨k, hk, hjk⟩ := hready
    have hk := mem_readyFrom.mp hk
    exact ⟨k, mem_readyFrom.mpr ⟨by omega, hk.2⟩, hjk⟩
  · intro h j hj hready
    rcases Nat.eq_or_lt_of_le hj with rfl | hlt
    · exact hone
    · refine h j hlt ?_
      obtain ⟨k, hk, hjk⟩ := hready
      have hk := mem_readyFrom.mp hk
      exact ⟨k, mem_readyFrom.mpr ⟨by omega, hk.2⟩, hjk⟩

theorem testsInRange_served (distinct : Distinct s) {i : Nat} (hi : i < FD_SETSIZE)
    (hpos : 0 ≤ s.client i) (n : Int) :
    TestsInRange (served s i n) (if n = 0 then rset.erase (s.client i) else rset) (i + 1) ↔
      TestsInRange s rset (i + 1) := by
  have hclient : ∀ j, i + 1 ≤ j → (served s i n).client j = s.client j := by
    intro j hj
    rw [served_client, if_neg (by omega)]
  unfold TestsInRange
  rw [readyFrom_served distinct rset hi hpos n]
  refine forall_congr' fun j => forall_congr' fun hj => ?_
  rw [hclient j hj]

/-- The scan with `nready` counting the ready clients, of which there is one. -/
theorem scan_exact (read : Nat → Int) : ∀ (n i : Nat) (s : Server) (rset : Finset Int),
    Distinct s → (∀ j, i + n ≤ j → j < FD_SETSIZE → s.client j < 0) → readyFrom s rset i ≠ [] →
    (TestsInRange s rset i → scan read n i s rset (readyFrom s rset i).length =
      .ok (servedAll read s (readyFrom s rset i))) ∧
    (¬ TestsInRange s rset i →
      scan read n i s rset (readyFrom s rset i).length = .error .outOfBounds) := by
  intro n
  induction n with
  | zero =>
    intro i s rset _ above ready
    obtain ⟨k, hk⟩ := List.exists_mem_of_ne_nil _ ready
    have hk := mem_readyFrom.mp hk
    have := above k (by omega) hk.1.2
    omega
  | succ n ih =>
    intro i s rset distinct above ready
    obtain ⟨k, hk⟩ := List.exists_mem_of_ne_nil _ ready
    have hk' := mem_readyFrom.mp hk
    have hi : i < FD_SETSIZE := by omega
    have above' : ∀ j, i + 1 + n ≤ j → j < FD_SETSIZE → s.client j < 0 := fun j hj => above j (by omega)
    have hsplit := readyFrom_succ s rset hi
    simp only [scan, Server.clientAt, hi, if_true, ok_bind]
    split
    next hfree =>
      rw [if_neg (by omega), List.nil_append] at hsplit
      rw [testsInRange_iff (by omega), hsplit]
      exact ih (i + 1) s rset distinct above' (hsplit ▸ ready)
    next htaken =>
      have hpos : 0 ≤ s.client i := by omega
      by_cases hrange : fdInRange (s.client i)
      · rw [testsInRange_iff (fun _ => hrange)]
        simp only [fdIsset, hrange, if_true, ok_bind, decide_eq_true_eq]
        split
        next hready =>
          rw [if_pos ⟨hpos, hready⟩, List.singleton_append] at hsplit
          rw [hsplit, serve_spec hi hrange]
          simp only [ok_bind, List.length_cons]
          by_cases hmore : readyFrom s rset (i + 1) = []
          · simp only [hmore, List.length_nil]
            refine ⟨fun _ => rfl, fun h => absurd ?_ h⟩
            rintro j - ⟨k, hk, -⟩
            cases hmore ▸ hk
          · have hlen := List.length_pos_iff.mpr hmore
            have hcount : (((readyFrom s rset (i + 1)).length + 1 : Nat) : Int) - 1 =
                (readyFrom s rset (i + 1)).length := by omega
            have above'' : ∀ j, i + 1 + n ≤ j → j < FD_SETSIZE → (served s i (read i)).client j < 0 := by
              intro j hj hlt
              rw [served_client, if_neg (by omega)]
              exact above' j hj hlt
            have hfrom := readyFrom_served distinct rset hi hpos (read i)
            have rest := ih (i + 1) (served s i (read i)) _ (distinct.served i (read i)) above''
              (hfrom.symm ▸ hmore)
            rw [hfrom, testsInRange_served distinct hi hpos] at rest
            rw [hcount, if_neg (by omega)]
            exact rest
        next hnot =>
          rw [if_neg (fun h => hnot h.2), List.nil_append] at hsplit
          rw [hsplit]
          exact ih (i + 1) s rset distinct above' (hsplit ▸ ready)
      · have htests : ¬ TestsInRange s rset i :=
          fun h => hrange (h i (Nat.le_refl i) ⟨k, hk, hk'.1.1⟩ hpos)
        simp only [fdIsset, hrange, if_false, error_bind]
        exact ⟨fun h => absurd h htests, fun _ => trivial⟩

/-! ## Calls of `read` -/

/-- How often `read` was called on a descriptor. -/
def readsOf (fd : Int) (calls : List Call) : Nat :=
  calls.countP fun
    | .read fd' _ => decide (fd' = fd)
    | _ => false

theorem readsOf_append (fd : Int) (calls more : List Call) :
    readsOf fd (calls ++ more) = readsOf fd calls + readsOf fd more :=
  List.countP_append

theorem readsOf_served (fd : Int) (s : Server) (i : Nat) (n : Int) :
    readsOf fd (served s i n).calls = readsOf fd s.calls + if s.client i = fd then 1 else 0 := by
  unfold served
  split <;> simp [readsOf, List.countP_cons]

theorem readsOf_servedAll (fd : Int) (read : Nat → Int) (s : Server) {is : List Nat}
    (nodup : is.Nodup) : readsOf fd (servedAll read s is).calls =
      readsOf fd s.calls + (is.map s.client).count fd := by
  induction is generalizing s with
  | nil => rfl
  | cons i is ih =>
    have ⟨hnot, nodup⟩ := List.nodup_cons.mp nodup
    have hsame : is.map (served s i (read i)).client = is.map s.client := by
      refine List.map_congr_left fun j hj => ?_
      rw [served_client, if_neg]
      rintro ⟨rfl, -⟩
      exact hnot hj
    refine (ih (served s i (read i)) nodup).trans ?_
    rw [readsOf_served, hsame, List.map_cons, List.count_cons, Nat.add_assoc, Nat.add_comm (List.count _ _)]
    simp

theorem nodup_readyFrom (s : Server) (rset : Finset Int) (i : Nat) : (readyFrom s rset i).Nodup :=
  List.Nodup.filter _ List.nodup_range'

/-- The descriptors of the ready clients, each once. -/
theorem nodup_readyFrom_map (distinct : Distinct s) (rset : Finset Int) (i : Nat) :
    ((readyFrom s rset i).map s.client).Nodup := by
  refine nodup_map_client distinct (nodup_readyFrom s rset i) fun j hj => ?_
  have hj := mem_readyFrom.mp hj
  exact ⟨hj.1.2, hj.2.1⟩

theorem mem_readyFrom_map {fd : Int} :
    fd ∈ (readyFrom s rset 0).map s.client ↔ fd ∈ rset ∧ IsClient s fd := by
  simp only [List.mem_map, mem_readyFrom, IsClient]
  constructor
  · rintro ⟨i, ⟨hi, hpos, hready⟩, rfl⟩
    exact ⟨hready, hpos, i, hi.2, rfl⟩
  · rintro ⟨hready, hpos, i, hi, rfl⟩
    exact ⟨i, ⟨⟨Nat.zero_le i, hi⟩, hpos, hready⟩, rfl⟩

/-- Each client in `rset` is read once, and no other descriptor. -/
def ReadOnce (rset : Finset Int) (s s' : Server) : Prop :=
  ∀ fd, readsOf fd s'.calls = readsOf fd s.calls + if fd ∈ rset ∧ IsClient s fd then 1 else 0

theorem readOnce_servedAll (distinct : Distinct s) (read : Nat → Int) :
    ReadOnce rset s (servedAll read s (readyFrom s rset 0)) := by
  intro fd
  rw [readsOf_servedAll fd read s (nodup_readyFrom s rset 0), (nodup_readyFrom_map distinct rset 0).count,
    if_congr mem_readyFrom_map rfl rfl]

/-- `rset` has one member for each ready client, and `listenfd` if it is ready. -/
theorem card_rset (distinct : Distinct s)
    (apart : ¬ IsClient s listenfd) (known : ∀ fd ∈ rset, fd = listenfd ∨ IsClient s fd) :
    rset.card = (if listenfd ∈ rset then 1 else 0) + (readyFrom s rset 0).length := by
  refine card_of_entries distinct (nodup_readyFrom s rset 0) (fun j => ?_) ?_ known
  · rw [mem_readyFrom, and_iff_right (Nat.zero_le j)]
  · intro j hj hpos e
    exact apart (e ▸ ⟨hpos, j, hj, rfl⟩)

/-! ## Behind a new connection -/

section Connected
variable {connfd : Int} {i : Nat}

/-- The new descriptor is not in `rset`, which was filled before. -/
theorem readyFrom_connected (hfree : s.client i < 0) (hnot : connfd ∉ rset) (k : Nat) :
    readyFrom (connected s connfd i) rset k = readyFrom s rset k := by
  refine List.filter_congr fun j _ => ?_
  rw [connected_client]
  split
  next e =>
    subst e
    have : ¬ 0 ≤ s.client j := by omega
    simp [hnot, this]
  next => rfl

theorem readyFrom_connected_map (hfree : s.client i < 0) (hnot : connfd ∉ rset) (k : Nat) :
    (readyFrom (connected s connfd i) rset k).map (connected s connfd i).client =
      (readyFrom s rset k).map s.client := by
  rw [readyFrom_connected hfree hnot]
  refine List.map_congr_left fun j hj => ?_
  have hj := mem_readyFrom.mp hj
  rw [connected_client, if_neg]
  rintro rfl
  omega

theorem testsInRange_connected (hfree : s.client i < 0) (hnot : connfd ∉ rset)
    (hrange : fdInRange connfd) (k : Nat) :
    TestsInRange (connected s connfd i) rset k ↔ TestsInRange s rset k := by
  unfold TestsInRange
  rw [readyFrom_connected hfree hnot]
  refine forall_congr' fun j => forall_congr' fun _ => forall_congr' fun _ => ?_
  rw [connected_client]
  split
  next e =>
    subst e
    exact ⟨fun _ h => by omega, fun _ _ => hrange⟩
  next => rfl

end Connected

/-! ## The whole round -/

/-- `client[]` in front of a round: the descriptors differ from each other and from
`listenfd`, one entry is free, and those above `maxi` are. -/
structure Table (listenfd : Int) (s : Server) : Prop where
  distinct : Distinct s
  apart : ¬ IsClient s listenfd
  free : ∃ i < FD_SETSIZE, s.client i < 0
  above : ∀ i < FD_SETSIZE, s.maxi < i → s.client i = -1

/-- What the kernel answers: `select`, called without a timeout, leaves one of the descriptors
it was asked about, and `accept` returns a descriptor that is not in use. -/
structure Answer (listenfd : Int) (r : Round) (rset : Finset Int) (s : Server) : Prop where
  nonempty : rset.Nonempty
  known : ∀ fd ∈ rset, fd = listenfd ∨ IsClient s fd
  accepted : listenfd ∈ rset → 0 ≤ r.named →
    0 ≤ r.connfd ∧ r.connfd ≠ listenfd ∧ ¬ IsClient s r.connfd

/-- Every descriptor that the round passes to `FD_SET` or `FD_ISSET` fits an `fd_set`: the
listening one, an accepted one, and those tested up to the last ready client. -/
def Fits (listenfd : Int) (r : Round) (rset : Finset Int) (s : Server) : Prop :=
  fdInRange listenfd ∧ (listenfd ∈ rset → 0 ≤ r.named → fdInRange r.connfd) ∧
    ((listenfd ∈ rset → 0 ≤ r.named) → TestsInRange s rset 0)

/-- What a scan or a round comes to that reads the clients in `rset`, `fits` saying that no
descriptor it handles is out of range. -/
def Outcome (fits : Prop) (x : Except Fault Server) (P : Server → Prop) : Prop :=
  (fits → ∃ s', x = .ok s' ∧ P s') ∧ (¬ fits → x = .error .outOfBounds)

theorem Outcome.iff {fits : Prop} {x : Except Fault Server} {P : Server → Prop}
    (h : Outcome fits x P) : (∃ s', x = .ok s' ∧ P s') ↔ fits := by
  constructor
  · rintro ⟨s', hx, -⟩
    by_contra hnot
    rw [h.2 hnot] at hx
    cases hx
  · exact h.1

theorem Outcome.ok {fits : Prop} {P : Server → Prop} {s' : Server} (h : fits) (hs' : P s') :
    Outcome fits (.ok s') P :=
  ⟨fun _ => ⟨s', rfl, hs'⟩, fun hnot => absurd h hnot⟩

theorem Outcome.error {fits : Prop} {P : Server → Prop} (h : ¬ fits) :
    Outcome fits (.error .outOfBounds) P :=
  ⟨fun hfits => absurd hfits h, fun _ => rfl⟩

theorem Outcome.mono {fits fits' : Prop} {x : Except Fault Server} {P Q : Server → Prop}
    (h : Outcome fits x P) (hfits : fits ↔ fits') (hPQ : ∀ s', P s' → Q s') : Outcome fits' x Q := by
  refine ⟨fun hf => ?_, fun hf => h.2 (mt hfits.mp hf)⟩
  obtain ⟨s', hx, hs'⟩ := h.1 (hfits.mpr hf)
  exact ⟨s', hx, hPQ s' hs'⟩

theorem scan_reads (distinct : Distinct s) (read : Nat → Int) {n : Nat}
    (above : ∀ j, n ≤ j → j < FD_SETSIZE → s.client j < 0) (ready : readyFrom s rset 0 ≠ []) :
    Outcome (TestsInRange s rset 0) (scan read n 0 s rset (readyFrom s rset 0).length)
      (ReadOnce rset s) := by
  obtain ⟨hok, herror⟩ := scan_exact read n 0 s rset distinct (by simpa using above) ready
  exact ⟨fun h => ⟨_, hok h, readOnce_servedAll distinct read⟩, herror⟩

theorem Table.negative (t : Table listenfd s) {n : Nat} (hn : s.maxi < n) :
    ∀ j, n ≤ j → j < FD_SETSIZE → s.client j < 0 := by
  intro j hj hlt
  have := t.above j hlt (by omega)
  omega

theorem Answer.connfd_notMem (a : Answer listenfd r rset s) (hmem : listenfd ∈ rset)
    (hnamed : 0 ≤ r.named) : r.connfd ∉ rset := by
  obtain ⟨-, hlisten, hclient⟩ := a.accepted hmem hnamed
  intro h
  rcases a.known _ h with e | h
  · exact hlisten e
  · exact hclient h

theorem readOnce_connected {connfd : Int} {i : Nat} (hfree : s.client i < 0) (hnot : connfd ∉ rset)
    (s' : Server) : ReadOnce rset (connected (accepted s connfd) connfd i) s' ↔ ReadOnce rset s s' := by
  have hfree' : (accepted s connfd).client i < 0 := hfree
  have hcalls : ∀ fd, readsOf fd (connected (accepted s connfd) connfd i).calls = readsOf fd s.calls :=
    fun fd => readsOf_append fd s.calls [Call.accept connfd]
  have hready : ∀ fd, fd ∈ rset ∧ IsClient (connected (accepted s connfd) connfd i) fd ↔
      fd ∈ rset ∧ IsClient s fd := by
    intro fd
    rw [← mem_readyFrom_map, ← mem_readyFrom_map, readyFrom_connected_map hfree' hnot]
    rfl
  refine forall_congr' fun fd => ?_
  rw [hcalls, if_congr (hready fd) rfl rfl]

/-- The scan behind a new connection. -/
theorem connected_reads (t : Table listenfd s) (a : Answer listenfd r rset s)
    (hmem : listenfd ∈ rset) (hnamed : 0 ≤ r.named) {i : Nat} (hfree : s.client i < 0)
    (hrange : fdInRange r.connfd) (ready : readyFrom s rset 0 ≠ []) :
    Outcome (TestsInRange s rset 0)
      (scan r.read ((connected (accepted s r.connfd) r.connfd i).maxi + 1).toNat 0
        (connected (accepted s r.connfd) r.connfd i) rset (readyFrom s rset 0).length)
      (ReadOnce rset s) := by
  have hnot := a.connfd_notMem hmem hnamed
  obtain ⟨hpos, -, hclient⟩ := a.accepted hmem hnamed
  have hfree' : (accepted s r.connfd).client i < 0 := hfree
  have hnew : ∀ j < FD_SETSIZE, s.client j ≠ r.connfd :=
    fun j hj e => hclient ⟨hpos, j, hj, e⟩
  have distinct : Distinct (connected (accepted s r.connfd) r.connfd i) :=
    Distinct.connected (s := accepted s r.connfd) t.distinct hnew
  have above : ∀ j, ((connected (accepted s r.connfd) r.connfd i).maxi + 1).toNat ≤ j →
      j < FD_SETSIZE → (connected (accepted s r.connfd) r.connfd i).client j < 0 := by
    intro j hj hlt
    have hmaxi : max s.maxi i < j := by
      have : (connected (accepted s r.connfd) r.connfd i).maxi = max s.maxi i := rfl
      omega
    rw [connected_client, if_neg (by omega)]
    exact t.negative (n := j) (by omega) j (Nat.le_refl j) hlt
  have hfrom : readyFrom (connected (accepted s r.connfd) r.connfd i) rset 0 = readyFrom s rset 0 :=
    readyFrom_connected hfree' hnot 0
  have htests : TestsInRange (connected (accepted s r.connfd) r.connfd i) rset 0 ↔
      TestsInRange s rset 0 := testsInRange_connected hfree' hnot hrange 0
  have h := scan_reads distinct r.read above (hfrom ▸ ready)
  rw [hfrom, htests, funext fun s' => propext (readOnce_connected hfree hnot s')] at h
  exact h

theorem testsInRange_of_none (h : readyFrom s rset 0 = []) : TestsInRange s rset 0 := by
  rintro j - ⟨k, hk, -⟩
  cases h ▸ hk

theorem readOnce_of_none (h : readyFrom s rset 0 = []) : ReadOnce rset s s := by
  intro fd
  rw [← if_congr mem_readyFrom_map rfl rfl, h]
  rfl

/-- The branch of a new connection, and the scan unless `listenfd` was all that was ready. -/
theorem newClient_reads (t : Table listenfd s) (a : Answer listenfd r rset s)
    (hmem : listenfd ∈ rset) (hnamed : 0 ≤ r.named) (hrange : fdInRange r.connfd)
    {nready : Int} (hleft : nready = (readyFrom s rset 0).length) :
    Outcome (TestsInRange s rset 0)
      (newClient r.connfd (accepted s r.connfd) >>= fun s' =>
        if nready ≤ 0 then .ok s' else scan r.read (s'.maxi + 1).toNat 0 s' rset nready)
      (ReadOnce rset s) := by
  obtain ⟨i, -, hfree, hclient⟩ := newClient_of_free (s := accepted s r.connfd) hrange t.free
  have hfree : s.client i < 0 := hfree
  rw [hclient, ok_bind, hleft]
  split
  next hlast =>
    have hnone : readyFrom s rset 0 = [] := List.length_eq_zero_iff.mp (by omega)
    have hnot := a.connfd_notMem hmem hnamed
    have hnone' : readyFrom (connected (accepted s r.connfd) r.connfd i) rset 0 = [] :=
      (readyFrom_connected hfree hnot 0).trans hnone
    exact .ok (testsInRange_of_none hnone)
      ((readOnce_connected hfree hnot _).mp (readOnce_of_none hnone'))
  next hmore =>
    have ready : readyFrom s rset 0 ≠ [] := by
      intro h
      simp [h] at hmore
    exact connected_reads t a hmem hnamed hfree hrange ready

/-- A round reads each ready client once exactly if the descriptors it handles fit. -/
theorem afterSelect_reads (t : Table listenfd s) (a : Answer listenfd r rset s) :
    Outcome (Fits listenfd r rset s) (afterSelect listenfd r rset.card rset s)
      fun s' => s'.quit = true ∨ ReadOnce rset s s' := by
  have hcard := card_rset t.distinct t.apart a.known
  unfold afterSelect
  by_cases hlisten : fdInRange listenfd
  · simp only [fdIsset, hlisten, if_true, ok_bind, decide_eq_true_eq]
    split
    next hmem =>
      rw [if_pos hmem] at hcard
      split
      next hfailed =>
        have hnot : ¬ 0 ≤ r.named := by omega
        exact .ok ⟨hlisten, fun _ h => absurd h hnot, fun h => absurd (h hmem) hnot⟩ (.inl rfl)
      next hok =>
        have hnamed : 0 ≤ r.named := by omega
        have hpos := (a.accepted hmem hnamed).1
        rw [if_neg (by omega)]
        by_cases hrange : fdInRange r.connfd
        · have hfits : TestsInRange s rset 0 ↔ Fits listenfd r rset s :=
            ⟨fun h => ⟨hlisten, fun _ _ => hrange, fun _ => h⟩, fun h => h.2.2 fun _ => hnamed⟩
          exact (newClient_reads t a hmem hnamed hrange (by omega)).mono hfits fun _ => .inr
        · rw [newClient_out_of_range hrange, error_bind]
          exact .error fun h => hrange (h.2.1 hmem hnamed)
    next hnot =>
      rw [if_neg hnot, Nat.zero_add] at hcard
      have ready : readyFrom s rset 0 ≠ [] := by
        intro h
        have := a.nonempty.card_pos
        rw [h, List.length_nil] at hcard
        omega
      have hfits : TestsInRange s rset 0 ↔ Fits listenfd r rset s :=
        ⟨fun h => ⟨hlisten, fun h => absurd h hnot, fun _ => h⟩, fun h => h.2.2 fun h => absurd h hnot⟩
      rw [hcard]
      exact (scan_reads t.distinct r.read (t.negative (by omega)) ready).mono hfits fun _ => .inr
  · simp only [fdIsset, hlisten, if_false, error_bind]
    exact .error fun h => hlisten h.1

end LinuxDemo.Invariant.SelectServer
