import LinuxDemo.Source.CgiServer
import LinuxDemo.Lib.Run
import Mathlib.Tactic

/-!
# A connection of the CGI server

`Reading` says where the loop stands after calls of `recv` that all brought bytes and no
complete line: it depends on the stream and on how much of it was received, and not on
the cuts between. A round ends the request exactly when `EndsAt` says so.
-/
namespace LinuxDemo.Invariant.CgiServer
open LinuxDemo.Lib LinuxDemo.Lib.CString LinuxDemo.Source.CgiServer

/-- A CR at `i` and an LF behind it. -/
def CrlfAt (s : List UInt8) (i : Nat) : Prop := s[i]? = some CR ∧ s[i + 1]? = some LF

instance (s : List UInt8) (i : Nat) : Decidable (CrlfAt s i) :=
  inferInstanceAs (Decidable (_ ∧ _))

def FirstCrlf (s : List UInt8) (i : Nat) : Prop := CrlfAt s i ∧ ∀ j < i, ¬ CrlfAt s j

theorem CrlfAt.lt_length {s : List UInt8} {i : Nat} (h : CrlfAt s i) : i + 1 < s.length :=
  (List.getElem?_eq_some_iff.mp h.2).1

theorem crlfAt_take_iff (s : List UInt8) (a i : Nat) :
    CrlfAt (s.take a) i ↔ CrlfAt s i ∧ i + 2 ≤ a := by
  unfold CrlfAt
  rw [List.getElem?_take, List.getElem?_take]
  by_cases h : i + 1 < a
  · rw [if_pos (by omega), if_pos h]
    exact (and_iff_left (by omega)).symm
  · rw [if_neg h]
    simp
    omega

section Buffer
variable {m : Buffer} {s : List UInt8}

theorem store_spec {p : Nat} (bytes : List UInt8) (hsize : p + bytes.length ≤ BUFFER_SIZE) :
    ∃ m', store m p bytes = .ok m' ∧ Holds m' p bytes ∧
      ∀ q, q < p ∨ p + bytes.length ≤ q → m' q = m q := by
  induction bytes generalizing m p with
  | nil => exact ⟨m, rfl, trivial, fun _ _ => rfl⟩
  | cons b bytes ih =>
    simp only [List.length_cons] at hsize
    obtain ⟨m', he, hm, hother⟩ := ih (m := Function.update m p b) (p := p + 1) (by omega)
    refine ⟨m', ?_, ⟨?_, hm⟩, fun q hq => ?_⟩
    · have hp : p < BUFFER_SIZE := by omega
      simp only [store, writeByte, if_pos hp, ok_bind, he]
    · rw [hother p (by omega), Function.update_self]
    · simp only [List.length_cons] at hq
      rw [hother q (by omega), Function.update_of_ne (by omega)]

theorem content_spec {w : World} {t : List UInt8} (h : Holds w.conn.mBuff 0 (t ++ [0]))
    (ht : t.length < BUFFER_SIZE) : content w = .ok (cstr t) :=
  (printString_leads (S := fun _ => True) h (by omega) fun _ _ _ => trivial).result

theorem endsLine_spec {idx : Nat} (h : Holds m 0 s) (hs : s.length ≤ BUFFER_SIZE)
    (hidx : idx < s.length) :
    endsLine m idx = .ok (decide (1 ≤ idx ∧ CrlfAt s (idx - 1))) := by
  cases idx with
  | zero => simp [endsLine]
  | succ j =>
    have hj := getElem?_of_holds h (i := j) (by omega)
    have hj1 := getElem?_of_holds h hidx
    rw [Nat.zero_add] at hj hj1
    have hread : j < BUFFER_SIZE := by omega
    have hread1 : j + 1 < BUFFER_SIZE := by omega
    simp only [endsLine, Nat.le_add_left, if_true, true_and, Nat.add_sub_cancel, readByte,
      if_pos hread, if_pos hread1, ok_bind, CrlfAt, hj, hj1]
    split
    next hcr => simp [hcr]
    next hcr => simp [hcr]

/-- The search stops behind the first CRLF whose LF it has not passed. -/
theorem findLine_spec (h : Holds m 0 s) (hs : s.length ≤ BUFFER_SIZE) {n idx : Nat}
    (hn : idx + n = s.length) :
    ∃ r, findLine m n idx = .ok r ∧
      ((r = s.length ∧ ∀ j, idx ≤ j + 1 → ¬ CrlfAt s j) ∨
        ∃ j, r = j + 1 ∧ idx ≤ j + 1 ∧ CrlfAt s j ∧ ∀ i < j, idx ≤ i + 1 → ¬ CrlfAt s i) := by
  induction n generalizing idx with
  | zero =>
    refine ⟨idx, rfl, .inl ⟨by omega, fun j hj hc => ?_⟩⟩
    have := hc.lt_length
    omega
  | succ n ih =>
    simp only [findLine, endsLine_spec h hs (show idx < s.length by omega), ok_bind]
    by_cases hend : 1 ≤ idx ∧ CrlfAt s (idx - 1)
    · obtain ⟨j, rfl⟩ : ∃ j, idx = j + 1 := ⟨idx - 1, by omega⟩
      rw [Nat.add_sub_cancel] at hend
      refine ⟨j + 1, by simp [hend], .inr ⟨j, rfl, Nat.le_refl _, hend.2, fun i hi hle => ?_⟩⟩
      omega
    · obtain ⟨r, he, hr⟩ := @ih (idx + 1) (by omega)
      have skip : ∀ j, idx ≤ j + 1 → (idx + 1 ≤ j + 1 → ¬ CrlfAt s j) → ¬ CrlfAt s j := by
        intro j hj later
        rcases Nat.eq_or_lt_of_le hj with rfl | hlt
        · exact fun hc => hend ⟨by omega, hc⟩
        · exact later hlt
      refine ⟨r, by simpa [hend] using he, ?_⟩
      rcases hr with ⟨rfl, hnone⟩ | ⟨j, rfl, hj, hc, hfirst⟩
      · exact .inl ⟨rfl, fun j hj => skip j hj (hnone j)⟩
      · exact .inr ⟨j, rfl, by omega, hc, fun i hi hle => skip i hle (hfirst i hi)⟩

end Buffer

/-- `process` right behind `init`. -/
def start (epollfd sockfd : Int) (k : Kernel) : World where
  conn := init epollfd sockfd
  kernel := { k with calls := 0, isOpen := true }
  log := []

/-- How much of the stream the first `n` calls of `recv` bring. -/
def amount (k : Kernel) : Nat → Nat
  | 0 => 0
  | n + 1 => amount k n + match k.ready n with
    | .upTo c => min (min (c + 1) (BUFFER_SIZE - 1 - amount k n)) (k.stream.length - amount k n)
    | _ => 0

theorem amount_le (k : Kernel) (n : Nat) :
    amount k n ≤ BUFFER_SIZE - 1 ∧ amount k n ≤ k.stream.length := by
  induction n with
  | zero => simp [amount]
  | succ n ih =>
    unfold amount
    cases h : k.ready n with
    | upTo c =>
      dsimp only
      have room : min (min (c + 1) (BUFFER_SIZE - 1 - amount k n)) (k.stream.length - amount k n) ≤
          BUFFER_SIZE - 1 - amount k n := (min_le_left _ _).trans (min_le_right _ _)
      have rest : min (min (c + 1) (BUFFER_SIZE - 1 - amount k n)) (k.stream.length - amount k n) ≤
          k.stream.length - amount k n := min_le_right _ _
      generalize min (min (c + 1) (BUFFER_SIZE - 1 - amount k n)) (k.stream.length - amount k n) = more
        at room rest ⊢
      omega
    | again => simpa using ih
    | error => simpa using ih

/-- The call brings nothing, for lack of bytes or of room, or the end of the line. -/
def EndsAt (k : Kernel) (n : Nat) : Prop :=
  amount k (n + 1) = amount k n ∨ ∃ i, CrlfAt (k.stream.take (amount k (n + 1))) i

/-! ### What a caller may expect of the calls, in order -/

/-- Where a connection stands. Behind `handling` no `recv` may come, behind `waiting`
nothing, and behind `closed` no call on the socket. -/
inductive Phase where
  | reading (received : List UInt8)
  | handling
  | waiting (received : List UInt8)
  | closed

def Phase.next : Phase → Call → Option Phase
  | .reading received, .recv _ _ (.data bytes) =>
    if ∃ i < (received ++ bytes).length, CrlfAt (received ++ bytes) i then some .handling
    else some (.reading (received ++ bytes))
  | .reading received, .recv _ _ .again => some (.waiting received)
  | .reading _, .recv _ _ _ => some .handling
  | .reading _, .removefd _ _ => some .closed
  | .reading received, _ => some (.reading received)
  | .handling, .recv _ _ _ => none
  | .handling, .removefd _ _ => some .closed
  | .handling, _ => some .handling
  | .waiting _, _ => none
  | .closed, .recv _ _ _ => none
  | .closed, .removefd _ _ => none
  | .closed, .dup _ => none
  | .closed, _ => some .closed

/-- The phase behind the calls of a log, if each was in order. -/
def phase (log : List Call) : Option Phase := log.foldlM Phase.next (.reading [])

theorem phase_append (log more : List Call) :
    phase (log ++ more) = (phase log).bind fun p => more.foldlM Phase.next p :=
  List.foldlM_append

theorem next_data_line {received bytes : List UInt8} {i : Nat} (h : CrlfAt (received ++ bytes) i)
    (fd : Int) (len : Nat) :
    Phase.next (.reading received) (.recv fd len (.data bytes)) = some .handling :=
  if_pos ⟨i, Nat.lt_of_succ_lt h.lt_length, h⟩

theorem next_data_open {received bytes : List UInt8} (h : ∀ i, ¬ CrlfAt (received ++ bytes) i)
    (fd : Int) (len : Nat) : Phase.next (.reading received) (.recv fd len (.data bytes)) =
      some (.reading (received ++ bytes)) :=
  if_neg fun ⟨i, _, hi⟩ => h i hi

/-- A call other than `recv` and `printf`. -/
def acts : Call → Bool
  | .recv _ _ _ => false
  | .printf _ => false
  | _ => true

/-- The calls for a complete request line. -/
def served (epollfd sockfd : Int) (k : Kernel) (line : List UInt8) : List Call :=
  .access (cstr line) ::
    if k.access = -1 then [.removefd epollfd sockfd]
    else .fork ::
      if k.fork = -1 ∨ k.fork > 0 then [.removefd epollfd sockfd]
      else [.close 1, .dup sockfd, .execl (cstr line) (cstr line)] ++ if k.execl then [] else [.exit]

theorem served_acts (epollfd sockfd : Int) (k : Kernel) (line : List UInt8) :
    (served epollfd sockfd k line).filter acts = served epollfd sockfd k line := by
  unfold served
  split_ifs
  all_goals rfl

theorem served_in_order (epollfd sockfd : Int) (k : Kernel) (line : List UInt8) :
    ∃ p, (served epollfd sockfd k line).foldlM Phase.next .handling = some p ∧
      ∀ r, p ≠ .waiting r := by
  unfold served
  split_ifs
  all_goals exact ⟨_, rfl, fun _ => by simp⟩

@[simp] theorem conn_call (w : World) (c : Call) : (w.call c).conn = w.conn := rfl
@[simp] theorem kernel_call (w : World) (c : Call) : (w.call c).kernel = w.kernel := rfl
@[simp] theorem log_call (w : World) (c : Call) : (w.call c).log = w.log ++ [c] := rfl
@[simp] theorem content_call (w : World) (c : Call) : content (w.call c) = content w := rfl
@[simp] theorem conn_removefd (w : World) : (removefd w).conn = w.conn := rfl
@[simp] theorem log_removefd (w : World) :
    (removefd w).log = w.log ++ [.removefd w.conn.mEpollfd w.conn.mSockfd] := rfl

theorem serve_spec {w : World} {line : List UInt8} (h : Holds w.conn.mBuff 0 (line ++ [0]))
    (hline : line.length < BUFFER_SIZE) :
    ∃ w', serve w = .ok (w', false) ∧ w'.conn = w.conn ∧
      w'.log = w.log ++ served w.conn.mEpollfd w.conn.mSockfd w.kernel line := by
  have text : content w = .ok (cstr line) := content_spec h hline
  simp only [serve, content_call, kernel_call, conn_call, text, ok_bind, served]
  by_cases ha : w.kernel.access = -1
  · exact ⟨removefd (w.call _), by rw [if_pos ha]; rfl, rfl, by simp [ha]⟩
  rw [if_neg ha, if_neg ha]
  by_cases hf : w.kernel.fork = -1
  · exact ⟨removefd ((w.call _).call .fork), by rw [if_pos hf]; rfl, rfl, by simp [hf]⟩
  rw [if_neg hf]
  by_cases hp : w.kernel.fork > 0
  · exact ⟨removefd ((w.call _).call .fork), by rw [if_pos hp]; rfl, rfl, by simp [hp]⟩
  rw [if_neg hp, if_neg (not_or.mpr ⟨hf, hp⟩)]
  by_cases he : w.kernel.execl = true
  · exact ⟨_, if_pos he, rfl, by simp [he]⟩
  · exact ⟨_, if_neg he, rfl, by simp [he]⟩

/-- The index stays inside of the buffer, and the last byte is a NUL. -/
def Bounded (c : CgiConn) : Prop := c.mReadIdx ≤ BUFFER_SIZE - 1 ∧ c.mBuff (BUFFER_SIZE - 1) = 0

/-- The text is printed, and `findLine` decides whether a line is served. -/
theorem gotData_eq {w : World} {s : List UInt8} {idx ret r : Nat} (hidx : w.conn.mReadIdx = idx)
    (hlen : s.length = idx + ret) (hsize : s.length < BUFFER_SIZE)
    (holds : Holds w.conn.mBuff 0 (s ++ [0])) (hfind : findLine w.conn.mBuff ret idx = .ok r) :
    gotData w idx ret =
      if r = s.length then
        .ok ({ w with conn := { w.conn with mReadIdx := s.length } }.call (.printf (cstr s)), true)
      else (writeByte BUFFER_SIZE w.conn.mBuff (r - 1) 0).result >>= fun mBuff =>
        serve { w.call (.printf (cstr s)) with
          conn := { w.conn with mReadIdx := s.length, mBuff := mBuff } } := by
  have hread : w.conn.mReadIdx + ret = s.length := by omega
  have hret : s.length - idx = ret := by omega
  have text : content { w with conn := { w.conn with mReadIdx := s.length } } = .ok (cstr s) :=
    content_spec holds hsize
  simp only [gotData, hread, hret, text, ok_bind, conn_call, hfind]
  rfl

/-- A NUL at `j` ends the text there. -/
theorem holds_cut {m : Buffer} {s : List UInt8} (h : Holds m 0 s) {j : Nat} (hj : j < s.length) :
    Holds (Function.update m j 0) 0 (s.take j ++ [0]) := by
  have hlen : (s.take j).length = j := by
    rw [List.length_take]
    omega
  have hfront : Holds m 0 (s.take j) := by
    rw [← List.take_append_drop j s] at h
    exact (holds_append.mp h).1
  refine holds_append.mpr ⟨holds_update hfront 0 (.inr (by omega)), ?_, trivial⟩
  rw [Nat.zero_add, hlen, Function.update_self]

/-- New bytes in the buffer, which holds `s` now: the loop goes on if `s` has no CRLF, and
serves the line in front of the first one otherwise. -/
theorem gotData_spec {w : World} {s : List UInt8} {idx ret : Nat} (hidx : w.conn.mReadIdx = idx)
    (hlen : s.length = idx + ret) (hsize : s.length ≤ BUFFER_SIZE - 1)
    (holds : Holds w.conn.mBuff 0 s) (zero : ∀ q, s.length ≤ q → w.conn.mBuff q = 0)
    (old : ∀ j, j + 1 < idx → ¬ CrlfAt s j) :
    ((∀ j, ¬ CrlfAt s j) ∧ ∃ w', gotData w idx ret = .ok (w', true) ∧
      w'.conn = { w.conn with mReadIdx := s.length } ∧ w'.kernel = w.kernel ∧
      w'.log = w.log ++ [.printf (cstr s)]) ∨
    ∃ j, FirstCrlf s j ∧ ∃ w', gotData w idx ret = .ok (w', false) ∧ Bounded w'.conn ∧
      w'.log = w.log ++ .printf (cstr s) ::
        served w.conn.mEpollfd w.conn.mSockfd w.kernel (s.take j) := by
  have size : BUFFER_SIZE - 1 < BUFFER_SIZE := by decide
  have hs0 : Holds w.conn.mBuff 0 (s ++ [0]) :=
    holds_append.mpr ⟨holds, zero _ (by omega), trivial⟩
  obtain ⟨r, hfind, hr⟩ := findLine_spec holds (by omega) hlen.symm
  have hgot := gotData_eq hidx hlen (by omega) hs0 hfind
  rcases hr with ⟨rfl, hnone⟩ | ⟨j, rfl, hj, hc, hfirst⟩
  · left
    refine ⟨fun j => ?_, _, hgot.trans (if_pos rfl), rfl, rfl, rfl⟩
    by_cases hj : j + 1 < idx
    · exact old j hj
    · exact hnone j (by omega)
  · right
    have hlt := hc.lt_length
    refine ⟨j, ⟨hc, fun i hi => ?_⟩, ?_⟩
    · by_cases hle : i + 1 < idx
      · exact old i hle
      · exact hfirst i hi (by omega)
    · have hwrite : (writeByte BUFFER_SIZE w.conn.mBuff j 0).result =
          .ok (Function.update w.conn.mBuff j 0) := by
        simp only [writeByte, if_pos (show j < BUFFER_SIZE by omega)]
      have htake : (s.take j).length < BUFFER_SIZE := by
        rw [List.length_take]
        omega
      rw [if_neg (by omega), Nat.add_sub_cancel, hwrite, ok_bind] at hgot
      obtain ⟨w', hserve, hconn, hlog⟩ := serve_spec (w := { w.call (.printf (cstr s)) with
        conn := { w.conn with mReadIdx := s.length, mBuff := Function.update w.conn.mBuff j 0 } })
        (holds_cut holds (by omega)) htake
      refine ⟨w', hgot.trans hserve, ?_, ?_⟩
      · rw [hconn]
        refine ⟨hsize, ?_⟩
        change Function.update w.conn.mBuff j 0 (BUFFER_SIZE - 1) = 0
        rw [Function.update_of_ne (by omega)]
        exact zero _ hsize
      · rw [hlog]
        simp

/-! ### Rounds that read -/

section Rounds
variable {epollfd sockfd : Int} {k : Kernel} {n c : Nat} {w : World}

/-- Behind `n` calls of `recv` that ended nothing. -/
structure Reading (epollfd sockfd : Int) (k : Kernel) (n : Nat) (w : World) : Prop where
  epollfd_eq : w.conn.mEpollfd = epollfd
  sockfd_eq : w.conn.mSockfd = sockfd
  idx : w.conn.mReadIdx = amount k n
  holds : Holds w.conn.mBuff 0 (k.stream.take (amount k n))
  zero : ∀ q, amount k n ≤ q → w.conn.mBuff q = 0
  noLine : ∀ i, ¬ CrlfAt (k.stream.take (amount k n)) i
  kernel : w.kernel =
    { k with stream := k.stream.drop (amount k n), calls := n, isOpen := true }
  silent : w.log.filter acts = []
  inOrder : phase w.log = some (.reading (k.stream.take (amount k n)))

/-- Where `recv` has brought bytes which the code has not looked at yet. -/
structure Received (epollfd sockfd : Int) (k : Kernel) (n : Nat) (w : World) : Prop where
  epollfd_eq : w.conn.mEpollfd = epollfd
  sockfd_eq : w.conn.mSockfd = sockfd
  idx : w.conn.mReadIdx = amount k n
  holds : Holds w.conn.mBuff 0 (k.stream.take (amount k (n + 1)))
  zero : ∀ q, amount k (n + 1) ≤ q → w.conn.mBuff q = 0
  old : ∀ j, j + 1 < amount k n → ¬ CrlfAt (k.stream.take (amount k (n + 1))) j
  kernel : w.kernel =
    { k with stream := k.stream.drop (amount k (n + 1)), calls := n + 1, isOpen := true }
  silent : w.log.filter acts = []
  ifLine : ∀ i, CrlfAt (k.stream.take (amount k (n + 1))) i → phase w.log = some .handling
  ifOpen : (∀ i, ¬ CrlfAt (k.stream.take (amount k (n + 1))) i) →
    phase w.log = some (.reading (k.stream.take (amount k (n + 1))))

/-- Behind the call that ended the request. -/
structure Ended (epollfd sockfd : Int) (k : Kernel) (w : World) : Prop where
  bounded : Bounded w.conn
  outcome : (∃ i, i + 2 ≤ BUFFER_SIZE - 1 ∧ FirstCrlf k.stream i ∧
      w.log.filter acts = served epollfd sockfd k (k.stream.take i)) ∨
    (∀ i, i + 2 ≤ BUFFER_SIZE - 1 → ¬ CrlfAt k.stream i) ∧
      w.log.filter acts = [.removefd epollfd sockfd]
  inOrder : ∃ p, phase w.log = some p ∧ ∀ r, p ≠ .waiting r

theorem reading_start (epollfd sockfd : Int) (k : Kernel) :
    Reading epollfd sockfd k 0 (start epollfd sockfd k) := by
  refine ⟨rfl, rfl, rfl, ?_, fun _ _ => rfl, ?_, ?_, rfl, ?_⟩
  · simp [amount]
  · simp [amount, CrlfAt]
  · simp [amount, start]
  · simp [amount, phase, start]

theorem Reading.bounded (r : Reading epollfd sockfd k n w) : Bounded w.conn := by
  have h := amount_le k n
  exact ⟨r.idx ▸ h.1, r.zero _ h.1⟩

/-- The bytes of a call, where they stand in the stream. -/
theorem chunk (h : k.ready n = .upTo c) :
    let bytes := (k.stream.drop (amount k n)).take (min (c + 1) (BUFFER_SIZE - 1 - amount k n))
    amount k (n + 1) = amount k n + bytes.length ∧
      k.stream.take (amount k (n + 1)) = k.stream.take (amount k n) ++ bytes ∧
      (k.stream.drop (amount k n)).drop (min (c + 1) (BUFFER_SIZE - 1 - amount k n)) =
        k.stream.drop (amount k (n + 1)) := by
  intro bytes
  have hlen : bytes.length = min (min (c + 1) (BUFFER_SIZE - 1 - amount k n))
      (k.stream.length - amount k n) := by
    simp only [bytes, List.length_take, List.length_drop]
  have hamount : amount k (n + 1) = amount k n + bytes.length := by
    rw [amount, h, hlen]
  refine ⟨hamount, ?_, ?_⟩
  · rw [hamount, List.take_add, hlen, ← List.length_drop]
    congr 1
    exact List.take_eq_take_iff.mpr (by omega)
  · rw [hamount, ← List.drop_drop, hlen, ← List.length_drop]
    rcases Nat.le_total (min (c + 1) (BUFFER_SIZE - 1 - amount k n))
      (k.stream.drop (amount k n)).length with hle | hle
    · rw [Nat.min_eq_left hle]
    · rw [Nat.min_eq_right hle, List.drop_eq_nil_of_le hle, List.drop_eq_nil_of_le (Nat.le_refl _)]

/-- The answer of `recv` in such a round, and the kernel behind it. -/
theorem recv_reading (r : Reading epollfd sockfd k n w) (h : k.ready n = .upTo c) :
    ∃ bytes, w.kernel.recv (BUFFER_SIZE - 1 - amount k n) = (if bytes = [] then .eof else .data bytes,
        { k with stream := k.stream.drop (amount k (n + 1)), calls := n + 1, isOpen := true }) ∧
      amount k (n + 1) = amount k n + bytes.length ∧
      k.stream.take (amount k (n + 1)) = k.stream.take (amount k n) ++ bytes := by
  obtain ⟨hamount, htake, hdrop⟩ := chunk h
  refine ⟨_, ?_, hamount, htake⟩
  simp only [r.kernel, Kernel.recv, if_true, h, hdrop]

/-- Without a CRLF in the bytes received, a call that brings nothing shows that there is none
within reach. -/
theorem Reading.none_within (r : Reading epollfd sockfd k n w) (h : k.ready n = .upTo c)
    (nothing : amount k (n + 1) = amount k n) :
    ∀ i, i + 2 ≤ BUFFER_SIZE - 1 → ¬ CrlfAt k.stream i := by
  intro i hi hc
  have hlt := hc.lt_length
  refine r.noLine i ((crlfAt_take_iff _ _ _).mpr ⟨hc, ?_⟩)
  rw [amount, h] at nothing
  dsimp only at nothing
  have h0 := Nat.add_eq_left.mp nothing
  rw [Nat.min_eq_zero_iff, Nat.min_eq_zero_iff] at h0
  omega

theorem length_taken (k : Kernel) (n : Nat) : (k.stream.take (amount k n)).length = amount k n := by
  rw [List.length_take, Nat.min_eq_left (amount_le k n).2]

/-- `recv` brings bytes. -/
theorem round_received (r : Reading epollfd sockfd k n w) (h : k.ready n = .upTo c)
    (more : amount k (n + 1) ≠ amount k n) :
    ∃ w₁, Source.CgiServer.round w = gotData w₁ (amount k n) (amount k (n + 1) - amount k n) ∧
      Received epollfd sockfd k n w₁ := by
  obtain ⟨bytes, hrecv, hamount, htake⟩ := recv_reading r h
  have bound := amount_le k (n + 1)
  have hlen := length_taken k n
  have hret : amount k (n + 1) - amount k n = bytes.length := by omega
  have size : BUFFER_SIZE - 1 < BUFFER_SIZE := by decide
  rw [if_neg (by rintro rfl; exact more hamount)] at hrecv
  obtain ⟨mBuff, hstore, hnew, hother⟩ :=
    store_spec (m := w.conn.mBuff) (p := amount k n) bytes (by omega)
  refine ⟨⟨{ w.conn with mBuff := mBuff }, { k with
      stream := k.stream.drop (amount k (n + 1)), calls := n + 1, isOpen := true },
    w.log ++ [.recv w.conn.mSockfd (BUFFER_SIZE - 1 - amount k n) (.data bytes)]⟩, ?_,
    r.epollfd_eq, r.sockfd_eq, r.idx, ?_, ?_, ?_, rfl, ?_, ?_, ?_⟩
  · rw [hret]
    simp only [Source.CgiServer.round, r.idx, hrecv, World.call, hstore, ok_bind]
  · rw [htake]
    refine holds_append.mpr ⟨holds_congr r.holds fun q _ hq => hother q (.inl (by omega)), ?_⟩
    rwa [Nat.zero_add, hlen]
  · intro q hq
    exact (hother q (.inr (by omega))).trans (r.zero q (by omega))
  · intro j hj hc
    have hc := (crlfAt_take_iff _ _ _).mp hc
    exact r.noLine j ((crlfAt_take_iff _ _ _).mpr ⟨hc.1, by omega⟩)
  · simp [r.silent, acts]
  · intro i hi
    rw [htake] at hi
    simp [phase_append, r.inOrder, next_data_line hi]
  · intro hnone
    rw [htake] at hnone ⊢
    simp [phase_append, r.inOrder, next_data_open hnone]

/-- The loop goes on. -/
theorem Received.reading {w' : World} (r : Received epollfd sockfd k n w)
    (hnone : ∀ i, ¬ CrlfAt (k.stream.take (amount k (n + 1))) i)
    (hconn : w'.conn = { w.conn with mReadIdx := amount k (n + 1) }) (hkernel : w'.kernel = w.kernel)
    {text : List UInt8} (hlog : w'.log = w.log ++ [.printf text]) :
    Reading epollfd sockfd k (n + 1) w' := by
  constructor
  · rw [hconn]
    exact r.epollfd_eq
  · rw [hconn]
    exact r.sockfd_eq
  · rw [hconn]
  · rw [hconn]
    exact r.holds
  · rw [hconn]
    exact r.zero
  · exact hnone
  · rw [hkernel, r.kernel]
  · rw [hlog, List.filter_append, r.silent]
    rfl
  · rw [hlog, phase_append, r.ifOpen hnone]
    rfl

/-- The request line is complete. -/
theorem Received.ended {w' : World} {j : Nat} (r : Received epollfd sockfd k n w)
    (hfirst : FirstCrlf (k.stream.take (amount k (n + 1))) j) (hbounded : Bounded w'.conn)
    {text : List UInt8} (hlog : w'.log = w.log ++ .printf text ::
      served w.conn.mEpollfd w.conn.mSockfd w.kernel ((k.stream.take (amount k (n + 1))).take j)) :
    Ended epollfd sockfd k w' := by
  obtain ⟨hc, hmin⟩ := hfirst
  have bound := amount_le k (n + 1)
  have hc' := (crlfAt_take_iff _ _ _).mp hc
  have hserved : served w.conn.mEpollfd w.conn.mSockfd w.kernel
      ((k.stream.take (amount k (n + 1))).take j) = served epollfd sockfd k (k.stream.take j) := by
    rw [List.take_take, Nat.min_eq_left (by omega), r.kernel, r.epollfd_eq, r.sockfd_eq]
    rfl
  rw [hserved] at hlog
  refine ⟨hbounded, .inl ⟨j, by omega, ⟨hc'.1, fun i hi hci => ?_⟩, ?_⟩, ?_⟩
  · exact hmin i hi ((crlfAt_take_iff _ _ _).mpr ⟨hci, by omega⟩)
  · rw [hlog, List.filter_append, r.silent, List.filter_cons_of_neg (by simp [acts]), served_acts]
    rfl
  · obtain ⟨p, hp, hnot⟩ := served_in_order epollfd sockfd k (k.stream.take j)
    refine ⟨p, ?_, hnot⟩
    rw [hlog, phase_append, r.ifLine j hc]
    exact hp

/-- A round whose `recv` brings bytes or the end of the stream. -/
theorem round_reading (r : Reading epollfd sockfd k n w) (h : k.ready n = .upTo c) :
    (¬ EndsAt k n ∧ ∃ w', Source.CgiServer.round w = .ok (w', true) ∧
        Reading epollfd sockfd k (n + 1) w') ∨
      EndsAt k n ∧ ∃ w', Source.CgiServer.round w = .ok (w', false) ∧ Ended epollfd sockfd k w' := by
  have bound := amount_le k (n + 1)
  by_cases nothing : amount k (n + 1) = amount k n
  · right
    obtain ⟨bytes, hrecv, hamount, -⟩ := recv_reading r h
    rw [if_pos (List.length_eq_zero_iff.mp (by omega))] at hrecv
    refine ⟨.inl nothing, removefd (World.call { w with kernel := { k with
        stream := k.stream.drop (amount k (n + 1)), calls := n + 1, isOpen := true } }
      (.recv w.conn.mSockfd (BUFFER_SIZE - 1 - amount k n) .eof)), ?_, r.bounded, .inr ⟨?_, ?_⟩, ?_⟩
    · simp only [Source.CgiServer.round, r.idx, hrecv]
      rfl
    · exact r.none_within h nothing
    · simp [r.silent, acts, r.epollfd_eq, r.sockfd_eq]
    · refine ⟨.closed, ?_, fun _ => by simp⟩
      simp [phase_append, r.inOrder, Phase.next]
  · obtain ⟨w₁, hround, r₁⟩ := round_received r h nothing
    have hlen := length_taken k (n + 1)
    have hle : amount k n ≤ amount k (n + 1) := by
      rw [amount]
      omega
    have hret : (k.stream.take (amount k (n + 1))).length =
        amount k n + (amount k (n + 1) - amount k n) := by omega
    rcases gotData_spec r₁.idx hret (by omega) r₁.holds (fun q hq => r₁.zero q (by omega)) r₁.old with
      ⟨hnone, w', he, hconn, hkernel, hlog⟩ | ⟨j, hfirst, w', he, hbounded, hlog⟩
    · left
      refine ⟨?_, w', hround.trans he, r₁.reading hnone (hlen ▸ hconn) hkernel hlog⟩
      rintro (h' | ⟨i, hi⟩)
      · exact nothing h'
      · exact hnone i hi
    · right
      exact ⟨.inr ⟨j, hfirst.1⟩, w', hround.trans he, r₁.ended hfirst hbounded hlog⟩

end Rounds

/-! ### Runs -/

theorem process_add {w w' : World} {n : Nat} (h : process n w = .ok (w', true)) (m : Nat) :
    process (n + m) w = process m w' := by
  induction n generalizing w with
  | zero =>
    obtain ⟨rfl, -⟩ : w = w' ∧ true = true := by simpa [process] using h
    rw [Nat.zero_add]
  | succ n ih =>
    obtain ⟨⟨w₁, more⟩, hround, hrest⟩ := (bind_eq_ok_iff _ _ _).mp h
    rw [Nat.succ_add, process, hround, ok_bind]
    cases more with
    | true => exact ih hrest
    | false => simp at hrest

theorem process_done {w w' : World} {n : Nat} (h : process n w = .ok (w', false)) (m : Nat) :
    process (n + m) w = .ok (w', false) := by
  induction n generalizing w with
  | zero => simp [process] at h
  | succ n ih =>
    obtain ⟨⟨w₁, more⟩, hround, hrest⟩ := (bind_eq_ok_iff _ _ _).mp h
    rw [Nat.succ_add, process, hround, ok_bind]
    cases more with
    | true => exact ih hrest
    | false => exact hrest

theorem process_one {w w' : World} {more : Bool} (h : Source.CgiServer.round w = .ok (w', more)) :
    process 1 w = .ok (w', more) := by
  rw [process, h, ok_bind]
  cases more <;> rfl

section Runs
variable (epollfd sockfd : Int) {k : Kernel} {n : Nat}

/-- Calls that all bring something and end nothing keep the loop reading. -/
theorem reading_after (h : ∀ i < n, (∃ c, k.ready i = .upTo c) ∧ ¬ EndsAt k i) :
    ∃ w, process n (start epollfd sockfd k) = .ok (w, true) ∧ Reading epollfd sockfd k n w := by
  induction n with
  | zero => exact ⟨_, rfl, reading_start epollfd sockfd k⟩
  | succ n ih =>
    obtain ⟨w, hw, r⟩ := ih fun i hi => h i (by omega)
    obtain ⟨⟨c, hc⟩, goes_on⟩ := h n (by omega)
    rcases round_reading r hc with ⟨-, w', hround, r'⟩ | ⟨hend, -⟩
    · exact ⟨w', (process_add hw 1).trans (process_one hround), r'⟩
    · exact absurd hend goes_on

/-- And the first one that ends the request ends the loop. -/
theorem ended_after (h : ∀ i < n, (∃ c, k.ready i = .upTo c) ∧ ¬ EndsAt k i)
    {c : Nat} (hc : k.ready n = .upTo c) (hend : EndsAt k n) :
    ∃ w, process (n + 1) (start epollfd sockfd k) = .ok (w, false) ∧ Ended epollfd sockfd k w := by
  obtain ⟨w, hw, r⟩ := reading_after epollfd sockfd h
  rcases round_reading r hc with ⟨goes_on, -⟩ | ⟨-, w', hround, e⟩
  · exact absurd hend goes_on
  · exact ⟨w', (process_add hw 1).trans (process_one hround), e⟩

/-- A call that ends nothing brings at least a byte. -/
theorem lt_amount_succ (h : ¬ EndsAt k n) : amount k n < amount k (n + 1) := by
  have hne : amount k (n + 1) ≠ amount k n := fun e => h (.inl e)
  have hle : amount k n ≤ amount k (n + 1) := by
    rw [amount]
    omega
  omega

/-- One of the first `BUFFER_SIZE` calls ends the request. -/
theorem exists_endsAt (k : Kernel) : ∃ n < BUFFER_SIZE, EndsAt k n := by
  by_contra hnone
  have grows : ∀ n ≤ BUFFER_SIZE, n ≤ amount k n := by
    intro n hn
    induction n with
    | zero => exact Nat.zero_le _
    | succ n ih =>
      have := lt_amount_succ fun h => hnone ⟨n, hn, h⟩
      have := ih (by omega)
      omega
  have := grows BUFFER_SIZE (Nat.le_refl _)
  have := (amount_le k BUFFER_SIZE).1
  have size : BUFFER_SIZE - 1 < BUFFER_SIZE := by decide
  omega

/-- A call that fails brings nothing, so those in front of the first end all bring bytes. -/
theorem upTo_of_not_endsAt (h : ¬ EndsAt k n) : ∃ c, k.ready n = .upTo c := by
  have grows := lt_amount_succ h
  cases hr : k.ready n with
  | upTo c => exact ⟨c, rfl⟩
  | again => simp [amount, hr] at grows
  | error => simp [amount, hr] at grows

end Runs

/-! ### Rounds whose `recv` fails -/

/-- The log only grows. -/
theorem serve_log (w : World) : Ends (fun _ => True) (serve w) fun (w', _) => w.log <+: w'.log := by
  have called (v : World) (c : Call) : v.log <+: (v.call c).log := List.prefix_append _ _
  have removed (v : World) : v.log <+: (removefd v).log := List.prefix_append _ _
  cases htext : content w with
  | error e => simp [serve, htext]
  | ok text =>
    simp only [serve, htext, ok_bind, content_call]
    split
    · exact (called _ _).trans (removed _)
    · split
      · exact ((called _ _).trans (called _ _)).trans (removed _)
      · split
        · exact ((called _ _).trans (called _ _)).trans (removed _)
        · have child := (((called w (.access text)).trans (called _ .fork)).trans
            (called _ (.close 1))).trans (called _ (.dup w.conn.mSockfd))
          split
          · exact child.trans (called _ _)
          · exact (child.trans (called _ _)).trans (called _ _)

theorem ends_any {α : Type} (x : Except Fault α) : Ends (fun _ => True) x fun _ => True := by
  cases x <;> trivial

theorem gotData_log (w : World) (idx ret : Nat) :
    Ends (fun _ => True) (gotData w idx ret) fun (w', _) => w.log <+: w'.log := by
  unfold gotData
  refine (ends_any _).bind fun text _ => (ends_any _).bind fun found _ => ?_
  dsimp only
  split
  · exact List.prefix_append _ _
  · refine (ends_any _).bind fun mBuff _ => (serve_log _).mono fun _ h => ?_
    exact (List.prefix_append _ _).trans h

/-- Every round begins with a call of `recv`. -/
theorem round_log (w : World) : Ends (fun _ => True) (Source.CgiServer.round w) fun (w', _) =>
    ∃ fd len result, w.log ++ [.recv fd len result] <+: w'.log := by
  unfold Source.CgiServer.round
  dsimp only
  split
  next => exact ⟨_, _, _, List.prefix_rfl⟩
  next => exact ⟨_, _, _, List.prefix_append _ _⟩
  next => exact ⟨_, _, _, List.prefix_append _ _⟩
  next =>
    refine (ends_any _).bind fun mBuff _ => (gotData_log _ _ _).mono fun _ h => ?_
    exact ⟨_, _, _, h⟩

theorem returned_log {w w' : World} {n : Nat} (h : process n w = .ok (w', false)) :
    ∃ fd len result, w.log ++ [.recv fd len result] <+: w'.log := by
  induction n generalizing w with
  | zero => simp [process] at h
  | succ n ih =>
    obtain ⟨⟨w₁, more⟩, hround, hrest⟩ := (bind_eq_ok_iff _ _ _).mp h
    obtain ⟨fd, len, result, first⟩ := (round_log w).of_ok hround
    cases more with
    | false =>
      obtain rfl : w₁ = w' := by simpa using hrest
      exact ⟨fd, len, result, first⟩
    | true =>
      obtain ⟨_, _, _, later⟩ := ih hrest
      exact ⟨fd, len, result, first.trans ((List.prefix_append _ _).trans later)⟩

/-- To return after EAGAIN the loop has to call `recv` again. -/
theorem phase_of_waiting {w w' : World} {n : Nat} {received : List UInt8}
    (hw : phase w.log = some (.waiting received)) (h : process n w = .ok (w', false)) :
    phase w'.log = none := by
  obtain ⟨fd, len, result, rest, hlog⟩ := returned_log h
  rw [← hlog, phase_append, phase_append, hw]
  rfl

/-- With the socket closed the loop does not return. -/
theorem process_closed {w : World} (hw : w.kernel.isOpen = false) (n : Nat) :
    ∃ w', process n w = .ok (w', true) := by
  induction n generalizing w with
  | zero => exact ⟨w, rfl⟩
  | succ n ih =>
    let w₁ := removefd (w.call (.recv w.conn.mSockfd (BUFFER_SIZE - 1 - w.conn.mReadIdx) .error))
    have hround : Source.CgiServer.round w = .ok (w₁, true) := by
      simp only [Source.CgiServer.round, Kernel.recv, hw, Bool.false_eq_true, if_false]
      rfl
    obtain ⟨w', h⟩ := ih (w := w₁) rfl
    exact ⟨w', by rw [process, hround, ok_bind]; exact h⟩

section Failures
variable {epollfd sockfd : Int} {k : Kernel} {n : Nat} {w : World}

theorem round_error (r : Reading epollfd sockfd k n w) (h : k.ready n = .error) :
    ∃ w', Source.CgiServer.round w = .ok (w', true) ∧ w'.kernel.isOpen = false := by
  have hrecv : ∀ len, w.kernel.recv len = (.error, { w.kernel with calls := n + 1 }) := by
    intro len
    simp only [r.kernel, Kernel.recv, if_true, h]
  refine ⟨removefd (World.call { w with kernel := { w.kernel with calls := n + 1 } }
    (.recv w.conn.mSockfd (BUFFER_SIZE - 1 - w.conn.mReadIdx) .error)), ?_, rfl⟩
  simp only [Source.CgiServer.round, hrecv]
  rfl

theorem round_again (r : Reading epollfd sockfd k n w) (h : k.ready n = .again) :
    ∃ w', Source.CgiServer.round w = .ok (w', true) ∧
      phase w'.log = some (.waiting (k.stream.take (amount k n))) := by
  have hrecv : ∀ len, w.kernel.recv len = (.again, { w.kernel with calls := n + 1 }) := by
    intro len
    simp only [r.kernel, Kernel.recv, if_true, h]
  refine ⟨World.call { w with kernel := { w.kernel with calls := n + 1 } }
    (.recv w.conn.mSockfd (BUFFER_SIZE - 1 - w.conn.mReadIdx) .again), ?_, ?_⟩
  · simp only [Source.CgiServer.round, hrecv]
    rfl
  · rw [log_call, phase_append, r.inOrder]
    rfl

/-- Where a call fails before one has ended the request, the loop does not return, or not
without calling `recv` again after EAGAIN. -/
theorem failure_not_handled (r : Reading epollfd sockfd k n w) (h : ∀ c, k.ready n ≠ .upTo c)
    {m : Nat} {w' : World} (hreturn : process m w = .ok (w', false)) : phase w'.log = none := by
  obtain ⟨m, rfl⟩ : ∃ i, m = i + 1 := by
    cases m with
    | zero => simp [process] at hreturn
    | succ i => exact ⟨i, rfl⟩
  cases hr : k.ready n with
  | upTo c => exact absurd hr (h c)
  | error =>
    obtain ⟨w₁, hround, hclosed⟩ := round_error r hr
    obtain ⟨w₂, hrun⟩ := process_closed hclosed m
    rw [Nat.add_comm, process_add (process_one hround), hrun] at hreturn
    simp at hreturn
  | again =>
    obtain ⟨w₁, hround, hphase⟩ := round_again r hr
    rw [Nat.add_comm, process_add (process_one hround)] at hreturn
    exact phase_of_waiting hphase hreturn

end Failures
end LinuxDemo.Invariant.CgiServer
