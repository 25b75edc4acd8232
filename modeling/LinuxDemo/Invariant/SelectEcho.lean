import LinuxDemo.Source.SelectEcho
import LinuxDemo.Lib.Progress
import Mathlib.Tactic.Common

/-!
# One connection from end to end

What the client reads is, in order, on its standard output, in its hand on the way there, on
the way back, in the hand of the server, on the way to it, in the client's hand and still to
be read. The two ends follow one another: the client's shutdown, the server's `close`, the
client's return.
-/
namespace LinuxDemo.Invariant.SelectEcho
open LinuxDemo.Lib LinuxDemo.Source.SelectEcho

/-- Received and not yet printed. -/
def toPrint : Client → List UInt8
  | .printing buf _ => buf
  | _ => []

/-- Read from `fp` and not yet on its way. -/
def toSend : Client → List UInt8
  | .sending rest => rest
  | _ => []

/-- In the hand of the server. -/
def toReply : Server → List UInt8
  | .replying rest => rest
  | _ => []

/-- In this round the client still reads, or sends, what comes on `fp`. -/
def readsFp : Client → Bool
  | .readingSocket fp => fp
  | .printing _ fp => fp
  | .readingFp | .sending _ => true
  | _ => false

structure Linked (env : Env) (input : List UInt8) (s : State) : Prop where
  conserved : s.stdout ++ toPrint s.client ++ s.down ++ toReply s.server ++ s.up ++
    toSend s.client ++ s.stdin = input
  upFits : s.up.length ≤ env.toServer
  downFits : s.down.length ≤ env.toClient
  sendFits : (toSend s.client).length ≤ env.MAXLINE
  replyFits : (toReply s.server).length ≤ env.MAXLINE
  fpEnd : s.stdineof = true → s.stdin = [] ∧ readsFp s.client = false
  shut : s.stdineof = true ↔ s.upEnd = true ∨ s.client = .shutting
  shutOnce : s.upEnd = true → s.client ≠ .shutting
  closed : s.downEnd = true ↔ s.server = .closed
  closedEnd : s.server = .closed → s.upEnd = true ∧ s.up = []
  ready : ∀ fp, s.client = .readingSocket fp → s.down ≠ [] ∨ s.downEnd = true
  serverReady : s.server = .reading → s.up ≠ [] ∨ s.upEnd = true
  ended : ∀ how, s.client = .ended how → how = .returned ∧ s.downEnd = true ∧ s.down = []

variable {env : Env} {input : List UInt8} {n : Nat} {s s' : State}

theorem linked_init : Linked env input (.init input) := by
  constructor <;> simp [State.init, toPrint, toSend, toReply, readsFp]

/-- The steps of the client, `n` being what the kernel decides. -/
inductive ClientMove (env : Env) (n : Nat) (s : State) : State → Prop where
  | toSocket (fp : Bool) (place : s.client = .selecting) (asked : fp = true → s.stdineof = false)
      (ready : s.down ≠ [] ∨ s.downEnd = true) :
      ClientMove env n s { s with client := .readingSocket fp }
  | toFp (place : s.client = .selecting) (more : s.stdineof = false) (quiet : s.down = []) :
      ClientMove env n s { s with client := .readingFp }
  | socketEnd (fp : Bool) (place : s.client = .readingSocket fp) (empty : s.down = [])
      (down_end : s.downEnd = true) :
      ClientMove env n s { s with client := .ended (if s.stdineof then .returned else .quit) }
  | receive (fp : Bool) (place : s.client = .readingSocket fp) (positive : 0 < n)
      (fits : n ≤ env.MAXLINE) (there : n ≤ s.down.length) :
      ClientMove env n s { s with client := .printing (s.down.take n) fp, down := s.down.drop n }
  | print (buf : List UInt8) (fp : Bool) (place : s.client = .printing buf fp) :
      ClientMove env n s { s with client := behindSocket fp, stdout := s.stdout ++ buf }
  | fpEnd (place : s.client = .readingFp) (empty : s.stdin = []) :
      ClientMove env n s { s with client := .shutting, stdineof := true }
  | readFp (place : s.client = .readingFp) (positive : 0 < n) (fits : n ≤ env.MAXLINE)
      (there : n ≤ s.stdin.length) :
      ClientMove env n s { s with client := .sending (s.stdin.take n), stdin := s.stdin.drop n }
  | sent (place : s.client = .sending []) : ClientMove env n s { s with client := .selecting }
  | send (rest : List UInt8) (place : s.client = .sending rest)
      (open_back : s.downEnd = false) (positive : 0 < n) (there : n ≤ rest.length)
      (fits : s.up.length + n ≤ env.toServer) :
      ClientMove env n s { s with client := .sending (rest.drop n), up := s.up ++ rest.take n }
  | shutdown (place : s.client = .shutting) :
      ClientMove env n s { s with client := .selecting, upEnd := true }

theorem clientSelect_moves (place : s.client = .selecting) (fp : Bool) (n : Nat) :
    Safe (clientSelect fp s) (ClientMove env n s) := by
  unfold clientSelect
  simp only
  split
  next hs =>
    obtain ⟨asked, some_ready⟩ := hs
    cases hd : decide (s.down ≠ []) || s.downEnd with
    | true => exact .toSocket fp place asked (by simpa using hd)
    | false =>
      rw [hd, Bool.false_or] at some_ready
      have quiet : s.down = [] ∧ s.downEnd = false := by simpa using hd
      rw [some_ready]
      exact .toFp place (asked some_ready) quiet.1
  next => simp

theorem clientStep_moves (fp : Bool) (n : Nat) :
    Safe (clientStep env fp n s) (ClientMove env n s) := by
  unfold clientStep
  cases place : s.client with
  | selecting => exact clientSelect_moves place fp n
  | readingSocket fp =>
    simp only
    split
    next empty =>
      split
      next down_end => exact .socketEnd fp place empty down_end
      next => simp
    next =>
      split
      next hn => exact .receive fp place hn.1 hn.2.1 hn.2.2
      next => simp
  | printing buf fp => exact .print buf fp place
  | readingFp =>
    simp only
    split
    next empty => exact .fpEnd place empty
    next =>
      split
      next hn => exact .readFp place hn.1 hn.2.1 hn.2.2
      next => simp
  | sending rest =>
    cases rest with
    | nil => exact .sent place
    | cons b rest =>
      simp only
      split
      next hn => exact .send (b :: rest) place hn.1 hn.2.1 hn.2.2.1 hn.2.2.2
      next => simp
  | shutting => exact .shutdown place
  | ended how => simp

/-- The steps of the server, `n` being what the kernel decides. -/
inductive ServerMove (env : Env) (n : Nat) (s : State) : State → Prop where
  | look (place : s.server = .selecting) (work : s.up ≠ [] ∨ s.upEnd = true) :
      ServerMove env n s { s with server := .reading }
  | close (place : s.server = .reading) (empty : s.up = []) (up_end : s.upEnd = true) :
      ServerMove env n s { s with server := .closed, downEnd := true }
  | receive (place : s.server = .reading) (positive : 0 < n) (fits : n ≤ env.MAXLINE)
      (there : n ≤ s.up.length) :
      ServerMove env n s { s with server := .replying (s.up.take n), up := s.up.drop n }
  | replied (place : s.server = .replying []) : ServerMove env n s { s with server := .selecting }
  | reply (rest : List UInt8) (place : s.server = .replying rest) (positive : 0 < n)
      (there : n ≤ rest.length) (fits : s.down.length + n ≤ env.toClient) :
      ServerMove env n s { s with
        server := .replying (rest.drop n)
        down := s.down ++ rest.take n }

theorem serverStep_moves (n : Nat) : Safe (serverStep env n s) (ServerMove env n s) := by
  unfold serverStep
  cases place : s.server with
  | selecting =>
    simp only
    split
    next work => exact .look place work
    next => simp
  | reading =>
    simp only
    split
    next empty =>
      split
      next up_end => exact .close place empty up_end
      next => simp
    next =>
      split
      next hn => exact .receive place hn.1 hn.2.1 hn.2.2
      next => simp
  | replying rest =>
    cases rest with
    | nil => exact .replied place
    | cons b rest =>
      simp only
      split
      next hn => exact .reply (b :: rest) place hn.1 hn.2.1 hn.2.2
      next => simp
  | closed => simp

theorem ClientMove.linked (move : ClientMove env n s s') (h : Linked env input s) :
    Linked env input s' := by
  have old := h.conserved
  cases move with
  | toSocket fp place asked ready =>
    exact { h with
      conserved := by simpa [place, toPrint, toSend] using old
      sendFits := by simp [toSend]
      fpEnd := fun at_end =>
        ⟨(h.fpEnd at_end).1, Bool.eq_false_iff.mpr fun sets => by simp [asked sets] at at_end⟩
      shut := by simpa [place] using h.shut
      shutOnce := by simp
      ready := fun _ _ => ready
      ended := by simp }
  | toFp place more quiet =>
    exact { h with
      conserved := by simpa [place, toPrint, toSend] using old
      sendFits := by simp [toSend]
      fpEnd := by simp [more]
      shut := by simpa [place] using h.shut
      shutOnce := by simp
      ready := by simp
      ended := by simp }
  | socketEnd fp place empty down_end =>
    have closed := h.closed.mp down_end
    have at_end : s.stdineof = true := h.shut.mpr (.inl (h.closedEnd closed).1)
    exact { h with
      conserved := by simpa [place, toPrint, toSend] using old
      sendFits := by simp [toSend]
      fpEnd := fun at_end => ⟨(h.fpEnd at_end).1, rfl⟩
      shut := by simpa [place] using h.shut
      shutOnce := by simp
      ready := by simp
      ended := fun how hc => ⟨by simpa [at_end] using hc.symm, down_end, empty⟩ }
  | receive fp place positive fits there =>
    have downFits := h.downFits
    exact { h with
      conserved := by simpa [place, toPrint, toSend] using old
      downFits := by simp only [List.length_drop]; omega
      sendFits := by simp [toSend]
      fpEnd := by simpa [place, readsFp] using h.fpEnd
      shut := by simpa [place] using h.shut
      shutOnce := by simp
      ready := by simp
      ended := by simp }
  | print buf fp place =>
    cases fp
    all_goals
      exact { h with
        conserved := by simpa [place, behindSocket, toPrint, toSend] using old
        sendFits := by simp [behindSocket, toSend]
        fpEnd := by simpa [place, behindSocket, readsFp] using h.fpEnd
        shut := by simpa [place, behindSocket] using h.shut
        shutOnce := by simp [behindSocket]
        ready := by simp [behindSocket]
        ended := by simp [behindSocket] }
  | fpEnd place empty =>
    have more : s.stdineof ≠ true := fun at_end => by simpa [place, readsFp] using h.fpEnd at_end
    exact { h with
      conserved := by simpa [place, toPrint, toSend] using old
      sendFits := by simp [toSend]
      fpEnd := fun _ => ⟨empty, rfl⟩
      shut := by simp
      shutOnce := fun up_end => absurd (h.shut.mpr (.inl up_end)) more
      ready := by simp
      ended := by simp }
  | readFp place positive fits there =>
    exact { h with
      conserved := by simpa [place, toPrint, toSend] using old
      sendFits := Nat.le_trans (List.length_take_le n s.stdin) fits
      fpEnd := fun at_end => by simpa [place, readsFp] using h.fpEnd at_end
      shut := by simpa [place] using h.shut
      shutOnce := by simp
      ready := by simp
      ended := by simp }
  | sent place =>
    exact { h with
      conserved := by simpa [place, toPrint, toSend] using old
      sendFits := by simp [toSend]
      fpEnd := fun at_end => ⟨(h.fpEnd at_end).1, rfl⟩
      shut := by simpa [place] using h.shut
      shutOnce := by simp
      ready := by simp
      ended := by simp }
  | send rest place open_back positive there fits =>
    have sendFits := h.sendFits
    rw [place, toSend] at sendFits
    exact { h with
      conserved := by
        simpa [place, toPrint, toSend, List.append_assoc, ← List.append_assoc (List.take n rest)]
          using old
      upFits := by simp only [List.length_append, List.length_take]; omega
      sendFits := by simp only [toSend, List.length_drop]; omega
      fpEnd := fun at_end => by simpa [place, readsFp] using h.fpEnd at_end
      shut := by simpa [place] using h.shut
      shutOnce := by simp
      closedEnd := fun closed => by simp [h.closed.mpr closed] at open_back
      ready := by simp
      serverReady := fun reading => (h.serverReady reading).imp_left (by simp +contextual)
      ended := by simp }
  | shutdown place =>
    have at_end : s.stdineof = true := h.shut.mpr (.inr place)
    exact { h with
      conserved := by simpa [place, toPrint, toSend] using old
      sendFits := by simp [toSend]
      fpEnd := fun at_end => ⟨(h.fpEnd at_end).1, rfl⟩
      shut := by simp [at_end]
      shutOnce := by simp
      closedEnd := fun closed => ⟨rfl, (h.closedEnd closed).2⟩
      ready := by simp
      serverReady := fun _ => .inr rfl
      ended := by simp }

theorem ServerMove.linked (move : ServerMove env n s s') (h : Linked env input s) :
    Linked env input s' := by
  have old := h.conserved
  cases move with
  | look place work =>
    exact { h with
      conserved := by simpa [place, toReply] using old
      replyFits := by simp [toReply]
      closed := by simpa [place] using h.closed
      closedEnd := by simp
      serverReady := fun _ => work }
  | close place empty up_end =>
    exact { h with
      conserved := by simpa [place, toReply] using old
      replyFits := by simp [toReply]
      closed := by simp
      closedEnd := fun _ => ⟨up_end, empty⟩
      ready := fun _ _ => .inr rfl
      serverReady := by simp
      ended := fun how hc => (h.ended how hc).imp_right fun e => ⟨rfl, e.2⟩ }
  | receive place positive fits there =>
    have upFits := h.upFits
    exact { h with
      conserved := by
        simpa [place, toReply, List.append_assoc, ← List.append_assoc (List.take n s.up)] using old
      upFits := by simp only [List.length_drop]; omega
      replyFits := Nat.le_trans (List.length_take_le n s.up) fits
      closed := by simpa [place] using h.closed
      closedEnd := by simp
      serverReady := by simp }
  | replied place =>
    exact { h with
      conserved := by simpa [place, toReply] using old
      replyFits := by simp [toReply]
      closed := by simpa [place] using h.closed
      closedEnd := by simp
      serverReady := by simp }
  | reply rest place positive there fits =>
    have replyFits := h.replyFits
    rw [place, toReply] at replyFits
    exact { h with
      conserved := by
        simpa [place, toReply, List.append_assoc, ← List.append_assoc (List.take n rest)] using old
      downFits := by simp only [List.length_append, List.length_take]; omega
      replyFits := by simp only [toReply, List.length_drop]; omega
      closed := by simpa [place] using h.closed
      closedEnd := by simp
      ready := fun fp hc => (h.ready fp hc).imp_left (by simp +contextual)
      serverReady := by simp
      ended := fun how hc => by simpa [place] using h.closed.mp (h.ended how hc).2.1 }

theorem step_linked (s : State) (op : Op) (h : Linked env input s) :
    Safe (step env s op) (Linked env input) := by
  cases op with
  | client fp n => exact (clientStep_moves fp n).mono fun _ move => move.linked h
  | server n => exact (serverStep_moves n).mono fun _ move => move.linked h

theorem run_linked (input : List UInt8) (ops : List Op) :
    Safe (run (step env) (.init input) ops) (Linked env input) :=
  run_ends _ step_linked linked_init ops

def clientTodo : Client → Nat
  | .selecting => 6
  | .readingSocket _ => 5
  | .printing _ _ => 7
  | .readingFp => 3
  | .sending _ => 7
  | .shutting => 2
  | .ended _ => 0

def serverTodo : Server → Nat
  | .selecting => 3
  | .reading => 2
  | .replying _ => 4
  | .closed => 0

/-- Every byte has so far to go, and the shutdown is to come. -/
def todo (s : State) : Nat :=
  clientTodo s.client + serverTodo s.server + (if s.upEnd then 0 else 10) + 15 * s.stdin.length +
    9 * (toSend s.client).length + 8 * s.up.length + 5 * (toReply s.server).length +
    4 * s.down.length

theorem ClientMove.lowers (h : Linked env input s)
    (move : ClientMove env n s s') : todo s' < todo s := by
  cases move with
  | receive fp place positive fits there =>
    simp only [todo, place, clientTodo, toSend, List.length_drop]
    omega
  | print buf fp place => cases fp <;> simp [todo, place, behindSocket, clientTodo, toSend]
  | readFp place some_bytes fits there =>
    simp only [todo, place, clientTodo, toSend, List.length_nil, List.length_take, List.length_drop]
    omega
  | send rest place open_back some_bytes there fits =>
    simp only [todo, place, clientTodo, toSend, List.length_append, List.length_take,
      List.length_drop]
    omega
  | shutdown place =>
    have up_open : s.upEnd = false := by simpa [place] using h.shutOnce
    simp [todo, place, up_open, clientTodo, toSend]
    omega
  | toSocket fp place | toFp place | socketEnd fp place | fpEnd place | sent place =>
    simp [todo, place, clientTodo, toSend]

theorem ServerMove.lowers (move : ServerMove env n s s') : todo s' < todo s := by
  cases move with
  | receive place positive fits there =>
    simp only [todo, place, serverTodo, toReply, List.length_nil, List.length_take, List.length_drop]
    omega
  | reply rest place some_bytes there fits =>
    simp only [todo, place, serverTodo, toReply, List.length_append, List.length_take,
      List.length_drop]
    omega
  | look place | close place | replied place => simp [todo, place, serverTodo, toReply]

/-- How many bytes the client may still send before it reads from the socket again. -/
def owed (env : Env) : Client → Option Nat
  | .printing _ true | .readingFp => some env.MAXLINE
  | .sending rest => some rest.length
  | _ => none

/-- Both directions hold a whole buffer. -/
def Roomy (env : Env) : Prop := env.MAXLINE ≤ env.toServer ∧ env.MAXLINE ≤ env.toClient

/-- While the client sends, there is room for what the server has in hand, or for what the
client has. The second is so as soon as the server has read anything. -/
def Room (env : Env) (s : State) : Prop :=
  ∀ k, owed env s.client = some k →
    (toReply s.server).length + s.down.length ≤ env.toClient ∨ s.up.length + k ≤ env.toServer

theorem ClientMove.room (roomy : Roomy env) (h : Linked env input s) (room : Room env s)
    (whole : ∀ fp, s.client = .readingSocket fp → s.down = [] ∨ n = min env.MAXLINE s.down.length)
    (move : ClientMove env n s s') : Room env s' := by
  obtain ⟨up_holds, down_holds⟩ := roomy
  have replyFits := h.replyFits
  intro k hk
  cases move with
  | toFp place more quiet =>
    left
    simp only [quiet, List.length_nil]
    omega
  | receive fp place positive fits there =>
    have downFits := h.downFits
    have all := (whole fp place).resolve_left (List.length_pos_iff.mp (by omega))
    left
    simp only [List.length_drop]
    omega
  | print buf fp place =>
    cases fp with
    | true => exact room k (by simpa [place, behindSocket, owed] using hk)
    | false => simp [behindSocket, owed] at hk
  | readFp place positive fits there =>
    obtain rfl : n = k := by simpa [owed, there] using hk
    exact (room env.MAXLINE (by simp [place, owed])).imp_right fun wide => by simp only; omega
  | send rest place open_back some_bytes there fits =>
    simp only [owed, List.length_drop, Option.some.injEq] at hk
    refine (room rest.length (by simp [place, owed])).imp_right fun wide => ?_
    simp only [List.length_append, List.length_take]
    omega
  | toSocket | socketEnd | fpEnd | sent | shutdown => simp [owed] at hk

theorem Linked.owed_le (h : Linked env input s) {k : Nat} (hk : owed env s.client = some k) :
    k ≤ env.MAXLINE := by
  have sendFits := h.sendFits
  cases hc : s.client with
  | printing buf fp => cases fp <;> simp_all [owed]
  | readingFp => simp_all [owed]
  | sending rest => simp_all [owed, toSend]
  | selecting | readingSocket | shutting | ended => simp [hc, owed] at hk

theorem ServerMove.room (roomy : Roomy env) (h : Linked env input s) (room : Room env s)
    (whole : s.server = .reading → s.up = [] ∨ n = min env.MAXLINE s.up.length)
    (move : ServerMove env n s s') : Room env s' := by
  have up_holds := roomy.1
  have upFits := h.upFits
  cases move with
  | receive place positive fits there =>
    intro k hk
    have owes := h.owed_le hk
    have all := (whole place).resolve_left (List.length_pos_iff.mp (by omega))
    right
    simp only [List.length_drop]
    omega
  | reply rest place some_bytes there fits =>
    intro k hk
    refine (room k hk).imp_left fun free => ?_
    simp only [place, toReply] at free
    simp only [toReply, List.length_drop, List.length_append, List.length_take]
    omega
  | look place | close place | replied place =>
    intro k hk
    simpa [place, toReply] using room k hk

/-- The end that is reached if all goes well. -/
def Echoed (input : List UInt8) (s : State) : Prop :=
  s.client = .ended .returned ∧ s.server = .closed ∧ s.stdout = input

/-- A client that has come to its end leaves nothing behind. -/
theorem Linked.echoed (h : Linked env input s) {how : Outcome} (hc : s.client = .ended how) :
    Echoed input s := by
  obtain ⟨rfl, down_end, down_empty⟩ := h.ended how hc
  have closed := h.closed.mp down_end
  obtain ⟨up_end, up_empty⟩ := h.closedEnd closed
  have stdin_empty := (h.fpEnd (h.shut.mpr (.inl up_end))).1
  refine ⟨hc, closed, ?_⟩
  simpa [hc, closed, toPrint, toSend, toReply, down_empty, up_empty, stdin_empty] using h.conserved

/-- What a step can do it can do with a `read` that gives all there is. -/
theorem wholeStep_ok {op : Op} (h : wholeStep env s op = .ok s') :
    wholeRead env s op = true ∧ step env s op = .ok s' := by
  unfold wholeStep at h
  split at h
  next whole => exact ⟨whole, h⟩
  next => cases h

/-- A buffer of one byte leaves no choice. -/
theorem wholeStep_of_single (single : env.MAXLINE = 1) {op : Op} (h : step env s op = .ok s') :
    wholeStep env s op = .ok s' := by
  suffices whole : wholeRead env s op = true from (if_pos whole).trans h
  cases op with
  | client fp n =>
    cases hc : s.client with
    | readingSocket fp =>
      simp only [step, clientStep, hc] at h
      simp only [wholeRead, hc, decide_eq_true_eq, or_iff_not_imp_left]
      intro some_down
      rw [if_neg some_down] at h
      split at h
      next hn => omega
      next => cases h
    | selecting | printing | readingFp | sending | shutting | ended => simp [wholeRead, hc]
  | server n =>
    cases hr : s.server with
    | reading =>
      simp only [step, serverStep, hr] at h
      simp only [wholeRead, hr, decide_eq_true_eq, or_iff_not_imp_left]
      intro some_up
      rw [if_neg some_up] at h
      split at h
      next hn => omega
      next => cases h
    | selecting | replying | closed => simp [wholeRead, hr]

theorem wholeStep_eq {op : Op} (h : wholeRead env s op = true) : wholeStep env s op = step env s op :=
  if_pos h

/-- The server can move unless it has nothing to do, or no room. -/
theorem server_moves (h : Linked env input s) (running : s.server ≠ .closed)
    (work : s.server = .selecting → s.up ≠ [] ∨ s.upEnd = true)
    (room : toReply s.server ≠ [] → s.down.length < env.toClient) :
    ∃ n s', wholeStep env s (.server n) = .ok s' := by
  cases hs : s.server with
  | selecting => exact ⟨0, by simp [wholeStep, wholeRead, step, serverStep, hs, work hs]⟩
  | reading =>
    refine ⟨min env.MAXLINE s.up.length, ?_⟩
    rw [wholeStep_eq (by simp [wholeRead, hs])]
    simp only [step, serverStep, hs]
    by_cases empty : s.up = []
    · have up_end := (h.serverReady hs).resolve_left fun left => left empty
      simp [empty, up_end]
    · have some_up := List.length_pos_iff.mpr empty
      have positive := env.positive
      rw [if_neg empty, if_pos (by omega)]
      exact ⟨_, rfl⟩
  | closed => exact absurd hs running
  | replying rest =>
    cases rest with
    | nil => exact ⟨0, by simp [wholeStep, wholeRead, step, serverStep, hs]⟩
    | cons b rest =>
      have free := room (by simp [hs, toReply])
      refine ⟨1, ?_⟩
      rw [wholeStep_eq (by simp [wholeRead, hs])]
      simp only [step, serverStep, hs]
      exact ⟨_, if_pos ⟨by omega, by simp, by omega⟩⟩

/-- The client can move unless it waits for the server. -/
theorem client_moves (h : Linked env input s) (running : ∀ how, s.client ≠ .ended how)
    (work : s.client = .selecting → s.stdineof = false ∨ s.down ≠ [] ∨ s.downEnd = true)
    (room : toSend s.client ≠ [] → s.up.length < env.toServer) :
    ∃ fp n s', wholeStep env s (.client fp n) = .ok s' := by
  have positive := env.positive
  cases hc : s.client with
  | selecting =>
    simp only [wholeStep, wholeRead, step, clientStep, hc, if_true, clientSelect]
    rcases work hc with more | ready
    · exact ⟨true, 0, _, if_pos (by simp [more])⟩
    · exact ⟨false, 0, _, if_pos (by simpa using ready)⟩
  | readingSocket fp =>
    refine ⟨fp, min env.MAXLINE s.down.length, ?_⟩
    rw [wholeStep_eq (by simp [wholeRead, hc])]
    simp only [step, clientStep, hc]
    by_cases empty : s.down = []
    · have down_end := (h.ready fp hc).resolve_left fun left => left empty
      simp [empty, down_end]
    · have some_down := List.length_pos_iff.mpr empty
      rw [if_neg empty, if_pos (by omega)]
      exact ⟨_, rfl⟩
  | printing buf fp => exact ⟨fp, 0, by simp [wholeStep, wholeRead, step, clientStep, hc]⟩
  | readingFp =>
    refine ⟨false, 1, ?_⟩
    rw [wholeStep_eq (by simp [wholeRead, hc])]
    simp only [step, clientStep, hc]
    by_cases empty : s.stdin = []
    · simp [empty]
    · have some_left := List.length_pos_iff.mpr empty
      rw [if_neg empty, if_pos ⟨by omega, by omega, by omega⟩]
      exact ⟨_, rfl⟩
  | sending rest =>
    cases rest with
    | nil => exact ⟨false, 0, by simp [wholeStep, wholeRead, step, clientStep, hc]⟩
    | cons b rest =>
      have free := room (by simp [hc, toSend])
      have open_back : s.downEnd = false := by
        by_contra down_end
        have closed := h.closed.mp (by simpa using down_end)
        have at_end := h.shut.mpr (.inl (h.closedEnd closed).1)
        simpa [hc, readsFp] using h.fpEnd at_end
      refine ⟨false, 1, ?_⟩
      rw [wholeStep_eq (by simp [wholeRead, hc])]
      simp only [step, clientStep, hc]
      exact ⟨_, if_pos ⟨open_back, by omega, by simp, by omega⟩⟩
  | shutting => exact ⟨false, 0, by simp [wholeStep, wholeRead, step, clientStep, hc]⟩
  | ended how => exact absurd hc (running how)

/-- Both are in their `write`, and there is no room for either. -/
structure Deadlocked (env : Env) (s : State) : Prop where
  sends : toSend s.client ≠ []
  upFull : s.up.length = env.toServer
  replies : toReply s.server ≠ []
  downFull : s.down.length = env.toClient

theorem Deadlocked.stuck (h : Deadlocked env s) : Stuck (step env) s := by
  obtain ⟨sends, up_full, replies, down_full⟩ := h
  intro op s' hs
  cases op with
  | client fp n =>
    cases hc : s.client with
    | sending rest =>
      cases rest with
      | nil => simp [hc, toSend] at sends
      | cons b rest =>
        simp only [step, clientStep, hc] at hs
        split at hs
        next hn => omega
        next => cases hs
    | selecting | readingSocket | printing | readingFp | shutting | ended =>
      simp [hc, toSend] at sends
  | server n =>
    cases hr : s.server with
    | replying rest =>
      cases rest with
      | nil => simp [hr, toReply] at replies
      | cons b rest =>
        simp only [step, serverStep, hr] at hs
        split at hs
        next hn => omega
        next => cases hs
    | selecting | reading | closed => simp [hr, toReply] at replies

/-- Where nobody can move, the client has come to its end, or both are held up. -/
theorem ended_or_deadlocked (h : Linked env input s) (stuck : Stuck (wholeStep env) s) :
    (∃ how, s.client = .ended how) ∨ Deadlocked env s := by
  by_contra hrun
  obtain ⟨hrun, hfree⟩ := not_or.mp hrun
  have running : ∀ how, s.client ≠ .ended how := fun how hc => hrun ⟨how, hc⟩
  have server_waits : s.server ≠ .closed → (s.up ≠ [] ∨ s.upEnd = true) →
      ¬ (toReply s.server ≠ [] → s.down.length < env.toClient) := by
    intro open_end work free
    obtain ⟨n, s', hs⟩ := server_moves h open_end (fun _ => work) free
    exact stuck (.server n) s' hs
  by_cases waits : s.client = .selecting ∧ s.stdineof = true ∧ s.down = [] ∧ s.downEnd = false
  · -- everything is sent: the server is still to see that
    obtain ⟨hc, at_end, down_empty, down_open⟩ := waits
    have up_end : s.upEnd = true := (h.shut.mp at_end).resolve_right (by simp [hc])
    refine server_waits (fun hs => ?_) (.inr up_end) fun _ => by simp [down_empty, env.someBack]
    simp [h.closed.mpr hs] at down_open
  by_cases full : toSend s.client ≠ [] ∧ env.toServer ≤ s.up.length
  · -- the way to the server is full: it has something to read
    obtain ⟨sends, up_full⟩ := full
    have up_some : s.up ≠ [] := List.length_pos_iff.mp (Nat.lt_of_lt_of_le env.someUp up_full)
    refine server_waits (fun hs => up_some (h.closedEnd hs).2) (.inl up_some) fun replies => ?_
    by_contra down_full
    exact hfree ⟨sends, Nat.le_antisymm h.upFits up_full, replies,
      Nat.le_antisymm h.downFits (Nat.le_of_not_lt down_full)⟩
  · have work : s.client = .selecting → s.stdineof = false ∨ s.down ≠ [] ∨ s.downEnd = true := by
      intro hc
      by_contra none
      exact waits ⟨hc, by simpa using none⟩
    have free : toSend s.client ≠ [] → s.up.length < env.toServer := by
      intro sends
      by_contra room
      exact full ⟨sends, Nat.le_of_not_lt room⟩
    obtain ⟨fp, n, s', hs⟩ := client_moves h running work free
    exact stuck (.client fp n) s' hs

/-- What is held up is more than the connection holds. -/
theorem Deadlocked.length_lt (h : Linked env input s) (dead : Deadlocked env s) :
    env.toServer + env.toClient + 1 < input.length := by
  have sends := List.length_pos_iff.mpr dead.sends
  have replies := List.length_pos_iff.mpr dead.replies
  have up_full := dead.upFull
  have down_full := dead.downFull
  rw [← h.conserved]
  simp only [List.length_append]
  omega

/-- A client that sends is not held up together with the server. -/
theorem Deadlocked.not_room (dead : Deadlocked env s) : ¬ Room env s := by
  have sends := List.length_pos_iff.mpr dead.sends
  have replies := List.length_pos_iff.mpr dead.replies
  have up_full := dead.upFull
  have down_full := dead.downFull
  have hk : owed env s.client = some (toSend s.client).length := by
    cases hc : s.client with
    | sending rest => rfl
    | selecting | readingSocket | printing | readingFp | shutting | ended =>
      simp [hc, toSend] at sends
  intro room
  rcases room _ hk with fits | fits <;> omega

theorem step_lowers (h : Linked env input s) {op : Op} (hs : step env s op = .ok s') :
    todo s' < todo s := by
  cases op with
  | client fp n => exact ((clientStep_moves fp n).of_ok hs).lowers h
  | server n => exact ((serverStep_moves n).of_ok hs).lowers

/-- An input that the connection holds, with a byte in a hand, is always echoed. -/
theorem run_completes (short : input.length ≤ env.toServer + env.toClient + 1) :
    Completes (step env) (.init input) (Echoed input) := by
  refine Completes.of_measure (I := Linked env input) todo ?_ ?_ linked_init
  · intro s op s' h hs
    exact ⟨(step_linked s op h).of_ok hs, step_lowers h hs⟩
  · intro s h stuck
    have still : Stuck (wholeStep env) s := fun op s' hs => stuck op s' (wholeStep_ok hs).2
    rcases ended_or_deadlocked h still with ⟨how, hc⟩ | dead
    · exact h.echoed hc
    · have := dead.length_lt h
      omega

/-- With room for a whole buffer either way, and a `read` giving all there is, every schedule
ends with everything echoed. -/
theorem whole_run_completes (roomy : Roomy env) (input : List UInt8) :
    Completes (wholeStep env) (.init input) (Echoed input) := by
  refine Completes.of_measure (I := fun s => Linked env input s ∧ Room env s) todo ?_ ?_
    ⟨linked_init, by simp [Room, State.init, owed]⟩
  · rintro s op s' ⟨h, room⟩ hs
    obtain ⟨whole, hs⟩ := wholeStep_ok hs
    refine ⟨⟨(step_linked s op h).of_ok hs, ?_⟩, step_lowers h hs⟩
    cases op with
    | client fp n =>
      refine ((clientStep_moves fp n).of_ok hs).room roomy h room fun fp' hc => ?_
      simpa [wholeRead, hc] using whole
    | server n =>
      refine ((serverStep_moves n).of_ok hs).room roomy h room fun hr => ?_
      simpa [wholeRead, hr] using whole
  · rintro s ⟨h, room⟩ stuck
    rcases ended_or_deadlocked h stuck with ⟨how, hc⟩ | dead
    · exact h.echoed hc
    · exact absurd room dead.not_room

end LinuxDemo.Invariant.SelectEcho
