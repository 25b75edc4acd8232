import LinuxDemo.Source.EchoServer

/-!
# The inner loop of `echo` and the parent's descriptors

The inner loop stays in the chunk exactly if a byte of the chunk stops it. In the parent,
a round keeps the descriptors in order exactly if the descriptor it gets is the number it
closes.
-/
namespace LinuxDemo.Invariant.EchoServer
open LinuxDemo.Lib LinuxDemo.Lib.CString LinuxDemo.Lib.ReadBuffer LinuxDemo.Lib.Transcript
open LinuxDemo.Source.EchoServer

section Echo

/-- The chunk with its leading run of lower-case letters upper-cased. -/
def upperLead (data : List UInt8) : List UInt8 :=
  (data.takeWhile lower).map (· - 32) ++ data.dropWhile lower

/-- A byte of the chunk stops the inner loop. -/
def Stops (data : List UInt8) : Prop := ∃ b ∈ data, lower b = false

theorem upperLead_lower {b : UInt8} (hb : lower b = true) (rest : List UInt8) :
    upperLead (b :: rest) = (b - 32) :: upperLead rest := by
  simp [upperLead, hb]

theorem upperLead_other {b : UInt8} (hb : lower b = false) (rest : List UInt8) :
    upperLead (b :: rest) = b :: rest := by
  simp [upperLead, hb]

theorem length_upperLead (data : List UInt8) : (upperLead data).length = data.length := by
  rw [upperLead, List.length_append, List.length_map, ← List.length_append,
    List.takeWhile_append_dropWhile]

/-- The loop on a chunk with a byte that stops it. -/
theorem upcase_leads (size fuel : Nat) {data : List UInt8} (hstop : Stops data) {buf : Buffer}
    {i : Nat} (hm : Holds buf i data) (hsize : i + data.length ≤ size) (hfuel : data.length ≤ fuel) :
    ∃ buf', Traced.Leads (· < i + data.length) (upcase size buf fuel i) (pure buf') ∧
      Holds buf' i (upperLead data) ∧ ∀ p < i, buf' p = buf p := by
  induction data generalizing buf i fuel with
  | nil => simp [Stops] at hstop
  | cons b rest ih =>
    obtain ⟨rfl, hrest⟩ := hm
    simp only [List.length_cons] at hsize hfuel ⊢
    obtain ⟨fuel, rfl⟩ : ∃ k, fuel = k + 1 := ⟨fuel - 1, by omega⟩
    have read : Traced.Leads (· < i + (rest.length + 1)) (readByte size buf i) (pure (buf i)) :=
      readByte_leads (by omega) (by omega)
    cases hb : lower (buf i) with
    | true =>
      have stops : Stops rest := by simpa [Stops, hb] using hstop
      have written : Traced.Leads (· < i + (rest.length + 1))
          (writeByte size buf i (buf i - 32)) (pure (Function.update buf i (buf i - 32))) :=
        writeByte_leads _ (by omega) (by omega)
      obtain ⟨buf', loop, held, frame⟩ := ih fuel stops
        (holds_update hrest (buf i - 32) (Or.inl (Nat.lt_succ_self i))) (by omega) (by omega)
      refine ⟨buf', ?_, ?_, ?_⟩
      · rw [upcase]
        apply read.bind
        rw [if_pos hb]
        exact written.bind (loop.mono (by omega))
      · rw [upperLead_lower hb]
        exact ⟨by simp [frame i], held⟩
      · intro p hp
        rw [frame p (by omega), Function.update_of_ne (by omega)]
    | false =>
      refine ⟨buf, ?_, ?_, fun p _ => rfl⟩
      · rw [upcase]
        apply read.bind
        rw [if_neg (by simp [hb])]
        exact Traced.Leads.refl _
      · rw [upperLead_other hb]
        exact ⟨rfl, hrest⟩

/-- The loop on a chunk that nothing stops reads behind it. -/
theorem upcase_overruns (size fuel : Nat) {data : List UInt8} (hlower : ∀ b ∈ data, lower b = true)
    {buf : Buffer} {i : Nat} (hm : Holds buf i data) (hsize : i + data.length ≤ size)
    (hfuel : data.length < fuel) : i + data.length ∈ (upcase size buf fuel i).log := by
  induction data generalizing buf i fuel with
  | nil =>
    obtain ⟨fuel, rfl⟩ : ∃ k, fuel = k + 1 := ⟨fuel - 1, by omega⟩
    rw [upcase]
    exact Traced.log_subset_bind _ _ (by simp [readByte])
  | cons b rest ih =>
    obtain ⟨rfl, hrest⟩ := hm
    simp only [List.length_cons] at hsize hfuel ⊢
    obtain ⟨fuel, rfl⟩ : ∃ k, fuel = k + 1 := ⟨fuel - 1, by omega⟩
    have later := ih fuel (fun c hc => hlower c (by simp [hc]))
      (holds_update hrest (buf i - 32) (Or.inl (Nat.lt_succ_self i))) (by omega) (by omega)
    have hi : i < size := by omega
    have hb : lower (buf i) = true := hlower _ (by simp)
    have read : (readByte size buf i).result = .ok (buf i) := by simp [readByte, hi]
    have written : (writeByte size buf i (buf i - 32)).result =
        .ok (Function.update buf i (buf i - 32)) := by simp [writeByte, hi]
    rw [upcase, Traced.bind_of_ok _ read, if_pos hb, Traced.bind_of_ok _ written]
    simp only [List.mem_append]
    right
    right
    rwa [show i + (rest.length + 1) = i + 1 + rest.length by omega]

variable (env : Env)

/-- What `echo` does with a chunk. -/
def chunkCalls (data : List UInt8) : List (Call UInt8) :=
  [.read env.clifd data, .write env.clifd data, .write STDOUT_FILENO (upperLead data)]

/-- The chunks before the first hard error or the end. -/
def chunksRead {MAXLINE : Nat} : List (Read MAXLINE) → List (List UInt8)
  | .chunk data _ _ :: reads => data :: chunksRead reads
  | .interrupted :: reads => chunksRead reads
  | _ => []

/-- The calls `echo` is meant to make. -/
def transcript : List (Read env.MAXLINE) → List (Call UInt8)
  | [] => []
  | .chunk data _ _ :: reads => chunkCalls env data ++ transcript reads
  | .interrupted :: reads => .interrupted env.clifd :: transcript reads
  | .failed :: _ => [.failed env.clifd]
  | .eof :: _ => [.read env.clifd []]

/-- The inner loop stays in the chunk it is for. -/
def Inside (a : Access) : Prop := a.position < a.length

theorem written_transcript (reads : List (Read env.MAXLINE)) :
    written env.clifd (transcript env reads) = (chunksRead reads).flatten := by
  have apart := env.apart
  induction reads with
  | nil => rfl
  | cons r reads ih =>
    cases r with
    | chunk data hpos hfits =>
      simp [transcript, chunksRead, chunkCalls, Call.writes, apart.symm, ih]
    | interrupted => simp [transcript, chunksRead, Call.writes, ih]
    | failed => simp [transcript, chunksRead, Call.writes]
    | eof => simp [transcript, chunksRead, Call.writes]

theorem serveChunk_leads {data : List UInt8} (w : Worker) (hfits : data.length ≤ env.MAXLINE)
    (hstop : Stops data) :
    ∃ w', Traced.Leads Inside (serveChunk env data w) (pure w') ∧
      w'.calls = w.calls ++ chunkCalls env data := by
  obtain ⟨buf', loop, held, -⟩ := upcase_leads env.MAXLINE (env.MAXLINE + 1) hstop
    (holds_fill w.buf data) (by omega) (by omega)
  have shown : contents buf' data.length = upperLead data := by
    rw [← length_upperLead data]
    exact contents_of_holds held
  have stays : Traced.Leads Inside
      ((upcase env.MAXLINE (fill w.buf data) (env.MAXLINE + 1) 0).relabel (Access.mk data.length))
      (pure buf') :=
    (loop.mono (by simp [Inside])).relabel
  refine ⟨{ w with buf := buf', calls := w.calls ++ chunkCalls env data }, ?_, rfl⟩
  unfold serveChunk
  apply stays.bind
  rw [contents_fill, shown, List.append_assoc]
  exact Traced.Leads.refl _

theorem serveChunk_overruns {data : List UInt8} (w : Worker) (hfits : data.length ≤ env.MAXLINE)
    (hstop : ¬ Stops data) : ⟨data.length, data.length⟩ ∈ (serveChunk env data w).log := by
  have hlower : ∀ b ∈ data, lower b = true := by simpa [Stops] using hstop
  have behind := upcase_overruns env.MAXLINE (env.MAXLINE + 1) hlower
    (holds_fill w.buf data) (by omega) (by omega)
  apply Traced.log_subset_bind
  rw [Nat.zero_add] at behind
  simpa using behind

theorem echo_within_iff (w : Worker) (reads : List (Read env.MAXLINE)) :
    (echo env w reads).Within Inside ↔ ∀ data ∈ chunksRead reads, Stops data := by
  induction reads generalizing w with
  | nil => simp [echo, chunksRead, Traced.Within]
  | cons r reads ih =>
    cases r with
    | chunk data hpos hfits =>
      by_cases hstop : Stops data
      · obtain ⟨w', served, -⟩ := serveChunk_leads env w hfits hstop
        rw [echo, (served.bind_left _).within_iff, Traced.pure_bind, ih]
        simp [chunksRead, hstop]
      · have behind := serveChunk_overruns env w hfits hstop
        constructor
        · intro within
          have inside := within _ (Traced.log_subset_bind _ _ behind)
          simp [Inside] at inside
        · intro all
          exact absurd (all data (by simp [chunksRead])) hstop
    | interrupted => simpa [echo, chunksRead] using ih _
    | failed => simp [echo, chunksRead, Traced.Within]
    | eof => simp [echo, chunksRead, Traced.Within]

theorem echo_result (w : Worker) (reads : List (Read env.MAXLINE))
    (hstop : ∀ data ∈ chunksRead reads, Stops data) :
    ∃ w', (echo env w reads).result = .ok w' ∧ w'.calls = w.calls ++ transcript env reads := by
  induction reads generalizing w with
  | nil => exact ⟨w, rfl, by simp [transcript]⟩
  | cons r reads ih =>
    cases r with
    | chunk data hpos hfits =>
      obtain ⟨w₁, served, first⟩ := serveChunk_leads env w hfits (hstop data (by simp [chunksRead]))
      obtain ⟨w₂, rest, later⟩ := ih w₁ fun data hd => hstop data (by simp [chunksRead, hd])
      refine ⟨w₂, ?_, ?_⟩
      · rw [echo, (served.bind_left _).result, Traced.pure_bind, rest]
      · simp [later, first, transcript]
    | interrupted =>
      obtain ⟨w', rest, later⟩ := ih { w with calls := w.calls ++ [.interrupted env.clifd] } hstop
      exact ⟨w', rest, by simp [later, transcript]⟩
    | failed => exact ⟨_, rfl, rfl⟩
    | eof => exact ⟨_, rfl, rfl⟩

end Echo

section Main

theorem lowestFree_notMem (opened : Finset Nat) : lowestFree opened ∉ opened :=
  Nat.find_spec (Infinite.exists_notMem_finset opened)

theorem lowestFree_eq_iff {opened : Finset Nat} {fd : Nat} :
    lowestFree opened = fd ↔ fd ∉ opened ∧ ∀ n < fd, n ∈ opened := by
  simp [lowestFree, Nat.find_eq_iff]

/-- What the parent's descriptors and calls are meant to be in front of every round. -/
structure InOrder (listenfd : Nat) (p : Parent) : Prop where
  listening : listenfd ∈ p.opened
  released : ∀ fd, .accept (some fd) ∈ p.calls → fd ∉ p.opened
  closesOwn : ∀ before fd, before ++ [.close fd] <+: p.calls → .accept (some fd) ∈ before
  noFork : ∀ before, ¬ before ++ [.accept none] ++ [.fork] <+: p.calls

variable {listenfd : Nat} {p : Parent}

theorem InOrder.init {opened : Finset Nat} (h : listenfd ∈ opened) :
    InOrder listenfd (.init opened) where
  listening := h
  released := by simp [Parent.init]
  closesOwn := by simp [Parent.init]
  noFork := by simp [Parent.init]

theorem serveRound_failed (listenfd : Nat) (p : Parent) (errno : Nat) :
    serveRound listenfd p (.failed errno) = .ok { p with
      clilen := sizeofCliaddr, errno := EINTR, calls := p.calls ++ [.accept none] } := rfl

theorem serveRound_connection (h : listenfd ∈ p.opened) :
    serveRound listenfd p .connection = .ok { p with
      clilen := sizeofCliaddr
      opened := (insert (lowestFree p.opened) p.opened).erase sizeofCliaddr
      calls := p.calls ++ [.accept (some (lowestFree p.opened)), .fork, .close sizeofCliaddr] } := by
  simp [serveRound, h, forkAndClose]

theorem concat_prefix_concat_iff {α : Type} {l m : List α} {a x : α} :
    l ++ [a] <+: m ++ [x] ↔ (l = m ∧ a = x) ∨ l ++ [a] <+: m := by
  rw [List.prefix_concat_iff]
  simp

theorem InOrder.failed (h : InOrder listenfd p) (errno : Nat) :
    Total (serveRound listenfd p (.failed errno)) fun p' =>
      InOrder listenfd p' ∧ p'.opened = p.opened := by
  rw [serveRound_failed]
  refine ⟨?_, rfl⟩
  exact {
    listening := h.listening
    released := fun fd hfd => h.released fd (by simpa using hfd)
    closesOwn := fun before fd hb => by
      have old : before ++ [.close fd] <+: p.calls := by simpa [concat_prefix_concat_iff] using hb
      exact h.closesOwn before fd old
    noFork := fun before hb => by
      have old : before ++ [.accept none] ++ [.fork] <+: p.calls := by
        simpa only [concat_prefix_concat_iff, reduceCtorEq, and_false, false_or] using hb
      exact h.noFork before old }

/-- A connection on the descriptor that the round closes. -/
theorem InOrder.connection (h : InOrder listenfd p) (hfree : lowestFree p.opened = sizeofCliaddr) :
    Total (serveRound listenfd p .connection) fun p' =>
      InOrder listenfd p' ∧ p'.opened = p.opened := by
  have unused := lowestFree_notMem p.opened
  rw [hfree] at unused
  have same : (insert sizeofCliaddr p.opened).erase sizeofCliaddr = p.opened :=
    Finset.erase_insert unused
  have calls : p.calls ++ [.accept (some sizeofCliaddr), .fork, .close sizeofCliaddr] =
      p.calls ++ [.accept (some sizeofCliaddr)] ++ [.fork] ++ [.close sizeofCliaddr] := by simp
  rw [serveRound_connection h.listening, hfree, same, calls]
  refine ⟨?_, rfl⟩
  exact {
    listening := h.listening
    released := fun fd hfd => by
      have accepted : .accept (some fd) ∈ p.calls ∨ fd = sizeofCliaddr := by simpa using hfd
      rcases accepted with old | rfl
      · exact h.released fd old
      · exact unused
    closesOwn := fun before fd hb => by
      simp only [concat_prefix_concat_iff, MainCall.close.injEq, reduceCtorEq, and_false,
        false_or] at hb
      rcases hb with ⟨rfl, rfl⟩ | old
      · simp
      · exact h.closesOwn before fd old
    noFork := fun before hb => by
      simp only [concat_prefix_concat_iff, reduceCtorEq, and_false, and_true, false_or] at hb
      rcases hb with last | old
      · simp at last
      · exact h.noFork before old }

/-- A connection on any other descriptor leaves it open. -/
theorem leaks_of_connection (hl : listenfd ∈ p.opened)
    (hother : lowestFree p.opened ≠ sizeofCliaddr) {p' : Parent}
    (hp : serveRound listenfd p .connection = .ok p') : ¬ InOrder listenfd p' := by
  intro h
  rw [serveRound_connection hl] at hp
  obtain rfl := Except.ok.inj hp
  apply h.released (lowestFree p.opened)
  · simp
  · simp [hother]

theorem run_inOrder {opened : Finset Nat} (h : InOrder listenfd p) (hp : p.opened = opened)
    (ops : List Accept) (hfree : .connection ∈ ops → lowestFree opened = sizeofCliaddr) :
    Total (run (serveRound listenfd) p ops) fun p' =>
      InOrder listenfd p' ∧ p'.opened = opened := by
  induction ops generalizing p with
  | nil => exact ⟨h, hp⟩
  | cons op ops ih =>
    have next : Total (serveRound listenfd p op) fun p' =>
        InOrder listenfd p' ∧ p'.opened = opened := by
      cases op with
      | connection =>
        rw [← hp] at hfree ⊢
        exact h.connection (hfree (by simp))
      | failed errno =>
        rw [← hp]
        exact h.failed errno
    rw [run_cons]
    exact next.bind fun p' hp' => ih hp'.1 hp'.2 fun hc => hfree (by simp [hc])

end Main
end LinuxDemo.Invariant.EchoServer
