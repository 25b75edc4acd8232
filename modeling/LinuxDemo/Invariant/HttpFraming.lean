import LinuxDemo.Invariant.HttpGrammar

/-!
# `parse_line` on a stream

The calls of `parse_line` that `parse_content` makes, apart from what it does with the
lines: whatever the functions called on a delivered line make of its bytes, the answers
are those of the stream cut at its terminators.
-/
namespace LinuxDemo.Invariant.Http
open LinuxDemo.Lib LinuxDemo.Lib.CString LinuxDemo.Source.HttpParse

/-- What a call of `parse_line` answers: the bytes from `start_line` to `checked_index` with
LINE_OK, and `checked_index` with LINE_BAD. -/
inductive Answer where
  | lineOk (delivered : List UInt8)
  | lineBad (checkedIndex : Nat)
  | lineOpen
  deriving DecidableEq, Repr

def Answer.delivered? : Answer → Option (List UInt8)
  | .lineOk delivered => some delivered
  | _ => none

/-- What is made of the buffer between two calls: anything in the delivered lines, up to
the terminating NUL of the last one. -/
structure Rewriting where
  apply : Session → Buffer
  inPlace : ∀ s p, s.startLine ≤ p + 1 → apply s p = s.buffer p

/-- The calls of `parse_line` in one call of `parse_content`, with the last answer. -/
def lineCalls (r : Rewriting) : Nat → Session → Except Fault (List Answer × Session × LineStatus)
  | 0, _ => .error .fuel
  | fuel + 1, s => do
    let (linestatus, checkedIndex, buffer) ←
      (parseLine s.buffer s.checkedIndex s.readIndex).result
    let s := { s with buffer, checkedIndex }
    match linestatus with
    | .lineOpen => return ([.lineOpen], s, .lineOpen)
    | .lineBad => return ([.lineBad s.checkedIndex], s, .lineBad)
    | .lineOk =>
      let delivered := (List.range (s.checkedIndex - s.startLine)).map fun i =>
        s.buffer (s.startLine + i)
      let s := { s with startLine := s.checkedIndex }
      let (answers, s, last) ← lineCalls r fuel { s with buffer := r.apply s }
      return (.lineOk delivered :: answers, s, last)

/-- All calls of `parse_line` on chunks that arrive; LINE_BAD ends the session. -/
def frames (r : Rewriting) (s : Session) : List (List UInt8) → Except Fault (List Answer)
  | [] => .ok []
  | chunk :: chunks => do
    let (answers, s, last) ← lineCalls r (s.readIndex + chunk.length + 1) (s.receive chunk)
    if last = .lineBad then return answers
    else return answers ++ (← frames r s chunks)

/-- A stream is clean lines and what no complete line is in front of. -/
structure Split (d : List UInt8) (lines : List (List UInt8)) (t : List UInt8) : Prop where
  eq : d = wire lines ++ t
  clean : ∀ l ∈ lines, CleanLine l
  rest : ∀ l more, lineFrame t ≠ .line l more

theorem exists_split (d : List UInt8) : ∃ lines t, Split d lines t := by
  induction hn : d.length using Nat.strongRecOn generalizing d with
  | ind n ih =>
    by_cases h : ∃ l rest, lineFrame d = .line l rest
    · obtain ⟨l, rest, hf⟩ := h
      have hlen := length_of_frame_line hf
      obtain ⟨rfl, hclean⟩ := frame_eq_line_iff.mp hf
      obtain ⟨lines, t, hs⟩ := ih rest.length (by omega) rest rfl
      refine ⟨l :: lines, t, ?_, ?_, hs.rest⟩
      · rw [wire_cons_append, ← hs.eq]
      · intro l' hl'
        rcases List.mem_cons.mp hl' with rfl | hl'
        · exact hclean
        · exact hs.clean l' hl'
    · exact ⟨[], d, rfl, by simp, fun l more hf => h ⟨l, more, hf⟩⟩

/-- What the call behind the complete lines answers, the undelivered bytes `t` beginning
at `n`. -/
def lastAnswer (n : Nat) (t : List UInt8) : Answer :=
  if lineFrame t = .bad then .lineBad (n + cleanLength CR LF t) else .lineOpen

/-- A line as it is delivered: with two NULs in place of its CRLF. -/
def answerOk (l : List UInt8) : Answer := .lineOk (l ++ [0, 0])

section Calls
variable {r : Rewriting} {s : Session} {d l t : List UInt8} {lines : List (List UInt8)}

theorem Awaiting.touched (w : Awaiting s d) : Awaiting { s with buffer := r.apply s } d :=
  w.rewrite (r.inPlace s) s.checkstate

/-- The bytes that a call with LINE_OK hands over. -/
theorem delivered_text (w : Awaiting s d) {rest : List UInt8} (hf : lineFrame d = .line l rest) :
    (List.range ((delivered s l).checkedIndex - s.startLine)).map
      (fun i => (delivered s l).buffer (s.startLine + i)) = l ++ [0, 0] := by
  obtain ⟨-, hheld⟩ := w.delivered hf
  have hlen : (delivered s l).checkedIndex - s.startLine = (l ++ [0, 0]).length := by
    simp only [delivered, List.length_append, List.length_cons, List.length_nil]
    omega
  rw [hlen]
  exact map_of_holds hheld

/-- One call of `parse_content`: the complete lines, and then LINE_BAD or LINE_OPEN. -/
theorem lineCalls_spec (w : Awaiting s (wire lines ++ t)) (clean : ∀ l ∈ lines, CleanLine l)
    (rest : ∀ l more, lineFrame t ≠ .line l more) {fuel : Nat} (hfuel : lines.length < fuel) :
    ∃ s', lineCalls r fuel s = .ok (lines.map answerOk ++
        [lastAnswer (s.startLine + (wire lines).length) t], s',
        if lineFrame t = .bad then .lineBad else .lineOpen) ∧
      s'.startLine = s.startLine + (wire lines).length ∧ (lineFrame t ≠ .bad → Awaiting s' t) := by
  induction lines generalizing s fuel with
  | nil =>
    obtain ⟨fuel, rfl⟩ : ∃ n, fuel = n + 1 := ⟨fuel - 1, by simp at hfuel; omega⟩
    have wt : Awaiting s t := w
    have spec := parseLine_spec wt
    unfold lastAnswer lineCalls
    cases hf : lineFrame t with
    | line l more => exact absurd hf (rest l more)
    | bad =>
      rw [hf] at spec
      exact ⟨{ s with checkedIndex := s.startLine + cleanLength CR LF t },
        by rw [spec.result]; rfl, rfl, fun h => absurd rfl h⟩
    | unfinished =>
      rw [hf] at spec
      obtain ⟨c, h, w'⟩ := spec
      exact ⟨{ s with checkedIndex := c }, by rw [h.result]; rfl, rfl, fun _ => w'⟩
  | cons l lines ih =>
    obtain ⟨fuel, rfl⟩ : ∃ n, fuel = n + 1 := ⟨fuel - 1, by simp at hfuel; omega⟩
    rw [wire_cons_append] at w
    have hf : lineFrame (l ++ CR :: LF :: (wire lines ++ t)) = .line l (wire lines ++ t) :=
      frame_line_of (clean l (by simp))
    have spec := parseLine_spec w
    rw [hf] at spec
    obtain ⟨w', -⟩ := w.delivered hf
    obtain ⟨s', h, hstart, hw⟩ := ih (s := { delivered s l with buffer := r.apply (delivered s l) })
      w'.touched (fun l' hl' => clean l' (by simp [hl'])) (by simpa using hfuel)
    have hpos : s.startLine + (wire (l :: lines)).length =
        (delivered s l).startLine + (wire lines).length := by
      simp only [wire, List.flatMap_cons, delivered, List.length_append, List.length_cons,
        List.length_nil]
      omega
    refine ⟨s', ?_, hstart.trans hpos.symm, hw⟩
    have first : lineCalls r (fuel + 1) s =
        (lineCalls r fuel { delivered s l with buffer := r.apply (delivered s l) } >>= fun x =>
          .ok (.lineOk ((List.range ((delivered s l).checkedIndex - s.startLine)).map fun i =>
            (delivered s l).buffer (s.startLine + i)) :: x.1, x.2)) := by
      rw [lineCalls, spec.result]
      rfl
    rw [first, h, delivered_text w hf, hpos]
    rfl

theorem wire_append (lines lines' : List (List UInt8)) :
    wire (lines ++ lines') = wire lines ++ wire lines' := List.flatMap_append

theorem length_le_wire (lines : List (List UInt8)) : lines.length ≤ (wire lines).length := by
  induction lines with
  | nil => simp
  | cons l lines ih =>
    have e : wire (l :: lines) = l ++ [CR, LF] ++ wire lines := rfl
    simp only [e, List.length_append, List.length_cons, List.length_nil]
    omega

theorem Split.append {d' : List UInt8} {lines' : List (List UInt8)} {t' : List UInt8}
    (h : Split d lines t) (h' : Split (t ++ d') lines' t') : Split (d ++ d') (lines ++ lines') t' := by
  constructor
  · rw [h.eq, List.append_assoc, h'.eq, wire_append, List.append_assoc]
  · intro l hl
    rcases List.mem_append.mp hl with hl | hl
    · exact h.clean l hl
    · exact h'.clean l hl
  · exact h'.rest

theorem Split.bad_append (h : Split d lines t) (hbad : lineFrame t = .bad) (d' : List UInt8) :
    Split (d ++ d') lines (t ++ d') := by
  refine ⟨by rw [h.eq, List.append_assoc], h.clean, fun l more hf => ?_⟩
  rw [lineFrame, frame_bad_append hbad] at hf
  cases hf

/-- What the answers say about the bytes `d` that lay undelivered at `n`. -/
structure Answers (n : Nat) (d : List UInt8) (answers : List Answer) (lines : List (List UInt8))
    (t : List UInt8) : Prop where
  split : Split d lines t
  delivered : answers.filterMap Answer.delivered? = lines.map (· ++ [0, 0])
  bad : ∀ i, .lineBad i ∈ answers ↔
    lineFrame t = .bad ∧ i = n + (wire lines).length + cleanLength CR LF t
  last : ∀ a, answers.getLast? = some a → a.delivered? = none

theorem filterMap_answerOk (lines : List (List UInt8)) :
    (lines.map answerOk).filterMap Answer.delivered? = lines.map (· ++ [0, 0]) := by
  simp [List.filterMap_map, Function.comp_def, answerOk, Answer.delivered?]

theorem not_bad_mem_answerOk (lines : List (List UInt8)) (i : Nat) :
    .lineBad i ∉ lines.map answerOk := by
  simp [answerOk]

theorem lastAnswer_delivered (n : Nat) (t : List UInt8) : (lastAnswer n t).delivered? = none := by
  unfold lastAnswer
  split <;> rfl

/-- However the bytes arrive, the answers are those of the stream. -/
theorem frames_spec (chunks : List (List UInt8)) (w : Awaiting s t)
    (hopen : lineFrame t = .unfinished)
    (hroom : s.readIndex + chunks.flatten.length ≤ bufferSize) :
    ∃ answers lines t', frames r s chunks = .ok answers ∧
      Answers s.startLine (t ++ chunks.flatten) answers lines t' := by
  induction chunks generalizing s t with
  | nil =>
    refine ⟨[], [], t, rfl, ⟨by simp [wire], by simp, fun l more hf => ?_⟩, rfl, ?_, by simp⟩
    · rw [hopen] at hf
      cases hf
    · simp [hopen]
  | cons chunk chunks ih =>
    rw [List.flatten_cons, List.length_append] at hroom
    obtain ⟨lines, t₁, hs⟩ := exists_split (t ++ chunk)
    have w₁ : Awaiting (s.receive chunk) (t ++ chunk) := w.receive (by omega)
    rw [hs.eq] at w₁
    have hfuel : lines.length < s.readIndex + chunk.length + 1 := by
      have hread := w.read
      have hlen := congrArg List.length hs.eq
      have hle := length_le_wire lines
      simp only [List.length_append] at hlen
      omega
    obtain ⟨s₁, hcalls, hstart, hw⟩ := lineCalls_spec (r := r) w₁ hs.clean hs.rest hfuel
    have hstart' : (s.receive chunk).startLine = s.startLine := rfl
    rw [hstart'] at hcalls hstart
    unfold frames
    rw [hcalls, List.flatten_cons, ← List.append_assoc]
    simp only [ok_bind]
    by_cases hbad : lineFrame t₁ = .bad
    · refine ⟨_, lines, t₁ ++ chunks.flatten, by rw [if_pos hbad, if_pos rfl]; rfl,
        hs.bad_append hbad _, ?_, fun i => ?_, fun a ha => ?_⟩
      · rw [List.filterMap_append, filterMap_answerOk]
        simp [lastAnswer_delivered]
      · rw [lineFrame, frame_bad_append hbad, cleanLength_bad_append hbad]
        simp only [List.mem_append, not_bad_mem_answerOk, false_or, List.mem_singleton, true_and]
        simp [lastAnswer, hbad]
      · simp only [List.getLast?_append, List.getLast?_singleton, Option.some_or,
          Option.some.injEq] at ha
        exact ha ▸ lastAnswer_delivered _ _
    · have hroom₁ : s₁.readIndex + chunks.flatten.length ≤ bufferSize := by
        have hread := (hw hbad).read
        have hread' := w₁.read
        simp only [List.length_append, Session.receive] at hread'
        omega
      have hopen₁ : lineFrame t₁ = .unfinished := by
        cases hf : lineFrame t₁ with
        | line l more => exact absurd hf (hs.rest l more)
        | bad => exact absurd hf hbad
        | unfinished => rfl
      obtain ⟨answers, lines', t', hframes, ha⟩ := ih (hw hbad) hopen₁ hroom₁
      refine ⟨_, lines ++ lines', t', by rw [if_neg hbad, if_neg (by decide), hframes]; rfl,
        hs.append ha.split, ?_, fun i => ?_, fun a hlast => ?_⟩
      · rw [List.filterMap_append, List.filterMap_append, filterMap_answerOk, ha.delivered]
        simp [lastAnswer_delivered]
      · have hne : ∀ n, .lineBad i ≠ lastAnswer n t₁ := by
          intro n
          simp [lastAnswer, hbad]
        simp only [List.mem_append, not_bad_mem_answerOk, List.mem_singleton, hne, false_or, ha.bad]
        rw [hstart, wire_append, List.length_append, Nat.add_assoc s.startLine]
      · cases hg : answers.getLast? with
        | none =>
          simp only [List.getLast?_append, hg, List.getLast?_singleton, Option.none_or,
            Option.some_or, Option.some.injEq] at hlast
          exact hlast ▸ lastAnswer_delivered _ _
        | some b =>
          simp only [List.getLast?_append, hg, Option.some_or, Option.some.injEq] at hlast
          exact hlast ▸ ha.last b hg

/-- What the first chunks are answered stays the beginning of the answers. -/
theorem frames_prefix (first more : List (List UInt8)) {all : List Answer}
    (h : frames r s (first ++ more) = .ok all) :
    ∃ answers later, frames r s first = .ok answers ∧ all = answers ++ later := by
  induction first generalizing s all with
  | nil => exact ⟨[], all, rfl, rfl⟩
  | cons chunk first ih =>
    rw [List.cons_append, frames] at h
    obtain ⟨⟨answers, s', last⟩, hcalls, h⟩ := (bind_eq_ok_iff _ _ _).mp h
    rw [frames, hcalls]
    simp only [ok_bind]
    dsimp only at h
    split at h
    next hbad =>
      cases h
      exact ⟨all, [], by rw [if_pos hbad]; rfl, by simp⟩
    next hgood =>
      obtain ⟨rest, hrest, h⟩ := (bind_eq_ok_iff _ _ _).mp h
      cases h
      obtain ⟨answers', later, hfirst, rfl⟩ := ih hrest
      exact ⟨answers ++ answers', later, by rw [if_neg hgood, hfirst]; rfl, by simp⟩

theorem strayAt_wire (clean : ∀ l ∈ lines, CleanLine l) (i : Nat) :
    StrayAt CR LF (wire lines ++ t) i ↔ ∃ j, i = (wire lines).length + j ∧ StrayAt CR LF t j := by
  induction lines generalizing i with
  | nil => simp [wire]
  | cons l lines ih =>
    have e : (wire (l :: lines)).length = l.length + 2 + (wire lines).length := by
      simp only [wire, List.flatMap_cons, List.length_append, List.length_cons, List.length_nil]
    rw [wire_cons_append, strayAt_line lf_ne_cr (clean l (by simp)), e]
    have ih := fun i => ih (fun l' hl' => clean l' (by simp [hl'])) i
    constructor
    · rintro ⟨j, rfl, hj⟩
      obtain ⟨k, rfl, hk⟩ := (ih j).mp hj
      exact ⟨k, by omega, hk⟩
    · rintro ⟨k, rfl, hk⟩
      exact ⟨(wire lines).length + k, by omega, (ih _).mpr ⟨k, rfl, hk⟩⟩

/-- The first stray CR or LF of a stream that is split. -/
theorem Split.firstStray_iff (h : Split d lines t) (i : Nat) : FirstStray CR LF d i ↔
    lineFrame t = .bad ∧ i = (wire lines).length + cleanLength CR LF t := by
  have first := fun j => Lib.firstStray_iff lf_ne_cr h.rest j
  rw [h.eq]
  constructor
  · rintro ⟨hi, hbefore⟩
    obtain ⟨j, rfl, hj⟩ := (strayAt_wire h.clean i).mp hi
    obtain ⟨hbad, rfl⟩ := (first j).mp ⟨hj, fun k hk hstray =>
      hbefore _ (by omega) ((strayAt_wire h.clean _).mpr ⟨k, rfl, hstray⟩)⟩
    exact ⟨hbad, rfl⟩
  · rintro ⟨hbad, rfl⟩
    obtain ⟨hj, hbefore⟩ := (first _).mpr ⟨hbad, rfl⟩
    refine ⟨(strayAt_wire h.clean _).mpr ⟨_, rfl, hj⟩, fun k hk hstray => ?_⟩
    obtain ⟨j, rfl, hlater⟩ := (strayAt_wire h.clean k).mp hstray
    exact hbefore j (by omega) hlater

end Calls

end LinuxDemo.Invariant.Http
