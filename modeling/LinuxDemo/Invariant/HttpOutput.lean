import LinuxDemo.Source.HttpOutput
import LinuxDemo.Invariant.HttpGrammar

/-!
# What a session tells

The loops with their output end as those without it. A request line that is accepted and
the header lines behind it are reported one by one, however they arrive.
-/
namespace LinuxDemo.Invariant.Http
open LinuxDemo.Lib LinuxDemo.Lib.CString LinuxDemo.Source.HttpParse

section Forget

/-- Without what was told. -/
def dropTold (r : HttpCode × List Told × Session) : HttpCode × Session := (r.1, r.2.2)

theorem parseContentLoopTold_drop (fuel : Nat) (told : List Told) (s : Session) :
    (parseContentLoopTold fuel told s).result.map dropTold = (parseContentLoop fuel s).result := by
  induction fuel generalizing told s with
  | zero => rfl
  | succ n ih =>
    unfold parseContentLoopTold parseContentLoop
    apply Traced.map_result_bind
    rintro ⟨output, next⟩
    cases next with
    | inl s' => exact ih _ _
    | inr ended => rfl

theorem parseContentTold_drop (told : List Told) (s : Session) :
    (parseContentTold told s).result.map dropTold = (parseContent s).result :=
  parseContentLoopTold_drop _ told s

/-- The receive loop behind one call of `parse_content`. -/
def resumeTold (e : Ending) (chunks : List (List UInt8)) (r : HttpCode × List Told × Session) :
    Traced Access (List Told) :=
  if r.1 = .noRequest then serveTold e r.2.1 r.2.2 chunks
  else if r.1 = .getRequest then pure (r.2.1 ++ [.correct])
  else pure (r.2.1 ++ [.wrong])

variable {s : Session} {told : List Told} {e : Ending}

theorem serveTold_cons {chunk : List UInt8} (chunks : List (List UInt8))
    (h : chunk.take (bufferSize - s.readIndex) ≠ []) :
    serveTold e told s (chunk :: chunks) =
      (parseContentTold told (s.receive (chunk.take (bufferSize - s.readIndex))) >>=
        resumeTold e chunks) := by
  rw [serveTold]
  simp only [if_neg h]
  rfl

theorem ends_correct_iff {told : List Told} {last : Told} :
    (∃ out, (pure (told ++ [last]) : Traced Access (List Told)).result = .ok (out ++ [.correct])) ↔
      last = .correct := by
  constructor
  · rintro ⟨out, h⟩
    have hlast := List.append_inj' (Except.ok.inj h) rfl
    exact List.singleton_inj.mp hlast.2
  · rintro rfl
    exact ⟨told, rfl⟩

/-- The correct result is answered exactly where `serve` returns GET_REQUEST. -/
theorem serve_eq_get_iff (e : Ending) (told : List Told) (s : Session)
    (chunks : List (List UInt8)) : (serve s chunks).result = .ok .getRequest ↔
      ∃ out, (serveTold e told s chunks).result = .ok (out ++ [.correct]) := by
  induction chunks generalizing told s with
  | nil =>
    unfold serve serveTold
    rw [ends_correct_iff]
    apply iff_of_false
    · simp
    · cases e with
      | failed => simp [Ending.told, Told.correct]
      | closed => simp [Ending.told, Told.correct]
  | cons chunk chunks ih =>
    by_cases h : chunk.take (bufferSize - s.readIndex) = []
    · unfold serve serveTold
      simp only [if_pos h]
      rw [ends_correct_iff]
      apply iff_of_false
      · simp
      · simp [Told.correct]
    · rw [serve_cons chunks h, serveTold_cons chunks h, Traced.result_bind, Traced.result_bind,
        ← parseContentTold_drop told]
      cases (parseContentTold told
          (s.receive (chunk.take (bufferSize - s.readIndex)))).result with
      | error e =>
        apply iff_of_false
        · intro h
          cases h
        · rintro ⟨out, hout⟩
          cases hout
      | ok r =>
        obtain ⟨code, told', s'⟩ := r
        change (resume chunks (code, s')).result = _ ↔
          ∃ out, (resumeTold e chunks (code, told', s')).result = _
        unfold resume resumeTold
        by_cases hno : code = .noRequest
        · simp only [if_pos hno]
          exact ih told' s'
        · by_cases hget : code = .getRequest
          · simp only [if_neg hno, if_pos hget]
            rw [ends_correct_iff]
            exact iff_of_true (congrArg Except.ok hget) rfl
          · simp only [if_neg hno, if_neg hget]
            rw [ends_correct_iff]
            apply iff_of_false
            · exact fun hcode => hget (Except.ok.inj hcode)
            · decide

end Forget

section Steps
variable {s : Session} {d l rest : List UInt8}

theorem told_unfinished (w : Awaiting s d) (hf : lineFrame d = .unfinished) (n : Nat)
    (told : List Told) :
    ∃ c, (parseContentLoopTold (n + 1) told s).result =
        .ok (.noRequest, told, { s with checkedIndex := c }) ∧
      Awaiting { s with checkedIndex := c } d := by
  have spec := parseLine_spec w
  rw [hf] at spec
  obtain ⟨c, h, hw⟩ := spec
  refine ⟨c, ?_, hw⟩
  unfold parseContentLoopTold parseContentRound
  rw [Traced.bind_assoc, Traced.result_bind, Traced.result_relabel, h.result]
  change Except.ok (_, told ++ [], _) = _
  rw [List.append_nil]

/-- An accepted request line is reported. -/
theorem told_requestline (w : Awaiting s d) (hf : lineFrame d = .line l rest)
    (hst : s.checkstate = .requestline) (n : Nat) (told : List Told) {m : Buffer}
    {out : List Message} (hreply : (parseRequestline (delivered s l).buffer s.startLine
      .requestline).result = .ok ⟨.noRequest, .header, m, out⟩) :
    (parseContentLoopTold (n + 1) told s).result =
      (parseContentLoopTold n (told ++ out.map .printed)
        { delivered s l with buffer := m, checkstate := .header }).result := by
  have spec := parseLine_spec w
  rw [hf] at spec
  conv => lhs; unfold parseContentLoopTold parseContentRound
  rw [Traced.bind_assoc, Traced.result_bind, Traced.result_relabel, spec.result]
  simp only [Traced.result_pure, ok_bind, hst]
  rw [Traced.bind_assoc, Traced.result_bind, Traced.result_relabel, hreply]
  rfl

/-- A header line is reported, or ends the request. -/
theorem told_header (w : Awaiting s d) (hf : lineFrame d = .line l rest)
    (hst : s.checkstate = .header) (n : Nat) (told : List Told) :
    (parseContentLoopTold (n + 1) told s).result =
      if Blank l then .ok (.getRequest, told, delivered s l)
      else (parseContentLoopTold n (told ++ [.printed (headerMessage l)])
        (delivered s l)).result := by
  have spec := parseLine_spec w
  rw [hf] at spec
  obtain ⟨w', hheld⟩ := w.delivered hf
  have hread := w'.read
  have hbound := w'.bound
  simp only [delivered] at hread hbound
  have hheader := parseHeaders_report hheld (by omega)
  have hdone : { delivered s l with checkstate := .header } = delivered s l := by
    rw [← hst]
    rfl
  conv => lhs; unfold parseContentLoopTold parseContentRound
  rw [Traced.bind_assoc, Traced.result_bind, Traced.result_relabel, spec.result]
  simp only [Traced.result_pure, ok_bind, hst]
  rw [Traced.bind_assoc, Traced.result_bind, Traced.result_relabel]
  rw [hheader.result, ← hdone]
  by_cases hb : Blank l
  · rw [if_pos hb, if_pos hb]
    change Except.ok (_, told ++ [], _) = _
    rw [List.append_nil]
    rfl
  · rw [if_neg hb, if_neg hb]
    rfl

end Steps

section Serving

/-- A stream whose first line is complete is open, or begins with this line, as far as it
has arrived. -/
theorem lineFrame_of_append {d more l rest : List UInt8}
    (h : lineFrame (d ++ more) = .line l rest) :
    lineFrame d = .unfinished ∨ ∃ rest', lineFrame d = .line l rest' ∧ rest = rest' ++ more := by
  cases hf : lineFrame d with
  | unfinished => exact Or.inl rfl
  | bad =>
    rw [lineFrame, frame_bad_append hf] at h
    cases h
  | line l' rest' =>
    rw [lineFrame, frame_line_append hf] at h
    cases h
    exact Or.inr ⟨rest', rfl, rfl⟩

variable {s : Session} {d : List UInt8} {e : Ending}

/-- However the stream arrives, `parse_content` gets to its next line. -/
theorem told_until_line (chunks : List (List UInt8)) (w : Awaiting s d) {l rest : List UInt8}
    (hall : lineFrame (d ++ received (bufferSize - s.readIndex) chunks) = .line l rest)
    {fuel : Nat} (hfuel : d.length < fuel) (told : List Told) :
    ∃ s' d' rest' chunks' n, (Awaiting s' d' ∧ s'.checkstate = s.checkstate) ∧
      (lineFrame d' = .line l rest' ∧ rest = rest' ++ received (bufferSize - s'.readIndex) chunks') ∧
      d'.length < n + 1 ∧
      (parseContentLoopTold fuel told s >>= resumeTold e chunks).result =
        (parseContentLoopTold (n + 1) told s' >>= resumeTold e chunks').result := by
  induction chunks generalizing s d fuel with
  | nil =>
    obtain ⟨n, rfl⟩ : ∃ n, fuel = n + 1 := ⟨fuel - 1, by omega⟩
    obtain hopen | ⟨rest', hf, hrest⟩ := lineFrame_of_append hall
    · rw [received, List.append_nil, hopen] at hall
      cases hall
    · exact ⟨s, d, rest', [], n, ⟨w, rfl⟩, ⟨hf, hrest⟩, hfuel, rfl⟩
  | cons chunk chunks ih =>
    obtain ⟨n, rfl⟩ : ∃ n, fuel = n + 1 := ⟨fuel - 1, by omega⟩
    obtain hopen | ⟨rest', hf, hrest⟩ := lineFrame_of_append hall
    · obtain ⟨c, h, hw⟩ := told_unfinished w hopen n told
      by_cases hdata : chunk.take (bufferSize - s.readIndex) = []
      · rw [received, if_pos hdata, List.append_nil, hopen] at hall
        cases hall
      · -- the loop waits, and goes on with what `recv` delivers next
        have w' := hw.receive_take chunk
        rw [received, if_neg hdata, ← List.append_assoc, ← room_receive] at hall
        obtain ⟨s', d', rest', chunks', n', hs', hf', hn', hrun⟩ := ih w' hall w'.length_lt_fuel
        refine ⟨s', d', rest', chunks', n', hs', hf', hn', ?_⟩
        rw [← hrun, Traced.result_bind, h]
        exact congrArg Traced.result (serveTold_cons chunks hdata)
    · exact ⟨s, d, rest', chunk :: chunks, n, ⟨w, rfl⟩, ⟨hf, hrest⟩, hfuel, rfl⟩

/-- The header lines are reported in order, and the blank one is answered. -/
theorem told_fields {lines : List (List UInt8)} (hlines : HeaderLines lines)
    {last more : List UInt8} (hlast : CleanLine last ∧ Blank last) {chunks : List (List UInt8)}
    (w : Awaiting s d) (hst : s.checkstate = .header)
    (hall : d ++ received (bufferSize - s.readIndex) chunks =
      wire lines ++ (last ++ CR :: LF :: more))
    {fuel : Nat} (hfuel : d.length < fuel) (told : List Told) :
    (parseContentLoopTold fuel told s >>= resumeTold e chunks).result =
      .ok (told ++ lines.map (fun l => .printed (headerMessage l)) ++ [.correct]) := by
  induction lines generalizing s d chunks fuel told with
  | nil =>
    have hfirst : lineFrame (d ++ received (bufferSize - s.readIndex) chunks) = .line last more := by
      rw [hall]
      exact frame_line_of hlast.1
    obtain ⟨s', d', rest', chunks', n, ⟨w', hst'⟩, ⟨hf, -⟩, -, hrun⟩ :=
      told_until_line chunks w hfirst hfuel told
    rw [hrun, Traced.result_bind, told_header w' hf (hst'.trans hst), if_pos hlast.2]
    rw [List.map_nil, List.append_nil]
    rfl
  | cons l lines ih =>
    obtain ⟨hclean, hblank⟩ := hlines l (by simp)
    have hfirst : lineFrame (d ++ received (bufferSize - s.readIndex) chunks) =
        .line l (wire lines ++ (last ++ CR :: LF :: more)) := by
      rw [hall, wire_cons_append]
      exact frame_line_of hclean
    obtain ⟨s', d', rest', chunks', n, ⟨w', hst'⟩, ⟨hf, hrest⟩, hn, hrun⟩ :=
      told_until_line chunks w hfirst hfuel told
    have hlen := length_of_frame_line hf
    rw [hrun, Traced.result_bind, told_header w' hf (hst'.trans hst), if_neg hblank,
      ← Traced.result_bind]
    rw [ih (fun l' hl' => hlines l' (by simp [hl'])) (w'.delivered hf).1 (hst'.trans hst) hrest.symm
      (by omega)]
    simp

end Serving

end LinuxDemo.Invariant.Http
