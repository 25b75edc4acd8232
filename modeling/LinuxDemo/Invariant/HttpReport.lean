import LinuxDemo.Invariant.HttpOutput
import LinuxDemo.Invariant.HttpTokens

/-!
# Requests and what is reported of them

`Request` is a request as it can be written down, with the bytes that stand for it and the
messages that the parser owes it. A stream is answered with "I get a correct result"
behind exactly these messages if it begins with the bytes of a request.
-/
namespace LinuxDemo.Invariant.Http
open LinuxDemo.Lib LinuxDemo.Lib.CString LinuxDemo.Source.HttpParse

/-! ## The request line -/

/-- The URL that `parse_requestline` reports, if it accepts the line. -/
def reportedUrl (l : List UInt8) : Option (List UInt8) :=
  match judge l with
  | .reject => none
  | .accept => some (targetOf l)
  | .skip tail => (cutAt [SLASH] (tail.drop 7)).map fun r => cstr (SLASH :: r.2)

theorem reportedUrl_isSome_iff (l : List UInt8) : (reportedUrl l).isSome ↔ Accepted l := by
  unfold reportedUrl Accepted
  cases judge l with
  | reject => simp [Judgement.Accepts]
  | accept => simp [Judgement.Accepts]
  | skip tail =>
    simp only [Judgement.Accepts]
    rw [Option.isSome_map, cutAt_slash_isSome_iff]

/-- What `parse_requestline` makes of a line whose URL it reports. -/
theorem parseRequestline_reported {m : Buffer} {k : Nat} {l url : List UInt8}
    (hm : Holds m k (l ++ [0, 0])) (hsize : k + l.length < bufferSize)
    (hurl : reportedUrl l = some url) :
    ∃ m', SameOutside k l m m' ∧ (parseRequestline m k .requestline).result =
      .ok ⟨.noRequest, .header, m', [.methodIsGet, .urlIs url]⟩ := by
  have spec := parseRequestline_spec hm hsize .requestline
  unfold reportedUrl at hurl
  cases hj : judge l with
  | reject =>
    rw [hj] at hurl
    cases hurl
  | accept =>
    rw [hj] at hurl spec
    cases hurl
    obtain ⟨m', same, h⟩ := spec
    exact ⟨m', same, h.result⟩
  | skip tail =>
    rw [hj] at hurl spec
    obtain ⟨m', p, same, -, hend, hm', h⟩ := spec
    obtain ⟨⟨a, rest⟩, hcut, rfl⟩ := Option.map_eq_some_iff.mp hurl
    -- the slash is more than seven bytes behind the beginning of the URL, so still in the line
    obtain ⟨b, -, hdrop, -⟩ := cutAt_eq_some_iff.mp hcut
    have hlen := congrArg List.length hdrop
    simp only [List.length_drop, List.length_append, List.length_cons] at hlen
    have hm7 : Holds m' (p + 7) (tail.drop 7 ++ 0 :: [0]) := holds_drop hm' (by omega)
    have hskip := skipScheme_report (S := fun _ => True) .requestline hm7
      (by rw [List.length_drop]; omega) (fun _ _ _ => trivial)
    rw [hcut] at hskip
    exact ⟨m', same, h.result.trans hskip.result⟩

/-- The URL that a request line stands for. With the version HTTP/1.1 it is the one in the
line, which begins with a slash. With any other, seven bytes are passed over, whatever they
are, and it begins with the first slash behind them; here the blank behind the URL counts as
a NUL, and what ends the URL is a NUL. -/
inductive Target (k : Tokens) : List UInt8 → Prop where
  | whole : SameText (cstr k.version) HTTP_1_1 → k.url.head? = some SLASH → Target k k.url
  | behind {passed skipped path : List UInt8} : ¬ SameText (cstr k.version) HTTP_1_1 →
      k.url ++ 0 :: k.after = passed ++ (skipped ++ SLASH :: path) → passed.length = 7 →
      (∀ c ∈ skipped, c ≠ 0 ∧ c ≠ SLASH) → Target k (cstr (SLASH :: path))

theorem reportedUrl_of_target {k : Tokens} {url : List UInt8} (h0 : ∀ c ∈ k.url, c ≠ 0)
    (h : Target k url) : reportedUrl k.line = some url := by
  obtain ⟨htarget, hj⟩ := judge_of_plain_url k h0
  unfold reportedUrl
  cases h with
  | whole hver hslash =>
    rw [if_pos hver, if_pos (by rw [List.headD_eq_head?_getD, hslash]; rfl)] at hj
    simp only [hj, htarget]
  | behind hver hline hpassed hskipped =>
    rw [if_neg hver, hline] at hj
    simp only [hj]
    rw [List.drop_append_of_le_length (by omega), List.drop_eq_nil_of_le (by omega), List.nil_append,
      cutAt_append (by simpa using hskipped) (by decide)]
    rfl

theorem exists_target {l url : List UInt8} (h : reportedUrl l = some url) :
    ∃ k : Tokens, k.line = l ∧ (∀ c ∈ k.url, c ≠ 0) ∧ Target k url := by
  have hne : judge l ≠ .reject := by
    intro hj
    simp [reportedUrl, hj] at h
  obtain ⟨k, rfl, h0⟩ := plain_tokens_of_judge hne
  refine ⟨k, rfl, h0, ?_⟩
  obtain ⟨htarget, hj⟩ := judge_of_plain_url k h0
  unfold reportedUrl at h
  rw [hj, htarget] at h
  by_cases hver : SameText (cstr k.version) HTTP_1_1
  · rw [if_pos hver] at h
    by_cases hslash : k.url.headD 0 = SLASH
    · rw [if_pos hslash] at h
      cases h
      refine .whole hver ?_
      cases hu : k.url with
      | nil =>
        rw [hu] at hslash
        cases hslash
      | cons b t =>
        rw [hu] at hslash
        exact congrArg some hslash
    · rw [if_neg hslash] at h
      cases h
  · rw [if_neg hver] at h
    obtain ⟨⟨skipped, path⟩, hcut, rfl⟩ := Option.map_eq_some_iff.mp h
    obtain ⟨b, hb, hdrop, hskipped⟩ := cutAt_eq_some_iff.mp hcut
    obtain rfl : b = SLASH := by simpa using hb.2
    have hlen := congrArg List.length hdrop
    simp only [List.length_drop, List.length_append, List.length_cons] at hlen
    have hpassed : ((k.url ++ 0 :: k.after).take 7).length = 7 := by
      rw [List.length_take, List.length_append, List.length_cons]
      omega
    refine .behind hver ?_ hpassed (by simpa using hskipped)
    rw [← hdrop, List.take_append_drop]

/-! ## Header lines -/

/-- The name of the field up to case, blanks and the host. -/
structure HostField where
  name : List UInt8
  skipped : List UInt8
  text : List UInt8
  named : SameText name HOST
  blank : ∀ c ∈ skipped, c ∈ blanks
  begins : ∀ c ∈ text.head?, c ∉ blanks
  clean : CleanLine (name ++ (skipped ++ text))

/-- A header line: with the host, or another one that is not empty as a C string. -/
inductive Field where
  | host (f : HostField)
  | other (line : List UInt8) (clean : CleanLine line) (shown : ¬ Blank line)
      (unnamed : ¬ SameText (line.take 5) HOST)

namespace Field

def line : Field → List UInt8
  | host f => f.name ++ (f.skipped ++ f.text)
  | other line _ _ _ => line

def message : Field → Message
  | host f => .hostIs (cstr f.text)
  | other _ _ _ _ => .headerNotHandled

end Field

theorem length_and_ne_zero_of_host {name : List UInt8} (h : SameText name HOST) :
    name.length = 5 ∧ ∀ c ∈ name, c ≠ 0 :=
  ⟨h.length_eq, h.ne_zero ne_zero_of_mem_host⟩

/-- A NUL among the first five bytes would spoil the name. -/
theorem sameText_take_cstr_iff (l : List UInt8) :
    SameText ((cstr l).take 5) HOST ↔ SameText (l.take 5) HOST := by
  constructor
  · intro h
    obtain ⟨hlen, -⟩ := length_and_ne_zero_of_host h
    rw [List.length_take] at hlen
    have hsplit : cstr l ++ l.dropWhile (· ≠ 0) = l := List.takeWhile_append_dropWhile
    rw [← hsplit, List.take_append_of_le_length (by omega)]
    exact h
  · intro h
    obtain ⟨hlen, h0⟩ := length_and_ne_zero_of_host h
    have e : cstr l = l.take 5 ++ cstr (l.drop 5) := by
      rw [← cstr_of_ne_zero h0, List.take_append_drop]
    rw [e, List.take_append_of_le_length (by omega), List.take_take]
    exact h

theorem Field.clean_line (f : Field) : CleanLine f.line ∧ ¬ Blank f.line := by
  cases f with
  | host f =>
    refine ⟨f.clean, ?_⟩
    obtain ⟨hlen, h0⟩ := length_and_ne_zero_of_host f.named
    change ¬ (f.name ++ (f.skipped ++ f.text)).headD 0 = 0
    cases hname : f.name with
    | nil => simp [hname] at hlen
    | cons b name => exact h0 b (by simp [hname])
  | other line clean shown unnamed => exact ⟨clean, shown⟩

theorem Field.headerMessage_line (f : Field) : headerMessage f.line = f.message := by
  unfold headerMessage
  cases f with
  | host f =>
    obtain ⟨hlen, h0⟩ := length_and_ne_zero_of_host f.named
    unfold Field.line Field.message
    rw [if_pos]
    · rw [List.drop_append_of_le_length (by omega), List.drop_eq_nil_of_le (by omega),
        List.nil_append, dropWhile_append_of_head f.blank f.begins]
    · rw [sameText_take_cstr_iff, List.take_append_of_le_length (by omega),
        List.take_of_length_le (by omega)]
      exact f.named
  | other line clean shown unnamed =>
    unfold Field.line Field.message
    rw [if_neg fun h => unnamed ((sameText_take_cstr_iff line).mp h)]

theorem exists_field {l : List UInt8} (h : CleanLine l ∧ ¬ Blank l) : ∃ f : Field, f.line = l := by
  by_cases hname : SameText (l.take 5) HOST
  · have hsplit : l.take 5 ++ ((l.drop 5).takeWhile (· ∈ blanks) ++
        (l.drop 5).dropWhile (· ∈ blanks)) = l := by
      rw [List.takeWhile_append_dropWhile, List.take_append_drop]
    refine ⟨.host ⟨l.take 5, _, _, hname, ?_, ?_, hsplit.symm ▸ h.1⟩, hsplit⟩
    · intro c hc
      simpa using List.mem_takeWhile_imp hc
    · intro c hc
      have := List.head?_dropWhile_not (· ∈ blanks) (l.drop 5)
      rw [Option.mem_def.mp hc] at this
      simpa using this
  · exact ⟨.other l h.1 h.2 hname, rfl⟩

theorem exists_fields {lines : List (List UInt8)} (h : HeaderLines lines) :
    ∃ fields : List Field, fields.map Field.line = lines := by
  induction lines with
  | nil => exact ⟨[], rfl⟩
  | cons l lines ih =>
    obtain ⟨f, hf⟩ := exists_field (h l (by simp))
    obtain ⟨fields, hfields⟩ := ih fun l' hl' => h l' (by simp [hl'])
    exact ⟨f :: fields, by rw [List.map_cons, hf, hfields]⟩

/-! ## Requests -/

/-- A request line, header lines, and a line that is empty as a C string. -/
structure Request where
  tokens : Tokens
  url : List UInt8
  plain : ∀ c ∈ tokens.url, c ≠ 0
  target : Target tokens url
  clean : CleanLine tokens.line
  fields : List Field
  last : List UInt8
  blank : CleanLine last ∧ Blank last

namespace Request

/-- What is behind the request line. -/
def tail (r : Request) : List UInt8 := wire (r.fields.map Field.line) ++ (r.last ++ [CR, LF])

/-- The bytes that stand for the request. -/
def render (r : Request) : List UInt8 := r.tokens.line ++ CR :: LF :: r.tail

/-- What is printed about it. -/
def report (r : Request) : List Told :=
  (.methodIsGet :: .urlIs r.url :: r.fields.map Field.message).map .printed

theorem reportedUrl_line (r : Request) : reportedUrl r.tokens.line = some r.url :=
  reportedUrl_of_target r.plain r.target

theorem lineFrame_render (r : Request) (more : List UInt8) :
    lineFrame (r.render ++ more) = .line r.tokens.line (r.tail ++ more) := by
  rw [render, List.append_assoc]
  exact frame_line_of r.clean

theorem headerLines (r : Request) : HeaderLines (r.fields.map Field.line) := by
  intro l hl
  obtain ⟨f, -, rfl⟩ := List.mem_map.mp hl
  exact f.clean_line

/-- However the bytes of a request arrive, its report and the answer are told. -/
theorem told (r : Request) {more : List UInt8} (e : Ending) {chunks : List (List UInt8)}
    (h : received bufferSize chunks = r.render ++ more) :
    (serveTold e [] Session.init chunks).result = .ok (r.report ++ [.correct]) := by
  have hfirst : lineFrame ([] ++ received (bufferSize - Session.init.readIndex) chunks) =
      .line r.tokens.line (r.tail ++ more) := by
    change lineFrame (received bufferSize chunks) = _
    rw [h, r.lineFrame_render]
  have hfuel : ([] : List UInt8).length < 1 := Nat.one_pos
  obtain ⟨s, d, rest, chunks', n, ⟨w, hst⟩, ⟨hf, hrest⟩, hn, hrun⟩ :=
    told_until_line (e := e) chunks awaiting_init hfirst hfuel []
  obtain ⟨w', hheld⟩ := w.delivered hf
  have hread := w'.read
  have hbound := w'.bound
  have hlen := length_of_frame_line hf
  simp only [delivered] at hread hbound
  obtain ⟨m, same, hreply⟩ := parseRequestline_reported hheld (by omega) r.reportedUrl_line
  have hrewrite : ∀ p, (delivered s r.tokens.line).startLine ≤ p + 1 →
      m p = (delivered s r.tokens.line).buffer p := by
    intro p hp
    simp only [delivered] at hp
    exact same p (by omega)
  have htail : rest ++ received (bufferSize - s.readIndex) chunks' =
      wire (r.fields.map Field.line) ++ (r.last ++ CR :: LF :: more) := by
    rw [← hrest, tail]
    simp
  have hfields := told_fields (e := e) r.headerLines r.blank (w'.rewrite hrewrite .header) rfl htail
    (by omega : rest.length < n) ([] ++ [.methodIsGet, .urlIs r.url].map .printed)
  -- nothing is told before the first line
  have hstart : (serveTold e [] Session.init chunks).result =
      (parseContentLoopTold 1 [] Session.init >>= resumeTold e chunks).result := rfl
  rw [hstart, hrun, Traced.result_bind, told_requestline w hf hst n [] hreply,
    ← Traced.result_bind, hfields, report]
  simp [List.map_map, Function.comp_def, Field.headerMessage_line]

end Request

/-- An accepted request line and header lines are a request. -/
theorem exists_request {l rest : List UInt8} (clean : CleanLine l) (hacc : Accepted l)
    (hget : headers rest = .getRequest) :
    ∃ (r : Request) (more : List UInt8), l ++ CR :: LF :: rest = r.render ++ more := by
  obtain ⟨url, hurl⟩ := Option.isSome_iff_exists.mp ((reportedUrl_isSome_iff l).mpr hacc)
  obtain ⟨k, rfl, h0, htarget⟩ := exists_target hurl
  obtain ⟨lines, last, more, hlines, hclean, hblank, rfl⟩ := headers_eq_get_iff.mp hget
  obtain ⟨fields, rfl⟩ := exists_fields hlines
  refine ⟨⟨k, url, h0, htarget, clean, fields, last, hclean, hblank⟩, more, ?_⟩
  simp [Request.render, Request.tail]

end LinuxDemo.Invariant.Http
