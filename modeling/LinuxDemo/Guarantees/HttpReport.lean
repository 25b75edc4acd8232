import LinuxDemo.Invariant.HttpReport
import LinuxDemo.Guarantees.HttpParse

/-!
# The HTTP parser reads what was written

A request is written as bytes, and the parser prints its report. Reading and writing fit
together on every stream but those where the search for a slash leaves the request line
and is lucky.
-/
namespace LinuxDemo.Guarantees.HttpReport
open LinuxDemo.Lib LinuxDemo.Lib.CString LinuxDemo.Source.HttpParse LinuxDemo.Invariant.Http
open LinuxDemo.Guarantees.HttpParse

/-- The stream begins with a request that has this report. -/
def Written (s : Stream) (out : List Told) : Prop :=
  ∃ (r : Request) (more : List UInt8), s.bytes = r.render ++ more ∧ out = r.report

/-- At most five bytes are left of the request line at its URL; when it is looked at, `seen`
has arrived behind it and ends inside of the buffer; there the search finds a slash; and
header lines end the request. -/
def Misled (s : Stream) : Prop :=
  ∃ l seen later tail, s.bytes = l ++ CR :: LF :: (seen ++ later) ∧ CleanLine l ∧
    (RequestTail l tail ∧ tail.length ≤ 5) ∧ l.length + 2 + seen.length < bufferSize ∧
    SLASH ∈ cstr (seen.drop (5 - tail.length)) ∧ headers (seen ++ later) = .getRequest

/-- The line of a request is accepted by itself. -/
theorem accepted_of_render {s : Stream} {r : Request} {more l rest : List UInt8}
    (h : s.bytes = r.render ++ more) (hf : lineFrame s.bytes = .line l rest) : Accepted l := by
  rw [h, r.lineFrame_render] at hf
  cases hf
  rw [← reportedUrl_isSome_iff, r.reportedUrl_line]
  rfl

theorem not_accepted_of_tail {l tail : List UInt8} (htail : RequestTail l tail)
    (hlen : tail.length ≤ 6) : ¬ Accepted l := by
  obtain ⟨tail', hj, hlen'⟩ := judge_of_requestTail htail hlen
  exact not_accepted_of_short hj (by omega)

/-- A slash that is found with a NUL behind it has arrived before that NUL. -/
theorem seen_of_probe {rest : List UInt8} {j room : Nat} (hslash : SLASH ∈ cstr (rest.drop j))
    (hbound : rest.length ≤ room) (hend : 0 ∈ rest.drop j ∨ rest.length < room) :
    ∃ seen later, rest = seen ++ later ∧ seen.length < room ∧ SLASH ∈ cstr (seen.drop j) := by
  rcases hend with hz | hroom
  · obtain ⟨more, hsplit⟩ := exists_cstr_split hz
    have hlen := congrArg List.length hsplit
    simp only [List.length_drop, List.length_append, List.length_cons] at hlen
    have hj : (rest.take j).length = j := by
      rw [List.length_take]
      omega
    refine ⟨rest.take j ++ cstr (rest.drop j), 0 :: more, ?_, ?_, ?_⟩
    · rw [List.append_assoc, ← hsplit, List.take_append_drop]
    · rw [List.length_append, hj]
      omega
    · rw [List.drop_append_of_le_length (by omega), List.drop_eq_nil_of_le (by omega),
        List.nil_append, cstr_eq_self fun c hc => ne_zero_of_mem_cstr hc]
      exact hslash
  · exact ⟨rest, [], by simp, hroom, hslash⟩

/-- Where a session is answered with GET_REQUEST, a request line and header lines are
accepted, or the search was misled. -/
theorem accepted_of_get {s : Stream} (hno : ¬ Misled s) (c : Cutting s)
    (hget : (serve Session.init c.chunks).result = .ok .getRequest) :
    ∃ l rest, s.bytes = l ++ CR :: LF :: rest ∧ CleanLine l ∧ Accepted l ∧
      headers rest = .getRequest := by
  have hserve := serve_until_line c.chunks awaiting_init rfl rfl rfl
  have hroom : bufferSize - Session.init.readIndex = bufferSize := rfl
  rw [List.nil_append, hroom, received_cutting c] at hserve
  cases hf : lineFrame s.bytes with
  | unfinished =>
    rw [hf] at hserve
    rw [hserve.result] at hget
    cases hget
  | bad =>
    rw [hf] at hserve
    rw [hserve.result] at hget
    cases hget
  | line l all =>
    rw [hf] at hserve
    obtain ⟨s', d, rest, chunks', hd, hall, w, hst, h0, hl⟩ := hserve
    obtain ⟨e, hclean⟩ := frame_eq_line_iff.mp hf
    rw [hl.result] at hget
    by_cases hshort : ShortTail 6 l
    · exfalso
      obtain ⟨tail, htail, hlen⟩ := hshort
      obtain ⟨tail', hj, hlen'⟩ := judge_of_requestTail htail hlen
      by_cases h6 : tail.length = 6
      · rw [result_of_six w hd hst chunks' hj (hlen'.trans h6)] at hget
        cases hget
      · by_cases hheld : s'.startLine + l.length + 2 + (5 - tail'.length) < bufferSize ∧
            (0 ∈ rest.drop (5 - tail'.length) ∨
              s'.startLine + l.length + 2 + rest.length < bufferSize)
        · rw [result_of_probe w hd hst chunks' hj (by omega) hheld.1 hheld.2, ← hall] at hget
          split at hget
          next hslash =>
            have hbound := w.bound
            have hread := w.read
            have hlen'' := length_of_frame_line hd
            obtain ⟨seen, later, rfl, hseen, hslash'⟩ := seen_of_probe hslash
              (by omega : rest.length ≤ bufferSize - (l.length + 2))
              (hheld.2.imp_right fun h => by omega)
            rw [hlen'] at hslash'
            rw [List.append_assoc] at hall
            refine hno ⟨l, seen, later ++ received (bufferSize - s'.readIndex) chunks', tail,
              hall ▸ e, hclean, ⟨htail, by omega⟩, by omega, hslash', ?_⟩
            rw [← hall]
            exact Except.ok.inj hget
          next => cases hget
        · exact no_result_of_skip w hd hst chunks' hj (by omega)
            (probe_open w hd (by omega) hheld) _ hget
    · rw [(outcome_of_line w hd hst chunks' hshort).result, ← hall] at hget
      change Except.ok (if Accepted l then headers all else .badRequest) = _ at hget
      by_cases hacc : Accepted l
      · rw [if_pos hacc] at hget
        exact ⟨l, all, e, hclean, hacc, Except.ok.inj hget⟩
      · rw [if_neg hacc] at hget
        cases hget

/-- A first piece, and then the rest. -/
def cutBehind (s : Stream) (first rest : List UInt8) (h : s.bytes = first ++ rest)
    (hne : first ≠ []) : Cutting s where
  chunks := first :: if rest = [] then [] else [rest]
  whole := by
    split
    next hr => simp [h, hr]
    next => simp [h]
  nonempty := by
    intro c hc
    split at hc
    next => simp_all
    next hr =>
      rcases List.mem_cons.mp hc with rfl | hc
      · exact hne
      · simp_all

/-- Where the search is misled, some cutting is answered with GET_REQUEST. -/
theorem get_of_misled {s : Stream} (h : Misled s) :
    ∃ c : Cutting s, (serve Session.init c.chunks).result = .ok .getRequest := by
  obtain ⟨l, seen, later, tail, e, hclean, ⟨htail, hlen⟩, hseen, hslash, hget⟩ := h
  obtain ⟨tail', hj, hlen'⟩ := judge_of_requestTail htail (by omega)
  have e' : s.bytes = (l ++ CR :: LF :: seen) ++ later := by
    rw [e]
    simp
  have hfirst : lineFrame (l ++ CR :: LF :: seen) = .line l seen := frame_line_of hclean
  have hlength := length_of_frame_line hfirst
  have hfits : (l ++ CR :: LF :: seen).length ≤ bufferSize := by omega
  have w : Awaiting (Session.init.receive (l ++ CR :: LF :: seen)) (l ++ CR :: LF :: seen) :=
    awaiting_stream ⟨_, hfits⟩
  have hstart : (Session.init.receive (l ++ CR :: LF :: seen)).startLine = 0 := rfl
  have hfound : 5 - tail.length < seen.length := by
    by_contra hle
    rw [List.drop_eq_nil_of_le (by omega)] at hslash
    cases hslash
  refine ⟨cutBehind s _ later e' (by simp), ?_⟩
  rw [cutBehind, serve_first hfirst hfits,
    result_of_probe w hfirst rfl _ hj (by omega) (by omega) (Or.inr (by omega)), hlen', if_pos hslash]
  have hlater : received (bufferSize - (Session.init.receive (l ++ CR :: LF :: seen)).readIndex)
      (if later = [] then [] else [later]) = later := by
    have hroom : later.length ≤
        bufferSize - (Session.init.receive (l ++ CR :: LF :: seen)).readIndex := by
      have hall := congrArg List.length e'
      have := s.fits
      rw [List.length_append] at hall
      change later.length ≤ bufferSize - (0 + (l ++ CR :: LF :: seen).length)
      omega
    split
    next hr => exact hr.symm
    next hr =>
      rw [received_eq_flatten (by simpa using hr) (by simpa using hroom)]
      simp
  rw [hlater, hget]

/-- On exactly the streams where no search is misled, reading gives back what was written:
however the stream arrives, "I get a correct result" is answered behind the output `out` if
and only if the stream begins with a request that has the report `out`. -/
theorem reads_what_was_written_iff (s : Stream) :
    (∀ (c : Cutting s) (e : Ending) (out : List Told),
      (serveTold e [] Session.init c.chunks).result = .ok (out ++ [.correct]) ↔ Written s out) ↔
        ¬ Misled s := by
  constructor
  · intro h hmisled
    obtain ⟨c, hget⟩ := get_of_misled hmisled
    obtain ⟨out, hout⟩ := (serve_eq_get_iff .closed [] Session.init c.chunks).mp hget
    obtain ⟨r, more, hr, -⟩ := (h c .closed out).mp hout
    obtain ⟨l, seen, later, tail, e, hclean, ⟨htail, hlen⟩, -⟩ := hmisled
    exact not_accepted_of_tail htail (by omega) (accepted_of_render hr (lineFrame_of e hclean))
  · intro hno c e out
    constructor
    · intro h
      have hget := (serve_eq_get_iff e [] Session.init c.chunks).mpr ⟨out, h⟩
      obtain ⟨l, rest, hbytes, hclean, hacc, hheaders⟩ := accepted_of_get hno c hget
      obtain ⟨r, more, hr⟩ := exists_request hclean hacc hheaders
      have hreceived : received bufferSize c.chunks = r.render ++ more := by
        rw [received_cutting c, hbytes, hr]
      rw [r.told e hreceived] at h
      exact ⟨r, more, hbytes.trans hr, (List.append_cancel_right (Except.ok.inj h)).symm⟩
    · rintro ⟨r, more, hr, rfl⟩
      exact r.told e (by rw [received_cutting c, hr])

/-- `"GET /a HTTP/1.0"`, a line `"Host: b"` and a line that begins with a NUL, in two pieces.
The slash behind the seven bytes is that of the version. -/
example : (serveTold .closed [] Session.init [[71, 69, 84, 32, 47, 97, 32, 72, 84, 84, 80, 47],
    [49, 46, 48, 13, 10, 72, 111, 115, 116, 58, 32, 98, 13, 10, 0, 13, 10]]).result =
      .ok [.printed .methodIsGet, .printed (.urlIs [47, 49, 46, 48]), .printed (.hostIs [98]),
        .correct] := by
  decide +kernel

end LinuxDemo.Guarantees.HttpReport
