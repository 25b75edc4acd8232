import LinuxDemo.Invariant.HttpGrammar

/-!
# Guarantees of the HTTP parser

The three guarantees fail on request lines of which too little is left at the URL, and on
header lines that begin with a NUL; each theorem says exactly which streams are affected.
-/
namespace LinuxDemo.Guarantees.HttpParse
open LinuxDemo.Lib LinuxDemo.Lib.CString LinuxDemo.Source.HttpParse LinuxDemo.Invariant.Http

/-- A byte stream that fits into the receive buffer. -/
structure Stream where
  bytes : List UInt8
  fits : bytes.length ≤ bufferSize

/-- A way of cutting a stream into the pieces that `recv` delivers. -/
structure Cutting (s : Stream) where
  chunks : List (List UInt8)
  whole : chunks.flatten = s.bytes
  nonempty : ∀ c ∈ chunks, c ≠ []

/-! ## Buffer safety -/

/-- Every access stays where it belongs, and the session does not run off the buffer. -/
def BufferSafe (chunks : List (List UInt8)) : Prop :=
  Traced.Within Contained (serve Session.init chunks) ∧
    ∃ code, (serve Session.init chunks).result = .ok code

/-- Exactly the sessions whose request line has fewer than seven bytes left at its URL
touch the buffer outside of the line. -/
theorem buffer_safe_iff (chunks : List (List UInt8)) :
    BufferSafe chunks ↔ ¬ ∃ l rest, received bufferSize chunks = l ++ CR :: LF :: rest ∧
      CleanLine l ∧ ShortTail 6 l := by
  have h := serve_until_line chunks awaiting_init rfl rfl rfl
  have hroom : bufferSize - Session.init.readIndex = bufferSize := rfl
  rw [List.nil_append, hroom] at h
  have hsafe : ∀ {code}, Traced.Leads Contained (serve Session.init chunks) (pure code) →
      BufferSafe chunks := by
    intro code hl
    exact ⟨hl.within, code, hl.result⟩
  cases hf : lineFrame (received bufferSize chunks) with
  | unfinished =>
    rw [hf] at h
    apply iff_of_true (hsafe h)
    rintro ⟨l, rest, e, hclean, -⟩
    rw [lineFrame_of e hclean] at hf
    cases hf
  | bad =>
    rw [hf] at h
    apply iff_of_true (hsafe h)
    rintro ⟨l, rest, e, hclean, -⟩
    rw [lineFrame_of e hclean] at hf
    cases hf
  | line l all =>
    rw [hf] at h
    obtain ⟨s, d, rest, chunks', hd, -, w, hst, -, hl⟩ := h
    obtain ⟨e, hclean⟩ := frame_eq_line_iff.mp hf
    by_cases hshort : ShortTail 6 l
    · apply iff_of_false
      · rintro ⟨hin, -⟩
        exact escape_of_short w hd hst chunks' hshort (hl.within_iff.mp hin)
      · intro hno
        exact hno ⟨l, all, e, hclean, hshort⟩
    · apply iff_of_true (hsafe (hl.trans (outcome_of_line w hd hst chunks' hshort)))
      rintro ⟨l', rest', e', hclean', hshort'⟩
      rw [lineFrame_of e' hclean'] at hf
      cases hf
      exact hshort hshort'

/-- `"GET / X"` and a CRLF: the search for a slash starts behind the line. -/
theorem not_buffer_safe : ¬ ∀ chunks, BufferSafe chunks := by
  intro h
  have hin := (h [[71, 69, 84, 32, 47, 32, 88, 13, 10]]).1
  have hmem : Access.byText 0 9 9 11 ∈
      (serve Session.init [[71, 69, 84, 32, 47, 32, 88, 13, 10]]).log := by decide +kernel
  have := hin _ hmem
  simp only [Contained] at this
  omega

/-! ## End of request -/

/-- The code that `parse_content` returns when the stream is there at once. -/
def verdict (s : Stream) : Except Fault HttpCode :=
  (parseContent (Session.init.receive s.bytes)).result.map Prod.fst

/-- `parse_requestline` accepts the line in the buffer as `parse_line` leaves it. -/
def Accepts (s : Stream) (l : List UInt8) : Prop :=
  ∃ reply, (parseRequestline (delivered (Session.init.receive s.bytes) l).buffer 0
    .requestline).result = .ok reply ∧ reply.code = .noRequest

/-- An accepted request line, header lines of length at least one, and a line of length
zero, with no stray CR or LF up to there. -/
def WellFormed (s : Stream) : Prop :=
  ∃ l rest, s.bytes = l ++ CR :: LF :: rest ∧ CleanLine l ∧ Accepts s l ∧ HeaderPart rest

/-- Behind an accepted request line and header lines stands a line of length at least one
that begins with a NUL, and what follows it does not end the request. -/
def EndsAtNul (s : Stream) : Prop :=
  ∃ l lines line more, s.bytes = l ++ CR :: LF :: (wire lines ++ (0 :: line ++ CR :: LF :: more)) ∧
    CleanLine l ∧ Accepts s l ∧ HeaderLines lines ∧ CleanLine (0 :: line) ∧ ¬ HeaderPart more

theorem awaiting_stream (s : Stream) : Awaiting (Session.init.receive s.bytes) s.bytes := by
  have hroom : Session.init.readIndex + s.bytes.length ≤ bufferSize := by
    simpa [Session.init] using s.fits
  simpa using awaiting_init.receive hroom

theorem line_fits {s : Stream} {l rest : List UInt8} (hf : lineFrame s.bytes = .line l rest) :
    0 + l.length < bufferSize := by
  have hlen := length_of_frame_line hf
  have hfits := s.fits
  omega

/-- The reply to the request line, and then the header lines. -/
theorem verdict_of_line {s : Stream} {l rest : List UInt8}
    (hf : lineFrame s.bytes = .line l rest) :
    verdict s = ((parseRequestline (delivered (Session.init.receive s.bytes) l).buffer 0
      .requestline).result >>= fun reply =>
        if reply.code = .badRequest then .ok .badRequest else .ok (headers rest)) := by
  have w := awaiting_stream s
  obtain ⟨w', hheld⟩ := w.delivered hf
  have hsize := line_fits hf
  have hlen := length_of_frame_line hf
  have hloop := (loop_requestline w hf rfl (Session.init.receive s.bytes).readIndex).result
  unfold verdict parseContent
  rw [hloop, Traced.result_bind, Traced.result_relabel]
  change Except.map Prod.fst ((parseRequestline _ 0 .requestline).result >>= _) = _
  cases hr : (parseRequestline (delivered (Session.init.receive s.bytes) l).buffer 0
      .requestline).result with
  | error e => rfl
  | ok reply =>
    simp only [ok_bind, afterRequestline]
    split
    next => rfl
    next hcode =>
      obtain hbad | ⟨-, hst, same⟩ := requestline_reply hheld hsize hr
      · exact absurd hbad hcode
      · have hrewrite : ∀ p, (delivered (Session.init.receive s.bytes) l).startLine ≤ p + 1 →
            reply.buffer p = (delivered (Session.init.receive s.bytes) l).buffer p := by
          intro p (hp : 0 + l.length + 2 ≤ p + 1)
          exact same p (Or.inr (by change 0 + l.length ≤ p; omega))
        have hfuel : rest.length < (Session.init.receive s.bytes).readIndex := by
          change rest.length < 0 + s.bytes.length
          omega
        obtain ⟨s', h, -⟩ := loop_headers (w'.rewrite hrewrite reply.checkstate) hst hfuel
        rw [h.result]
        rfl

theorem verdict_eq_get_iff (s : Stream) :
    verdict s = .ok .getRequest ↔ ∃ l rest, s.bytes = l ++ CR :: LF :: rest ∧ CleanLine l ∧
      Accepts s l ∧ headers rest = .getRequest := by
  have w := awaiting_stream s
  cases hf : lineFrame s.bytes with
  | unfinished =>
    obtain ⟨c, h, -⟩ := loop_unfinished w hf (Session.init.receive s.bytes).readIndex
    apply iff_of_false
    · unfold verdict parseContent
      rw [h.result]
      nofun
    · rintro ⟨l, rest, e, hclean, -⟩
      rw [lineFrame_of e hclean] at hf
      cases hf
  | bad =>
    obtain ⟨s', h⟩ := loop_bad w hf (Session.init.receive s.bytes).readIndex
    apply iff_of_false
    · unfold verdict parseContent
      rw [h.result]
      nofun
    · rintro ⟨l, rest, e, hclean, -⟩
      rw [lineFrame_of e hclean] at hf
      cases hf
  | line l rest =>
    obtain ⟨e, hclean⟩ := frame_eq_line_iff.mp hf
    rw [verdict_of_line hf, bind_eq_ok_iff]
    constructor
    · rintro ⟨reply, hr, hcode⟩
      split at hcode
      next => cases hcode
      next hne =>
        refine ⟨l, rest, e, hclean, ⟨reply, hr, ?_⟩, by simpa using hcode⟩
        obtain ⟨w', hheld⟩ := w.delivered hf
        obtain hbad | ⟨hno, -⟩ := requestline_reply hheld (line_fits hf) hr
        · exact absurd hbad hne
        · exact hno
    · rintro ⟨l', rest', e', hclean', ⟨reply, hr, hcode⟩, hget⟩
      rw [lineFrame_of e' hclean'] at hf
      cases hf
      exact ⟨reply, hr, by simp [hcode, hget]⟩

/-- `parse_content` returns GET_REQUEST for exactly the well-formed requests, on all
streams but those where a line that begins with a NUL is taken for the empty one. -/
theorem end_of_request_iff (s : Stream) :
    (verdict s = .ok .getRequest ↔ WellFormed s) ↔ ¬ EndsAtNul s := by
  rw [verdict_eq_get_iff]
  constructor
  · rintro h ⟨l, lines, line, more, e, hclean, hacc, hlines, hline, hmore⟩
    have hblank : Blank (0 :: line) := rfl
    obtain ⟨l', rest', e', hclean', -, hpart⟩ := h.mp ⟨l, _, e, hclean, hacc,
      headers_eq_get_iff.mpr ⟨lines, 0 :: line, more, hlines, hline, hblank, rfl⟩⟩
    have hsame := lineFrame_of e' hclean'
    rw [lineFrame_of e hclean] at hsame
    cases hsame
    rw [headerPart_wire hlines, headerPart_iff_of_line (frame_line_of hline)] at hpart
    exact hpart.elim (by simp) hmore
  · intro hno
    constructor
    · rintro ⟨l, rest, e, hclean, hacc, hget⟩
      refine ⟨l, rest, e, hclean, hacc, ?_⟩
      obtain ⟨lines, line, more, hlines, hline, hblank, rfl⟩ := headers_eq_get_iff.mp hget
      rw [headerPart_wire hlines, headerPart_iff_of_line (frame_line_of hline)]
      cases line with
      | nil => exact Or.inl rfl
      | cons b line =>
        obtain rfl : b = 0 := hblank
        apply Or.inr
        by_contra hmore
        exact hno ⟨l, lines, line, more, e, hclean, hacc, hlines, hline, hmore⟩
    · rintro ⟨l, rest, e, hclean, hacc, hpart⟩
      exact ⟨l, rest, e, hclean, hacc, headers_of_headerPart hpart⟩

/-- `"GET / HTTP/1.1"`, a CRLF, a NUL and `"abc"`, and a CRLF. -/
def nulRequest : Stream :=
  ⟨[71, 69, 84, 32, 47, 32, 72, 84, 84, 80, 47, 49, 46, 49, 13, 10, 0, 97, 98, 99, 13, 10], by decide⟩

theorem nul_request_answered : ¬ ∀ s, verdict s = .ok .getRequest ↔ WellFormed s := by
  intro h
  have hget : verdict nulRequest = .ok .getRequest := by decide +kernel
  obtain ⟨l, rest, e, hclean, -, hpart⟩ := (h nulRequest).mp hget
  have hf := lineFrame_of e hclean
  have hrest : lineFrame nulRequest.bytes =
      .line [71, 69, 84, 32, 47, 32, 72, 84, 84, 80, 47, 49, 46, 49] [0, 97, 98, 99, 13, 10] := by
    decide
  rw [hf] at hrest
  cases hrest
  have hline : lineFrame [0, 97, 98, 99, 13, 10] = .line [0, 97, 98, 99] [] := by decide
  rw [headerPart_iff_of_line hline] at hpart
  obtain ⟨lines, more, -, hnil⟩ := hpart.resolve_left (by simp)
  simp at hnil

/-! ## Segmentation -/

/-- If fewer than six bytes are left of the request line at its URL, then the search
behind the line ends inside of the buffer, and a slash that it could find there comes
with a malformed header. -/
def Insensitive (s : Stream) : Prop :=
  ∀ l rest tail, s.bytes = l ++ CR :: LF :: rest → CleanLine l → RequestTail l tail →
    tail.length ≤ 5 →
      l.length + 2 + (5 - tail.length) < bufferSize ∧
      (0 ∈ rest.drop (5 - tail.length) ∨ s.bytes.length < bufferSize) ∧
      (SLASH ∈ cstr (rest.drop (5 - tail.length)) → Malformed rest)

/-- The code that all cuttings of an insensitive stream lead to. -/
def commonCode (s : Stream) : HttpCode :=
  match lineFrame s.bytes with
  | .unfinished => .noRequest
  | .bad => .badRequest
  | .line l rest => if Accepted l then headers rest else .badRequest

theorem not_accepted_of_short {l tail : List UInt8} (hj : judge l = .skip tail)
    (hlen : tail.length ≤ 7) : ¬ Accepted l := by
  simp [Accepted, hj, Judgement.Accepts, List.drop_eq_nil_of_le hlen, cstr]

theorem received_cutting {s : Stream} (c : Cutting s) : received bufferSize c.chunks = s.bytes := by
  rw [received_eq_flatten c.nonempty (by rw [c.whole]; exact s.fits), c.whole]

theorem code_of_insensitive {s : Stream} (h : Insensitive s) (c : Cutting s) :
    (serve Session.init c.chunks).result = .ok (commonCode s) := by
  have hserve := serve_until_line c.chunks awaiting_init rfl rfl rfl
  have hroom : bufferSize - Session.init.readIndex = bufferSize := rfl
  rw [List.nil_append, hroom, received_cutting c] at hserve
  unfold commonCode
  cases hf : lineFrame s.bytes with
  | unfinished =>
    rw [hf] at hserve
    exact hserve.result
  | bad =>
    rw [hf] at hserve
    exact hserve.result
  | line l all =>
    rw [hf] at hserve
    obtain ⟨s', d, rest, chunks', hd, hall, w, hst, h0, hl⟩ := hserve
    obtain ⟨e, hclean⟩ := frame_eq_line_iff.mp hf
    rw [hl.result]
    change _ = Except.ok (if Accepted l then headers all else .badRequest)
    by_cases hshort : ShortTail 6 l
    · obtain ⟨tail, htail, hlen⟩ := hshort
      obtain ⟨tail', hj, hlen'⟩ := judge_of_requestTail htail hlen
      rw [if_neg (not_accepted_of_short hj (by omega))]
      by_cases h6 : tail.length = 6
      · exact result_of_six w hd hst chunks' hj (hlen'.trans h6)
      · obtain ⟨hpos, hend, hslash⟩ := h l all tail e hclean htail (by omega)
        rw [← hlen'] at hpos hend hslash
        have hlength := length_of_frame_line hf
        have hfits := s.fits
        have hend' : 0 ∈ rest.drop (5 - tail'.length) ∨
            s'.startLine + l.length + 2 + rest.length < bufferSize := by
          cases hrec : received (bufferSize - s'.readIndex) chunks' with
          | nil =>
            rw [hrec, List.append_nil] at hall
            rw [hall] at hend hlength
            rcases hend with hz | hroom
            · exact Or.inl hz
            · exact Or.inr (by omega)
          | cons b more =>
            rw [hrec] at hall
            rw [hall, List.length_append, List.length_cons] at hlength
            exact Or.inr (by omega)
        rw [result_of_probe w hd hst chunks' hj (by omega) (by omega) hend', ← hall]
        split
        next hfound =>
          have hmem : SLASH ∈ cstr (all.drop (5 - tail'.length)) := by
            rw [hall, List.drop_append]
            exact mem_cstr_append hfound _
          rw [headers_eq_bad_iff.mpr (hslash hmem)]
        next => rfl
    · rw [(outcome_of_line w hd hst chunks' hshort).result, ← hall]
      rfl

/-- A session whose first chunk has the whole request line. -/
theorem serve_first {first l rest : List UInt8} (hf : lineFrame first = .line l rest)
    (hfits : first.length ≤ bufferSize) (chunks : List (List UInt8)) :
    serve Session.init (first :: chunks) =
      (parseContent (Session.init.receive first) >>= resume chunks) := by
  have htake : first.take (bufferSize - Session.init.readIndex) = first :=
    List.take_of_length_le hfits
  have hlen := length_of_frame_line hf
  have hne : first.take (bufferSize - Session.init.readIndex) ≠ [] := by
    rw [htake]
    rintro rfl
    simp at hlen
    omega
  rw [serve_cons chunks hne, htake]

/-- The whole stream at once. -/
def Cutting.single (s : Stream) (h : s.bytes ≠ []) : Cutting s :=
  ⟨[s.bytes], by simp, by simpa using h⟩

/-- The request line, and then the rest. -/
def Cutting.behindLine (s : Stream) (l rest : List UInt8) (h : s.bytes = l ++ CR :: LF :: rest) :
    Cutting s where
  chunks := (l ++ [CR, LF]) :: if rest = [] then [] else [rest]
  whole := by
    split
    next hr => simp [h, hr]
    next => simp [h]
  nonempty := by
    intro c hc
    split at hc
    next => simp_all
    next hr =>
      rcases List.mem_cons.mp hc with rfl | hc
      · simp
      · simp_all

/-- Exactly on the insensitive streams all cuttings lead to one HTTP_CODE. -/
theorem same_code_iff (s : Stream) :
    (∀ c c' : Cutting s, ∃ code, (serve Session.init c.chunks).result = .ok code ∧
      (serve Session.init c'.chunks).result = .ok code) ↔ Insensitive s := by
  constructor
  · intro h l rest tail e hclean htail hlen
    have hf := lineFrame_of e hclean
    obtain ⟨tail', hj, hlen'⟩ := judge_of_requestTail htail (by omega)
    have hlength := length_of_frame_line hf
    have hfits := s.fits
    have hne : s.bytes ≠ [] := by
      rw [e]
      simp
    have w := awaiting_stream s
    have hstart : (Session.init.receive s.bytes).startLine = 0 := rfl
    obtain ⟨code, hwhole, hcut⟩ := h (.single s hne) (.behindLine s l rest e)
    rw [Cutting.single, serve_first hf hfits] at hwhole
    rw [← hlen'] at hlen ⊢
    have hheld : l.length + 2 + (5 - tail'.length) < bufferSize ∧
        (0 ∈ rest.drop (5 - tail'.length) ∨ s.bytes.length < bufferSize) := by
      by_contra hno
      refine no_result_of_skip w hf rfl [] hj (by omega) (probe_open w hf hlen ?_) code hwhole
      rw [hstart]
      simp only [Nat.zero_add]
      rwa [← hlength]
    refine ⟨hheld.1, hheld.2, ?_⟩
    intro hslash
    -- with the whole stream the header lines decide, with the request line alone nothing does
    rw [result_of_probe w hf rfl [] hj hlen (by omega)
      (by rw [hstart, Nat.zero_add, ← hlength]; exact hheld.2), if_pos hslash] at hwhole
    have hfirst : lineFrame (l ++ [CR, LF]) = .line l [] := frame_line_of hclean
    have hfits' : (l ++ [CR, LF]).length ≤ bufferSize := by
      simp
      omega
    have w' : Awaiting (Session.init.receive (l ++ [CR, LF])) (l ++ [CR, LF]) :=
      awaiting_stream ⟨_, hfits'⟩
    have hstart' : (Session.init.receive (l ++ [CR, LF])).startLine = 0 := rfl
    rw [Cutting.behindLine, serve_first hfirst hfits',
      result_of_probe w' hfirst rfl _ hj hlen (by omega) (Or.inr (by simp; omega))] at hcut
    simp only [List.drop_nil, cstr, List.takeWhile_nil, List.not_mem_nil, if_false] at hcut
    rw [← headers_eq_bad_iff]
    simp only [received, List.append_nil, Except.ok.injEq] at hwhole hcut
    rw [hwhole, hcut]
  · intro h c c'
    exact ⟨commonCode s, code_of_insensitive h c, code_of_insensitive h c'⟩

/-- `"GET / X"`, a CRLF, `"ab/"` and two CRLF. -/
def shortRequest : Stream :=
  ⟨[71, 69, 84, 32, 47, 32, 88, 13, 10, 97, 98, 47, 13, 10, 13, 10], by decide⟩

theorem codes_differ : ¬ ∀ (s : Stream) (c c' : Cutting s),
    (serve Session.init c.chunks).result = (serve Session.init c'.chunks).result := by
  intro h
  have hcut := h shortRequest
    ⟨[[71, 69, 84, 32, 47, 32, 88, 13, 10, 97, 98, 47, 13, 10, 13, 10]], by decide, by decide⟩
    ⟨[[71, 69, 84, 32, 47, 32, 88, 13, 10], [97, 98, 47, 13, 10, 13, 10]], by decide, by decide⟩
  revert hcut
  decide +kernel

end LinuxDemo.Guarantees.HttpParse
