import LinuxDemo.Invariant.HttpVerdict

/-!
# The grammar of the request line

`RequestLine` is the grammar, as one would write it down. `Tokens` is a line as far as
`parse_requestline` cuts it: a line that is not cut so far is rejected by both. Behind the
cut the two part ways, since the code looks for a slash in the URL where the version, not
the scheme, decides that it should.
-/
namespace LinuxDemo.Invariant.Http
open LinuxDemo.Lib LinuxDemo.Lib.CString LinuxDemo.Source.HttpParse

/-- `"http://"` -/
def HTTP_SCHEME : List UInt8 := [104, 116, 116, 112, 58, 47, 47]

/-- The scheme, and text with a slash behind it. -/
def AbsoluteForm (target rest : List UInt8) : Prop :=
  ∃ scheme, target = scheme ++ rest ∧ SameText scheme HTTP_SCHEME ∧ SLASH ∈ rest

/-- The URL that a request target stands for: itself, or from its path on. -/
def UrlOf (target url : List UInt8) : Prop :=
  (target.head? = some SLASH ∧ url = target) ∨
    ∃ rest, AbsoluteForm target rest ∧ url = rest.dropWhile (· ≠ SLASH)

/-- The line is a method GET, a space or tab, any tabs, a target without space or tab, a
space or tab, any of these, and the version HTTP/1.1; and `url` is the URL of the target. -/
def RequestLine (l url : List UInt8) : Prop :=
  ∃ method sep tabs target blank skipped version,
    l = method ++ sep :: (tabs ++ (target ++ blank :: (skipped ++ version))) ∧
    SameText method GET ∧ (sep ∈ blanks ∧ ∀ c ∈ tabs, c = TAB) ∧ (∀ c ∈ target, c ∉ blanks) ∧
    (blank ∈ blanks ∧ ∀ c ∈ skipped, c ∈ blanks) ∧ SameText version HTTP_1_1 ∧ UrlOf target url

/-- A line cut into its method, its URL and what is behind the blank that follows. -/
structure Tokens where
  method : List UInt8
  sep : UInt8
  tabs : List UInt8
  url : List UInt8
  blank : UInt8
  after : List UInt8
  get : SameText method GET
  separated : (sep ∈ blanks ∧ blank ∈ blanks) ∧ ∀ c ∈ tabs, c = TAB
  word : ∀ c ∈ url, c ∉ blanks
  all_tabs : (url ++ blank :: after).head? ≠ some TAB

namespace Tokens

def line (k : Tokens) : List UInt8 :=
  k.method ++ k.sep :: (k.tabs ++ (k.url ++ k.blank :: k.after))

/-- Where the URL begins. -/
def offset (k : Tokens) : Nat := k.method.length + 1 + k.tabs.length

def version (k : Tokens) : List UInt8 := k.after.dropWhile (· ∈ blanks)

theorem length_line (k : Tokens) :
    k.line.length = k.offset + (k.url.length + 1 + k.after.length) := by
  simp only [line, offset, List.length_append, List.length_cons]
  omega

end Tokens

/-- Behind blanks, a version does not begin with one. -/
theorem dropWhile_blanks {skipped version : List UInt8} (hs : ∀ c ∈ skipped, c ∈ blanks)
    (hv : SameText version HTTP_1_1) :
    (skipped ++ version).dropWhile (· ∈ blanks) = version := by
  refine dropWhile_append_of_head hs fun c hc => ?_
  cases version with
  | nil => cases hc
  | cons b version =>
    have hb : tolower b = tolower 72 := (List.cons.inj hv).1
    obtain rfl : b = c := Option.some.inj hc
    intro h
    simp only [blanks, List.mem_cons, List.not_mem_nil, or_false] at h
    rcases h with rfl | rfl
    · exact absurd hb (by decide)
    · exact absurd hb (by decide)

/-- What a request line of the grammar is cut into. -/
theorem RequestLine.tokens {l url : List UInt8} (h : RequestLine l url) :
    ∃ k : Tokens, k.line = l ∧ SameText k.version HTTP_1_1 ∧ UrlOf k.url url := by
  obtain ⟨method, sep, tabs, target, blank, skipped, version, rfl, hget, hsep, hword, hblank, hver,
    hurl⟩ := h
  have hslash : ∃ c t, target = c :: t := by
    cases target with
    | nil =>
      rcases hurl with ⟨hnil, -⟩ | ⟨rest, ⟨scheme, hnil, -, hmem⟩, -⟩
      · cases hnil
      · obtain ⟨-, rfl⟩ := List.append_eq_nil_iff.mp hnil.symm
        cases hmem
    | cons c t => exact ⟨c, t, rfl⟩
  obtain ⟨c, t, rfl⟩ := hslash
  have htab : c ≠ TAB := by
    rintro rfl
    exact hword TAB (by simp) (by decide)
  refine ⟨⟨method, sep, tabs, c :: t, blank, skipped ++ version, hget, ⟨⟨hsep.1, hblank.1⟩, hsep.2⟩,
    hword, by simpa using htab⟩, rfl, ?_, hurl⟩
  rw [Tokens.version, dropWhile_blanks hblank.2 hver]
  exact hver

theorem Tokens.requestLine (k : Tokens) {url : List UInt8} (hver : SameText k.version HTTP_1_1)
    (hurl : UrlOf k.url url) : RequestLine k.line url := by
  refine ⟨k.method, k.sep, k.tabs, k.url, k.blank, k.after.takeWhile (· ∈ blanks), k.version, ?_,
    k.get, ⟨k.separated.1.1, k.separated.2⟩, k.word, ⟨k.separated.1.2, ?_⟩, hver, hurl⟩
  · simp only [Tokens.version, List.takeWhile_append_dropWhile]
    rfl
  · intro c hc
    simpa using List.mem_takeWhile_imp hc

section Judge
variable {l : List UInt8}

/-- The line as `judge` sees it. Only the URL must be free of NULs for the two cuts. -/
theorem judge_of_plain_url (k : Tokens) (h0 : ∀ c ∈ k.url, c ≠ 0) :
    targetOf k.line = k.url ∧ judge k.line =
      if SameText (cstr k.version) HTTP_1_1 then if k.url.headD 0 = SLASH then .accept else .reject
      else .skip (k.url ++ 0 :: k.after) := by
  have hword : ∀ c ∈ k.url, c ≠ 0 ∧ c ∉ blanks := fun c hc => ⟨h0 c hc, k.word c hc⟩
  have htail : RequestTail k.line (k.url ++ k.blank :: k.after) :=
    ⟨k.method, k.sep, k.tabs, k.url, k.blank, k.after, rfl, rfl, k.get, k.separated.1, k.separated.2,
      k.all_tabs, hword⟩
  have hsecond : cutAt blanks (k.url ++ k.blank :: k.after) = some (k.url, k.after) :=
    cutAt_append hword ⟨ne_zero_of_mem_blanks k.separated.1.2, k.separated.1.2⟩ k.after
  obtain ⟨hjudge, htarget⟩ := htail.first_cut
  constructor
  · rw [htarget, hsecond]
    rfl
  · rw [hjudge, judgeVersion, hsecond]
    rfl

/-- A line without NUL. -/
theorem judge_tokens (k : Tokens) (h0 : ∀ c ∈ k.line, c ≠ 0) :
    targetOf k.line = k.url ∧ judge k.line =
      if SameText k.version HTTP_1_1 then if k.url.headD 0 = SLASH then .accept else .reject
      else .skip (k.url ++ 0 :: k.after) := by
  have hmem : ∀ c, c ∈ k.url ∨ c ∈ k.after → c ≠ 0 := by
    intro c hc
    apply h0 c
    simp only [Tokens.line, List.mem_append, List.mem_cons]
    rcases hc with h | h <;> simp [h]
  have hversion : cstr k.version = k.version := by
    refine cstr_eq_self fun c hc => hmem c (.inr ?_)
    exact (List.dropWhile_sublist _).subset hc
  have h := judge_of_plain_url k fun c hc => hmem c (.inl hc)
  rwa [hversion] at h

/-- A line that is not rejected is cut, and its URL has no NUL. -/
theorem plain_tokens_of_judge (hj : judge l ≠ .reject) :
    ∃ k : Tokens, k.line = l ∧ ∀ c ∈ k.url, c ≠ 0 := by
  obtain ⟨-, ⟨method, sep, tabs, url, blank, after, rfl, rfl, hget, hblanks, htabs, hhead, hword⟩, -⟩ :=
    requestTail_of_not_reject hj
  exact ⟨⟨method, sep, tabs, url, blank, after, hget, ⟨hblanks, htabs⟩, fun c hc => (hword c hc).2,
    hhead⟩, rfl, fun c hc => (hword c hc).1⟩

/-- A line that is not cut is rejected. -/
theorem tokens_of_judge (hj : judge l ≠ .reject) : ∃ k : Tokens, k.line = l := by
  obtain ⟨k, hk, -⟩ := plain_tokens_of_judge hj
  exact ⟨k, hk⟩

end Judge

/-- A line without NUL in the buffer, as a C string. -/
structure Line where
  buffer : Buffer
  start : Nat
  text : List UInt8
  held : Holds buffer start (text ++ [0])
  fits : start + text.length < bufferSize
  noNul : ∀ c ∈ text, c ≠ 0

/-- What `parse_requestline` returns, reports and leaves in the buffer. -/
def Line.reply (x : Line) (st : CheckState) : Except Fault Reply :=
  (parseRequestline x.buffer x.start st).result

section Reply
variable {x : Line} (st : CheckState)

theorem Line.reject (hj : judge x.text = .reject) :
    ∃ m out, x.reply st = .ok ⟨.badRequest, st, m, out⟩ := by
  have spec := parseRequestline_spec x.held x.fits st
  rw [hj] at spec
  obtain ⟨m, out, -, h⟩ := spec
  exact ⟨m, out, h.result⟩

theorem Line.accept (hj : judge x.text = .accept) :
    ∃ m, x.reply st = .ok ⟨.noRequest, .header, m, [.methodIsGet, .urlIs (targetOf x.text)]⟩ := by
  have spec := parseRequestline_spec x.held x.fits st
  rw [hj] at spec
  obtain ⟨m, -, h⟩ := spec
  exact ⟨m, h.result⟩

/-- The reply where a slash is looked for is a rejection exactly if there is none. -/
theorem skipScheme_reject_iff (m : Buffer) (url : Nat) :
    (∃ m' out, (skipScheme m url st).result = .ok ⟨.badRequest, st, m', out⟩) ↔
      EndsWithout bufferSize m (url + 7) SLASH := by
  rw [← strchr_eq_none_iff (by decide)]
  unfold skipScheme
  constructor
  · rintro ⟨m', out, h⟩
    rw [Traced.result_bind, bind_eq_ok_iff] at h
    obtain ⟨found, hfound, h⟩ := h
    cases found with
    | none => exact hfound
    | some p =>
      -- what is found is a slash, and then there is no rejection
      have hslash : m p = SLASH := by
        unfold strchr at hfound
        rw [Traced.result_bind, bind_eq_ok_iff] at hfound
        obtain ⟨q, -, hq⟩ := hfound
        by_cases e : m q = SLASH
        · simp only [if_pos e, Traced.result_pure, Except.ok.injEq, Option.some.injEq] at hq
          exact hq ▸ e
        · simp [e] at hq
      unfold reportUrl at h
      rw [Traced.result_bind, bind_eq_ok_iff] at h
      obtain ⟨first, hfirst, h⟩ := h
      obtain rfl : m p = first := by
        by_cases hp : p < bufferSize
        · simpa [readByte, hp] using hfirst
        · simp [readByte, hp] at hfirst
      rw [if_neg (not_not.mpr hslash), Traced.result_bind, bind_eq_ok_iff] at h
      obtain ⟨text, -, h⟩ := h
      cases h
  · intro h
    refine ⟨m, [.methodIsGet], ?_⟩
    rw [Traced.result_bind, h]
    rfl

/-- Where the version is not HTTP/1.1, the C string seven bytes behind the beginning of the
URL decides, the blank behind the URL being a NUL by then. -/
theorem Line.skip_reject_iff {k : Tokens} (hk : k.line = x.text)
    (hver : ¬ SameText k.version HTTP_1_1) :
    (∃ m out, x.reply st = .ok ⟨.badRequest, st, m, out⟩) ↔
      EndsWithout bufferSize
        (Function.update x.buffer (x.start + k.offset + k.url.length) 0)
        (x.start + k.offset + 7) SLASH := by
  have hj := (judge_tokens k (hk ▸ x.noNul)).2
  rw [if_neg hver, hk] at hj
  have spec := parseRequestline_spec x.held x.fits st
  rw [hj] at spec
  obtain ⟨m, url, same, -, hend, hm, h⟩ := spec
  have hlen := k.length_line
  rw [hk] at hlen
  simp only [List.length_append, List.length_cons] at hend
  obtain rfl : url = x.start + k.offset := by omega
  have held := x.held
  have hline : x.text = (k.method ++ k.sep :: k.tabs) ++ (k.url ++ k.blank :: k.after) := by
    rw [← hk, Tokens.line]
    simp
  have hpre : (k.method ++ k.sep :: k.tabs).length = k.offset := by
    simp only [Tokens.offset, List.length_append, List.length_cons]
    omega
  rw [hline, List.append_assoc, holds_append, hpre] at held
  -- the two buffers agree from the URL on
  have hcut := holds_terminate held.2
  have agree : ∀ q, x.start + k.offset ≤ q →
      m q = Function.update x.buffer (x.start + k.offset + k.url.length) 0 q := by
    intro q hq
    by_cases hin : q < x.start + x.text.length
    · refine eq_of_holds hm hcut hq ?_
      simp only [List.length_append, List.length_cons, List.length_nil]
      omega
    · rw [same q (by omega), Function.update_of_ne (by omega)]
  have hreply : x.reply st = (skipScheme m (x.start + k.offset) st).result := h.result
  rw [hreply, skipScheme_reject_iff st]
  constructor
  · exact fun hw => hw.congr fun q hq => (agree q (by omega)).symm
  · exact fun hw => hw.congr fun q hq => agree q (by omega)

end Reply
end LinuxDemo.Invariant.Http
