import LinuxDemo.Invariant.HttpSession

/-!
# Verdicts

The result of a session from the chunk that completes its request line on. Only a line of
which fewer than seven bytes are left at the URL lets the search for a slash leave the
line; then the bytes behind the line decide as far as they have arrived.
-/
namespace LinuxDemo.Invariant.Http
open LinuxDemo.Lib LinuxDemo.Lib.CString LinuxDemo.Source.HttpParse

/-- `l` is GET, a blank, any tabs and `tail`, and `tail` is a word and a blank, with
anything behind them. -/
def RequestTail (l tail : List UInt8) : Prop :=
  ∃ method sep tabs word b rest, l = method ++ sep :: (tabs ++ tail) ∧ tail = word ++ b :: rest ∧
    SameText method GET ∧ (sep ∈ blanks ∧ b ∈ blanks) ∧ (∀ c ∈ tabs, c = TAB) ∧
    tail.head? ≠ some TAB ∧ ∀ c ∈ word, c ≠ 0 ∧ c ∉ blanks

/-- At most `n` bytes are left of a request line at its URL. -/
def ShortTail (n : Nat) (l : List UInt8) : Prop := ∃ tail, RequestTail l tail ∧ tail.length ≤ n

section Tail
variable {l tail : List UInt8}

theorem plain_of_sameText_get {method : List UInt8} (h : SameText method GET) :
    ∀ c ∈ method, c ≠ 0 ∧ c ∉ blanks := by
  intro c hc
  have hmem : tolower c ∈ GET.map tolower := by
    rw [← h]
    exact List.mem_map_of_mem hc
  constructor
  · exact h.ne_zero ne_zero_of_mem_get c hc
  · intro e
    simp only [blanks, List.mem_cons, List.not_mem_nil, or_false] at e
    rcases e with e | e
    · rw [e] at hmem
      exact absurd hmem (by decide)
    · rw [e] at hmem
      exact absurd hmem (by decide)

theorem ne_zero_of_mem_blanks {b : UInt8} (h : b ∈ blanks) : b ≠ 0 := by
  intro e
  rw [e] at h
  exact zero_not_mem_blanks h

theorem dropWhile_tabs {tabs : List UInt8} (ht : ∀ c ∈ tabs, c = TAB)
    (hh : tail.head? ≠ some TAB) : (tabs ++ tail).dropWhile (· ∈ [TAB]) = tail := by
  refine dropWhile_append_of_head (by simpa using ht) fun c hc hmem => hh ?_
  rw [← List.mem_singleton.mp hmem]
  exact hc

/-- The first cut leaves the tail. -/
theorem RequestTail.first_cut (h : RequestTail l tail) :
    judge l = judgeVersion tail ∧ targetOf l = ((cutAt blanks tail).map Prod.fst).getD [] := by
  obtain ⟨method, sep, tabs, word, b, rest, rfl, -, hget, ⟨hsep, -⟩, htabs, hhead, -⟩ := h
  have hfirst := cutAt_append (plain_of_sameText_get hget) ⟨ne_zero_of_mem_blanks hsep, hsep⟩
    (tabs ++ tail)
  constructor
  · simp only [judge, hfirst, if_pos hget, dropWhile_tabs htabs hhead]
  · simp only [targetOf, hfirst, dropWhile_tabs htabs hhead]

theorem requestTail_of_not_reject (h : judge l ≠ .reject) :
    ∃ tail, RequestTail l tail ∧ judge l = judgeVersion tail := by
  unfold judge at h ⊢
  split at h
  next => exact absurd rfl h
  next method rest hfirst =>
    split at h
    next hget =>
      refine ⟨rest.dropWhile (· ∈ [TAB]), ?_, if_pos hget⟩
      unfold judgeVersion at h
      split at h
      next => exact absurd rfl h
      next word more hsecond =>
        obtain ⟨sep, hsep, rfl, -⟩ := cutAt_eq_some_iff.mp hfirst
        obtain ⟨b, hb, htail, hword⟩ := cutAt_eq_some_iff.mp hsecond
        refine ⟨method, sep, rest.takeWhile (· ∈ [TAB]), word, b, more, ?_, htail, hget,
          ⟨hsep.2, hb.2⟩, ?_, ?_, hword⟩
        · rw [List.takeWhile_append_dropWhile]
        · intro c hc
          simpa using List.mem_takeWhile_imp hc
        · intro hhead
          have := List.head?_dropWhile_not (· ∈ [TAB]) rest
          rw [hhead] at this
          simp at this
    next => exact absurd rfl h

/-- A short tail has no room for the version `HTTP/1.1`. -/
theorem judge_of_requestTail (h : RequestTail l tail) (hlen : tail.length ≤ 6) :
    ∃ tail', judge l = .skip tail' ∧ tail'.length = tail.length := by
  rw [h.first_cut.1]
  obtain ⟨-, -, -, word, b, rest, -, rfl, -, ⟨-, hb⟩, -, -, hword⟩ := h
  simp only [List.length_append, List.length_cons] at hlen
  refine ⟨word ++ 0 :: rest, ?_, by simp⟩
  have hversion : ¬ SameText (cstr (rest.dropWhile (· ∈ blanks))) HTTP_1_1 := by
    intro h
    have h8 := congrArg List.length h
    rw [List.length_map, List.length_map] at h8
    have hcstr := length_cstr_le (rest.dropWhile (· ∈ blanks))
    have hdrop := drop_takeWhile_length (· ∈ blanks) rest
    simp only [HTTP_1_1, List.length_cons, List.length_nil] at h8
    omega
  unfold judgeVersion
  rw [cutAt_append hword ⟨ne_zero_of_mem_blanks hb, hb⟩ rest]
  simp only [if_neg hversion]

theorem length_of_judgeVersion {tail' : List UInt8} (h : judgeVersion tail = .skip tail') :
    tail.length = tail'.length := by
  unfold judgeVersion at h
  split at h
  next => cases h
  next word more hcut =>
    obtain ⟨b, -, rfl, -⟩ := cutAt_eq_some_iff.mp hcut
    split at h
    next =>
      split at h
      · cases h
      · cases h
    next =>
      cases h
      simp

theorem requestTail_of_judge {tail' : List UInt8} (h : judge l = .skip tail') :
    ∃ tail, RequestTail l tail ∧ tail.length = tail'.length := by
  obtain ⟨tail, htail, hj⟩ := requestTail_of_not_reject (l := l) (by rw [h]; nofun)
  exact ⟨tail, htail, length_of_judgeVersion (hj.symm.trans h)⟩

end Tail

/-- What the request line says when its tail is followed to the end of the line. -/
def Judgement.Accepts : Judgement → Prop
  | .reject => False
  | .accept => True
  | .skip tail => SLASH ∈ cstr (tail.drop 7)

def Accepted (l : List UInt8) : Prop := (judge l).Accepts

instance (l : List UInt8) : Decidable (Accepted l) := by
  unfold Accepted Judgement.Accepts
  split <;> infer_instance

section Outcome
variable {s : Session} {d l rest : List UInt8} {chunks : List (List UInt8)}

theorem parseContent_requestline (w : Awaiting s d) (hf : lineFrame d = .line l rest)
    (hst : s.checkstate = .requestline) (chunks : List (List UInt8)) {y : Traced Nat Reply}
    (h : Traced.Leads (InLine s.startLine l)
      (parseRequestline (delivered s l).buffer s.startLine .requestline) y) :
    Traced.Leads Contained (parseContent s >>= resume chunks)
      (y.relabel (.byText s.startLine (delivered s l).checkedIndex s.readIndex) >>=
        afterRequestline s.readIndex (delivered s l) >>= resume chunks) := by
  obtain ⟨w', -⟩ := w.delivered hf
  have hloop := loop_requestline w hf hst s.readIndex
  have hreply := Traced.Leads.relabel (h.mono (contained_byText w'))
  exact (hloop.bind_left _).trans ((hreply.bind_left _).bind_left _)

theorem parseContent_reply (w : Awaiting s d) (hf : lineFrame d = .line l rest)
    (hst : s.checkstate = .requestline) (chunks : List (List UInt8)) {reply : Reply}
    (h : Traced.Leads (InLine s.startLine l)
      (parseRequestline (delivered s l).buffer s.startLine .requestline) (pure reply)) :
    Traced.Leads Contained (parseContent s >>= resume chunks)
      (afterRequestline s.readIndex (delivered s l) reply >>= resume chunks) :=
  parseContent_requestline w hf hst chunks h

theorem after_bad {reply : Reply} (n : Nat) (h : reply.code = .badRequest) :
    Traced.Leads Contained (afterRequestline n s reply >>= resume chunks) (pure .badRequest) := by
  unfold afterRequestline
  rw [if_pos h]
  exact Traced.Leads.bind (Traced.Leads.refl _) (Traced.Leads.refl _)

theorem after_accept (w : Awaiting s d) (hf : lineFrame d = .line l rest) {m : Buffer}
    (same : SameOutside s.startLine l (delivered s l).buffer m) (out : List Message) :
    Traced.Leads Contained
      (afterRequestline s.readIndex (delivered s l) ⟨.noRequest, .header, m, out⟩ >>=
        resume chunks)
      (pure (headers (rest ++ received (bufferSize - s.readIndex) chunks))) := by
  obtain ⟨w', -⟩ := w.delivered hf
  have hread := w.read
  have hlen := length_of_frame_line hf
  unfold afterRequestline
  rw [if_neg (by simp)]
  apply resume_headers chunks (w'.rewrite (m := m) ?_ .header) rfl (by omega)
  intro p hp
  simp only [delivered] at hp
  exact same p (by omega)

/-- A request line whose tail is not short decides the session with the rest of the stream,
and nothing leaves the line. -/
theorem outcome_of_line (w : Awaiting s d) (hf : lineFrame d = .line l rest)
    (hst : s.checkstate = .requestline) (chunks : List (List UInt8)) (hshort : ¬ ShortTail 6 l) :
    Traced.Leads Contained (parseContent s >>= resume chunks)
      (pure (if Accepted l then headers (rest ++ received (bufferSize - s.readIndex) chunks)
        else .badRequest)) := by
  obtain ⟨w', hheld⟩ := w.delivered hf
  have hread := w'.read
  have hbound := w'.bound
  simp only [delivered] at hread hbound
  have spec := parseRequestline_spec hheld (by omega) .requestline
  cases hj : judge l with
  | reject =>
    have hno : ¬ Accepted l := by simp [Accepted, hj, Judgement.Accepts]
    rw [hj] at spec
    obtain ⟨m, out, -, h⟩ := spec
    rw [if_neg hno]
    apply (parseContent_reply w hf hst chunks h).trans
    exact after_bad _ rfl
  | accept =>
    have hyes : Accepted l := by simp [Accepted, hj, Judgement.Accepts]
    rw [hj] at spec
    obtain ⟨m, same, h⟩ := spec
    rw [if_pos hyes]
    apply (parseContent_reply w hf hst chunks h).trans
    exact after_accept w hf same _
  | skip tail =>
    have hiff : Accepted l ↔ SLASH ∈ cstr (tail.drop 7) := by
      simp [Accepted, hj, Judgement.Accepts]
    rw [hj] at spec
    obtain ⟨m, url, same, hk, hend, hm, h⟩ := spec
    have hlen : 7 ≤ tail.length := by
      obtain ⟨tail', htail, e⟩ := requestTail_of_judge hj
      by_contra hlt
      exact hshort ⟨tail', htail, by omega⟩
    have hm7 : Holds m (url + 7) (tail.drop 7 ++ 0 :: [0]) := holds_drop hm hlen
    have hdrop : (tail.drop 7).length + 7 = tail.length := by
      rw [List.length_drop]
      omega
    have hS : ∀ q, url + 7 ≤ q → q ≤ url + 7 + (tail.drop 7).length → InLine s.startLine l q :=
      inLine_of_le (by omega) (by omega)
    obtain ⟨out, hskip⟩ := skipScheme_leads .requestline hm7 (by omega) hS
    apply (parseContent_reply w hf hst chunks (h.trans hskip)).trans
    by_cases hslash : SLASH ∈ cstr (tail.drop 7)
    · rw [if_pos hslash, if_pos (hiff.mpr hslash)]
      exact after_accept w hf same out
    · rw [if_neg hslash, if_neg (fun h => hslash (hiff.mp h))]
      exact after_bad _ rfl

/-- With a short tail the session goes on with the search behind the line. -/
theorem outcome_of_skip (w : Awaiting s d) (hf : lineFrame d = .line l rest)
    (hst : s.checkstate = .requestline) (chunks : List (List UInt8)) {tail : List UInt8}
    (hj : judge l = .skip tail) :
    ∃ m url, SameOutside s.startLine l (delivered s l).buffer m ∧
      url + tail.length = s.startLine + l.length ∧
      Traced.Leads Contained (parseContent s >>= resume chunks)
        ((skipScheme m url .requestline).relabel
          (.byText s.startLine (delivered s l).checkedIndex s.readIndex) >>=
            afterRequestline s.readIndex (delivered s l) >>= resume chunks) := by
  obtain ⟨w', hheld⟩ := w.delivered hf
  have hread := w'.read
  have hbound := w'.bound
  simp only [delivered] at hread hbound
  have spec := parseRequestline_spec hheld (by omega) .requestline
  rw [hj] at spec
  obtain ⟨m, url, same, -, hend, -, h⟩ := spec
  exact ⟨m, url, same, hend, parseContent_requestline w hf hst chunks h⟩

/-- A short tail makes `strchr` start behind the terminator of the line. -/
theorem escape_of_short (w : Awaiting s d) (hf : lineFrame d = .line l rest)
    (hst : s.checkstate = .requestline) (chunks : List (List UInt8)) (hshort : ShortTail 6 l) :
    ¬ Traced.Within Contained (parseContent s >>= resume chunks) := by
  obtain ⟨tail, htail, hlen⟩ := hshort
  obtain ⟨tail', hj, e⟩ := judge_of_requestTail htail hlen
  obtain ⟨m, url, -, hend, h⟩ := outcome_of_skip w hf hst chunks hj
  rw [h.within_iff]
  intro hin
  have hmem : Access.byText s.startLine (delivered s l).checkedIndex s.readIndex (url + 7) ∈
      ((skipScheme m url .requestline).relabel
        (.byText s.startLine (delivered s l).checkedIndex s.readIndex)).log :=
    List.mem_map_of_mem (mem_log_skipScheme m url .requestline)
  have hcon := hin _ (Traced.log_subset_bind _ _ (Traced.log_subset_bind _ _ hmem))
  simp only [Contained, delivered] at hcon
  omega

/-- The search finds a text that ends inside of the buffer. -/
theorem result_of_skip (w : Awaiting s d) (hf : lineFrame d = .line l rest)
    (hst : s.checkstate = .requestline) (chunks : List (List UInt8)) {tail t more : List UInt8}
    (hj : judge l = .skip tail) (hlen : tail.length ≤ 7)
    (hm : Holds (delivered s l).buffer (s.startLine + l.length + 7 - tail.length) (t ++ 0 :: more))
    (hsize : s.startLine + l.length + 7 - tail.length + t.length < bufferSize) :
    (parseContent s >>= resume chunks).result =
      .ok (if SLASH ∈ cstr t then headers (rest ++ received (bufferSize - s.readIndex) chunks)
        else .badRequest) := by
  obtain ⟨m, url, same, hend, h⟩ := outcome_of_skip w hf hst chunks hj
  have hurl : s.startLine + l.length + 7 - tail.length = url + 7 := by omega
  rw [hurl] at hm hsize
  have hm' : Holds m (url + 7) (t ++ 0 :: more) := by
    apply holds_congr hm
    intro q hq _
    exact same q (by omega)
  obtain ⟨out, hskip⟩ := skipScheme_leads (S := fun _ => True) .requestline hm' hsize
    (fun _ _ _ => trivial)
  rw [h.result, Traced.result_bind, Traced.result_bind, Traced.result_relabel, hskip.result]
  by_cases hslash : SLASH ∈ cstr t
  · simp only [if_pos hslash, Traced.result_pure, ok_bind]
    rw [← Traced.result_bind, (after_accept w hf same out).result]
    rfl
  · simp only [if_neg hslash, Traced.result_pure, ok_bind]
    rw [← Traced.result_bind, (after_bad _ rfl).result]
    rfl

/-- The search runs off the end of the buffer. -/
theorem no_result_of_skip (w : Awaiting s d) (hf : lineFrame d = .line l rest)
    (hst : s.checkstate = .requestline) (chunks : List (List UInt8)) {tail : List UInt8}
    (hj : judge l = .skip tail) (hlen : tail.length ≤ 7)
    (hm : ∀ q, s.startLine + l.length + 7 - tail.length ≤ q → q < bufferSize →
      (delivered s l).buffer q ≠ 0) (code : HttpCode) :
    (parseContent s >>= resume chunks).result ≠ .ok code := by
  obtain ⟨m, url, same, hend, h⟩ := outcome_of_skip w hf hst chunks hj
  intro hr
  rw [h.result, Traced.result_bind, Traced.result_bind, bind_eq_ok_iff] at hr
  obtain ⟨r, hr, -⟩ := hr
  obtain ⟨reply, hreply, -⟩ := (bind_eq_ok_iff _ _ _).mp hr
  apply skipScheme_overrun .requestline _ reply hreply
  intro q hq hq'
  rw [same q (by omega)]
  exact hm q (by omega) hq'

/-- Where the search behind a line with `n` bytes left begins, and what is there. -/
theorem probe_held (w : Awaiting s d) (hf : lineFrame d = .line l rest) {n : Nat} (hn : n ≤ 5)
    (hpos : s.startLine + l.length + 2 + (5 - n) < bufferSize)
    (hend : 0 ∈ rest.drop (5 - n) ∨ s.startLine + l.length + 2 + rest.length < bufferSize) :
    ∃ t more, Holds (delivered s l).buffer (s.startLine + l.length + 7 - n) (t ++ 0 :: more) ∧
      s.startLine + l.length + 7 - n + t.length < bufferSize ∧
      cstr t = cstr (rest.drop (5 - n)) := by
  obtain ⟨w', -⟩ := w.delivered hf
  have hread : s.readIndex = s.startLine + l.length + 2 + rest.length := w'.read
  have hold : Holds (delivered s l).buffer (s.startLine + l.length + 2) rest := w'.holds
  have hbound : s.readIndex ≤ bufferSize := w'.bound
  have hk : s.startLine + l.length + 7 - n = s.startLine + l.length + 2 + (5 - n) := by omega
  rw [hk]
  generalize 5 - n = j at hpos hend ⊢
  by_cases hj : j ≤ rest.length
  · have hlen : (rest.drop j).length + j = rest.length := by
      rw [List.length_drop]
      omega
    have hprobe : Holds (delivered s l).buffer (s.startLine + l.length + 2 + j) (rest.drop j) := by
      rw [← List.take_append_drop j rest, holds_append, List.length_take, Nat.min_eq_left hj]
        at hold
      exact hold.2
    rcases hend with hz | hroom
    · obtain ⟨more, e⟩ := exists_cstr_split hz
      have hlen' := congrArg List.length e
      simp only [List.length_append, List.length_cons] at hlen'
      refine ⟨cstr (rest.drop j), more, by rwa [← e], by omega, ?_⟩
      exact cstr_eq_self fun c hc => ne_zero_of_mem_cstr hc
    · refine ⟨rest.drop j, [], ?_, by omega, rfl⟩
      rw [holds_append]
      exact ⟨hprobe, w'.zero _ (by change s.readIndex ≤ _; omega), trivial⟩
  · refine ⟨[], [], ⟨w'.zero _ (by change s.readIndex ≤ _; omega), trivial⟩, hpos, ?_⟩
    rw [List.drop_eq_nil_of_le (by omega)]

/-- Where the search behind a line runs into no NUL up to the end of the buffer. -/
theorem probe_open (w : Awaiting s d) (hf : lineFrame d = .line l rest) {n : Nat} (hn : n ≤ 5)
    (h : ¬ (s.startLine + l.length + 2 + (5 - n) < bufferSize ∧ (0 ∈ rest.drop (5 - n) ∨
      s.startLine + l.length + 2 + rest.length < bufferSize))) :
    ∀ q, s.startLine + l.length + 7 - n ≤ q → q < bufferSize → (delivered s l).buffer q ≠ 0 := by
  intro q hq hq'
  obtain ⟨w', -⟩ := w.delivered hf
  have hold : Holds (delivered s l).buffer (s.startLine + l.length + 2) rest := w'.holds
  have hpos : s.startLine + l.length + 2 + (5 - n) < bufferSize := by omega
  have hend := not_or.mp fun hor => h ⟨hpos, hor⟩
  have hj : 5 - n ≤ rest.length := by omega
  rw [← List.take_append_drop (5 - n) rest, holds_append, List.length_take,
    Nat.min_eq_left hj] at hold
  have hmem := mem_of_holds hold.2 (by omega : _ ≤ q) (by rw [List.length_drop]; omega)
  intro hz
  exact hend.1 (hz ▸ hmem)

/-- With at most five bytes left the text behind the line decides. -/
theorem result_of_probe (w : Awaiting s d) (hf : lineFrame d = .line l rest)
    (hst : s.checkstate = .requestline) (chunks : List (List UInt8)) {tail : List UInt8}
    (hj : judge l = .skip tail) (hlen : tail.length ≤ 5)
    (hpos : s.startLine + l.length + 2 + (5 - tail.length) < bufferSize)
    (hend : 0 ∈ rest.drop (5 - tail.length) ∨
      s.startLine + l.length + 2 + rest.length < bufferSize) :
    (parseContent s >>= resume chunks).result =
      .ok (if SLASH ∈ cstr (rest.drop (5 - tail.length)) then
        headers (rest ++ received (bufferSize - s.readIndex) chunks) else .badRequest) := by
  obtain ⟨t, more, hm, hsize, ht⟩ := probe_held w hf hlen hpos hend
  rw [result_of_skip w hf hst chunks hj (by omega) hm hsize, ht]

/-- With six bytes left the search begins at the second NUL of the terminator. -/
theorem result_of_six (w : Awaiting s d) (hf : lineFrame d = .line l rest)
    (hst : s.checkstate = .requestline) (chunks : List (List UInt8)) {tail : List UInt8}
    (hj : judge l = .skip tail) (hlen : tail.length = 6) :
    (parseContent s >>= resume chunks).result = .ok .badRequest := by
  obtain ⟨w', hheld⟩ := w.delivered hf
  have hread : s.readIndex = s.startLine + l.length + 2 + rest.length := w'.read
  have hbound : s.readIndex ≤ bufferSize := w'.bound
  have hk : s.startLine + l.length + 7 - tail.length = s.startLine + l.length + 1 := by omega
  have hm : Holds (delivered s l).buffer (s.startLine + l.length + 7 - tail.length)
      ([] ++ 0 :: []) := by
    rw [hk]
    exact (holds_append.mp hheld).2.2
  rw [result_of_skip w hf hst chunks hj (by omega) hm (by rw [hk, List.length_nil]; omega)]
  simp [cstr]

/-- The reply to a line that was handed over is a rejection, or it rewrites nothing
outside of the line. -/
theorem requestline_reply {m : Buffer} {k : Nat} (hm : Holds m k (l ++ [0, 0]))
    (hsize : k + l.length < bufferSize) {reply : Reply}
    (h : (parseRequestline m k .requestline).result = .ok reply) :
    reply.code = .badRequest ∨
      reply.code = .noRequest ∧ reply.checkstate = .header ∧ SameOutside k l m reply.buffer := by
  have spec := parseRequestline_spec hm hsize .requestline
  cases hj : judge l with
  | reject =>
    rw [hj] at spec
    obtain ⟨m', out, -, hl⟩ := spec
    rw [hl.result] at h
    cases h
    exact Or.inl rfl
  | accept =>
    rw [hj] at spec
    obtain ⟨m', same, hl⟩ := spec
    rw [hl.result] at h
    cases h
    exact Or.inr ⟨rfl, rfl, same⟩
  | skip tail =>
    rw [hj] at spec
    obtain ⟨m', url, same, -, -, -, hl⟩ := spec
    rw [hl.result] at h
    obtain ⟨hbuffer, hbad | ⟨hcode, hst⟩⟩ := of_skipScheme_ok .requestline h
    · exact Or.inl hbad
    · exact Or.inr ⟨hcode, hst, hbuffer ▸ same⟩

end Outcome

end LinuxDemo.Invariant.Http
