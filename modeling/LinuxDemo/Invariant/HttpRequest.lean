import LinuxDemo.Invariant.HttpLine

/-!
# The request line

`judge` reads a request line as a list of bytes, step by step as `parse_requestline` does
on the buffer, up to the point where the URL pointer is moved by seven. What happens from
there on depends on how much of the line is left: `tail` of the `skip` case.
-/
namespace LinuxDemo.Invariant.Http
open LinuxDemo.Lib LinuxDemo.Lib.CString LinuxDemo.Source.HttpParse

/-- What the bytes of a request line say before the URL pointer is moved. -/
inductive Judgement where
  | reject
  | accept
  | skip (tail : List UInt8)
  deriving DecidableEq, Repr

/-- The URL and, behind any blanks, the version. The blank behind the URL has become a
NUL in the tail of the `skip` case. -/
def judgeVersion (tail : List UInt8) : Judgement :=
  match cutAt blanks tail with
  | none => .reject
  | some (url, rest) =>
    if SameText (cstr (rest.dropWhile (· ∈ blanks))) HTTP_1_1 then
      if url.headD 0 = SLASH then .accept else .reject
    else .skip (url ++ 0 :: rest)

/-- The method, and the URL behind any tabs. -/
def judge (l : List UInt8) : Judgement :=
  match cutAt blanks l with
  | none => .reject
  | some (method, rest) =>
    if SameText method GET then judgeVersion (rest.dropWhile (· ∈ [TAB])) else .reject

/-- The URL that `judge` looks at, up to the blank behind it. -/
def targetOf (l : List UInt8) : List UInt8 :=
  match cutAt blanks l with
  | none => []
  | some (_, rest) => ((cutAt blanks (rest.dropWhile (· ∈ [TAB]))).map Prod.fst).getD []

theorem zero_not_mem_blanks : (0 : UInt8) ∉ blanks := by decide

theorem ne_zero_of_mem_get : ∀ c ∈ GET, c ≠ 0 := by simp [GET]

theorem ne_zero_of_mem_host : ∀ c ∈ HOST, c ≠ 0 := by simp [HOST]

/-- The buffer agrees with another one outside of the line `l` at `k`. -/
def SameOutside (k : Nat) (l : List UInt8) (m m' : Buffer) : Prop :=
  ∀ p, p < k ∨ k + l.length ≤ p → m' p = m p

/-- A C string that ends before `k`'s terminator is inside of the line. -/
theorem inLine_of_le {k p n : Nat} {l : List UInt8} (hk : k ≤ p) (hn : p + n ≤ k + l.length) :
    ∀ q, p ≤ q → q ≤ p + n → InLine k l q := by
  intro q hq hq'
  exact ⟨by omega, by omega⟩

theorem drop_takeWhile_length (f : UInt8 → Bool) (t : List UInt8) :
    (t.takeWhile f).length + (t.dropWhile f).length = t.length := by
  have h := congrArg List.length (List.takeWhile_append_dropWhile (p := f) (l := t))
  rwa [List.length_append] at h

theorem holds_dropWhile {m : Buffer} {p : Nat} {t more : List UInt8} (f : UInt8 → Bool)
    (hm : Holds m p (t ++ more)) :
    Holds m (p + (t.takeWhile f).length) (t.dropWhile f ++ more) := by
  have e : t ++ more = t.takeWhile f ++ (t.dropWhile f ++ more) := by
    rw [← List.append_assoc, List.takeWhile_append_dropWhile]
  rw [e, holds_append] at hm
  exact hm.2

/-- Behind characters of a set stands what does not begin with one. -/
theorem dropWhile_append_of_head {accept s t : List UInt8} (hs : ∀ c ∈ s, c ∈ accept)
    (ht : ∀ c ∈ t.head?, c ∉ accept) : (s ++ t).dropWhile (· ∈ accept) = t := by
  rw [List.dropWhile_append_of_pos (by simpa using hs)]
  cases t with
  | nil => rfl
  | cons b t =>
    rw [List.dropWhile_cons_of_neg]
    simpa using ht b rfl

section Report
variable {m : Buffer} {p : Nat} {t more : List UInt8} {S : Nat → Prop} (st : CheckState)

/-- The report on a URL that begins a held text. -/
theorem reportUrl_leads (hm : Holds m p (t ++ 0 :: more)) (hsize : p + t.length < bufferSize)
    (hS : ∀ q, p ≤ q → q ≤ p + t.length → S q) :
    Traced.Leads S (reportUrl m (some p) st)
      (pure (if t.headD 0 = SLASH then ⟨.noRequest, .header, m, [.methodIsGet, .urlIs (cstr t)]⟩
        else ⟨.badRequest, st, m, [.methodIsGet]⟩)) := by
  have hp : m p = t.headD 0 := by
    cases t with
    | nil => exact hm.1
    | cons b t => exact hm.1
  have hread := readByte_leads (m := m) (by omega : p < bufferSize) (hS p (by omega) (by omega))
  unfold reportUrl
  by_cases h : t.headD 0 = SLASH
  · apply Traced.Leads.bind hread
    rw [hp, if_neg (by simpa using h), if_pos h]
    exact Traced.Leads.bind (printString_leads hm hsize hS) (Traced.Leads.refl _)
  · apply Traced.Leads.bind hread
    rw [hp, if_pos h, if_neg h]
    exact Traced.Leads.refl _

/-- Seven bytes on, the C string from its first slash on is the URL. -/
theorem skipScheme_report {url : Nat} (hm : Holds m (url + 7) (t ++ 0 :: more))
    (hsize : url + 7 + t.length < bufferSize)
    (hS : ∀ q, url + 7 ≤ q → q ≤ url + 7 + t.length → S q) :
    Traced.Leads S (skipScheme m url st) (pure (match cutAt [SLASH] t with
      | none => ⟨.badRequest, st, m, [.methodIsGet]⟩
      | some (_, rest) =>
        ⟨.noRequest, .header, m, [.methodIsGet, .urlIs (cstr (SLASH :: rest))]⟩)) := by
  have hchr := strchr_leads (c := SLASH) (by decide) hm hsize hS
  unfold skipScheme
  cases h : cutAt [SLASH] t with
  | none =>
    rw [h] at hchr
    exact Traced.Leads.bind hchr (Traced.Leads.refl _)
  | some r =>
    obtain ⟨a, rest⟩ := r
    rw [h] at hchr
    obtain ⟨b, hb, rfl, -⟩ := cutAt_eq_some_iff.mp h
    obtain rfl : b = SLASH := by simpa using hb.2
    rw [List.append_assoc, holds_append] at hm
    have hlen : (SLASH :: rest).length + a.length = (a ++ SLASH :: rest).length := by
      rw [List.length_append]
      omega
    have hrep := reportUrl_leads (S := S) st hm.2 (by omega)
      (fun q hq hq' => hS q (by omega) (by omega))
    rw [List.headD_cons, if_pos rfl] at hrep
    exact Traced.Leads.bind hchr hrep

/-- The C string has a slash exactly if it can be cut at one. -/
theorem cutAt_slash_isSome_iff : (cutAt [SLASH] t).isSome ↔ SLASH ∈ cstr t := by
  rw [Option.isSome_iff_ne_none, ne_eq, cutAt_eq_none_iff]
  simp

/-- Seven bytes on, the first slash of the C string there decides. -/
theorem skipScheme_leads {url : Nat} (hm : Holds m (url + 7) (t ++ 0 :: more))
    (hsize : url + 7 + t.length < bufferSize)
    (hS : ∀ q, url + 7 ≤ q → q ≤ url + 7 + t.length → S q) :
    ∃ out, Traced.Leads S (skipScheme m url st)
      (pure (if SLASH ∈ cstr t then ⟨.noRequest, .header, m, out⟩
        else ⟨.badRequest, st, m, out⟩)) := by
  have h := skipScheme_report st hm hsize hS
  simp only [← cutAt_slash_isSome_iff]
  cases hcut : cutAt [SLASH] t with
  | none =>
    rw [hcut] at h
    exact ⟨_, h⟩
  | some r =>
    rw [hcut] at h
    exact ⟨_, h⟩

/-- A skip that leaves the line touches a position behind its terminator. -/
theorem mem_log_skipScheme (m : Buffer) (url : Nat) (st : CheckState) :
    url + 7 ∈ (skipScheme m url st).log := by
  unfold skipScheme
  apply Traced.log_subset_bind
  unfold strchr
  apply Traced.log_subset_bind
  exact mem_log_scan _ _

/-- A skip to a place with no NUL up to the end of the buffer has no result. -/
theorem skipScheme_overrun {url : Nat} (h : ∀ q, url + 7 ≤ q → q < bufferSize → m q ≠ 0)
    (r : Reply) : (skipScheme m url st).result ≠ .ok r := by
  intro hr
  unfold skipScheme strchr at hr
  rw [Traced.result_bind, Traced.result_bind, bind_eq_ok_iff] at hr
  obtain ⟨found, hfound, hr⟩ := hr
  obtain ⟨q, hq, hfound⟩ := (bind_eq_ok_iff _ _ _).mp hfound
  obtain ⟨⟨hle, -, hlt⟩, hstop, -⟩ := scan_eq_ok_iff.mp hq
  have hslash : m q = SLASH := by
    have hor : m q = 0 ∨ m q = SLASH := by simpa using hstop
    exact hor.resolve_left (h q hle hlt)
  simp only [if_pos hslash, Traced.result_pure, Except.ok.injEq] at hfound
  subst hfound
  -- the slash is there, but the report runs off the end
  unfold reportUrl printString at hr
  simp only [Traced.result_bind, readByte, if_pos hlt, ok_bind, hslash, ne_eq, not_true_eq_false,
    if_false] at hr
  obtain ⟨text, htext, -⟩ := (bind_eq_ok_iff _ _ _).mp hr
  obtain ⟨q', hq', -⟩ := (bind_eq_ok_iff _ _ _).mp htext
  obtain ⟨⟨hle', -, hlt'⟩, hstop', -⟩ := scan_eq_ok_iff.mp hq'
  exact h q' (by omega) hlt' (by simpa using hstop')

/-- Whatever a skip finds, it leaves the buffer alone. -/
theorem of_skipScheme_ok {url : Nat} {r : Reply} (hr : (skipScheme m url st).result = .ok r) :
    r.buffer = m ∧ (r.code = .badRequest ∨ r.code = .noRequest ∧ r.checkstate = .header) := by
  unfold skipScheme at hr
  rw [Traced.result_bind, bind_eq_ok_iff] at hr
  obtain ⟨found, -, hr⟩ := hr
  cases found with
  | none =>
    cases hr
    exact ⟨rfl, Or.inl rfl⟩
  | some q =>
    unfold reportUrl at hr
    simp only [Traced.result_bind] at hr
    obtain ⟨first, -, hr⟩ := (bind_eq_ok_iff _ _ _).mp hr
    split at hr
    next =>
      cases hr
      exact ⟨rfl, Or.inl rfl⟩
    next =>
      rw [Traced.result_bind, bind_eq_ok_iff] at hr
      obtain ⟨text, -, hr⟩ := hr
      cases hr
      exact ⟨rfl, Or.inr ⟨rfl, rfl⟩⟩

end Report

section Requestline
variable {m : Buffer} {k : Nat} {l more : List UInt8}

theorem sameOutside_update (b : UInt8) {q : Nat} (hk : k ≤ q) (hq : q < k + l.length) :
    SameOutside k l m (Function.update m q b) := by
  intro p hp
  exact Function.update_of_ne (by omega) _ _

theorem SameOutside.trans {m' m'' : Buffer} (h : SameOutside k l m m')
    (h' : SameOutside k l m' m'') : SameOutside k l m m'' := fun p hp =>
  (h' p hp).trans (h p hp)

/-- Overwriting the byte behind `a` with a NUL, in a buffer that holds `a ++ b :: rest`. -/
theorem holds_terminate {p : Nat} {a rest : List UInt8} {b : UInt8}
    (hm : Holds m p (a ++ b :: rest ++ more)) :
    Holds (Function.update m (p + a.length) 0) p (a ++ 0 :: rest ++ more) := by
  rw [List.append_assoc, holds_append] at hm ⊢
  constructor
  · exact holds_update hm.1 0 (Or.inr (Nat.le_refl _))
  · refine ⟨Function.update_self _ _ _, ?_⟩
    exact holds_update hm.2.2 0 (Or.inl (Nat.lt_succ_self _))

/-- A word is cut off at a blank: `strpbrk` finds the blank, and a NUL is put in its place. -/
theorem cutWord_spec {p : Nat} {t word rest : List UInt8} (hm : Holds m p (t ++ 0 :: more))
    (hk : k ≤ p) (hend : p + t.length = k + l.length) (hsize : k + l.length < bufferSize)
    (hcut : cutAt blanks t = some (word, rest)) :
    t.length = word.length + 1 + rest.length ∧ (∀ c ∈ word, c ≠ 0) ∧
    Traced.Leads (InLine k l) (strpbrk bufferSize m p blanks) (pure (some (p + word.length))) ∧
    ∃ m', Traced.Leads (InLine k l) (writeByte bufferSize m (p + word.length) 0) (pure m') ∧
      SameOutside k l m m' ∧ Holds m' p (word ++ 0 :: (rest ++ 0 :: more)) := by
  have hfind := strpbrk_leads blanks hm (hend ▸ hsize) (inLine_of_le hk (le_of_eq hend))
  rw [hcut] at hfind
  obtain ⟨b, -, rfl, hword⟩ := cutAt_eq_some_iff.mp hcut
  simp only [List.length_append, List.length_cons] at hend ⊢
  refine ⟨by omega, fun c hc => (hword c hc).1, hfind, _,
    writeByte_leads 0 (by omega) ⟨by omega, by omega⟩, sameOutside_update 0 (by omega) (by omega), ?_⟩
  simpa using holds_terminate hm

/-- The characters of a set at the front of a text are skipped. -/
theorem skipped_spec {p : Nat} {t accept : List UInt8} (h0 : (0 : UInt8) ∉ accept)
    (hm : Holds m p (t ++ 0 :: more)) (hk : k ≤ p) (hend : p + t.length ≤ k + l.length)
    (hsize : k + l.length < bufferSize) :
    ∃ n, Traced.Leads (InLine k l) (strspn bufferSize m p accept) (pure n) ∧
      Holds m (p + n) (t.dropWhile (· ∈ accept) ++ 0 :: more) ∧
      n + (t.dropWhile (· ∈ accept)).length = t.length :=
  ⟨_, strspn_leads h0 hm (by omega) (inLine_of_le hk hend), holds_dropWhile _ hm,
    drop_takeWhile_length _ t⟩

theorem parseVersion_spec {url : Nat} {tail : List UInt8} (hm : Holds m url (tail ++ 0 :: more))
    (hk : k ≤ url) (hend : url + tail.length = k + l.length)
    (hsize : k + l.length < bufferSize) (st : CheckState) :
    match judgeVersion tail with
    | .reject => ∃ m' out, SameOutside k l m m' ∧ Traced.Leads (InLine k l)
        (parseVersion m url st) (pure ⟨.badRequest, st, m', out⟩)
    | .accept => ∃ m', SameOutside k l m m' ∧ Traced.Leads (InLine k l) (parseVersion m url st)
        (pure ⟨.noRequest, .header, m',
          [.methodIsGet, .urlIs (((cutAt blanks tail).map Prod.fst).getD [])]⟩)
    | .skip tail' => ∃ m', SameOutside k l m m' ∧ tail'.length = tail.length ∧
        Holds m' url (tail' ++ 0 :: more) ∧
        Traced.Leads (InLine k l) (parseVersion m url st) (skipScheme m' url st) := by
  unfold judgeVersion
  cases hcut : cutAt blanks tail with
  | none =>
    have hfind := strpbrk_leads blanks hm (hend ▸ hsize) (inLine_of_le hk (le_of_eq hend))
    rw [hcut] at hfind
    unfold parseVersion
    exact ⟨m, [.methodIsGet], fun _ _ => rfl, Traced.Leads.bind hfind (Traced.Leads.refl _)⟩
  | some r =>
    obtain ⟨word, rest⟩ := r
    obtain ⟨hlen, hword, hfind, m', hwrite, same, hurl⟩ := cutWord_spec hm hk hend hsize hcut
    have hrest : Holds m' (url + word.length + 1) (rest ++ 0 :: more) := (holds_append.mp hurl).2.2
    obtain ⟨n, hspan, hversion, hdrop⟩ :=
      skipped_spec (l := l) zero_not_mem_blanks hrest (by omega) (by omega) hsize
    have htext : ∀ c ∈ HTTP_1_1, c ≠ 0 := by simp [HTTP_1_1]
    obtain ⟨v, hcmp, hv⟩ := strcasecmp_leads htext hversion (by omega : (_ : Nat) < bufferSize)
      (inLine_of_le (l := l) (k := k) (by omega) (by omega))
    have hto : ∀ y, Traced.Leads (InLine k l)
        (if v ≠ 0 then skipScheme m' url st else reportUrl m' (some url) st) y →
        Traced.Leads (InLine k l) (parseVersion m url st) y := by
      intro y hy
      unfold parseVersion
      apply Traced.Leads.bind hfind
      apply Traced.Leads.bind hwrite
      apply Traced.Leads.bind hspan
      exact Traced.Leads.bind hcmp hy
    by_cases hsame : SameText (cstr (rest.dropWhile (· ∈ blanks))) HTTP_1_1
    · have hreport := reportUrl_leads st hurl (by omega)
        (inLine_of_le (l := l) (k := k) hk (by omega))
      rw [if_neg (fun h => h (hv.mpr hsame))] at hto
      simp only [if_pos hsame]
      by_cases hslash : word.headD 0 = SLASH
      · rw [if_pos hslash] at hreport ⊢
        rw [cstr_eq_self hword] at hreport
        exact ⟨m', same, hto _ hreport⟩
      · rw [if_neg hslash] at hreport ⊢
        exact ⟨m', _, same, hto _ hreport⟩
    · rw [if_pos (fun e => hsame (hv.mp e))] at hto
      simp only [if_neg hsame]
      refine ⟨m', same, ?_, ?_, hto _ (Traced.Leads.refl _)⟩
      · simp only [List.length_append, List.length_cons]
        omega
      · simpa using hurl

/-- `parse_requestline` on a line that `parse_line` has just cut. -/
theorem parseRequestline_spec (hm : Holds m k (l ++ 0 :: more)) (hsize : k + l.length < bufferSize)
    (st : CheckState) :
    match judge l with
    | .reject => ∃ m' out, SameOutside k l m m' ∧ Traced.Leads (InLine k l)
        (parseRequestline m k st) (pure ⟨.badRequest, st, m', out⟩)
    | .accept => ∃ m', SameOutside k l m m' ∧ Traced.Leads (InLine k l) (parseRequestline m k st)
        (pure ⟨.noRequest, .header, m', [.methodIsGet, .urlIs (targetOf l)]⟩)
    | .skip tail => ∃ m' url, SameOutside k l m m' ∧ k ≤ url ∧
        url + tail.length = k + l.length ∧ Holds m' url (tail ++ 0 :: more) ∧
        Traced.Leads (InLine k l) (parseRequestline m k st) (skipScheme m' url st) := by
  unfold judge
  cases hcut : cutAt blanks l with
  | none =>
    have hfind := strpbrk_leads blanks hm hsize (inLine_of_le (Nat.le_refl k) (Nat.le_refl _))
    rw [hcut] at hfind
    unfold parseRequestline
    exact ⟨m, [], fun _ _ => rfl, Traced.Leads.bind hfind (Traced.Leads.refl _)⟩
  | some r =>
    obtain ⟨method, rest⟩ := r
    obtain ⟨hlen, hmethod, hfind, m₁, hwrite, same, hname⟩ :=
      cutWord_spec hm (Nat.le_refl k) rfl hsize hcut
    obtain ⟨v, hcmp, hv⟩ := strcasecmp_leads ne_zero_of_mem_get hname
      (by omega : (_ : Nat) < bufferSize) (inLine_of_le (l := l) (Nat.le_refl k) (by omega))
    rw [cstr_eq_self hmethod] at hv
    by_cases hget : SameText method GET
    · have hrest : Holds m₁ (k + method.length + 1) (rest ++ 0 :: more) :=
        (holds_append.mp hname).2.2
      have h0 : (0 : UInt8) ∉ [TAB] := by decide
      obtain ⟨tabs, htabs, htail, hdrop⟩ :=
        skipped_spec (l := l) h0 hrest (by omega) (by omega) hsize
      simp only [if_pos hget]
      have hto : ∀ y, Traced.Leads (InLine k l)
          (parseVersion m₁ (k + method.length + 1 + tabs) st) y →
          Traced.Leads (InLine k l) (parseRequestline m k st) y := by
        intro y hy
        unfold parseRequestline
        apply Traced.Leads.bind hfind
        apply Traced.Leads.bind hwrite
        apply Traced.Leads.bind hcmp
        rw [if_neg (fun h => h (hv.mpr hget))]
        exact Traced.Leads.bind htabs hy
      have spec := parseVersion_spec (l := l) htail (by omega) (by omega) hsize st
      cases hj : judgeVersion (rest.dropWhile (· ∈ [TAB])) with
      | reject =>
        rw [hj] at spec
        obtain ⟨m', out, same', h⟩ := spec
        exact ⟨m', out, same.trans same', hto _ h⟩
      | accept =>
        rw [hj] at spec
        obtain ⟨m', same', h⟩ := spec
        refine ⟨m', same.trans same', hto _ ?_⟩
        simpa only [targetOf, hcut] using h
      | skip tail' =>
        rw [hj] at spec
        obtain ⟨m', same', hlen', hm', h⟩ := spec
        exact ⟨m', _, same.trans same', by omega, by omega, hm', hto _ h⟩
    · simp only [if_neg hget]
      refine ⟨m₁, [], same, ?_⟩
      unfold parseRequestline
      apply Traced.Leads.bind hfind
      apply Traced.Leads.bind hwrite
      apply Traced.Leads.bind hcmp
      rw [if_pos (fun e => hget (hv.mp e))]
      exact Traced.Leads.refl _

end Requestline

/-- What `parse_headers` prints about a line that is not blank. -/
def headerMessage (l : List UInt8) : Message :=
  if SameText ((cstr l).take 5) HOST then .hostIs (cstr ((l.drop 5).dropWhile (· ∈ blanks)))
  else .headerNotHandled

section Headers
variable {m : Buffer} {k : Nat} {l : List UInt8}

theorem parseHeaders_report (hm : Holds m k (l ++ [0, 0])) (hsize : k + l.length < bufferSize) :
    Traced.Leads (InLine k l) (parseHeaders m k)
      (pure (if Blank l then (.getRequest, []) else (.noRequest, [headerMessage l]))) := by
  have hfirst : m k = l.headD 0 := by
    cases l with
    | nil => exact hm.1
    | cons b l => exact hm.1
  have hread : Traced.Leads (InLine k l) (readByte bufferSize m k) (pure (m k)) :=
    readByte_leads (by omega) ⟨by omega, by omega⟩
  unfold parseHeaders
  by_cases hb : Blank l
  · have hz : l.headD 0 = 0 := hb
    apply Traced.Leads.bind hread
    rw [hfirst, if_pos hz, if_pos hb]
    exact Traced.Leads.refl _
  · have hz : l.headD 0 ≠ 0 := hb
    obtain ⟨v, hcmp, hv⟩ := strncasecmp_leads (n := 5) ne_zero_of_mem_host (by decide) hm hsize
      (inLine_of_le (Nat.le_refl k) (Nat.le_refl _))
    have hname : v = 0 ↔ SameText ((cstr l).take 5) HOST := hv
    apply Traced.Leads.bind hread
    rw [hfirst, if_neg hz, if_neg hb]
    apply Traced.Leads.bind hcmp
    unfold headerMessage
    by_cases hhost : v = 0
    · -- the name fits into the line, so the text behind it still is in the line
      have hlen : 5 ≤ l.length := by
        have h := (hname.mp hhost).length_eq
        have hcstr := length_cstr_le l
        simp only [HOST, List.length_take, List.length_cons, List.length_nil] at h
        omega
      have hm5 : Holds m (k + 5) (l.drop 5 ++ 0 :: [0]) := holds_drop hm hlen
      have hlen5 : (l.drop 5).length + 5 = l.length := by
        rw [List.length_drop]
        omega
      obtain ⟨n, hspan, htail, hdrop⟩ :=
        skipped_spec (l := l) (k := k) zero_not_mem_blanks hm5 (by omega) (by omega) hsize
      have hprint := printString_leads htail (by omega : (_ : Nat) < bufferSize)
        (inLine_of_le (l := l) (k := k) (by omega) (by omega))
      rw [if_pos hhost, if_pos (hname.mp hhost)]
      apply Traced.Leads.bind hspan
      exact Traced.Leads.bind hprint (Traced.Leads.refl _)
    · rw [if_neg hhost, if_neg (fun h => hhost (hname.mpr h))]
      exact Traced.Leads.refl _

/-- `parse_headers` on a line that `parse_line` has just cut. -/
theorem parseHeaders_spec (hm : Holds m k (l ++ [0, 0])) (hsize : k + l.length < bufferSize) :
    ∃ out, Traced.Leads (InLine k l) (parseHeaders m k)
      (pure (if Blank l then .getRequest else .noRequest, out)) := by
  have h := parseHeaders_report hm hsize
  by_cases hb : Blank l
  · rw [if_pos hb] at h ⊢
    exact ⟨_, h⟩
  · rw [if_neg hb] at h ⊢
    exact ⟨_, h⟩

end Headers

end LinuxDemo.Invariant.Http
