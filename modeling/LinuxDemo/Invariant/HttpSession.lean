import LinuxDemo.Invariant.HttpRequest

/-!
# Sessions

What `parse_content` and the receive loop do, in terms of the bytes that have arrived.
Behind an accepted request line the verdict is `headers` of the rest of the stream, and
nothing but that rest decides it; the request line itself is followed up to the point
where the URL pointer may leave it.
-/
namespace LinuxDemo.Invariant.Http
open LinuxDemo.Lib LinuxDemo.Lib.CString LinuxDemo.Source.HttpParse

/-- An access stays where it belongs: `parse_line` below `read_index`, the other functions
between the start of their line and its terminator, which is two bytes in front of
`checked_index`. -/
def Contained : Access → Prop
  | .byLine readIndex p => p < readIndex ∧ readIndex ≤ bufferSize
  | .byText startLine checkedIndex readIndex p =>
    startLine ≤ p ∧ p + 2 ≤ checkedIndex ∧ checkedIndex ≤ readIndex ∧ readIndex ≤ bufferSize

/-- The verdict on a stream of header lines. -/
def headers (d : List UInt8) : HttpCode :=
  match _h : lineFrame d with
  | .line l rest => if Blank l then .getRequest else headers rest
  | .bad => .badRequest
  | .unfinished => .noRequest
termination_by d.length
decreasing_by
  have := length_of_frame_line _h
  omega

section Headers
variable {d l rest : List UInt8}

theorem headers_line (h : lineFrame d = .line l rest) :
    headers d = if Blank l then .getRequest else headers rest := by
  rw [headers]
  split
  next l' rest' h' =>
    rw [h] at h'
    cases h'
    rfl
  next h' => cases h.symm.trans h'
  next h' => cases h.symm.trans h'

theorem headers_bad (h : lineFrame d = .bad) : headers d = .badRequest := by
  rw [headers]
  split
  next h' => cases h.symm.trans h'
  next => rfl
  next h' => cases h.symm.trans h'

theorem headers_unfinished (h : lineFrame d = .unfinished) : headers d = .noRequest := by
  rw [headers]
  split
  next h' => cases h.symm.trans h'
  next h' => cases h.symm.trans h'
  next => rfl

/-- A line behind the request line that is not blank does not decide anything. -/
theorem headers_append_of_line (h : lineFrame d = .line l rest) (hb : ¬ Blank l)
    (more : List UInt8) : headers (d ++ more) = headers (rest ++ more) := by
  rw [headers_line (frame_line_append h more), if_neg hb]

/-- A verdict stands whatever arrives later. -/
theorem headers_append (h : headers d ≠ .noRequest) (more : List UInt8) :
    headers (d ++ more) = headers d := by
  induction hn : d.length using Nat.strongRecOn generalizing d with
  | ind n ih =>
    cases hf : lineFrame d with
    | line l rest =>
      by_cases hb : Blank l
      · rw [headers_line hf, headers_line (frame_line_append hf more), if_pos hb, if_pos hb]
      · have hlen := length_of_frame_line hf
        have e := headers_line hf
        rw [if_neg hb] at e
        rw [headers_append_of_line hf hb, e]
        exact ih rest.length (by omega) (e ▸ h) rfl
    | bad => rw [headers_bad hf, headers_bad (frame_bad_append hf more)]
    | unfinished => exact absurd (headers_unfinished hf) h

end Headers

section Content
variable {s : Session} {d l rest : List UInt8}

/-- What `parse_content` goes on with when the request line has been looked at. -/
def afterRequestline (n : Nat) (s : Session) (reply : Reply) : Traced Access (HttpCode × Session) :=
  if reply.code = .badRequest then
    pure (.badRequest, { s with buffer := reply.buffer, checkstate := reply.checkstate })
  else parseContentLoop n { s with buffer := reply.buffer, checkstate := reply.checkstate }

theorem contained_byLine (w : Awaiting s d) (p : Nat) (hp : p < s.readIndex) :
    Contained (.byLine s.readIndex p) := ⟨hp, w.bound⟩

theorem contained_byText (w : Awaiting (delivered s l) rest) (p : Nat)
    (hp : InLine s.startLine l p) :
    Contained (.byText s.startLine (delivered s l).checkedIndex s.readIndex p) := by
  have hread := w.read
  have hbound := w.bound
  simp only [delivered] at hread hbound
  simp only [Contained, delivered]
  obtain ⟨h1, h2⟩ := hp
  exact ⟨h1, by omega, by omega, hbound⟩

theorem loop_unfinished (w : Awaiting s d) (hf : lineFrame d = .unfinished) (n : Nat) :
    ∃ c, Traced.Leads Contained (parseContentLoop (n + 1) s)
      (pure (.noRequest, { s with checkedIndex := c })) ∧
      Awaiting { s with checkedIndex := c } d := by
  have spec := parseLine_spec w
  rw [hf] at spec
  obtain ⟨c, h, hw⟩ := spec
  refine ⟨c, ?_, hw⟩
  unfold parseContentLoop parseContentRound
  rw [Traced.bind_assoc]
  apply Traced.Leads.bind (Traced.Leads.relabel (h.mono (contained_byLine w)))
  exact Traced.Leads.refl _

theorem loop_bad (w : Awaiting s d) (hf : lineFrame d = .bad) (n : Nat) :
    ∃ s', Traced.Leads Contained (parseContentLoop (n + 1) s) (pure (.badRequest, s')) := by
  have spec := parseLine_spec w
  rw [hf] at spec
  refine ⟨{ s with checkedIndex := s.startLine + cleanLength CR LF d }, ?_⟩
  unfold parseContentLoop parseContentRound
  rw [Traced.bind_assoc]
  apply Traced.Leads.bind (Traced.Leads.relabel (spec.mono (contained_byLine w)))
  exact Traced.Leads.refl _

/-- A request line is handed to `parse_requestline`. -/
theorem loop_requestline (w : Awaiting s d) (hf : lineFrame d = .line l rest)
    (hst : s.checkstate = .requestline) (n : Nat) :
    Traced.Leads Contained (parseContentLoop (n + 1) s)
      ((parseRequestline (delivered s l).buffer s.startLine .requestline).relabel
        (.byText s.startLine (delivered s l).checkedIndex s.readIndex) >>=
          afterRequestline n (delivered s l)) := by
  have spec := parseLine_spec w
  rw [hf] at spec
  conv => lhs; unfold parseContentLoop parseContentRound
  rw [Traced.bind_assoc]
  apply Traced.Leads.bind (Traced.Leads.relabel (spec.mono (contained_byLine w)))
  simp only [hst]
  rw [Traced.bind_assoc]
  refine Traced.Leads.bind_congr _ fun reply => ?_
  unfold afterRequestline
  split <;> rfl

/-- A header line ends the request if it is blank, and is dropped otherwise. -/
theorem loop_header (w : Awaiting s d) (hf : lineFrame d = .line l rest)
    (hst : s.checkstate = .header) (n : Nat) :
    Traced.Leads Contained (parseContentLoop (n + 1) s)
      (if Blank l then pure (.getRequest, delivered s l)
        else parseContentLoop n (delivered s l)) := by
  have spec := parseLine_spec w
  rw [hf] at spec
  obtain ⟨w', hheld⟩ := w.delivered hf
  have hread := w'.read
  have hbound := w'.bound
  simp only [delivered] at hread hbound
  obtain ⟨out, hheader⟩ := parseHeaders_spec hheld (by omega)
  have hdone : { delivered s l with checkstate := .header } = delivered s l := by
    rw [← hst]
    rfl
  conv => lhs; unfold parseContentLoop parseContentRound
  rw [Traced.bind_assoc]
  apply Traced.Leads.bind (Traced.Leads.relabel (spec.mono (contained_byLine w)))
  simp only [hst]
  rw [Traced.bind_assoc]
  apply Traced.Leads.bind (Traced.Leads.relabel (hheader.mono (contained_byText w')))
  rw [← hdone]
  by_cases hb : Blank l
  · simp only [if_pos hb, reduceCtorEq, if_false, if_true]
    exact Traced.Leads.refl _
  · simp only [if_neg hb, reduceCtorEq, if_false]
    exact Traced.Leads.refl _

/-- `parse_content` on header lines. What it leaves undelivered stands for all of them. -/
theorem loop_headers {fuel : Nat} (w : Awaiting s d) (hst : s.checkstate = .header)
    (hfuel : d.length < fuel) :
    ∃ s', Traced.Leads Contained (parseContentLoop fuel s) (pure (headers d, s')) ∧
      (headers d = .noRequest → ∃ d', Awaiting s' d' ∧ s'.checkstate = .header ∧
        s'.readIndex = s.readIndex ∧ ∀ more, headers (d ++ more) = headers (d' ++ more)) := by
  induction fuel generalizing s d with
  | zero => omega
  | succ n ih =>
    cases hf : lineFrame d with
    | unfinished =>
      obtain ⟨c, h, hw⟩ := loop_unfinished w hf n
      rw [headers_unfinished hf]
      exact ⟨_, h, fun _ => ⟨d, hw, hst, rfl, fun _ => rfl⟩⟩
    | bad =>
      obtain ⟨s', h⟩ := loop_bad w hf n
      rw [headers_bad hf]
      exact ⟨s', h, fun h => by cases h⟩
    | line l rest =>
      have hloop := loop_header w hf hst n
      have hlen := length_of_frame_line hf
      rw [headers_line hf]
      by_cases hb : Blank l
      · rw [if_pos hb] at hloop ⊢
        exact ⟨_, hloop, fun h => by cases h⟩
      · rw [if_neg hb] at hloop ⊢
        obtain ⟨w', -⟩ := w.delivered hf
        obtain ⟨s', h, hopen⟩ := ih w' hst (by omega)
        refine ⟨s', hloop.trans h, ?_⟩
        intro hno
        obtain ⟨d', hw, hs, hr, hmore⟩ := hopen hno
        refine ⟨d', hw, hs, hr, ?_⟩
        intro more
        rw [headers_append_of_line hf hb, hmore]

end Content

section Serving

/-- What `recv` delivers of the chunks in all: nothing taken ends the session. -/
def received (room : Nat) : List (List UInt8) → List UInt8
  | [] => []
  | chunk :: chunks =>
    let data := chunk.take room
    if data = [] then [] else data ++ received (room - data.length) chunks

/-- Pieces that fit are received whole. -/
theorem received_eq_flatten {room : Nat} {chunks : List (List UInt8)} (h : ∀ c ∈ chunks, c ≠ [])
    (hroom : chunks.flatten.length ≤ room) : received room chunks = chunks.flatten := by
  induction chunks generalizing room with
  | nil => rfl
  | cons chunk chunks ih =>
    rw [List.flatten_cons, List.length_append] at hroom
    have hne := h chunk (by simp)
    simp only [received, List.take_of_length_le (by omega : chunk.length ≤ room), if_neg hne,
      List.flatten_cons]
    rw [ih (fun c hc => h c (by simp [hc])) (by omega)]

/-- The receive loop behind one call of `parse_content`. -/
def resume (chunks : List (List UInt8)) (r : HttpCode × Session) : Traced Access HttpCode :=
  if r.1 = .noRequest then serve r.2 chunks else pure r.1

variable {s : Session} {d l rest : List UInt8}

theorem serve_cons {chunk : List UInt8} (chunks : List (List UInt8))
    (h : chunk.take (bufferSize - s.readIndex) ≠ []) :
    serve s (chunk :: chunks) =
      (parseContent (s.receive (chunk.take (bufferSize - s.readIndex))) >>= resume chunks) := by
  rw [serve]
  simp only [if_neg h]
  rfl

theorem serve_cons_nil {chunk : List UInt8} (chunks : List (List UInt8))
    (h : chunk.take (bufferSize - s.readIndex) = []) :
    serve s (chunk :: chunks) = pure .noRequest := by
  rw [serve]
  simp only [if_pos h]

theorem Awaiting.receive_take (w : Awaiting s d) (chunk : List UInt8) :
    Awaiting (s.receive (chunk.take (bufferSize - s.readIndex)))
      (d ++ chunk.take (bufferSize - s.readIndex)) := by
  apply w.receive
  have := w.bound
  rw [List.length_take]
  omega

theorem room_receive (s : Session) (data : List UInt8) :
    bufferSize - (s.receive data).readIndex = bufferSize - s.readIndex - data.length := by
  simp only [Session.receive]
  omega

theorem Awaiting.length_lt_fuel (w : Awaiting s d) : d.length < s.readIndex + 1 := by
  have := w.read
  omega

/-- Behind an accepted request line the bytes received so far and those to come decide. -/
def ServedAsHeaders (chunks : List (List UInt8)) : Prop :=
  ∀ (s : Session) (d : List UInt8), Awaiting s d → s.checkstate = .header →
    headers d = .noRequest → Traced.Leads Contained (serve s chunks)
      (pure (headers (d ++ received (bufferSize - s.readIndex) chunks)))

/-- One call of the loop of `parse_content`, and the chunks behind it. -/
theorem ServedAsHeaders.resume {fuel : Nat} {chunks : List (List UInt8)}
    (served : ServedAsHeaders chunks) (w : Awaiting s d) (hst : s.checkstate = .header)
    (hfuel : d.length < fuel) :
    Traced.Leads Contained (parseContentLoop fuel s >>= resume chunks)
      (pure (headers (d ++ received (bufferSize - s.readIndex) chunks))) := by
  obtain ⟨s', hloop, hopen⟩ := loop_headers w hst hfuel
  apply Traced.Leads.bind hloop
  unfold Http.resume
  split
  next hc =>
    obtain ⟨d', hw, hs, hr, hmore⟩ := hopen hc
    have hd' : headers d' = .noRequest := by
      have := hmore []
      rw [List.append_nil, List.append_nil] at this
      rw [← this]
      exact hc
    have h := served s' d' hw hs hd'
    rwa [hr, ← hmore] at h
  next hc =>
    rw [headers_append hc]
    exact Traced.Leads.refl _

theorem servedAsHeaders (chunks : List (List UInt8)) : ServedAsHeaders chunks := by
  induction chunks with
  | nil =>
    intro s d _ _ hno
    simp only [received, List.append_nil, hno]
    exact Traced.Leads.refl _
  | cons chunk chunks ih =>
    intro s d w hst hno
    simp only [received]
    split
    next h =>
      rw [serve_cons_nil chunks h, List.append_nil, hno]
      exact Traced.Leads.refl _
    next h =>
      have w' := w.receive_take chunk
      rw [serve_cons chunks h, ← List.append_assoc, ← room_receive]
      exact ih.resume w' hst w'.length_lt_fuel

/-- From inside of `parse_content`. -/
theorem resume_headers {fuel : Nat} (chunks : List (List UInt8)) (w : Awaiting s d)
    (hst : s.checkstate = .header) (hfuel : d.length < fuel) :
    Traced.Leads Contained (parseContentLoop fuel s >>= resume chunks)
      (pure (headers (d ++ received (bufferSize - s.readIndex) chunks))) :=
  (servedAsHeaders chunks).resume w hst hfuel

/-- A session up to the chunk that completes its request line. -/
theorem serve_until_line (chunks : List (List UInt8)) (w : Awaiting s d)
    (hst : s.checkstate = .requestline) (h0 : s.startLine = 0)
    (hopen : lineFrame d = .unfinished) :
    match lineFrame (d ++ received (bufferSize - s.readIndex) chunks) with
    | .unfinished => Traced.Leads Contained (serve s chunks) (pure .noRequest)
    | .bad => Traced.Leads Contained (serve s chunks) (pure .badRequest)
    | .line l all => ∃ s' d' rest chunks', lineFrame d' = .line l rest ∧
        all = rest ++ received (bufferSize - s'.readIndex) chunks' ∧ Awaiting s' d' ∧
        s'.checkstate = .requestline ∧ s'.startLine = 0 ∧
        Traced.Leads Contained (serve s chunks) (parseContent s' >>= resume chunks') := by
  induction chunks generalizing s d with
  | nil =>
    simp only [received, List.append_nil, hopen]
    exact Traced.Leads.refl _
  | cons chunk chunks ih =>
    by_cases h : chunk.take (bufferSize - s.readIndex) = []
    · simp only [received, if_pos h, List.append_nil, hopen]
      rw [serve_cons_nil chunks h]
      exact Traced.Leads.refl _
    · simp only [received, if_neg h]
      rw [serve_cons chunks h, ← List.append_assoc]
      have w' := w.receive_take chunk
      have hroom := room_receive s (chunk.take (bufferSize - s.readIndex))
      generalize chunk.take (bufferSize - s.readIndex) = data at w' hroom
      cases hf : lineFrame (d ++ data) with
      | unfinished =>
        obtain ⟨c, hloop, hw⟩ := loop_unfinished w' hf (s.receive data).readIndex
        have hto : ∀ y, Traced.Leads Contained
            (serve { s.receive data with checkedIndex := c } chunks) y →
            Traced.Leads Contained (parseContent (s.receive data) >>= resume chunks) y := by
          intro y hy
          exact Traced.Leads.bind hloop hy
        have h := ih hw hst h0 hf
        simp only [hroom] at h
        cases hall : lineFrame (d ++ data ++ received (bufferSize - s.readIndex - data.length) chunks) with
        | unfinished =>
          rw [hall] at h
          exact hto _ h
        | bad =>
          rw [hall] at h
          exact hto _ h
        | line l all =>
          rw [hall] at h
          obtain ⟨s', d', rest, chunks', h1, h2, h3, h4, h5, h6⟩ := h
          exact ⟨s', d', rest, chunks', h1, h2, h3, h4, h5, hto _ h6⟩
      | bad =>
        obtain ⟨s', hloop⟩ := loop_bad w' hf (s.receive data).readIndex
        rw [lineFrame, frame_bad_append hf]
        apply Traced.Leads.bind hloop
        exact Traced.Leads.refl _
      | line l rest =>
        rw [lineFrame, frame_line_append hf]
        refine ⟨s.receive data, d ++ data, rest, chunks, hf, ?_, w', hst, h0, Traced.Leads.refl _⟩
        rw [hroom]

end Serving

end LinuxDemo.Invariant.Http
