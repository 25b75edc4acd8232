import LinuxDemo.Lib.Run
import LinuxDemo.Source.SelectClient

/-!
# The two directions of `str_cli`

`Relaying` holds in front of every round: both directions relay, what came in and what is
still to come make up each stream, and the calls after the end of `fp` are those of a
half-closed connection. Each branch has one lemma on what it adds to the calls.
-/
namespace LinuxDemo.Invariant.SelectClient
open LinuxDemo.Lib LinuxDemo.Lib.CString LinuxDemo.Lib.ReadBuffer LinuxDemo.Lib.Transcript
open LinuxDemo.Source.SelectClient

variable {env : Env} {s : State}

theorem chunk_append (env : Env) (len : Nat) (left : List UInt8) :
    chunk env len left ++ left.drop (chunk env len left).length = left :=
  List.prefix_iff_eq_append.mp (List.take_prefix _ left)

theorem chunk_eq_nil (env : Env) (len : Nat) (left : List UInt8) : chunk env len left = [] ↔ left = [] := by
  have positive := env.positive
  simp only [chunk, List.take_eq_nil_iff, or_iff_right_iff_imp]
  omega

/-- How `str_cli` ends when the server's stream does. -/
def endOutcome (stdineof : Int) : Outcome :=
  if stdineof = 1 then .returned else .quit "server terminated\n"

theorem endOutcome_returned {stdineof : Int} : endOutcome stdineof = .returned ↔ stdineof = 1 := by
  simp [endOutcome]

theorem endOutcome_quit {stdineof : Int} {message : String} :
    endOutcome stdineof = .quit message ↔ message = "server terminated\n" ∧ stdineof ≠ 1 := by
  unfold endOutcome
  split <;> simp_all [eq_comm]

/-- A ready socket: the end of the server's stream, or a chunk that is printed. -/
theorem serveSocket_cases (env : Env) (len : Nat) (s : State) :
    (serveSocket env len s = s) ∨
    (s.sockLeft = [] ∧ ∃ buf, serveSocket env len s = { s with
      buf := buf, n := 0, calls := s.calls ++ [.read env.sockfd []]
      ended := some (endOutcome s.stdineof) }) ∨
    ∃ data rest buf, data ≠ [] ∧ s.sockLeft = data ++ rest ∧
      serveSocket env len s = { s with
        buf := buf, n := data.length, sockLeft := rest
        calls := s.calls ++ [.read env.sockfd data, .write env.stdout data] } := by
  by_cases ready : env.sockfd ∈ s.rset
  · right
    by_cases hleft : s.sockLeft = []
    · left
      have atEnd := (chunk_eq_nil env len s.sockLeft).mpr hleft
      refine ⟨hleft, fill s.buf [], ?_⟩
      simp only [serveSocket, ready, if_true, atEnd, List.length_nil, List.drop_zero, endOutcome]
      split <;> rfl
    · right
      have some : chunk env len s.sockLeft ≠ [] := mt (chunk_eq_nil env len s.sockLeft).mp hleft
      refine ⟨_, _, fill s.buf (chunk env len s.sockLeft), some, (chunk_append env len s.sockLeft).symm, ?_⟩
      simp [serveSocket, ready, some]
  · left
    simp [serveSocket, ready]

/-- A ready `fp`: its end, at which the connection is half closed, or a chunk that is sent. -/
theorem serveFp_cases (env : Env) (len : Nat) (s : State) :
    (serveFp env len s = s) ∨
    (env.fp ∈ s.rset ∧ s.fpLeft = [] ∧ ∃ buf, serveFp env len s = { s with
      buf := buf, n := 0, stdineof := 1, rset := s.rset.erase env.fp
      calls := s.calls ++ [.read env.fp [], .shutdown env.sockfd] }) ∨
    ∃ data rest buf, env.fp ∈ s.rset ∧ data ≠ [] ∧ s.fpLeft = data ++ rest ∧
      serveFp env len s = { s with
        buf := buf, n := data.length, fpLeft := rest
        calls := s.calls ++ [.read env.fp data, .write env.sockfd data] } := by
  by_cases ready : env.fp ∈ s.rset
  · right
    by_cases hleft : s.fpLeft = []
    · left
      have atEnd := (chunk_eq_nil env len s.fpLeft).mpr hleft
      refine ⟨ready, hleft, fill s.buf [], ?_⟩
      simp [serveFp, ready, atEnd]
    · right
      have some : chunk env len s.fpLeft ≠ [] := mt (chunk_eq_nil env len s.fpLeft).mp hleft
      refine ⟨_, _, fill s.buf (chunk env len s.fpLeft), ready, some,
        (chunk_append env len s.fpLeft).symm, ?_⟩
      simp [serveFp, ready, some]
  · left
    simp [serveFp, ready]

/-- The end of `fp` was not met yet. -/
structure InputOpen (env : Env) (calls : List (Call UInt8)) : Prop where
  noEnd : .read env.fp [] ∉ calls
  noShutdown : ∀ fd, .shutdown fd ∉ calls

/-- The end of `fp` was met with all of it sent, and one `shutdown` made; `fp` was not
touched since. -/
def HalfClosed (env : Env) (fpStream : List UInt8) (calls : List (Call UInt8)) : Prop :=
  ∃ before after, calls = before ++ [.read env.fp [], .shutdown env.sockfd] ++ after ∧
    InputOpen env before ∧ written env.sockfd before = fpStream ∧
    (∀ fd, .shutdown fd ∉ after) ∧ ∀ data, .read env.fp data ∉ after

/-- What holds in front of every round. -/
structure Relaying (env : Env) (fpStream sockStream : List UInt8) (s : State) : Prop where
  forward : Relays env.fp env.sockfd s.calls
  backward : Relays env.sockfd env.stdout s.calls
  fromFp : received env.fp s.calls ++ s.fpLeft = fpStream
  fromSocket : received env.sockfd s.calls ++ s.sockLeft = sockStream
  inputOpen : s.stdineof = 0 → InputOpen env s.calls
  halfClosed : s.stdineof ≠ 0 →
    s.stdineof = 1 ∧ env.fp ∉ s.rset ∧ s.fpLeft = [] ∧ HalfClosed env fpStream s.calls
  running : s.ended = none → .read env.sockfd [] ∉ s.calls
  finished : ∀ outcome, s.ended = some outcome →
    s.sockLeft = [] ∧ outcome = endOutcome s.stdineof ∧
    ∃ before, s.calls = before ++ [.read env.sockfd []] ∧ .read env.sockfd [] ∉ before

variable {fpStream sockStream : List UInt8}

theorem Relaying.init (buf : Buffer) :
    Relaying env fpStream sockStream (.init buf fpStream sockStream) where
  forward := .nil
  backward := .nil
  fromFp := rfl
  fromSocket := rfl
  inputOpen _ := ⟨by simp [State.init], by simp [State.init]⟩
  halfClosed h := absurd rfl h
  running _ := by simp [State.init]
  finished _ h := by cases h

/-- Calls that are about the socket alone keep the connection half closed. -/
theorem HalfClosed.append {calls more : List (Call UInt8)} (h : HalfClosed env fpStream calls)
    (noShutdown : ∀ fd, .shutdown fd ∉ more) (noRead : ∀ data, .read env.fp data ∉ more) :
    HalfClosed env fpStream (calls ++ more) := by
  obtain ⟨before, after, rfl, hbefore, sent, hshut, hread⟩ := h
  refine ⟨before, after ++ more, by simp, hbefore, sent, ?_, ?_⟩
  · intro fd
    simp [hshut fd, noShutdown fd]
  · intro data
    simp [hread data, noRead data]

theorem InputOpen.append {calls more : List (Call UInt8)} (h : InputOpen env calls)
    (noEnd : .read env.fp [] ∉ more) (noShutdown : ∀ fd, .shutdown fd ∉ more) :
    InputOpen env (calls ++ more) where
  noEnd := by simp [h.noEnd, noEnd]
  noShutdown fd := by simp [h.noShutdown fd, noShutdown fd]

namespace Relaying

theorem select (h : Relaying env fpStream sockStream s) (ready : Finset Nat) :
    Relaying env fpStream sockStream (select env ready s) where
  forward := h.forward
  backward := h.backward
  fromFp := h.fromFp
  fromSocket := h.fromSocket
  inputOpen := h.inputOpen
  halfClosed hs := by
    obtain ⟨one, gone, rest⟩ := h.halfClosed hs
    refine ⟨one, ?_, rest⟩
    simp [Source.SelectClient.select, one, gone, env.distinct]
  running := h.running
  finished := h.finished

theorem serveSocket (h : Relaying env fpStream sockStream s) (live : s.ended = none) (len : Nat) :
    Relaying env fpStream sockStream (serveSocket env len s) := by
  have apart := env.apart
  have distinct := env.distinct
  rcases serveSocket_cases env len s with
    hs | ⟨hleft, buf, hs⟩ | ⟨data, rest, buf, hdata, hleft, hs⟩
  · rw [hs]
    exact h
  · rw [hs]
    exact {
      forward := h.forward.skip (by simp [Call.reads]) rfl
      backward := h.backward.skip (by simp [Call.reads]) rfl
      fromFp := by simpa [Call.reads, distinct.symm] using h.fromFp
      fromSocket := by simpa [Call.reads] using h.fromSocket
      inputOpen := fun hs => (h.inputOpen hs).append (by simp [distinct]) (by simp)
      halfClosed := fun hs => by
        obtain ⟨one, gone, hfp, closed⟩ := h.halfClosed hs
        exact ⟨one, gone, hfp, closed.append (by simp) (by simp [distinct])⟩
      running := by simp
      finished := fun outcome ho => by
        obtain rfl : endOutcome s.stdineof = outcome := by simpa using ho
        exact ⟨hleft, rfl, s.calls, rfl, h.running live⟩ }
  · rw [hs]
    exact {
      forward := h.forward.skips (by simp [Call.reads, Call.writes, distinct.symm, apart])
      backward := h.backward.copy data
      fromFp := by simpa [Call.reads, distinct.symm] using h.fromFp
      fromSocket := by simpa [Call.reads, hleft] using h.fromSocket
      inputOpen := fun hs => (h.inputOpen hs).append (by simp [distinct]) (by simp)
      halfClosed := fun hs => by
        obtain ⟨one, gone, hfp, closed⟩ := h.halfClosed hs
        exact ⟨one, gone, hfp, closed.append (by simp) (by simp [distinct])⟩
      running := fun _ => by simp [h.running live, hdata.symm]
      finished := fun outcome ho => by simp [live] at ho }

theorem serveFp (h : Relaying env fpStream sockStream s) (live : s.ended = none) (len : Nat) :
    Relaying env fpStream sockStream (serveFp env len s) := by
  have apart := env.apart
  have distinct := env.distinct
  -- `fp` is in `rset` before its end only
  have openInput (ready : env.fp ∈ s.rset) : InputOpen env s.calls := by
    apply h.inputOpen
    by_contra hs
    exact (h.halfClosed hs).2.1 ready
  rcases serveFp_cases env len s with
    hs | ⟨ready, hleft, buf, hs⟩ | ⟨data, rest, buf, ready, hdata, hleft, hs⟩
  · rw [hs]
    exact h
  · have sent : written env.sockfd s.calls = fpStream := by
      simpa [h.forward.all, hleft] using h.fromFp
    rw [hs]
    exact {
      forward := h.forward.skips (by simp [Call.reads, Call.writes])
      backward := h.backward.skips (by simp [Call.reads, Call.writes])
      fromFp := by simpa [Call.reads] using h.fromFp
      fromSocket := by simpa [Call.reads, distinct] using h.fromSocket
      inputOpen := by simp
      halfClosed := fun _ =>
        ⟨rfl, by simp, hleft, s.calls, [], by simp, openInput ready, sent, by simp, by simp⟩
      running := fun _ => by simp [h.running live, distinct.symm]
      finished := fun outcome ho => by simp [live] at ho }
  · have inputOpen := openInput ready
    have stays : s.stdineof = 0 := by
      by_contra hs
      exact (h.halfClosed hs).2.1 ready
    rw [hs]
    exact {
      forward := h.forward.copy data
      backward := h.backward.skips (by simp [Call.reads, Call.writes, distinct, apart.symm])
      fromFp := by simpa [Call.reads, hleft] using h.fromFp
      fromSocket := by simpa [Call.reads, distinct] using h.fromSocket
      inputOpen := fun _ => inputOpen.append (by simp [hdata.symm]) (by simp)
      halfClosed := fun hs => absurd stays hs
      running := fun _ => by simp [h.running live, distinct.symm]
      finished := fun outcome ho => by simp [live] at ho }

end Relaying

theorem step_relaying (h : Relaying env fpStream sockStream s) (r : Round) :
    Safe (step env s r) (Relaying env fpStream sockStream) := by
  by_cases live : s.ended = none
  · have served := (h.select r.ready).serveSocket live r.fromSocket
    simp only [step, live, if_true]
    split
    · rename_i still
      exact served.serveFp still r.fromFp
    · exact served
  · simp [step, live]

theorem run_relaying (buf : Buffer) (rounds : List Round) :
    Safe (run (step env) (.init buf fpStream sockStream) rounds) (Relaying env fpStream sockStream) :=
  run_ends _ (fun _ r h => step_relaying h r) (Relaying.init buf) rounds

/-- The server's end was handled when the calls `before` had been made. -/
def ServerEnd (env : Env) (calls before : List (Call UInt8)) : Prop :=
  ∃ after, calls = before ++ .read env.sockfd [] :: after

theorem HalfClosed.fpEnd {calls : List (Call UInt8)} (h : HalfClosed env fpStream calls) :
    .read env.fp [] ∈ calls := by
  obtain ⟨before, after, rfl, _⟩ := h
  simp

namespace Relaying

theorem fpEnd_iff (h : Relaying env fpStream sockStream s) :
    .read env.fp [] ∈ s.calls ↔ s.stdineof = 1 := by
  constructor
  · intro met
    by_contra hs
    have zero : s.stdineof = 0 := by
      by_contra other
      exact hs (h.halfClosed other).1
    exact (h.inputOpen zero).noEnd met
  · intro one
    exact (h.halfClosed (by simp [one])).2.2.2.fpEnd

/-- When `str_cli` has ended, the server's end was handled once, as the last call. -/
theorem ended_iff (h : Relaying env fpStream sockStream s) (outcome : Outcome) :
    s.ended = some outcome ↔
      outcome = endOutcome s.stdineof ∧ ∃ before, ServerEnd env s.calls before := by
  constructor
  · intro ho
    obtain ⟨_, kind, before, hcalls, _⟩ := h.finished outcome ho
    exact ⟨kind, before, [], hcalls⟩
  · rintro ⟨rfl, before, after, hcalls⟩
    have met : Call.read env.sockfd [] ∈ s.calls := by
      rw [hcalls]
      simp
    cases ho : s.ended with
    | none => exact absurd met (h.running ho)
    | some outcome => rw [(h.finished outcome ho).2.1]

/-- Whether the end of `fp` was met by then is whether it was met at all. -/
theorem fpEnd_before_iff (h : Relaying env fpStream sockStream s) {before : List (Call UInt8)}
    (hend : ServerEnd env s.calls before) :
    .read env.fp [] ∈ before ↔ s.stdineof = 1 := by
  have distinct := env.distinct
  obtain ⟨outcome, ho⟩ : ∃ outcome, s.ended = some outcome :=
    ⟨_, (h.ended_iff _).mpr ⟨rfl, before, hend⟩⟩
  obtain ⟨_, _, before', hcalls, once⟩ := h.finished outcome ho
  obtain ⟨after, hsplit⟩ := hend
  rw [hcalls] at hsplit
  obtain ⟨rfl, _, _⟩ := (List.append_cons_inj_of_notMem once List.not_mem_nil).mp hsplit
  rw [← h.fpEnd_iff, hcalls]
  simp [distinct]

theorem delivered (h : Relaying env fpStream sockStream s) (ho : s.ended = some .returned) :
    written env.sockfd s.calls = fpStream ∧ written env.stdout s.calls = sockStream := by
  obtain ⟨sockDone, kind, _⟩ := h.finished _ ho
  have one : s.stdineof = 1 := endOutcome_returned.mp kind.symm
  have fpDone : s.fpLeft = [] := (h.halfClosed (by simp [one])).2.2.1
  constructor
  · simpa [h.forward.all, fpDone] using h.fromFp
  · simpa [h.backward.all, sockDone] using h.fromSocket

end Relaying
end LinuxDemo.Invariant.SelectClient
