import LinuxDemo.Invariant.EchoServer

/-!
# The echo server: its worker and its parent

`echo` stays in the chunk it upper-cases exactly if every chunk has a byte that stops the
inner loop; the parent keeps its descriptors in order exactly if nothing is accepted, or
what it accepts has the number it closes.
-/
namespace LinuxDemo.Guarantees.EchoServer
open LinuxDemo.Lib LinuxDemo.Lib.CString LinuxDemo.Lib.Transcript LinuxDemo.Source.EchoServer
open LinuxDemo.Invariant.EchoServer

/-- What `echo` is for: its inner loop stays in the chunk, it ends with the calls of the
transcript, and the chunks before the first hard error or the end were written back. -/
def EchoesAll (env : Env) (buf : Buffer) (reads : List (Read env.MAXLINE)) : Prop :=
  (echo env (.init buf) reads).Within Inside ∧
    ∃ w, (echo env (.init buf) reads).result = .ok w ∧ w.calls = transcript env reads ∧
      written env.clifd w.calls = (chunksRead reads).flatten

theorem echoes_all_iff (env : Env) (buf : Buffer) (reads : List (Read env.MAXLINE)) :
    EchoesAll env buf reads ↔ ∀ data ∈ chunksRead reads, ∃ b ∈ data, lower b = false := by
  constructor
  · rintro ⟨within, -⟩
    exact (echo_within_iff env _ reads).mp within
  · intro stops
    obtain ⟨w, result, calls⟩ := echo_result env (.init buf) reads stops
    have calls : w.calls = transcript env reads := by simpa [Worker.init] using calls
    refine ⟨(echo_within_iff env _ reads).mpr stops, w, result, calls, ?_⟩
    rw [calls, written_transcript]

/-- "1bc", then "a": the second time the loop goes on through what is left of "1bc". -/
theorem echo_leaves_the_chunk :
    ¬ EchoesAll ⟨4, 4096, by decide⟩ (fun _ => 0)
      [.chunk [49, 98, 99] (by decide) (by decide), .chunk [97] (by decide) (by decide)] := by
  intro h
  have within := h.1 ⟨1, 2⟩ (by decide +kernel)
  simp [Inside] at within

/-- In front of every round of the parent its descriptors and calls are in order, exactly if
it accepts nothing or the descriptor it gets is number `sizeof(cliaddr)`. -/
theorem parent_in_order_iff (listenfd : Nat) (opened : Finset Nat) (listening : listenfd ∈ opened)
    (ops : List Accept) :
    (∀ pre post p, ops = pre ++ post →
      run (serveRound listenfd) (.init opened) pre = .ok p → InOrder listenfd p) ↔
      (.connection ∈ ops → lowestFree opened = sizeofCliaddr) := by
  constructor
  · intro h accepts
    obtain ⟨pre, post, rfl, first⟩ := List.eq_append_cons_of_mem accepts
    obtain ⟨p, hp, order, (same : p.opened = opened)⟩ :=
      (run_inOrder (InOrder.init listening) rfl pre fun hc => absurd hc first).result
    by_contra hother
    rw [← same] at hother
    have hround := serveRound_connection order.listening
    apply leaks_of_connection order.listening hother hround
    apply h (pre ++ [.connection]) post _ (by simp)
    rw [run_append_eq_ok]
    exact ⟨p, hp, by rw [run_singleton, hround]⟩
  · intro hfree pre post p hops hrun
    have kept := run_inOrder (InOrder.init listening) rfl pre fun hc => hfree (by simp [hops, hc])
    exact (kept.of_ok hrun).1

theorem parent_in_order_iff_two :
    (∀ pre post p, [Accept.failed 4, .connection] = pre ++ post →
      run (serveRound 3) (.init {0, 1, 2, 3}) pre = .ok p → InOrder 3 p) ↔
      (.connection ∈ [Accept.failed 4, .connection] → lowestFree {0, 1, 2, 3} = sizeofCliaddr) :=
  parent_in_order_iff 3 {0, 1, 2, 3} (by decide) [.failed 4, .connection]

/-- One client of a server with the standard descriptors: 4 stays open and 16 is closed. -/
theorem parent_keeps_a_connection :
    ∃ p, run (serveRound 3) (.init {0, 1, 2, 3}) [.connection] = .ok p ∧
      p.calls = [.accept (some 4), .fork, .close 16] ∧ 4 ∈ p.opened ∧ ¬ InOrder 3 p := by
  have free : lowestFree {0, 1, 2, 3} = 4 := lowestFree_eq_iff.mpr (by decide)
  have hround := @serveRound_connection 3 (.init {0, 1, 2, 3}) (by decide)
  refine ⟨_, by rw [run_singleton, hround], ?_, ?_, ?_⟩
  · simp [Parent.init, free, sizeofCliaddr]
  · simp [Parent.init, free, sizeofCliaddr]
  · exact leaks_of_connection (by decide) (by simp [Parent.init, free, sizeofCliaddr]) hround

end LinuxDemo.Guarantees.EchoServer
