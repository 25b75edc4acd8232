import LinuxDemo.Invariant.SelectClient

/-!
# Both streams, whole and in order

`str_cli` on any two streams, with any readiness and any chunks in every round.
-/
namespace LinuxDemo.Guarantees.SelectClient
open LinuxDemo.Lib LinuxDemo.Lib.CString LinuxDemo.Lib.Transcript LinuxDemo.Source.SelectClient
open LinuxDemo.Invariant.SelectClient

/-- The parts are, in order: both directions relay, the data being that of the streams; the
end of `fp` half closes the connection, once, and nothing else does; `str_cli` returns
exactly if the server's end comes after that of `fp`, with everything delivered; and it ends
with the error exactly if the server's end comes first. -/
theorem both_streams_are_relayed (env : Env) (buf : Buffer) (fpStream sockStream : List UInt8)
    (rounds : List Round) :
    Safe (run (step env) (.init buf fpStream sockStream) rounds) fun s =>
      (Relays env.fp env.sockfd s.calls ∧ Relays env.sockfd env.stdout s.calls ∧
        received env.fp s.calls ++ s.fpLeft = fpStream ∧
        received env.sockfd s.calls ++ s.sockLeft = sockStream) ∧
      ((.read env.fp [] ∈ s.calls → HalfClosed env fpStream s.calls) ∧
        (.read env.fp [] ∉ s.calls → ∀ fd, .shutdown fd ∉ s.calls)) ∧
      (s.ended = some .returned ↔
        ∃ before, ServerEnd env s.calls before ∧ .read env.fp [] ∈ before) ∧
      (s.ended = some .returned →
        written env.sockfd s.calls = fpStream ∧ written env.stdout s.calls = sockStream) ∧
      ∀ message, s.ended = some (.quit message) ↔ message = "server terminated\n" ∧
        ∃ before, ServerEnd env s.calls before ∧ .read env.fp [] ∉ before := by
  refine (run_relaying buf rounds).mono fun s h => ⟨?_, ⟨?_, ?_⟩, ?_, ?_, ?_⟩
  · exact ⟨h.forward, h.backward, h.fromFp, h.fromSocket⟩
  · intro met
    exact (h.halfClosed (by simp [h.fpEnd_iff.mp met])).2.2.2
  · intro unmet
    apply (h.inputOpen _).noShutdown
    by_contra hs
    exact unmet (h.fpEnd_iff.mpr (h.halfClosed hs).1)
  · rw [h.ended_iff]
    constructor
    · rintro ⟨kind, before, hend⟩
      exact ⟨before, hend, (h.fpEnd_before_iff hend).mpr (endOutcome_returned.mp kind.symm)⟩
    · rintro ⟨before, hend, met⟩
      exact ⟨(endOutcome_returned.mpr ((h.fpEnd_before_iff hend).mp met)).symm, before, hend⟩
  · exact h.delivered
  · intro message
    rw [h.ended_iff]
    constructor
    · rintro ⟨kind, before, hend⟩
      obtain ⟨text, still⟩ := endOutcome_quit.mp kind.symm
      exact ⟨text, before, hend, mt (h.fpEnd_before_iff hend).mp still⟩
    · rintro ⟨text, before, hend, unmet⟩
      have still := mt (h.fpEnd_before_iff hend).mpr unmet
      exact ⟨(endOutcome_quit.mpr ⟨text, still⟩).symm, before, hend⟩

/-- A terminal, and the connection on descriptor 3. -/
def terminal : Env := ⟨0, 3, 1, 4, by decide, by decide, by decide⟩

/-- Both ready, then the end of `fp` with a last chunk of the server in the same round; and the
other way about, the server gone before the end of `fp`. -/
theorem relayed_in_both_orders :
    (∃ s, run (step terminal) (.init (fun _ => 0) [1, 2] [7, 8, 9])
        [⟨{0, 3}, 2, 4⟩, ⟨{0, 3}, 4, 4⟩, ⟨{3}, 1, 1⟩] = .ok s ∧
      s.calls = [.read 3 [7, 8], .write 1 [7, 8], .read 0 [1, 2], .write 3 [1, 2], .read 3 [9],
        .write 1 [9], .read 0 [], .shutdown 3, .read 3 []] ∧
      s.ended = some .returned ∧ written 3 s.calls = [1, 2] ∧ written 1 s.calls = [7, 8, 9]) ∧
    ∃ s, run (step terminal) (.init (fun _ => 0) [1, 2] [7, 8, 9])
        [⟨{0, 3}, 4, 1⟩, ⟨{3}, 1, 1⟩] = .ok s ∧
      s.calls = [.read 3 [7, 8, 9], .write 1 [7, 8, 9], .read 0 [1], .write 3 [1], .read 3 []] ∧
      s.ended = some (.quit "server terminated\n") ∧
      ∃ before, ServerEnd terminal s.calls before ∧ .read 0 [] ∉ before := by
  have hfp := both_streams_are_relayed terminal (fun _ => 0) [1, 2] [7, 8, 9]
    [⟨{0, 3}, 2, 4⟩, ⟨{0, 3}, 4, 4⟩, ⟨{3}, 1, 1⟩]
  have hsock := both_streams_are_relayed terminal (fun _ => 0) [1, 2] [7, 8, 9]
    [⟨{0, 3}, 4, 1⟩, ⟨{3}, 1, 1⟩]
  constructor
  · obtain ⟨-, -, -, delivered, -⟩ := hfp.of_ok rfl
    exact ⟨_, rfl, rfl, rfl, delivered rfl⟩
  · obtain ⟨-, -, -, -, quit⟩ := hsock.of_ok rfl
    exact ⟨_, rfl, rfl, rfl, ((quit _).mp rfl).2⟩

end LinuxDemo.Guarantees.SelectClient
