import LinuxDemo.Invariant.SelectDeadlock

/-!
# The client gets back what it sends

`selectclient_test` and `selectserver_test` on one connection, under every schedule, for
every input and every size of the buffers between them. What either does here is a run of its
own loop, as `Invariant.SelectPrograms` shows.
-/
namespace LinuxDemo.Guarantees.SelectEcho
open LinuxDemo.Lib LinuxDemo.Source.SelectEcho LinuxDemo.Invariant.SelectEcho

/-- At every moment standard output shows a beginning of the input. The client never quits
because of the server, and when it returns everything is there and the server has closed. -/
theorem output_is_the_input (env : Env) (input : List UInt8) (ops : List Op) :
    Safe (run (step env) (.init input) ops) fun s =>
      s.stdout <+: input ∧ s.client ≠ .ended .quit ∧
      (s.client = .ended .returned → s.stdout = input ∧ s.server = .closed) ∧
      (s.server = .closed → s.stdineof = true ∧ s.stdin = []) := by
  refine (run_linked input ops).mono fun s h => ⟨?_, ?_, ?_, ?_⟩
  · rw [← h.conserved]
    simp only [List.append_assoc]
    exact List.prefix_append _ _
  · intro hc
    simpa using (h.ended _ hc).1
  · intro hc
    obtain ⟨-, closed, output⟩ := h.echoed hc
    exact ⟨output, closed⟩
  · intro closed
    have at_end := h.shut.mpr (.inl (h.closedEnd closed).1)
    exact ⟨at_end, (h.fpEnd at_end).1⟩

/-- A state in which client and server are both in their `write`, each waiting for the other,
can be reached with the steps of `next`. -/
def CanDeadlock (env : Env) (next : State → Op → Except Fault State) : Prop :=
  ∃ input s, Reaches next (.init input) s ∧ Deadlocked env s

theorem CanDeadlock.not_completes {env : Env} {next : State → Op → Except Fault State}
    (fewer : ∀ s op s', next s op = .ok s' → step env s op = .ok s') (h : CanDeadlock env next) :
    ¬ ∀ input, Completes next (.init input) fun s =>
      s.client = .ended .returned ∧ s.server = .closed ∧ s.stdout = input := by
  obtain ⟨input, s, reach, dead⟩ := h
  intro completes
  have stuck : Stuck next s := fun op s' hs => dead.stuck op s' (fewer s op s' hs)
  have ended := ((completes input).ended s reach stuck).1
  simpa [ended, toSend] using dead.sends

/-- An input that the connection holds, with one byte in a hand, is echoed under every
schedule, and both ends are closed then. For every input that is so, if a `read` can give
less than is there, only with a buffer of one byte; and if it cannot, and a buffer fits the
way to the server, exactly if it fits the way back too. In all other cases there are an input
and a schedule that end with client and server in their `write`s, each waiting for the
other. -/
theorem completes_iff_room_back (env : Env) (wide : env.MAXLINE ≤ env.toServer) :
    (∀ input : List UInt8, input.length ≤ env.toServer + env.toClient + 1 →
      Completes (step env) (.init input) fun s =>
        s.client = .ended .returned ∧ s.server = .closed ∧ s.stdout = input) ∧
    ((∀ input, Completes (step env) (.init input) fun s =>
        s.client = .ended .returned ∧ s.server = .closed ∧ s.stdout = input) ↔
      env.MAXLINE = 1) ∧
    (env.MAXLINE ≠ 1 → CanDeadlock env (step env)) ∧
    ((∀ input, Completes (wholeStep env) (.init input) fun s =>
        s.client = .ended .returned ∧ s.server = .closed ∧ s.stdout = input) ↔
      env.MAXLINE ≤ env.toClient) ∧
    (env.toClient < env.MAXLINE → CanDeadlock env (wholeStep env)) := by
  have positive := env.positive
  have back := env.someBack
  have short : env.MAXLINE ≠ 1 → CanDeadlock env (step env) := by
    intro many
    have two : 2 ≤ env.MAXLINE := by omega
    obtain ⟨input, reach⟩ := pressed_reachable two
    exact ⟨input, _, reach, pressed_deadlocked 0 _⟩
  have whole : env.toClient < env.MAXLINE → CanDeadlock env (wholeStep env) := by
    intro small
    obtain ⟨input, reach⟩ := overfull_reachable wide small
    exact ⟨input, _, reach, overfull_deadlocked small⟩
  refine ⟨fun input short => run_completes short, ⟨fun completes => ?_, fun single input => ?_⟩,
    short, ⟨fun completes => ?_, fun room input => whole_run_completes ⟨wide, room⟩ input⟩, whole⟩
  · by_contra many
    exact (short many).not_completes (fun _ _ _ hs => hs) completes
  · have roomy : Roomy env := ⟨wide, by omega⟩
    refine (whole_run_completes roomy input).of_same_steps fun s op s' => ?_
    exact ⟨fun hs => (wholeStep_ok hs).2, wholeStep_of_single single⟩
  · by_contra small
    refine (whole (Nat.lt_of_not_le small)).not_completes (fun _ _ _ hs => ?_) completes
    exact (wholeStep_ok hs).2

/-- Buffers of 4096 bytes, and as much room either way. -/
def lines4096 : Env := ⟨4096, by decide, 4096, 4096, by decide, by decide⟩

theorem completes_iff_room_back_4096 :
    (∀ input : List UInt8, input.length ≤ 8193 →
      Completes (step lines4096) (.init input) fun s =>
        s.client = .ended .returned ∧ s.server = .closed ∧ s.stdout = input) ∧
    ((∀ input, Completes (step lines4096) (.init input) fun s =>
        s.client = .ended .returned ∧ s.server = .closed ∧ s.stdout = input) ↔ 4096 = 1) ∧
    (4096 ≠ 1 → CanDeadlock lines4096 (step lines4096)) ∧
    ((∀ input, Completes (wholeStep lines4096) (.init input) fun s =>
        s.client = .ended .returned ∧ s.server = .closed ∧ s.stdout = input) ↔ 4096 ≤ 4096) ∧
    (4096 < 4096 → CanDeadlock lines4096 (wholeStep lines4096)) :=
  completes_iff_room_back lines4096 (Nat.le_refl 4096)

end LinuxDemo.Guarantees.SelectEcho
