import LinuxDemo.Invariant.ChatSettles

/-!
# The chat room from end to end

`epoll_chatroom` with any number of clients, whatever is typed at them, under every schedule
and every way in which the kernel reports events and cuts up the streams.
-/
namespace LinuxDemo.Guarantees.ChatRoom
open LinuxDemo.Lib LinuxDemo.Lib.CString LinuxDemo.Source LinuxDemo.Source.ChatRoom
open LinuxDemo.Invariant.ChatRoom

/-- All agree on one order: the log of the server holds, for everybody, a beginning of what
is typed there, and everybody accepted has received a beginning of what the others have put
into it since, each byte once, and is shown each chunk of that up to its first NUL. Nobody
outside receives anything. No connection is ever closed, every `accept` finds one, and a
descriptor for it, so that its assertion holds. -/
theorem one_order (env : Env) (ops : List Op) :
    Safe (run (step env) (.init env) ops) fun s =>
      (∀ i, said i s.log <+: (env.script i).flatten) ∧
      (∀ i k, (s.member i).joined = some k →
        (s.member i).client.received.flatten <+: heard i (s.log.drop k)) ∧
      (∀ i, (s.member i).joined = none → (s.member i).client.received.flatten = []) ∧
      (∀ i, (s.member i).client.printed =
        (s.member i).client.received.map fun buf => (buf.length, cstr buf)) ∧
      s.server.closed = [] ∧
      ∀ e rest, s.server.events = e :: rest → e.fd = env.listenfd →
        s.backlog ≠ [] ∧ s.server.connected.length < env.limit := by
  refine (run_kept env ops).mono fun s h => ⟨?_, ?_, ?_, ?_, h.seated.open_, ?_⟩
  · intro i
    rw [← h.relayed.typing i, h.relayed.said i]
    simp only [List.append_assoc]
    exact List.prefix_append _ _
  · intro i k hk
    rw [← (h.relayed.heard i k hk).2]
    exact List.prefix_append _ _
  · intro i out
    exact (List.append_eq_nil_iff.mp (h.relayed.before i out)).1
  · exact fun i => (h.seated.good i).printed
  · intro e rest front listen
    have some_one := h.seated.queued (by simp [reported, front, listen])
    exact ⟨some_one, h.seated.seat_free some_one⟩

/-- A room of two, with one line and then another typed at the first. -/
def twoLines : Env where
  listenfd := 3
  queue := 5
  someQueue := by decide
  clients := 2
  script i := if i = 0 then [[97, 10], [98, 10]] else []
  limit := 2
  enough := Nat.le_refl 2

/-- Both lines are typed before the client looks; its `read` gives the first, and the second
is left unread. -/
example : ∃ s, run (step twoLines) (.init twoLines)
    [.connect 0, .register 0, .type 0, .type 0, .client 0 (.wait [.stdin]),
      .client 0 (.read [97, 10])] = .ok s ∧
    (s.member 0).stdin = [98, 10] ∧ (s.member 0).stdinNotified = false ∧
    (s.member 0).looks = [(4, 2)] :=
  ⟨_, rfl, rfl, rfl, rfl⟩

/-- Two connections arrive before the server looks; the second is left outside. -/
example : ∃ s, run (step twoLines) (.init twoLines)
    [.connect 0, .connect 1, .server (.wait [⟨3, true⟩]), .server (.accept 5)] = .ok s ∧
    s.backlog = [1] ∧ s.notified 3 = false :=
  ⟨_, rfl, rfl, rfl⟩

end LinuxDemo.Guarantees.ChatRoom
