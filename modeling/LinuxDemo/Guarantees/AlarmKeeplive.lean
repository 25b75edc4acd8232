import LinuxDemo.Invariant.KeepliveAlarm
import LinuxDemo.Invariant.KeepliveBatch

/-!
# Guarantees of the keep-alive server

About every run of the loop, for every order of its events and of what the kernel does.
`Safe` rules out every fault, a use of a deleted timer among them, but a kernel that breaks
its contract.
-/
namespace LinuxDemo.Guarantees.AlarmKeeplive
open LinuxDemo.Lib LinuxDemo.Source.ListTimer LinuxDemo.Source.AlarmKeeplive
open LinuxDemo.Invariant.TimerList hiding callback Op step
open LinuxDemo.Invariant.Keeplive

/-- `user_data` of a timer. -/
def userData (list : SortTimeList Nat) (timer : Nat) : Option Nat :=
  (list.heap.data timer).map Prod.snd

/-- The timers `l` and the open connections belong together one by one, through
`users[fd].timer` in one direction and `user_data` in the other. -/
def OneToOne (s : Server) (l : List Nat) : Prop :=
  (∀ t ∈ l, ∃ fd, userData s.timerList t = some fd ∧ s.users fd = some ⟨fd, some t⟩ ∧
    s.kernel.conns fd = some (s.record.madeFor t)) ∧
  ∀ fd k, s.kernel.conns fd = some k → ∃ t ∈ l, userData s.timerList t = some fd ∧
    s.users fd = some ⟨fd, some t⟩ ∧ s.record.madeFor t = k

theorem oneToOne_of_matched {s : Server} {l : List Nat}
    (w : Matched s.timerList s.users s.kernel.conns s.record l) : OneToOne s l := by
  constructor
  · intro t ht
    obtain ⟨fd, hdata, hu, hc⟩ := w.listed t ht
    exact ⟨fd, by simp [userData, hdata], hu, hc⟩
  · intro fd k hc
    obtain ⟨t, ht, hu, hk, hdata⟩ := w.timer_of_open hc
    exact ⟨t, ht, by simp [userData, hdata], hu, hk⟩

/-- The timer is on the list, and was made for the connection whose event led to the call. -/
def Current (s : Server) (u : Use) : Prop :=
  (∃ l, Repr u.list l ∧ u.timer ∈ l) ∧ u.connection = some (s.record.madeFor u.timer)

/-- No stale timers: the timers on the list are those of the open connections, every call of
`adjust_timer` and `del_timer` was made with a timer on the list that belongs to the
connection at hand, and every tick closed the connections its timers were made for. -/
theorem no_stale_timers (env : Env) (ops : List Op) :
    Safe (run (step env) Server.init ops) fun s =>
      (∃ l, Repr s.timerList l ∧ OneToOne s l) ∧ (∀ u ∈ s.record.uses, Current s u) ∧
        ∀ k ∈ s.record.ticks, ∀ c ∈ k.closed, c.2 = some (s.record.madeFor c.1) := by
  apply (run_sound env ops).mono
  intro s w
  refine ⟨?_, ?_, ?_⟩
  · obtain ⟨l, wl, -⟩ := w.timers.matched
    exact ⟨l, wl.repr, oneToOne_of_matched wl⟩
  · intro u hu
    exact (w.timers.uses u hu).2
  · intro k hk c hc
    exact (w.timers.closings k hk c hc).2

/-- The exact idle timeout, for a clock that does not go back. -/
theorem idle_timeout_exact (env : Env) (ops : List Op) :
    Safe (run (step env) Server.init ops) fun s => s.record.readings.Pairwise (· ≤ ·) →
      (∃ l, Repr s.timerList l ∧ OneToOne s l ∧
        l.Pairwise fun a b => s.record.turn (s.record.madeFor a) < s.record.turn (s.record.madeFor b)) ∧
      ∀ k ∈ s.record.ticks, TickExact k := by
  apply (run_sound env ops).mono
  intro s w hread
  obtain ⟨l, wl, htimely⟩ := w.timers.matched
  exact ⟨⟨l, wl.repr, oneToOne_of_matched wl, (htimely hread).byTurn⟩, w.timers.exact hread⟩

/-- Clients 5 and 6 are accepted, 5 sends something, and the tick at 17 closes 6 alone. -/
theorem idle_client_times_out :
    ∃ s, run (step ⟨3, 4, by decide, fun _ => some 14⟩) Server.init
        [.wait [⟨3, true⟩], .accept 5 0, .finish 0, .wait [⟨3, true⟩], .accept 6 1, .finish 1,
          .expire, .deliver .alrm, .wait [⟨5, true⟩, ⟨4, true⟩], .recv (.data 4), .signals,
          .finish 17] = .ok s ∧
      s.record.readings = [0, 1, 4, 17] ∧ s.record.ticks.map Tick.closed = [[(1, some 1)]] ∧
      ∀ k ∈ s.record.ticks, TickExact k := by
  have h := idle_timeout_exact ⟨3, 4, by decide, fun _ => some 14⟩
    [.wait [⟨3, true⟩], .accept 5 0, .finish 0, .wait [⟨3, true⟩], .accept 6 1, .finish 1,
      .expire, .deliver .alrm, .wait [⟨5, true⟩, ⟨4, true⟩], .recv (.data 4), .signals, .finish 17]
  have forward : [0, 1, 4, 17].Pairwise (· ≤ · : Int → Int → Prop) := by decide
  exact ⟨_, rfl, rfl, rfl, ((h.of_ok rfl) forward).2⟩

/-- In a run whose steps all pass the alarm on, it is on its way whenever the loop waits, and
its arrival leads to the next tick and alarm. -/
theorem alarm_passed_on (env : Env) (ops : List Op)
    (h : Along (step env) (Intact env) Server.init ops) :
    Safe (run (step env) Server.init ops) fun s => s.phase = .waiting → Linked s ∧
      ∀ cur, Along (step env) (Intact env) s (nextRound env s cur) →
        ∃ s', run (step env) s (nextRound env s cur) = .ok s' ∧ Renewed s s' := by
  apply (run_chained env ops h).mono
  rintro s ⟨w, c⟩ hphase
  exact ⟨c.linked hphase, fun cur hi => c.renewed w hphase hi⟩

/-- The byte 14 happens to be at address 14, and the first alarm goes round. -/
theorem first_alarm_passed_on :
    ∃ s, run (step ⟨3, 4, by decide, fun a => if a = 14 then some 14 else none⟩) Server.init
      [.expire, .deliver .alrm, .wait [⟨4, true⟩], .signals, .finish 5] = .ok s ∧
      s.phase = .waiting ∧ Linked s := by
  have h := alarm_passed_on ⟨3, 4, by decide, fun a => if a = 14 then some 14 else none⟩
    [.expire, .deliver .alrm, .wait [⟨4, true⟩], .signals, .finish 5]
    ⟨trivial, rfl, trivial, fun _ => .inl (by decide), trivial, trivial⟩
  exact ⟨_, rfl, rfl, (h.of_ok rfl rfl).1⟩

/-- Nothing is mapped at address 14, and the first alarm goes off. -/
theorem first_alarm_lost : ¬ ∀ env ops, Safe (run (step env) Server.init ops) fun s =>
    s.phase = .waiting → Linked s := by
  intro h
  have hlinked := (h ⟨3, 4, by decide, fun _ => none⟩ [.expire, .deliver .alrm]).of_ok rfl rfl
  rcases hlinked with h' | h' | h' | h'
  · cases h'
  · cases h'
  · cases h'.2
  · cases h'

/-- A batch of any run, up to where the loop is about to call `epoll_wait` again: all of its
events are handled and each client is read until EAGAIN, the end or an error, exactly if no
`recv` brings data and EAGAIN comes at the last event only. -/
theorem batch_complete_iff (env : Env) (before ops : List Op) (events : List Event)
    (s s' : Server) (reached : run (step env) Server.init before = .ok s)
    (one : ∀ cur, .finish cur ∉ ops) (batch : run (step env) s (.wait events :: ops) = .ok s')
    (through : s'.phase = .batch []) :
    Complete events (handled env s (.wait events :: ops)) ↔
      Along (step env) Whole s (.wait events :: ops) :=
  complete_iff ((run_sound env before).of_ok reached) one batch through

/-- A batch of one client that has left. -/
theorem eof_batch_complete :
    ∃ s, run (step ⟨3, 4, by decide, fun _ => none⟩) Server.init
        [.wait [⟨3, true⟩], .accept 5 0, .finish 0] = .ok s ∧
      Complete [⟨5, true⟩]
        (handled ⟨3, 4, by decide, fun _ => none⟩ s [.wait [⟨5, true⟩], .recv .eof]) := by
  have h := batch_complete_iff ⟨3, 4, by decide, fun _ => none⟩
    [.wait [⟨3, true⟩], .accept 5 0, .finish 0] [.recv .eof] [⟨5, true⟩] _ _ rfl (by simp) rfl rfl
  exact ⟨_, rfl, h.mpr ⟨trivial, trivial, trivial⟩⟩

/-- Client 5 has sent 64 bytes, one more than a `recv` takes. Nothing reads the last one. -/
theorem rest_of_message_is_left : ¬ ∀ env before ops events s s',
    run (step env) Server.init before = .ok s → (∀ cur, .finish cur ∉ ops) →
    run (step env) s (.wait events :: ops) = .ok s' → s'.phase = .batch [] →
    Complete events (handled env s (.wait events :: ops)) := by
  intro h
  have hc := h ⟨3, 4, by decide, fun _ => none⟩
    [.wait [⟨3, true⟩], .accept 5 0, .finish 0] [.recv (.data 1)] [⟨5, true⟩] _ _ rfl (by simp)
    rfl rfl
  have last := hc.drained ⟨5, true⟩ (.data 1) rfl
  simp at last

/-- Client 5 is reported though there is nothing to read, with an event of client 6 behind. -/
theorem event_behind_again_is_dropped : ¬ ∀ env before ops events s s',
    run (step env) Server.init before = .ok s → (∀ cur, .finish cur ∉ ops) →
    run (step env) s (.wait events :: ops) = .ok s' → s'.phase = .batch [] →
    Complete events (handled env s (.wait events :: ops)) := by
  intro h
  have hc := h ⟨3, 4, by decide, fun _ => none⟩
    [.wait [⟨3, true⟩], .accept 5 0, .finish 0, .wait [⟨3, true⟩], .accept 6 0, .finish 0,
      .wait [⟨5, true⟩], .recv (.data 1), .finish 1]
    [.recv .again] [⟨5, true⟩, ⟨6, true⟩] _ _ rfl (by simp) rfl rfl
  obtain ⟨op, hop⟩ := hc.handled ⟨6, true⟩ (by simp)
  have hlog : (⟨6, true⟩, op) ∈ [((⟨5, true⟩ : Event), Op.recv .again)] := hop
  simp at hlog

end LinuxDemo.Guarantees.AlarmKeeplive
