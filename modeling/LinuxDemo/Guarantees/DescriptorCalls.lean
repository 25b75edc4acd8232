import LinuxDemo.Invariant.DescriptorCalls

/-!
# Guarantees of the edge-triggered loops about descriptors

Behind a hard error the loops close the descriptor once and are left. Behind the end of the
input they close it and go on, with `recv` and `close` on the closed number.
-/
namespace LinuxDemo.Guarantees.DescriptorCalls
open LinuxDemo.Lib LinuxDemo.Source LinuxDemo.Invariant

theorem epollTcpUdp_orderly (env : EpollTcpUdp.Env) (ops : List EpollTcpUdp.Op) :
    Safe ((EpollTcpUdp.loop env).recorded ops) fun _ =>
      (EpollTcpUdp.loop env).Orderly ops ↔ .recv .eof ∉ ops := by
  have excused (s : EpollTcpUdp.Server) (op : EpollTcpUdp.Op) :
      Safe (EpollTcpUdp.step env s op) fun _ => True :=
    (EpollTcpUdp.step_effect env s op).mono fun _ _ => trivial
  have tracked : Tracked (EpollTcpUdp.Opened EpollTcpUdp.Server.init) [] [] :=
    Tracked.init.congr fun fd => by simp [EpollTcpUdp.Opened, EpollTcpUdp.Server.init]
  have orderly := (EpollTcpUdp.loop env).orderly_iff (EpollTcpUdp.registered_init env) tracked
    excused (fun s op uses w t => (EpollTcpUdp.step_registered s op w).and
      (EpollTcpUdp.step_judged w t op)) ops
  refine orderly.of_result fun t ht h => ?_
  rw [h]
  exact Loop.meets_ne_iff _ ht

theorem epollChatroom_orderly (listenfd : Nat) (ops : List EpollChatroom.Op) :
    Safe ((EpollChatroom.loop listenfd).recorded ops) fun _ =>
      (EpollChatroom.loop listenfd).Orderly ops ↔
        (EpollChatroom.loop listenfd).Meets EpollChatroom.Proper ops := by
  have tracked : Tracked (EpollChatroom.Opened EpollChatroom.Server.init) [] [] :=
    Tracked.init.congr fun fd => by simp [EpollChatroom.Opened, EpollChatroom.Server.init]
  exact (EpollChatroom.loop listenfd).orderly_iff (I := fun s => s.connected.Nodup)
    List.nodup_nil tracked (EpollChatroom.step_safe listenfd)
    (fun s op uses w t => EpollChatroom.step_judged w t op) ops

theorem useET_orderly (env : EpollLtEt.Env) (ops : List EpollLtEt.Op) :
    Safe ((EpollLtEt.loop env).recorded ops) fun _ =>
      (EpollLtEt.loop env).Orderly ops ↔ .recv .eof ∉ ops := by
  have tracked : Tracked (EpollLtEt.Opened EpollLtEt.Server.init) [] [] :=
    Tracked.init.congr fun fd => by simp [EpollLtEt.Opened, EpollLtEt.Server.init]
  have orderly := (EpollLtEt.loop env).orderly_iff (I := fun _ => True) trivial tracked
    (EpollLtEt.stepET_safe env) (fun s op uses _ t => (EpollLtEt.stepET_safe env s op).and
      (EpollLtEt.step_judged t op)) ops
  refine orderly.of_result fun t ht h => ?_
  rw [h]
  exact Loop.meets_ne_iff _ ht

/-- In every run of the three servers the calls on descriptors are in order exactly if no
`recv` returns 0; in the chat room, moreover, no chunk may come while `client_list_fd` has
another member that is closed. -/
theorem calls_orderly_iff (envTcp : EpollTcpUdp.Env) (listenfd : Nat) (envEt : EpollLtEt.Env)
    (opsTcp : List EpollTcpUdp.Op) (opsChat : List EpollChatroom.Op) (opsEt : List EpollLtEt.Op) :
    (Safe ((EpollTcpUdp.loop envTcp).recorded opsTcp) fun _ =>
      (EpollTcpUdp.loop envTcp).Orderly opsTcp ↔ .recv .eof ∉ opsTcp) ∧
    (Safe ((EpollChatroom.loop listenfd).recorded opsChat) fun _ =>
      (EpollChatroom.loop listenfd).Orderly opsChat ↔
        (EpollChatroom.loop listenfd).Meets EpollChatroom.Proper opsChat) ∧
    Safe ((EpollLtEt.loop envEt).recorded opsEt) fun _ =>
      (EpollLtEt.loop envEt).Orderly opsEt ↔ .recv .eof ∉ opsEt :=
  ⟨epollTcpUdp_orderly envTcp opsTcp, epollChatroom_orderly listenfd opsChat,
    useET_orderly envEt opsEt⟩

/-- A client connects as descriptor 5 and leaves: its number is closed twice. -/
theorem number_closed_twice :
    (¬ ∀ env ops, Safe ((EpollTcpUdp.loop env).recorded ops) fun t => CallsInOrder t.2 []) ∧
    (¬ ∀ listenfd ops, Safe ((EpollChatroom.loop listenfd).recorded ops) fun t =>
      CallsInOrder t.2 []) ∧
    ¬ ∀ env ops, Safe ((EpollLtEt.loop env).recorded ops) fun t => CallsInOrder t.2 [] := by
  have misused : ¬ CallsInOrder
      [.accept 5, .recv 5 true, .close 5, .recv 5 true, .close 5] [] := by
    intro h
    exact absurd (h.1 5) (by decide)
  refine ⟨fun h => misused ?_, fun h => misused ?_, fun h => misused ?_⟩
  · exact (h ⟨3, 4, by decide⟩ [.connect, .wait [⟨3, true⟩], .accept 5, .fin 0,
      .wait [⟨5, true⟩], .recv .eof, .recv .error]).of_ok rfl
  · exact (h 3 [.wait [⟨3, true⟩], .accept 5, .wait [⟨5, true⟩], .recv .eof,
      .recv .error]).of_ok rfl
  · exact (h ⟨3⟩ [.connect, .wait [⟨3, true⟩], .accept (some 5), .fin 0, .wait [⟨5, true⟩],
      .recv .eof, .recv .error]).of_ok rfl

end LinuxDemo.Guarantees.DescriptorCalls
