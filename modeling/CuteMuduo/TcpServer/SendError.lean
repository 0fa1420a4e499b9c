/-
  File:      CuteMuduo/TcpServer/SendError.lean
  Subject:   A DIRECT `write` THAT FAILS in `SendInLoop` (tcp_connection.cpp), whatever `errno` it
             sets and whatever the logger leaves in `errno`.

  With `EPIPE` or `ECONNRESET` the connection is gone: the message is to be dropped, and nothing
  is to change (`SendDropped`). With any other `errno` the message is to be kept, and the write
  interest enabled (`SendKept`). `SendInLoop` reads `errno` twice, with a call of the logger
  between the reads; what the second one decides is the logger's `errno`, unless the first one has
  said `EWOULDBLOCK` (`sendError_iff`). `HandleRead` puts its `errno` away first.
-/
import CuteMuduo.TcpServer.Confinement

namespace CuteMuduo

open Machine

/-- `EPIPE` or `ECONNRESET`. -/
def Errno.fatal (err : Errno) : Bool := err == .ePipe || err == .eConnReset

theorem faultError_failed (err errAfterLog : Errno) :
    (WriteResult.failed err errAfterLog).faultError =
      (err != .eWouldBlock && errAfterLog.fatal) := rfl

namespace Ctx

variable {k : Ctx} {c : ConnId} {u : ThreadId} {msg : List UInt8}

/-- What `EnableWriting` registers. -/
theorem isWriting_enableWriting (ha : k.Agrees c) {p : Slot Chan × Channel}
    (hp : k.channel.enableWriting k.slot (.conn c) = some p) :
    p.2.isWriting = true ∧ p.1.epoll = some (p.2.events, .conn c) := by
  obtain ⟨hch, hslot⟩ := of_updateChannel (d := k.channel) ha hp
  have hbits : ∀ m : EventMask, EventMask.has (m ||| kWriteEvent) kWriteEvent = true := by
    intro m
    have hw : (m ||| kWriteEvent) &&& kWriteEvent = kWriteEvent := by
      ext i hi
      simp only [BitVec.getElem_and, BitVec.getElem_or]
      cases m[i] <;> cases kWriteEvent[i] <;> rfl
    rw [EventMask.has, hw]
    decide
  have hne : k.channel.events ||| kWriteEvent ≠ kNoneEvent := by
    intro e
    have hb := hbits k.channel.events
    rw [e] at hb
    exact absurd hb (by decide)
  refine ⟨by rw [hch]; exact hbits _, ?_⟩
  rw [hslot, Channel.slot, hch]
  exact if_pos (if_neg fun h => hne h.2)

/-- What is appended finds its way into the buffer and the epoll set. -/
theorem appendOutput_registers (ha : k.Agrees c) (hw : k.channel.isWriting = false)
    (remaining : List UInt8) : ∃ k' is, k.appendOutput c remaining = some (k', is) ∧
      k'.conn.outputBuffer.readable = k.conn.outputBuffer.readable ++ remaining ∧
      k'.channel.isWriting = true ∧ k'.slot.epoll = some (k'.channel.events, .conn c) ∧
      (is = [] ∨ ∃ size, is = [.queueInLoop k.conn.loop (.conn c (.highWaterMark size))]) := by
  have henable : (k.channel.enableWriting k.slot (.conn c)).isSome = true := by
    rw [Channel.enableWriting, ha, Channel.updateChannel_slot]
    rfl
  obtain ⟨p, hp⟩ := Option.isSome_iff_exists.mp henable
  have hrun : ∃ r, k.appendOutput c remaining = some r := by
    simp only [appendOutput, hw, hp, Bool.false_eq_true, if_false, Option.map_some]
    exact ⟨_, rfl⟩
  obtain ⟨⟨k', is⟩, hr⟩ := hrun
  obtain ⟨hconn, hch, his⟩ := of_appendOutput hr
  have he : k.channel.enableWriting k.slot (.conn c) = some (k'.slot, k'.channel) :=
    hch.elim (fun h => absurd h.1 (Bool.eq_false_iff.mp hw)) fun h => h.2
  obtain ⟨hw', hep⟩ := isWriting_enableWriting ha he
  refine ⟨k', is, hr, ?_, hw', hep, his⟩
  rw [hconn]
  exact Buffer.readable_append _ _

/-- **`SendInLoop` whose `write` fails**: where `fault_error` is set nothing but the history
    changes; where it is not the whole message is kept. -/
theorem sendInLoop_failed (ha : k.Agrees c) (hs : k.conn.state ≠ .kDisconnected)
    (hw : k.channel.isWriting = false) (hout : k.conn.outputBuffer.readable = []) (hmsg : msg ≠ [])
    (err errAfterLog : Errno) :
    ∃ k' is, k.sendInLoop c u msg (.failed err errAfterLog) = some (k', is) ∧
      ((WriteResult.failed err errAfterLog).faultError = true →
        k' = k.record [.write [], .sendInLoop u msg (.direct (.failed err errAfterLog))] ∧
          is = []) ∧
      ((WriteResult.failed err errAfterLog).faultError = false →
        k'.conn.outputBuffer.readable = msg ∧ k'.channel.isWriting = true ∧
        k'.slot.epoll = some (k'.channel.events, .conn c) ∧
        (is = [] ∨ ∃ size, is = [.queueInLoop k.conn.loop (.conn c (.highWaterMark size))])) := by
  have hd : k.writesDirectly = true := by
    have h0 := (Buffer.readableBytes_eq_zero _).mpr hout
    rw [writesDirectly, hw, h0]
    rfl
  have hallowed : (WriteResult.failed err errAfterLog).allowed msg.length = true :=
    decide_eq_true (Nat.zero_le _)
  have hrun : k.sendInLoop c u msg (.failed err errAfterLog) =
      if (WriteResult.failed err errAfterLog).faultError = false then
        (k.record [.write [], .sendInLoop u msg
          (.direct (.failed err errAfterLog))]).appendOutput c msg
      else some (k.record [.write [], .sendInLoop u msg
        (.direct (.failed err errAfterLog))], []) := by
    simp only [sendInLoop, if_neg hs, if_pos hd, if_pos hallowed, WriteResult.succeeded,
      WriteResult.nwrote, List.drop_zero, List.take_zero, Bool.false_eq_true, false_and, if_false,
      ne_eq, hmsg, not_false_eq_true, and_true]
  cases hf : (WriteResult.failed err errAfterLog).faultError with
  | true =>
      rw [hrun, hf, if_neg Bool.noConfusion]
      exact ⟨_, _, rfl, fun _ => ⟨rfl, rfl⟩, fun h => Bool.noConfusion h⟩
  | false =>
      rw [hrun, hf, if_pos rfl]
      obtain ⟨k', is, hr, hread, hw', hep, his⟩ := appendOutput_registers (c := c)
        (k := k.record [.write [], .sendInLoop u msg (.direct (.failed err errAfterLog))])
        ha hw msg
      refine ⟨k', is, hr, fun h => Bool.noConfusion h, fun _ => ⟨?_, hw', hep, his⟩⟩
      rw [hread]
      show k.conn.outputBuffer.readable ++ msg = msg
      rw [hout, List.nil_append]

end Ctx

namespace Process

/-- **The message is dropped, and nothing changes**: the buffer, the channels, the registrations,
    the loops with their `pending_functors_`; and nothing is left to do. -/
structure SendDropped (s s' : Process) (c : ConnId) (t : ThreadId) (rest : List Instr) : Prop where
  output : (s'.conns c).outputBuffer = (s.conns c).outputBuffer
  chans : s'.chans = s.chans
  pollers : s'.pollers = s.pollers
  loops : s'.loops = s.loops
  stack : s'.stack t = rest

/-- **The message is kept, and the write interest enabled**: no functor but the high-water one is
    left to queue. -/
structure SendKept (s s' : Process) (c : ConnId) (t : ThreadId) (msg : List UInt8)
    (rest : List Instr) : Prop where
  output : (s'.conns c).outputBuffer.readable = (s.conns c).outputBuffer.readable ++ msg
  writing : (s'.chans (.conn c)).isWriting = true
  registered : (s'.ctx c).slot.epoll = some ((s'.chans (.conn c)).events, .conn c)
  loops : s'.loops = s.loops
  stack : s'.stack t = rest ∨ ∃ size,
    s'.stack t = .queueInLoop (s.conns c).loop (.conn c (.highWaterMark size)) :: rest

/-- **What is to become of a message whose `write` failed with `err`.** -/
def SendFails (s s' : Process) (c : ConnId) (t : ThreadId) (msg : List UInt8) (rest : List Instr)
    (err : Errno) : Prop :=
  if err.fatal then SendDropped s s' c t rest else SendKept s s' c t msg rest

variable {s : Process} {c : ConnId} {t u : ThreadId} {msg : List UInt8} {rest : List Instr}

/-- One of the two happens, as `fault_error` says. -/
theorem sendInLoop_step (hw : Wf s) (hst : s.stack t = .conn c (.sendInLoop u msg) :: rest)
    (hs : (s.conns c).state ≠ .kDisconnected) (hwr : (s.chans (.conn c)).isWriting = false)
    (hout : (s.conns c).outputBuffer.readable = []) (hmsg : msg ≠ []) (err errAfterLog : Errno) :
    ∃ s', s.step (.run t (.write (.failed err errAfterLog))) = some s' ∧
      ((WriteResult.failed err errAfterLog).faultError = true → SendDropped s s' c t rest) ∧
      ((WriteResult.failed err errAfterLog).faultError = false → SendKept s s' c t msg rest) := by
  have hc : c < s.created := (hw.stack t _ (mem_stack hst)).1
  obtain ⟨k', is, hr, hdrop, hkeep⟩ := Ctx.sendInLoop_failed (u := u)
    (hw.agrees c hc) hs hwr hout hmsg err errAfterLog
  have he : (s.ctx c).exec c t (s.isInLoopThread (s.conns c).loop t) (.sendInLoop u msg)
      (.write (.failed err errAfterLog)) = some (k', is) := hr
  have hsame := (Ctx.exec_effect (hw.agrees c hc) he).same
  have hstep : s.step (.run t (.write (.failed err errAfterLog))) =
      some ((s.setCtx c k').setStack t (is ++ rest)) := by
    simp only [step, hst, exec, he, Option.map_some]
  refine ⟨_, hstep, fun hf => ?_, fun hf => ?_⟩
  · obtain ⟨rfl, rfl⟩ := hdrop hf
    refine ⟨?_, ?_, ?_, rfl, stack_setStack_self _ _ _⟩
    · show (Function.update s.conns c _ c).outputBuffer = _
      rw [Function.update_self]
      rfl
    · exact Function.update_eq_self (Chan.conn c) s.chans
    · show Function.update s.pollers (s.conns c).loop
        (Function.update (s.pollers (s.conns c).loop) _ (s.pollers (s.conns c).loop _)) = s.pollers
      rw [Function.update_eq_self, Function.update_eq_self]
  · obtain ⟨hread, hw', hep, his⟩ := hkeep hf
    have hctx : ((s.setCtx c k').setStack t (is ++ rest)).ctx c = k' := ctx_setCtx_self hsame
    refine ⟨?_, ?_, ?_, rfl, ?_⟩
    · show (Ctx.conn (((s.setCtx c k').setStack t (is ++ rest)).ctx c)).outputBuffer.readable = _
      rw [hctx, hread, hout, List.nil_append]
    · show (Ctx.channel (((s.setCtx c k').setStack t (is ++ rest)).ctx c)).isWriting = true
      rw [hctx]
      exact hw'
    · show (((s.setCtx c k').setStack t (is ++ rest)).ctx c).slot.epoll =
        some ((Ctx.channel (((s.setCtx c k').setStack t (is ++ rest)).ctx c)).events, .conn c)
      rw [hctx]
      exact hep
    · rw [stack_setStack_self]
      rcases his with rfl | ⟨size, rfl⟩
      · exact Or.inl rfl
      · exact Or.inr ⟨size, rfl⟩

/-- The two exclude each other. -/
theorem not_dropped_of_kept {s' : Process} (hmsg : msg ≠ []) (hk : SendKept s s' c t msg rest) :
    ¬ SendDropped s s' c t rest := by
  intro hd
  have h := hk.output
  rw [hd.output] at h
  exact hmsg (List.self_eq_append_right.mp h)

section Runs

variable {name : List Char} {addr : InetAddress} {numLoops : Nat} {writeComplete : Bool}

/-- **A direct `write` that fails, in every state of every run.** `SendInLoop` of a non-empty
    message, with nothing buffered and no write interest, on a connection that is not
    `kDisconnected`: with `EPIPE` or `ECONNRESET` nothing changes, and with any other `errno` the
    message is kept and the write interest enabled, if and only if `errno` was `EWOULDBLOCK`, or
    the logger has left an `errno` of the same kind, fatal or not, as `write` has set. -/
theorem sendError_iff {tr : List (Process × Label)}
    (h : Run step (init name addr numLoops writeComplete) tr s)
    (hst : s.stack t = .conn c (.sendInLoop u msg) :: rest)
    (hs : (s.conns c).state ≠ .kDisconnected) (hw : (s.chans (.conn c)).isWriting = false)
    (hout : (s.conns c).outputBuffer.readable = []) (hmsg : msg ≠ []) (err errAfterLog : Errno) :
    ∃ s', s.step (.run t (.write (.failed err errAfterLog))) = some s' ∧
      (SendFails s s' c t msg rest err ↔
        err = .eWouldBlock ∨ errAfterLog.fatal = err.fatal) := by
  obtain ⟨s', hs', hdrop, hkeep⟩ := sendInLoop_step (wf_run h) hst hs hw hout hmsg err errAfterLog
  refine ⟨s', hs', ?_⟩
  unfold SendFails
  by_cases hb : err = .eWouldBlock
  · subst hb
    exact iff_of_true (hkeep rfl) (Or.inl rfl)
  have hfault : (WriteResult.failed err errAfterLog).faultError = errAfterLog.fatal := by
    rw [faultError_failed, bne_iff_ne.mpr hb, Bool.true_and]
  rw [hfault] at hdrop hkeep
  have hor : (err = .eWouldBlock ∨ errAfterLog.fatal = err.fatal) ↔
      errAfterLog.fatal = err.fatal := or_iff_right hb
  rw [hor]
  cases hf : err.fatal with
  | true =>
      rw [if_pos rfl]
      refine ⟨fun hd => ?_, hdrop⟩
      by_contra hne
      exact not_dropped_of_kept hmsg (hkeep (Bool.eq_false_iff.mpr hne)) hd
  | false =>
      rw [if_neg Bool.false_ne_true]
      refine ⟨fun hk => ?_, hkeep⟩
      by_contra hne
      exact not_dropped_of_kept hmsg hk (hdrop (Bool.of_not_eq_false hne))

/-- A connection whose callback has sent two bytes. -/
theorem exec_sendHereRun : ∃ s rest, Machine.exec step oneLoop sendHereRun = some s ∧
    s.stack (.loop 0) = .conn 0 (.sendInLoop (.loop 0) [1, 2]) :: rest ∧
    (s.conns 0).state ≠ .kDisconnected ∧ (s.chans (.conn 0)).isWriting = false ∧
    (s.conns 0).outputBuffer.readable = [] := by
  have h : ((Machine.exec step oneLoop sendHereRun).any fun s =>
      decide ((s.stack (.loop 0)).head? = some (.conn 0 (.sendInLoop (.loop 0) [1, 2])) ∧
        (s.conns 0).state ≠ .kDisconnected ∧ (s.chans (.conn 0)).isWriting = false ∧
        (s.conns 0).outputBuffer.readable = [])) = true := by decide +kernel
  obtain ⟨s, hs, hb⟩ := (Option.any_eq_true _ _).mp h
  obtain ⟨hst, hrest⟩ := of_decide_eq_true hb
  obtain ⟨rest, hst⟩ := List.head?_eq_some_iff.mp hst
  exact ⟨s, rest, hs, hst, hrest⟩

theorem sendError_iff_epipe : ∃ s rest s', Machine.exec step oneLoop sendHereRun = some s ∧
    s.step (.run (.loop 0) (.write (.failed .ePipe .eConnReset))) = some s' ∧
    SendFails s s' 0 (.loop 0) [1, 2] rest .ePipe := by
  obtain ⟨s, rest, hs, hst, hstate, hw, hout⟩ := exec_sendHereRun
  obtain ⟨s', hs', hiff⟩ := sendError_iff (exec_run .start hs) hst hstate hw hout
    (List.cons_ne_nil _ _) .ePipe .eConnReset
  exact ⟨s, rest, s', hs, hs', hiff.mpr (Or.inr rfl)⟩

/-- **The logger decides**: `EPIPE`, where it has left another `errno`, keeps the message for a
    socket that is gone; any other `errno`, where it has left `EPIPE`, drops it. -/
theorem sendError_misjudged : ∃ s rest, Machine.exec step oneLoop sendHereRun = some s ∧
    s.stack (.loop 0) = .conn 0 (.sendInLoop (.loop 0) [1, 2]) :: rest ∧
    (∃ s', s.step (.run (.loop 0) (.write (.failed .ePipe (.other 2)))) = some s' ∧
      SendKept s s' 0 (.loop 0) [1, 2] rest ∧
      ¬ SendFails s s' 0 (.loop 0) [1, 2] rest .ePipe) ∧
    ∃ s', s.step (.run (.loop 0) (.write (.failed (.other 105) .ePipe))) = some s' ∧
      SendDropped s s' 0 (.loop 0) rest ∧
      ¬ SendFails s s' 0 (.loop 0) [1, 2] rest (.other 105) := by
  obtain ⟨s, rest, hs, hst, hstate, hw, hout⟩ := exec_sendHereRun
  have hne : [(1 : UInt8), 2] ≠ [] := List.cons_ne_nil _ _
  have hwf := wf_run (exec_run .start hs)
  refine ⟨s, rest, hs, hst, ?_, ?_⟩
  · obtain ⟨s', hs', _, hk⟩ := sendInLoop_step hwf hst hstate hw hout hne .ePipe (.other 2)
    exact ⟨s', hs', hk rfl, not_dropped_of_kept hne (hk rfl)⟩
  · obtain ⟨s', hs', hd, _⟩ := sendInLoop_step hwf hst hstate hw hout hne (.other 105) .ePipe
    exact ⟨s', hs', hd rfl, fun hk => not_dropped_of_kept hne hk (hd rfl)⟩

end Runs

end Process

end CuteMuduo
