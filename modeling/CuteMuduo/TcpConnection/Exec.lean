/-
  File:      CuteMuduo/TcpConnection/Exec.lean
  Subject:   WHAT ONE STEP ON A CONNECTION CAN DO: the state it leaves, what it adds to the history
             and what no step changes (`exec_effect`), the channel (`exec_channel`), the buffers
             (`exec_output`, `exec_input`) and what it leaves to do (`exec_produced`).

  The invariants of the whole program are derived from these; they do not unfold the functions
  of `TcpConnection.lean` again.
-/
import CuteMuduo.TcpConnection

namespace CuteMuduo

/-- The channel, the poller and the kernel agree about connection `c`. -/
def Ctx.Agrees (k : Ctx) (c : ConnId) : Prop := k.slot = k.channel.slot (.conn c)

namespace ConnOp

/-- What any thread may execute; the rest belongs to the thread of the connection's loop. -/
def anyThread : ConnOp → Bool
  | .send _ | .shutdown | .shutdownSetState | .setHighWaterMark _ => true
  | _ => false

/-- What is handed to the connection's loop as a functor. -/
def isFunctor : ConnOp → Bool
  | .connectEstablished | .connectDestroyed | .sendInLoop _ _ | .shutdownInLoop | .writeComplete
  | .highWaterMark _ => true
  | _ => false

/-- The handlers of the channel. -/
def isHandler : ConnOp → Bool
  | .handleRead | .handleWrite | .handleClose | .handleError => true
  | _ => false

/-- What only the connection itself gives its loop's thread to do: neither a functor, nor a
    handler, nor a call of the user's. -/
def inner : ConnOp → Bool
  | .destroySetState | .channelRemove | .connectionCallback | .closeCallback
  | .shutdownIfDisconnecting | .shutdownSetState => true
  | _ => false

/-- What may wait below other instructions of its thread; the rest is executed at once. -/
def settled : ConnOp → Bool
  | .channelRemove | .closeCallback | .handleRead | .handleWrite | .handleError
  | .shutdownIfDisconnecting => true
  | _ => false

/-- What `op` may leave its own thread to execute next on the connection, where it found `state`.
    (For `Send`, see `Produced.sendHere`.) -/
def leadsTo (state : StateE) : ConnOp → ConnOp → Bool
  | .connectEstablished, .connectionCallback => true
  | .connectDestroyed, .destroySetState => state == .kConnected
  | .connectDestroyed, .channelRemove => true
  | .destroySetState, .connectionCallback => true
  | .handleRead, .handleClose => true
  | .handleRead, .handleError => true
  | .handleWrite, .shutdownIfDisconnecting => true
  | .handleClose, .connectionCallback => true
  | .handleClose, .closeCallback => true
  | .shutdownIfDisconnecting, .shutdownInLoop => state == .kDisconnecting
  | .shutdown, .shutdownSetState => state == .kConnected
  | _, _ => false

/-- The state `op` leaves, where it found `state`. -/
def nextState (op : ConnOp) (state : StateE) : StateE :=
  match op with
  | .connectEstablished => .kConnected
  | .destroySetState | .handleClose => .kDisconnected
  | .shutdownSetState => .kDisconnecting
  | _ => state

variable {op op' : ConnOp} {state : StateE}

theorem ne_of_anyThread (h : op.anyThread = true) (h' : op'.anyThread = false) : op ≠ op' := by
  rintro rfl
  rw [h] at h'
  cases h'

/-- A store of `kDisconnecting` apart, the state changes on the loop's thread only. -/
theorem nextState_of_anyThread (h : op.anyThread = true) (hsh : op ≠ .shutdownSetState) :
    op.nextState state = state := by
  cases op <;> first | rfl | exact absurd rfl hsh | cases h

theorem nextState_ne_kConnecting (h : state ≠ .kConnecting) :
    op.nextState state ≠ .kConnecting := by
  cases op <;> first | exact h | nofun

theorem nextState_kDisconnected (hest : op ≠ .connectEstablished) (hsh : op ≠ .shutdownSetState) :
    op.nextState .kDisconnected = .kDisconnected := by
  cases op <;> first | rfl | exact absurd rfl hest | exact absurd rfl hsh

theorem of_nextState_kDisconnected (h : op.nextState state = .kDisconnected) :
    op = .destroySetState ∨ op = .handleClose ∨ state = .kDisconnected := by
  cases op with
  | destroySetState => exact Or.inl rfl
  | handleClose => exact Or.inr (Or.inl rfl)
  | connectEstablished => cases h
  | shutdownSetState => cases h
  | _ => exact Or.inr (Or.inr h)

theorem of_leadsTo_channelRemove (h : leadsTo state op .channelRemove = true) :
    op = .connectDestroyed := by
  cases op <;> first | rfl | cases h

theorem of_leadsTo_destroySetState (h : leadsTo state op .destroySetState = true) :
    op = .connectDestroyed ∧ state = .kConnected := by
  cases op <;> first | cases h | exact ⟨rfl, eq_of_beq h⟩

theorem of_leadsTo_shutdownSetState (h : leadsTo state op .shutdownSetState = true) :
    op = .shutdown ∧ state = .kConnected := by
  cases op <;> first | cases h | exact ⟨rfl, eq_of_beq h⟩

theorem of_leadsTo_closeCallback (h : leadsTo state op .closeCallback = true) :
    op = .handleClose := by
  cases op <;> first | rfl | cases h

end ConnOp

/-- What may wait below other instructions of its thread. -/
def Instr.settled : Instr → Bool
  | .conn _ op => op.settled
  | .callback _ | .release _ | .acceptorEventEnd | .destroyEntries | .destroyThread _ | .join _
  | .destroyAcceptor => true
  | _ => false

/-- The step that can put this event into the history. -/
def ConnEvent.causedBy : ConnEvent → ConnOp → Bool
  | .accepted _ _, .send _ => true
  | .sendInLoop _ _ _, .sendInLoop _ _ => true
  | .write _, .sendInLoop _ _ => true
  | .write _, .handleWrite => true
  | .shutdownWrite, .shutdownInLoop => true
  | .connection _, .connectionCallback => true
  | .message _, .handleRead => true
  | .close, .closeCallback => true
  | .destroyed, .channelRemove => true
  | _, _ => false

namespace ConnEvent

variable {op : ConnOp}

theorem of_causedBy_connection {up : Bool} (h : (connection up).causedBy op = true) :
    op = .connectionCallback := by
  cases op <;> first | rfl | cases h

theorem of_causedBy_message {content : List UInt8} (h : (message content).causedBy op = true) :
    op = .handleRead := by
  cases op <;> first | rfl | cases h

theorem of_causedBy_close (h : close.causedBy op = true) : op = .closeCallback := by
  cases op <;> first | rfl | cases h

theorem of_causedBy_destroyed (h : destroyed.causedBy op = true) : op = .channelRemove := by
  cases op <;> first | rfl | cases h

theorem of_causedBy_shutdownWrite (h : shutdownWrite.causedBy op = true) :
    op = .shutdownInLoop := by
  cases op <;> first | rfl | cases h

theorem of_causedBy_sendInLoop {u : ThreadId} {msg : List UInt8} {outcome : SendOutcome}
    (h : (sendInLoop u msg outcome).causedBy op = true) : ∃ v m, op = .sendInLoop v m := by
  cases op <;> first | exact ⟨_, _, rfl⟩ | cases h

theorem of_causedBy_write {bytes : List UInt8} (h : (write bytes).causedBy op = true) :
    op = .handleWrite ∨ ∃ u msg, op = .sendInLoop u msg := by
  cases op <;> first | exact Or.inl rfl | exact Or.inr ⟨_, _, rfl⟩ | cases h

end ConnEvent

/-- The history from the first such event on. -/
def since (e : ConnEvent) (log : List ConnEvent) : List ConnEvent := log.dropWhile (· ≠ e)

theorem since_append_of_mem {e : ConnEvent} {log : List ConnEvent} (es : List ConnEvent)
    (h : e ∈ log) : since e (log ++ es) = since e log ++ es := by
  unfold since
  induction log with
  | nil => exact absurd h List.not_mem_nil
  | cons x log ih =>
      by_cases hx : x = e
      · rw [List.cons_append, List.dropWhile_cons_of_neg (by simpa using hx),
          List.dropWhile_cons_of_neg (by simpa using hx), List.cons_append]
      · rw [List.cons_append, List.dropWhile_cons_of_pos (by simpa using hx),
          List.dropWhile_cons_of_pos (by simpa using hx)]
        exact ih ((List.mem_cons.mp h).resolve_left (Ne.symm hx))

theorem since_append_of_not_mem {e : ConnEvent} {log : List ConnEvent} (es : List ConnEvent)
    (h : e ∉ log) : since e (log ++ es) = since e es :=
  List.dropWhile_append_of_pos fun _ he' => decide_eq_true fun heq => h (heq ▸ he')

namespace Ctx

variable {k k' : Ctx} {c : ConnId} {t : ThreadId} {own : Bool} {op : ConnOp} {o : Outcome}
  {is : List Instr}

/-! ## Operations on the channel -/

/-- What an operation on the channel leaves: the new interest, registered. -/
theorem of_updateChannel {q : Slot Chan} {d : Channel} {events : EventMask}
    {p : Slot Chan × Channel} (hs : q = d.slot (.conn c))
    (h : q.updateChannel (.conn c) { d with events := events } = some p) :
    p.2 = { d with events := events, index := Channel.nextIndex d.index events } ∧
      p.1 = p.2.slot (.conn c) := by
  rw [hs, Channel.updateChannel_slot] at h
  cases h
  exact ⟨rfl, rfl⟩

/-- The functors that call `write_complete_callback_` and `high_water_mark_callback_` do nothing
    else. -/
theorem of_userCallback {isSet : Bool}
    (h : (if isSet then some (k, [.callback (some c)]) else none) = some (k', is)) :
    k' = k ∧ is = [.callback (some c)] := by
  split at h
  · cases h
    exact ⟨rfl, rfl⟩
  · cases h

/-! ## `SendInLoop` and `HandleWrite`, case by case -/

/-- **`appendOutput`** adds its bytes to `output_buffer_` and sees to the write interest. -/
theorem of_appendOutput {remaining : List UInt8} (h : k.appendOutput c remaining = some (k', is)) :
    k'.conn = { k.conn with outputBuffer := k.conn.outputBuffer.append remaining } ∧
    (k.channel.isWriting = true ∧ k'.channel = k.channel ∧ k'.slot = k.slot ∨
      k.channel.isWriting = false ∧
        k.channel.enableWriting k.slot (.conn c) = some (k'.slot, k'.channel)) ∧
    (is = [] ∨ ∃ size, is = [.queueInLoop k.conn.loop (.conn c (.highWaterMark size))]) := by
  simp only [appendOutput] at h
  have his : ∀ {j : List Instr}, (if k.conn.highWaterMark ≤
      k.conn.outputBuffer.readableBytes + remaining.length ∧
      k.conn.outputBuffer.readableBytes < k.conn.highWaterMark ∧ k.conn.highWaterMarkCallback then
        [.queueInLoop k.conn.loop
          (.conn c (.highWaterMark (k.conn.outputBuffer.readableBytes + remaining.length)))]
      else []) = j →
      j = [] ∨ ∃ size, j = [.queueInLoop k.conn.loop (.conn c (.highWaterMark size))] := by
    rintro j rfl
    split
    · exact Or.inr ⟨_, rfl⟩
    · exact Or.inl rfl
  split at h
  · rename_i hw
    cases h
    exact ⟨rfl, Or.inl ⟨hw, rfl, rfl⟩, his rfl⟩
  · rename_i hw
    obtain ⟨p, hp, he⟩ := Option.map_eq_some_iff.mp h
    cases he
    exact ⟨rfl, Or.inr ⟨Bool.eq_false_iff.mpr hw, hp⟩, his rfl⟩

/-- The ways through `SendInLoop`. -/
inductive SendStep (k : Ctx) (c : ConnId) (sender : ThreadId) (msg : List UInt8)
    (r : WriteResult) : Ctx → List Instr → Prop where
  | refused (hs : k.conn.state = .kDisconnected) :
      SendStep k c sender msg r (k.record [.sendInLoop sender msg .refused]) []
  /-- `write` took the whole message. -/
  | complete (hs : k.conn.state ≠ .kDisconnected) (hd : k.writesDirectly = true)
      (hn : r.nwrote ≤ msg.length) (hr : r.succeeded = true) (he : msg.drop r.nwrote = []) :
      SendStep k c sender msg r
        (k.record [.write (msg.take r.nwrote), .sendInLoop sender msg (.direct r)])
        (k.queueWriteComplete c)
  /-- `write` failed, and nothing is kept. -/
  | dropped (hs : k.conn.state ≠ .kDisconnected) (hd : k.writesDirectly = true)
      (hn : r.nwrote ≤ msg.length) (hr : r.succeeded = false)
      (he : r.faultError = true ∨ msg = []) :
      SendStep k c sender msg r
        (k.record [.write (msg.take r.nwrote), .sendInLoop sender msg (.direct r)]) []
  /-- `write` left something, which is kept. -/
  | rest (hs : k.conn.state ≠ .kDisconnected) (hd : k.writesDirectly = true)
      (hn : r.nwrote ≤ msg.length) (hr : r.faultError = false) (he : msg.drop r.nwrote ≠ [])
      (k' : Ctx) (is : List Instr)
      (h : (k.record [.write (msg.take r.nwrote), .sendInLoop sender msg (.direct r)]).appendOutput
        c (msg.drop r.nwrote) = some (k', is)) : SendStep k c sender msg r k' is
  | empty (hs : k.conn.state ≠ .kDisconnected) (hd : k.writesDirectly = false) (he : msg = []) :
      SendStep k c sender msg r (k.record [.sendInLoop sender msg .buffered]) []
  | buffered (hs : k.conn.state ≠ .kDisconnected) (hd : k.writesDirectly = false) (he : msg ≠ [])
      (k' : Ctx) (is : List Instr)
      (h : (k.record [.sendInLoop sender msg .buffered]).appendOutput c msg = some (k', is)) :
      SendStep k c sender msg r k' is

theorem of_sendInLoop {sender : ThreadId} {msg : List UInt8} {r : WriteResult}
    (h : k.sendInLoop c sender msg r = some (k', is)) : SendStep k c sender msg r k' is := by
  unfold sendInLoop at h
  split at h
  · rename_i hs
    cases h
    exact .refused hs
  · rename_i hs
    split at h
    · rename_i hd
      split at h
      · rename_i hn
        have hn : r.nwrote ≤ msg.length := of_decide_eq_true hn
        dsimp only at h
        split at h
        · rename_i hr
          cases h
          exact .complete hs hd hn hr.1 hr.2
        · rename_i hc
          split at h
          · rename_i hr
            exact .rest hs hd hn hr.1 hr.2 _ _ h
          · rename_i hr
            cases h
            refine .dropped hs hd hn ?_ ?_
            · cases r with
              | wrote n =>
                  have he : msg.drop n = [] := by
                    by_contra he
                    exact hr ⟨rfl, he⟩
                  exact absurd ⟨rfl, he⟩ hc
              | failed err errAfterLog => rfl
            · cases hf : r.faultError with
              | true => exact Or.inl rfl
              | false =>
                  right
                  have he : msg.drop r.nwrote = [] := by
                    by_contra he
                    exact hr ⟨hf, he⟩
                  cases r with
                  | wrote n => exact absurd ⟨rfl, he⟩ hc
                  | failed err errAfterLog => exact he
      · cases h
    · rename_i hd
      have hd : k.writesDirectly = false := Bool.eq_false_iff.mpr hd
      dsimp only at h
      split at h
      · rename_i he
        exact .buffered hs hd he _ _ h
      · rename_i he
        cases h
        exact .empty hs hd (not_not.mp he)

/-- The ways through `HandleWrite`. -/
inductive WriteStep (k : Ctx) (c : ConnId) (r : WriteResult) : Ctx → List Instr → Prop where
  | idle (hw : k.channel.isWriting = false) : WriteStep k c r k []
  | failed (hw : k.channel.isWriting = true) (hr : r.succeeded = false) :
      WriteStep k c r (k.record [.write []]) []
  /-- `write` took some bytes, and `output_buffer_` is not drained by it. -/
  | short (hw : k.channel.isWriting = true) (hr : r.succeeded = true)
      (hn : r.nwrote ≤ k.conn.outputBuffer.readableBytes)
      (he : ¬ (0 < r.nwrote ∧ (k.conn.outputBuffer.writeFd r.nwrote).readableBytes = 0)) :
      WriteStep k c r
        { k with conn := { k.conn with
            log := k.conn.log ++ [.write (k.conn.outputBuffer.readable.take r.nwrote)]
            outputBuffer := k.conn.outputBuffer.writeFd r.nwrote } } []
  | drained (hw : k.channel.isWriting = true) (hr : r.succeeded = true)
      (hn : r.nwrote ≤ k.conn.outputBuffer.readableBytes) (h0 : 0 < r.nwrote)
      (he : (k.conn.outputBuffer.writeFd r.nwrote).readableBytes = 0)
      (p : Slot Chan × Channel) (hp : k.channel.disableWriting k.slot (.conn c) = some p) :
      WriteStep k c r
        (setChannel { k with conn := { k.conn with
            log := k.conn.log ++ [.write (k.conn.outputBuffer.readable.take r.nwrote)]
            outputBuffer := k.conn.outputBuffer.writeFd r.nwrote } } p)
        (k.queueWriteComplete c ++ [.conn c .shutdownIfDisconnecting])

theorem of_handleWrite {r : WriteResult} (h : k.handleWrite c r = some (k', is)) :
    WriteStep k c r k' is := by
  unfold handleWrite at h
  split at h
  · rename_i hw
    split at h
    · rename_i hn
      have hn : r.nwrote ≤ k.conn.outputBuffer.readableBytes := of_decide_eq_true hn
      dsimp only at h
      split at h
      · rename_i hr
        split at h
        · rename_i he
          obtain ⟨p, hp, e⟩ := Option.map_eq_some_iff.mp h
          cases e
          exact .drained hw hr hn he.1 he.2 p hp
        · rename_i he
          cases h
          exact .short hw hr hn he
      · rename_i hr
        cases r with
        | wrote n => exact absurd rfl hr
        | failed err errAfterLog =>
            cases h
            exact .failed hw rfl
    · cases h
  · rename_i hw
    cases h
    exact .idle (Bool.eq_false_iff.mpr hw)

/-- No `write` without write interest. -/
theorem handleWrite_idle {r : WriteResult} (hw : k.channel.isWriting = false)
    (h : k.handleWrite c r = some (k', is)) : k' = k ∧ is = [] := by
  cases of_handleWrite h with
  | idle => exact ⟨rfl, rfl⟩
  | failed hw' => rw [hw] at hw'; cases hw'
  | short hw' => rw [hw] at hw'; cases hw'
  | drained hw' => rw [hw] at hw'; cases hw'

/-- The ways through `HandleRead`. -/
inductive ReadStep (k : Ctx) (c : ConnId) : ReadResult → Ctx → List Instr → Prop where
  | message (bytes : List UInt8) (hn : 0 < bytes.length)
      (hc : bytes.length ≤ k.conn.inputBuffer.readCapacity) :
      ReadStep k c (.data bytes)
        { k with conn := { k.conn with
            inputBuffer := k.conn.inputBuffer.readFd bytes
            log := k.conn.log ++ [.message (k.conn.inputBuffer.readFd bytes).readable] } }
        [.callback (some c)]
  | eof : ReadStep k c (.data [])
      { k with conn := { k.conn with inputBuffer := k.conn.inputBuffer.readFd [] } }
      [.conn c .handleClose]
  | failed (err : Errno) : ReadStep k c (.failed err) k [.conn c .handleError]

theorem of_handleRead {r : ReadResult} (h : k.handleRead c r = some (k', is)) :
    ReadStep k c r k' is := by
  cases r with
  | data bytes =>
      simp only [handleRead] at h
      split at h
      · rename_i hc
        split at h
        · rename_i hn
          cases h
          exact .message bytes hn hc
        · rename_i hn
          have hb : bytes = [] := List.length_eq_zero_iff.mp (Nat.eq_zero_of_not_pos hn)
          subst hb
          cases h
          exact .eof
      · cases h
  | failed err =>
      cases h
      exact .failed err

/-! ## Every step -/

/-- What no step changes. -/
structure SameConn (k k' : Ctx) : Prop where
  fd : k'.channel.fd = k.channel.fd
  loop : k'.conn.loop = k.conn.loop
  name : k'.conn.name = k.conn.name
  closeCallback : k'.conn.closeCallback = k.conn.closeCallback
  writeComplete : k'.conn.writeCompleteCallback = k.conn.writeCompleteCallback

theorem SameConn.refl (k : Ctx) : SameConn k k := ⟨rfl, rfl, rfl, rfl, rfl⟩

/-- **What a step on a connection does.** -/
structure Effect (c : ConnId) (op : ConnOp) (k k' : Ctx) (is : List Instr) : Prop where
  state : k'.conn.state = op.nextState k.conn.state
  agrees : k'.Agrees c
  same : SameConn k k'
  tail : ∀ i ∈ is.tail, i.settled = true
  log : ∃ es, k'.conn.log = k.conn.log ++ es ∧ ∀ e ∈ es, e.causedBy op = true

theorem Effect.mem_log (h : Effect c op k k' is) {e : ConnEvent} (he : e ∈ k'.conn.log) :
    e ∈ k.conn.log ∨ e.causedBy op = true := by
  obtain ⟨es, hlog, hes⟩ := h.log
  rw [hlog] at he
  exact (List.mem_append.mp he).imp_right (hes e)

theorem Effect.log_subset (h : Effect c op k k' is) {e : ConnEvent} (he : e ∈ k.conn.log) :
    e ∈ k'.conn.log := by
  obtain ⟨es, hlog, _⟩ := h.log
  rw [hlog]
  exact List.mem_append_left _ he

/-- A step that touches neither the connection nor its channel. -/
theorem Effect.idle (ha : k.Agrees c) (hs : op.nextState k.conn.state = k.conn.state)
    (ht : ∀ i ∈ is.tail, i.settled = true) : Effect c op k k is where
  state := hs.symm
  agrees := ha
  same := .refl k
  tail := ht
  log := ⟨[], (List.append_nil _).symm, fun _ he => absurd he List.not_mem_nil⟩

/-- Events of `op`'s, and nothing else. -/
theorem effect_record {es : List ConnEvent} (ha : k.Agrees c)
    (hs : op.nextState k.conn.state = k.conn.state) (hop : ∀ e ∈ es, e.causedBy op = true)
    (ht : ∀ i ∈ is.tail, i.settled = true) : Effect c op k (k.record es) is :=
  ⟨hs.symm, ha, ⟨rfl, rfl, rfl, rfl, rfl⟩, ht, es, rfl, hop⟩

theorem causedBy_single {e : ConnEvent} (h : e.causedBy op = true) :
    ∀ e' ∈ [e], e'.causedBy op = true := by
  intro e' he
  rw [List.mem_singleton.mp he]
  exact h

theorem effect_appendOutput {remaining : List UInt8} {es : List ConnEvent}
    (ha : k.Agrees c) (hop : ∀ state, op.nextState state = state)
    (hes : ∀ e ∈ es, e.causedBy op = true)
    (h : (k.record es).appendOutput c remaining = some (k', is)) : Effect c op k k' is := by
  obtain ⟨hc, hch, his⟩ := of_appendOutput h
  have htail : ∀ i ∈ is.tail, i.settled = true := by
    rcases his with rfl | ⟨size, rfl⟩ <;> exact fun i hi => absurd hi List.not_mem_nil
  have hlog : k'.conn.log = k.conn.log ++ es := by rw [hc]; rfl
  rcases hch with ⟨_, hch, hsl⟩ | ⟨_, hen⟩
  · refine ⟨by rw [hop, hc]; rfl, ?_, ?_, htail, es, hlog, hes⟩
    · unfold Agrees
      rw [hch, hsl]
      exact ha
    · exact ⟨by rw [hch]; rfl, by rw [hc]; rfl, by rw [hc]; rfl, by rw [hc]; rfl,
        by rw [hc]; rfl⟩
  · obtain ⟨he, hp⟩ := of_updateChannel ha hen
    refine ⟨by rw [hop, hc]; rfl, hp, ?_, htail, es, hlog, hes⟩
    have hfd := congrArg Channel.fd he
    exact ⟨hfd, by rw [hc]; rfl, by rw [hc]; rfl, by rw [hc]; rfl,
      by rw [hc]; rfl⟩

theorem effect_sendInLoop {sender : ThreadId} {msg : List UInt8} {r : WriteResult}
    (ha : k.Agrees c) (h : k.sendInLoop c sender msg r = some (k', is)) :
    Effect c (.sendInLoop sender msg) k k' is := by
  have hnil : ∀ i ∈ ([] : List Instr), i.settled = true := fun i hi => absurd hi List.not_mem_nil
  have hes : ∀ outcome, ∀ e ∈ [ConnEvent.sendInLoop sender msg outcome],
      e.causedBy (.sendInLoop sender msg) = true := fun outcome => causedBy_single rfl
  have hws : ∀ bytes outcome, ∀ e ∈ [ConnEvent.write bytes, .sendInLoop sender msg outcome],
      e.causedBy (.sendInLoop sender msg) = true := by
    intro bytes outcome e he
    rcases List.mem_cons.mp he with rfl | he
    · rfl
    · exact hes outcome e he
  cases of_sendInLoop h with
  | refused => exact effect_record ha rfl (hes _) hnil
  | complete =>
      refine effect_record ha rfl (hws _ _) fun i hi => ?_
      unfold queueWriteComplete at hi
      split at hi <;> exact absurd hi List.not_mem_nil
  | dropped => exact effect_record ha rfl (hws _ _) hnil
  | rest _ _ _ _ _ _ _ h => exact effect_appendOutput ha (fun _ => rfl) (hws _ _) h
  | empty => exact effect_record ha rfl (hes _) hnil
  | buffered _ _ _ _ _ h => exact effect_appendOutput ha (fun _ => rfl) (hes _) h

theorem effect_handleWrite {r : WriteResult} (ha : k.Agrees c)
    (h : k.handleWrite c r = some (k', is)) : Effect c .handleWrite k k' is := by
  have hes : ∀ bytes, ∀ e ∈ [ConnEvent.write bytes], e.causedBy .handleWrite = true :=
    fun bytes => causedBy_single rfl
  cases of_handleWrite h with
  | idle => exact .idle ha rfl fun i hi => absurd hi List.not_mem_nil
  | failed => exact effect_record ha rfl (hes _) fun i hi => absurd hi List.not_mem_nil
  | short =>
      exact ⟨rfl, ha, ⟨rfl, rfl, rfl, rfl, rfl⟩, fun i hi => absurd hi List.not_mem_nil, _, rfl,
        hes _⟩
  | drained _ _ _ _ _ p hp =>
      obtain ⟨he, hs⟩ := of_updateChannel ha hp
      refine ⟨rfl, hs, ⟨?_, rfl, rfl, rfl, rfl⟩, fun i hi => ?_, _, rfl, hes _⟩
      · show p.2.fd = _
        rw [he]
      · unfold queueWriteComplete at hi
        split at hi
        · rw [List.mem_singleton.mp hi]
          rfl
        · exact absurd hi List.not_mem_nil

theorem effect_handleRead {r : ReadResult} (ha : k.Agrees c)
    (h : k.handleRead c r = some (k', is)) : Effect c .handleRead k k' is := by
  cases of_handleRead h with
  | message bytes =>
      exact ⟨rfl, ha, ⟨rfl, rfl, rfl, rfl, rfl⟩, fun i hi => absurd hi List.not_mem_nil, _, rfl,
        causedBy_single rfl⟩
  | eof =>
      exact ⟨rfl, ha, ⟨rfl, rfl, rfl, rfl, rfl⟩, fun i hi => absurd hi List.not_mem_nil, [],
        (List.append_nil _).symm, fun e he => absurd he List.not_mem_nil⟩
  | failed => exact .idle ha rfl fun i hi => absurd hi List.not_mem_nil

/-- An operation on the channel, with the state it stores. -/
theorem effect_updateChannel {state : StateE} {d : Channel} {events : EventMask}
    {p : Slot Chan × Channel} (ha : k.slot = d.slot (.conn c)) (hfd : d.fd = k.channel.fd)
    (hop : op.nextState k.conn.state = state)
    (h : k.slot.updateChannel (.conn c) { d with events := events } = some p)
    (ht : ∀ i ∈ is.tail, i.settled = true) :
    Effect c op k ((k.setState state).setChannel p) is := by
  obtain ⟨he, hs⟩ := of_updateChannel ha h
  refine ⟨hop.symm, hs, ⟨?_, rfl, rfl, rfl, rfl⟩, ht, [], (List.append_nil _).symm,
    fun e he => absurd he List.not_mem_nil⟩
  show p.2.fd = _
  rw [he]
  exact hfd

/-- **Every step on a connection.** -/
theorem exec_effect (ha : k.Agrees c) (h : k.exec c t own op o = some (k', is)) :
    Effect c op k k' is := by
  have hnil : ∀ i ∈ ([] : List Instr), i.settled = true := fun i hi => absurd hi List.not_mem_nil
  cases op with
  | connectEstablished =>
      obtain ⟨p, hp, e⟩ := Option.map_eq_some_iff.mp h
      cases e
      exact effect_updateChannel (d := k.channel.tie) ha rfl rfl hp hnil
  | connectDestroyed =>
      cases h
      refine .idle ha rfl fun i hi => ?_
      split at hi
      · rw [List.mem_singleton.mp hi]
        rfl
      · exact absurd hi List.not_mem_nil
  | destroySetState =>
      obtain ⟨p, hp, e⟩ := Option.map_eq_some_iff.mp h
      cases e
      exact effect_updateChannel ha rfl rfl hp hnil
  | channelRemove =>
      obtain ⟨p, hp, e⟩ := Option.map_eq_some_iff.mp h
      cases e
      rw [Channel.remove, ha, Channel.removeChannel_slot] at hp
      cases hp
      exact ⟨rfl, (Channel.slot_of_kNew _ rfl).symm, ⟨rfl, rfl, rfl, rfl, rfl⟩, hnil,
        [.destroyed], rfl, causedBy_single rfl⟩
  | connectionCallback =>
      cases h
      exact effect_record ha rfl (causedBy_single rfl) hnil
  | closeCallback =>
      obtain ⟨d, hd, e⟩ := Option.map_eq_some_iff.mp h
      cases e
      exact effect_record ha rfl (causedBy_single rfl) hnil
  | handleRead =>
      cases o with
      | read r => exact effect_handleRead ha h
      | _ => cases h
  | handleWrite =>
      cases o with
      | write r => exact effect_handleWrite ha h
      | _ => cases h
  | handleClose =>
      obtain ⟨p, hp, e⟩ := Option.map_eq_some_iff.mp h
      cases e
      refine effect_updateChannel ha rfl rfl hp fun i hi => ?_
      rcases List.mem_cons.mp hi with rfl | hi
      · rfl
      · rw [List.mem_singleton.mp hi]
        rfl
  | handleError =>
      cases h
      exact .idle ha rfl hnil
  | shutdownIfDisconnecting =>
      cases h
      refine .idle ha rfl fun i hi => ?_
      split at hi <;> exact absurd hi List.not_mem_nil
  | send msg =>
      simp only [exec, send] at h
      split at h
      · cases h
        refine effect_record ha rfl (causedBy_single rfl) fun i hi => ?_
        split at hi <;> exact absurd hi List.not_mem_nil
      · cases h
        exact .idle ha rfl hnil
  | sendInLoop sender msg =>
      cases o with
      | write r => exact effect_sendInLoop ha h
      | _ => cases h
  | shutdown =>
      cases h
      refine .idle ha rfl fun i hi => ?_
      split at hi <;> exact absurd hi List.not_mem_nil
  | shutdownSetState =>
      cases h
      exact ⟨rfl, ha, ⟨rfl, rfl, rfl, rfl, rfl⟩, hnil, [], (List.append_nil _).symm,
        fun e he => absurd he List.not_mem_nil⟩
  | shutdownInLoop =>
      cases h
      split
      · exact .idle ha rfl hnil
      · exact effect_record ha rfl (causedBy_single rfl) hnil
  | writeComplete =>
      obtain ⟨rfl, rfl⟩ := of_userCallback h
      exact .idle ha rfl hnil
  | highWaterMark size =>
      obtain ⟨rfl, rfl⟩ := of_userCallback h
      exact .idle ha rfl hnil
  | setHighWaterMark mark =>
      cases h
      exact ⟨rfl, ha, ⟨rfl, rfl, rfl, rfl, rfl⟩, hnil, [], (List.append_nil _).symm,
        fun e he => absurd he List.not_mem_nil⟩
  | retrieve len =>
      cases h
      exact ⟨rfl, ha, ⟨rfl, rfl, rfl, rfl, rfl⟩, hnil, [], (List.append_nil _).symm,
        fun e he => absurd he List.not_mem_nil⟩

/-- The functions that may change the channel. -/
def touchesChannel : ConnOp → Bool
  | .connectEstablished | .destroySetState | .channelRemove | .handleWrite | .handleClose
  | .sendInLoop _ _ => true
  | _ => false

theorem touchesChannel_of_anyThread (h : op.anyThread = true) : touchesChannel op = false := by
  cases op <;> first | rfl | cases h

/-- **The channel changes in six functions only.** -/
theorem exec_channel (h : k.exec c t own op o = some (k', is)) (hop : touchesChannel op = false) :
    k'.channel = k.channel := by
  cases op with
  | handleRead =>
      cases o with
      | read r => cases of_handleRead h <;> rfl
      | _ => cases h
  | send msg =>
      simp only [exec, send] at h
      split at h <;> (cases h; rfl)
  | closeCallback =>
      obtain ⟨p, _, e⟩ := Option.map_eq_some_iff.mp h
      cases e
      rfl
  | shutdownInLoop =>
      cases h
      split <;> rfl
  | writeComplete | highWaterMark _ =>
      obtain ⟨rfl, rfl⟩ := of_userCallback h
      rfl
  | connectEstablished | destroySetState | channelRemove | handleWrite | handleClose
  | sendInLoop _ _ => cases hop
  | _ =>
      cases h
      rfl

/-- What `destroySetState` and `HandleClose` leave of the channel: no interest. -/
theorem exec_disableAll (ha : k.Agrees c) (h : k.exec c t own op o = some (k', is))
    (hop : op = .destroySetState ∨ op = .handleClose) : k'.channel.events = kNoneEvent := by
  rcases hop with rfl | rfl <;>
    (obtain ⟨p, hp, e⟩ := Option.map_eq_some_iff.mp h
     cases e
     obtain ⟨hev, _⟩ := of_updateChannel (d := k.channel) ha hp
     show p.2.events = _
     rw [hev])

/-- `ConnectDestroyed` returns: the channel is out of the poller. -/
theorem exec_channelRemove (ha : k.Agrees c)
    (h : k.exec c t own .channelRemove o = some (k', is)) :
    k'.channel = { k.channel with index := .kNew } ∧ k'.slot = Slot.empty ∧
      k'.conn.state = k.conn.state ∧ k'.conn.log = k.conn.log ++ [.destroyed] := by
  obtain ⟨p, hp, e⟩ := Option.map_eq_some_iff.mp h
  cases e
  rw [Channel.remove, ha, Channel.removeChannel_slot] at hp
  cases hp
  exact ⟨rfl, rfl, rfl, rfl⟩

/-- No interest comes back on a disconnected connection. -/
theorem exec_disconnected (ha : k.Agrees c) (hs : k.conn.state = .kDisconnected)
    (hev : k.channel.events = kNoneEvent) (hest : op ≠ .connectEstablished)
    (h : k.exec c t own op o = some (k', is)) : k'.channel.events = kNoneEvent := by
  by_cases hd : op = .destroySetState ∨ op = .handleClose
  · exact exec_disableAll ha h hd
  by_cases hr : op = .channelRemove
  · subst hr
    rw [(exec_channelRemove ha h).1]
    exact hev
  by_cases hw : op = .handleWrite
  · subst hw
    cases o with
    | write r =>
        have hw : k.channel.isWriting = false := by
          rw [Channel.isWriting, hev]
          rfl
        simp only [exec, handleWrite, hw] at h
        cases h
        exact hev
    | _ => cases h
  by_cases hsend : ∃ u msg, op = .sendInLoop u msg
  · obtain ⟨u, msg, rfl⟩ := hsend
    cases o with
    | write r =>
        simp only [exec, sendInLoop, if_pos hs] at h
        cases h
        exact hev
    | _ => cases h
  · have hno : touchesChannel op = false := by
      cases op <;> first
        | rfl
        | exact absurd rfl hest
        | exact absurd (Or.inl rfl) hd
        | exact absurd (Or.inr rfl) hd
        | exact absurd rfl hr
        | exact absurd rfl hw
        | exact absurd ⟨_, _, rfl⟩ hsend
    rw [exec_channel h hno]
    exact hev

/-! ## The buffers -/

/-- The functions that may change a buffer. -/
def touchesBuffer : ConnOp → Bool
  | .handleRead | .handleWrite | .sendInLoop _ _ | .retrieve _ => true
  | _ => false

/-- **The buffers change in four functions only.** -/
theorem exec_buffers (h : k.exec c t own op o = some (k', is)) (hop : touchesBuffer op = false) :
    k'.conn.inputBuffer = k.conn.inputBuffer ∧ k'.conn.outputBuffer = k.conn.outputBuffer := by
  cases op with
  | send msg =>
      simp only [exec, send] at h
      split at h <;> (cases h; exact ⟨rfl, rfl⟩)
  | connectEstablished | destroySetState | channelRemove | closeCallback | handleClose =>
      obtain ⟨p, _, e⟩ := Option.map_eq_some_iff.mp h
      cases e
      exact ⟨rfl, rfl⟩
  | shutdownInLoop =>
      cases h
      split <;> exact ⟨rfl, rfl⟩
  | writeComplete | highWaterMark _ =>
      obtain ⟨rfl, rfl⟩ := of_userCallback h
      exact ⟨rfl, rfl⟩
  | handleRead | handleWrite | sendInLoop _ _ | retrieve _ => cases hop
  | _ =>
      cases h
      exact ⟨rfl, rfl⟩

/-- `output_buffer_` changes in two functions only. -/
theorem exec_output (h : k.exec c t own op o = some (k', is)) (hs : ∀ u msg, op ≠ .sendInLoop u msg)
    (hw : op ≠ .handleWrite) : k'.conn.outputBuffer = k.conn.outputBuffer := by
  cases op with
  | sendInLoop u msg => exact absurd rfl (hs u msg)
  | handleWrite => exact absurd rfl hw
  | handleRead =>
      cases o with
      | read r => cases of_handleRead h <;> rfl
      | _ => cases h
  | retrieve len =>
      cases h
      rfl
  | _ => exact (exec_buffers h rfl).2

/-- `input_buffer_` changes in two functions only. -/
theorem exec_input (h : k.exec c t own op o = some (k', is)) (hr : op ≠ .handleRead)
    (hret : ∀ len, op ≠ .retrieve len) : k'.conn.inputBuffer = k.conn.inputBuffer := by
  cases op with
  | handleRead => exact absurd rfl hr
  | retrieve len => exact absurd rfl (hret len)
  | sendInLoop sender msg =>
      cases o with
      | write r =>
          cases of_sendInLoop h with
          | rest _ _ _ _ _ _ _ h | buffered _ _ _ _ _ h => rw [(of_appendOutput h).1]; rfl
          | _ => rfl
      | _ => cases h
  | handleWrite =>
      cases o with
      | write r => cases of_handleWrite h <;> rfl
      | _ => cases h
  | _ => exact (exec_buffers h rfl).1

/-! ## What is left to do -/

/-- **What a step on connection `c` may leave its thread to do.** -/
inductive Produced (k : Ctx) (c : ConnId) (t : ThreadId) (own : Bool) (op : ConnOp) :
    Instr → Prop where
  | callback : Produced k c t own op (.callback (some c))
  | release : Produced k c t own op (.release c)
  | removeConnection (d : ConnId) (hop : op = .closeCallback)
      (hd : k.conn.closeCallback = some d) : Produced k c t own op (.removeConnection d)
  | writeComplete : Produced k c t own op (.queueInLoop k.conn.loop (.conn c .writeComplete))
  | highWaterMark (size : Nat) :
      Produced k c t own op (.queueInLoop k.conn.loop (.conn c (.highWaterMark size)))
  | sendInLoop (msg : List UInt8) (hop : op = .send msg) (hown : own = false)
      (hs : k.conn.state = .kConnected) :
      Produced k c t own op (.runInLoop k.conn.loop (.conn c (.sendInLoop t msg)))
  | shutdownInLoop (hop : op = .shutdownSetState) :
      Produced k c t own op (.runInLoop k.conn.loop (.conn c .shutdownInLoop))
  /-- The loop's own thread goes on with `SendInLoop`. -/
  | sendHere (msg : List UInt8) (hop : op = .send msg) (hown : own = true)
      (hs : k.conn.state = .kConnected) : Produced k c t own op (.conn c (.sendInLoop t msg))
  | conn (op' : ConnOp) (hop : ConnOp.leadsTo k.conn.state op op' = true)
      (hown : op.anyThread = true → op'.anyThread = true) : Produced k c t own op (.conn c op')

theorem produced_queueWriteComplete {i : Instr} (h : i ∈ k.queueWriteComplete c) :
    Produced k c t own op i := by
  unfold queueWriteComplete at h
  split at h
  · rw [List.mem_singleton.mp h]
    exact .writeComplete
  · exact absurd h List.not_mem_nil

theorem produced_appendOutput {remaining : List UInt8} {es : List ConnEvent}
    (h : (k.record es).appendOutput c remaining = some (k', is)) :
    ∀ i ∈ is, Produced k c t own op i := by
  intro i hi
  obtain ⟨_, _, rfl | ⟨size, rfl⟩⟩ := of_appendOutput h
  · exact absurd hi List.not_mem_nil
  · rw [List.mem_singleton.mp hi]
    exact .highWaterMark size

theorem exec_produced (h : k.exec c t own op o = some (k', is)) :
    ∀ i ∈ is, Produced k c t own op i := by
  have hnil : ∀ i ∈ ([] : List Instr), Produced k c t own op i :=
    fun i hi => absurd hi List.not_mem_nil
  have hone : ∀ {j : Instr}, Produced k c t own op j → ∀ i ∈ [j], Produced k c t own op i :=
    fun hj i hi => by rw [List.mem_singleton.mp hi]; exact hj
  have hop : ∀ op', ConnOp.leadsTo k.conn.state op op' = true →
      (op.anyThread = true → op'.anyThread = true) →
      ∀ i ∈ [Instr.conn c op'], Produced k c t own op i :=
    fun op' h₁ h₂ => hone (.conn op' h₁ h₂)
  have hno : ∀ {p : Prop}, false = true → p := fun h => by cases h
  cases op with
  | connectEstablished =>
      obtain ⟨p, hp, e⟩ := Option.map_eq_some_iff.mp h
      cases e
      exact hop _ rfl hno
  | connectDestroyed =>
      cases h
      split
      · rename_i hs
        intro i hi
        rcases List.mem_cons.mp hi with rfl | hi
        · exact .conn _ (beq_iff_eq.mpr hs) hno
        · exact hop _ rfl hno i hi
      · exact hop _ rfl hno
  | destroySetState =>
      obtain ⟨p, hp, e⟩ := Option.map_eq_some_iff.mp h
      cases e
      exact hop _ rfl hno
  | channelRemove =>
      obtain ⟨p, hp, e⟩ := Option.map_eq_some_iff.mp h
      cases e
      exact hnil
  | connectionCallback =>
      cases h
      exact hone .callback
  | closeCallback =>
      obtain ⟨d, hd, e⟩ := Option.map_eq_some_iff.mp h
      cases e
      exact hone (.removeConnection d rfl hd)
  | handleRead =>
      cases o with
      | read r =>
          cases of_handleRead h with
          | message => exact hone .callback
          | eof => exact hop _ rfl hno
          | failed => exact hop _ rfl hno
      | _ => cases h
  | handleWrite =>
      cases o with
      | write r =>
          cases of_handleWrite h with
          | idle => exact hnil
          | failed => exact hnil
          | short => exact hnil
          | drained =>
              intro i hi
              rcases List.mem_append.mp hi with hi | hi
              · exact produced_queueWriteComplete hi
              · exact hop _ rfl hno i hi
      | _ => cases h
  | handleClose =>
      obtain ⟨p, hp, e⟩ := Option.map_eq_some_iff.mp h
      cases e
      intro i hi
      rcases List.mem_cons.mp hi with rfl | hi
      · exact .conn _ rfl hno
      · rcases List.mem_cons.mp hi with rfl | hi
        · exact .conn _ rfl hno
        · exact hone .release i hi
  | handleError =>
      cases h
      exact hnil
  | shutdownIfDisconnecting =>
      cases h
      split
      · rename_i hs
        exact hop _ (beq_iff_eq.mpr hs) hno
      · exact hnil
  | send msg =>
      simp only [exec, send] at h
      split at h
      · rename_i hs
        cases h
        cases own with
        | true => exact hone (.sendHere msg rfl rfl hs)
        | false => exact hone (.sendInLoop msg rfl rfl hs)
      · cases h
        exact hnil
  | sendInLoop sender msg =>
      cases o with
      | write r =>
          cases of_sendInLoop h with
          | refused => exact hnil
          | complete => exact fun i hi => produced_queueWriteComplete hi
          | dropped => exact hnil
          | rest _ _ _ _ _ _ _ h => exact produced_appendOutput h
          | empty => exact hnil
          | buffered _ _ _ _ _ h => exact produced_appendOutput h
      | _ => cases h
  | shutdown =>
      cases h
      split
      · rename_i hs
        exact hop _ (beq_iff_eq.mpr hs) fun _ => rfl
      · exact hnil
  | shutdownSetState =>
      cases h
      exact hone (.shutdownInLoop rfl)
  | shutdownInLoop =>
      cases h
      exact hnil
  | writeComplete =>
      obtain ⟨rfl, rfl⟩ := of_userCallback h
      exact hone .callback
  | highWaterMark size =>
      obtain ⟨rfl, rfl⟩ := of_userCallback h
      exact hone .callback
  | setHighWaterMark mark =>
      cases h
      exact hnil
  | retrieve len =>
      cases h
      exact hnil

end Ctx

end CuteMuduo
