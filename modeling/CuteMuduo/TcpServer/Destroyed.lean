/-
  File:      CuteMuduo/TcpServer/Destroyed.lean
  Subject:   THE END OF A CONNECTION: what `ConnectDestroyed` leaves behind, over every run.

  * `stays_dead` -- once `ConnectDestroyed` has returned, the channel stays unregistered and
    nothing is written, as long as no handler and no queued `SendInLoop` finds the connection in a
    state that lets it act (`StaysDead`);
  * `resurrected` -- where one does: `ConnectDestroyed` finds `kDisconnecting`, leaves it, and a
    `SendInLoop` behind it writes and registers again;
  * `up_then_down` -- `ConnectDestroyed` returns with a DOWN reported since the UP, `kDisconnected`
    and nothing registered, as long as it does not find `kDisconnecting` (`EndsClean`);
  * `up_without_down` -- where it does.
-/
import CuteMuduo.TcpServer.Established

namespace CuteMuduo

open Machine

/-- Past `kConnected`. -/
def StateE.closed : StateE → Bool
  | .kConnecting | .kConnected => false
  | .kDisconnecting | .kDisconnected => true

theorem StateE.closed_nextState {op : ConnOp} {state : StateE} (hop : op ≠ .connectEstablished)
    (h : state.closed = true) : (op.nextState state).closed = true := by
  cases op <;> first | exact absurd rfl hop | exact h | rfl

theorem StateE.closed_of_ne {state : StateE} (h₁ : state ≠ .kConnecting)
    (h₂ : state ≠ .kConnected) : state.closed = true := by
  cases state <;> first | rfl | exact absurd rfl h₁ | exact absurd rfl h₂

namespace Process

variable {s s' : Process} {a : Label} {c : ConnId} {t : ThreadId}

/-- **`ConnectDestroyed` under way and done.** -/
structure Ending (s : Process) (c : ConnId) : Prop where
  under : .channelRemove ∈ s.trail c →
    (s.conns c).state.closed = true ∨ .destroySetState ∈ s.trail c
  done : .destroyed ∈ (s.conns c).log →
    (s.conns c).state.closed = true ∧ .destroySetState ∉ s.trail c

theorem ending_of_untouched (h : s.Untouched c) : s.Ending c := by
  refine ⟨fun hm => ?_, fun hm => ?_⟩
  · rw [h.trail] at hm
    exact absurd hm List.not_mem_nil
  · have hlog : (s.conns c).log = [] := h.log
    rw [hlog] at hm
    exact absurd hm List.not_mem_nil

section Own

variable {op : ConnOp} {o : Outcome} {T : List ConnOp} {is : List Instr}

/-- `c`'s loop's thread executes a function of `c`'s. -/
theorem ending_own (hag : (s.ctx c).Agrees c) (h : s.Ending c) (hop : op ≠ .connectEstablished)
    (hk : (s.ctx c).conn.state ≠ .kConnecting)
    (he : (s.ctx c).exec c t true op o = some (s'.ctx c, is))
    (htr : s.trail c = (innerOp op).toList ++ T)
    (htr' : s'.trail c = leaves (s.ctx c).conn.state op ++ T ∨
      op = .handleWrite ∧ s'.trail c = .shutdownIfDisconnecting :: T)
    (hset : ∀ op' ∈ T, op'.settled = true) : s'.Ending c := by
  have heff := Ctx.exec_effect hag he
  have hstate : (s'.conns c).state = op.nextState (s.conns c).state := heff.state
  have hhead : ConnOp.destroySetState ∈ s.trail c → ConnOp.destroySetState = op :=
    fun hm => eq_of_mem_trail (htr ▸ hm) hset rfl
  refine ⟨fun hm => ?_, fun hm => ?_⟩
  · rw [hstate]
    rcases of_mem_trail hm htr' with hl | hm
    · obtain rfl := ConnOp.of_leadsTo_channelRemove hl
      by_cases hcon : (s.ctx c).conn.state = .kConnected
      · exact Or.inr (destroySetState_mem htr' hcon)
      · exact Or.inl (StateE.closed_of_ne hk hcon)
    · left
      have hm : .channelRemove ∈ s.trail c := by
        rw [htr]
        exact List.mem_append_right _ hm
      rcases h.under hm with hcl | hd
      · exact StateE.closed_nextState hop hcl
      · rw [← hhead hd]
        rfl
  · have hcl : (s.conns c).state.closed = true := by
      rcases heff.mem_log hm with hm | hm
      · exact (h.done hm).1
      · obtain rfl := ConnEvent.of_causedBy_destroyed hm
        refine (h.under (htr ▸ List.mem_append_left _ List.mem_cons_self)).resolve_right
          fun hd => ?_
        cases hhead hd
    refine ⟨hstate ▸ StateE.closed_nextState hop hcl, fun hm => ?_⟩
    rcases of_mem_trail hm htr' with hl | hm
    · have hcon : (s.conns c).state = .kConnected := (ConnOp.of_leadsTo_destroySetState hl).2
      rw [hcon] at hcl
      cases hcl
    · cases hset _ hm

end Own

theorem ending_step (hi : Inv s) (hc : c < s.created) (h : s.Ending c) (hs : Step s a s') :
    s'.Ending c := by
  have hag := hi.agrees c hc
  cases turn_step hi hc hs with
  | idle hno r hctx htr =>
      have hconn : s'.conns c = s.conns c := congrArg Ctx.conn hctx
      exact ⟨by rw [htr, hconn]; exact h.under, by rw [htr, hconn]; exact h.done⟩
  | establish o rest ha hst hun hk he htr' =>
      refine ⟨fun hm => ?_, fun hm => ?_⟩
      · rw [htr'] at hm
        cases List.mem_singleton.mp hm
      · rcases (Ctx.exec_effect hag he).mem_log hm with hm | hm
        · rw [hun.log] at hm
          exact absurd hm List.not_mem_nil
        · cases hm
  | own o op rest is T ha hst hop hk he htr htr' hset =>
      exact ending_own hag h hop hk he htr htr' hset
  | foreign t o op rest is ha ht hst hany hk he htr =>
      have heff := Ctx.exec_effect hag he
      have hstate : (s'.conns c).state = op.nextState (s.conns c).state := heff.state
      have hop : op ≠ .connectEstablished := ConnOp.ne_of_anyThread hany rfl
      refine ⟨fun hm => ?_, fun hm => ?_⟩
      · rw [hstate, htr]
        exact (h.under (htr ▸ hm)).imp_left (StateE.closed_nextState hop)
      · rw [htr]
        rcases heff.mem_log hm with hm | hm
        · obtain ⟨hcl, hd⟩ := h.done hm
          exact ⟨hstate ▸ StateE.closed_nextState hop hcl, hd⟩
        · exact absurd (ConnEvent.of_causedBy_destroyed hm) (ConnOp.ne_of_anyThread hany rfl)

/-! ## Dead connections -/

end Process

/-- **The function leaves a dead connection dead**: it is not `HandleClose`; `HandleWrite` has no
    write interest; `SendInLoop` finds `kDisconnected`, or only buffers. -/
def Ctx.leavesDead (k : Ctx) : ConnOp → Prop
  | .handleClose => False
  | .handleWrite => k.channel.isWriting = false
  | .sendInLoop _ msg => k.conn.state = .kDisconnected ∨ k.channel.isWriting = true ∨
      msg = [] ∧ k.conn.outputBuffer.readableBytes ≠ 0
  | _ => True

/-- `SendInLoop` on a dead connection is refused, or only buffers. -/
theorem Ctx.sendInLoop_dead {k k' : Ctx} {c : ConnId} {u : ThreadId} {msg : List UInt8}
    {r : WriteResult} {is : List Instr} (hk : k.channel.index = .kNew)
    (hd : k.leavesDead (.sendInLoop u msg)) (h : k.sendInLoop c u msg r = some (k', is)) :
    k'.channel.index = .kNew ∧ ∃ es, k'.conn.log = k.conn.log ++ es ∧
      ∀ bytes, .write bytes ∉ es := by
  -- no direct write, and where it buffers the write interest is on
  have hbuf : k.conn.state ≠ .kDisconnected → k.writesDirectly = false := by
    intro hne
    unfold writesDirectly
    rcases hd with hd | hd | ⟨_, hd⟩
    · exact absurd hd hne
    · rw [hd]
      rfl
    · rw [beq_eq_false_iff_ne.mpr hd, Bool.and_false]
  cases of_sendInLoop h with
  | refused => exact ⟨hk, _, rfl, fun _ hm => by simp at hm⟩
  | complete hs hd' =>
      rw [hbuf hs] at hd'
      cases hd'
  | dropped hs hd' =>
      rw [hbuf hs] at hd'
      cases hd'
  | rest hs hd' =>
      rw [hbuf hs] at hd'
      cases hd'
  | empty => exact ⟨hk, _, rfl, fun _ hm => by simp at hm⟩
  | buffered hs hd' hmsg k' is h =>
      obtain ⟨hc, hch, _⟩ := of_appendOutput h
      refine ⟨?_, _, by rw [hc]; rfl, fun _ hm => by simp at hm⟩
      rcases hch with ⟨_, hch, _⟩ | ⟨hw', _⟩
      · rw [hch]
        exact hk
      · rcases hd with hd | hd | ⟨hd, _⟩
        · exact absurd hd hs
        · rw [show k.channel.isWriting = false from hw'] at hd
          cases hd
        · exact absurd hd hmsg

/-- **A function that leaves a dead connection dead** neither registers nor writes. -/
theorem Ctx.exec_dead {k k' : Ctx} {c : ConnId} {t : ThreadId} {own : Bool} {op : ConnOp}
    {o : Outcome} {is : List Instr} (ha : k.Agrees c) (hk : k.channel.index = .kNew)
    (hest : op ≠ .connectEstablished) (hdes : op ≠ .destroySetState) (hd : k.leavesDead op)
    (h : k.exec c t own op o = some (k', is)) : k'.channel.index = .kNew ∧
      ∃ es, k'.conn.log = k.conn.log ++ es ∧ ∀ bytes, .write bytes ∉ es := by
  by_cases hw : op = .handleWrite
  · subst hw
    cases o with
    | write r =>
        obtain ⟨rfl, rfl⟩ := handleWrite_idle hd h
        exact ⟨hk, [], (List.append_nil _).symm, fun _ => List.not_mem_nil⟩
    | _ => cases h
  by_cases hs : ∃ u msg, op = .sendInLoop u msg
  · obtain ⟨u, msg, rfl⟩ := hs
    cases o with
    | write r => exact sendInLoop_dead hk hd h
    | _ => cases h
  · obtain ⟨es, hlog, hes⟩ := (exec_effect ha h).log
    refine ⟨?_, es, hlog, fun bytes hm => ?_⟩
    · by_cases hr : op = .channelRemove
      · subst hr
        rw [(exec_channelRemove ha h).1]
      · have hno : touchesChannel op = false := by
          cases op <;> first
            | rfl
            | exact absurd rfl hest
            | exact absurd rfl hdes
            | exact absurd rfl hr
            | exact absurd rfl hw
            | exact hd.elim
            | exact absurd ⟨_, _, rfl⟩ hs
        rw [exec_channel h hno]
        exact hk
    · exact (ConnEvent.of_causedBy_write (hes _ hm)).elim hw hs

namespace Process

variable {s s' : Process} {a : Label} {c : ConnId} {t : ThreadId}

/-- **Behind `ConnectDestroyed`, what is executed on the connection leaves it dead.** -/
def StaysDead (c : ConnId) (s : Process) (a : Label) : Prop :=
  .destroyed ∈ (s.conns c).log → ∀ op, s.executed c a = some op → (s.ctx c).leavesDead op

instance (k : Ctx) (op : ConnOp) : Decidable (k.leavesDead op) := by
  cases op <;> unfold Ctx.leavesDead <;> infer_instance

instance (c : ConnId) (s : Process) (a : Label) : Decidable (StaysDead c s a) :=
  inferInstanceAs (Decidable (_ → ∀ op ∈ s.executed c a, (s.ctx c).leavesDead op))

/-- The connection is dead once `ConnectDestroyed` has returned. -/
structure Dead (s : Process) (c : ConnId) : Prop extends Ending s c where
  dead : .destroyed ∈ (s.conns c).log → (s.ctx c).channel.index = .kNew ∧
    ∀ bytes, .write bytes ∉ since .destroyed (s.conns c).log

/-- A function executed on a connection keeps it dead. -/
theorem dead_run {k : Ctx} {own : Bool} {op : ConnOp} {o : Outcome} {is : List Instr} {k' : Ctx}
    (hag : k.Agrees c) (hop : op ≠ .connectEstablished)
    (hdes : .destroyed ∈ k.conn.log → op ≠ .destroySetState)
    (h : .destroyed ∈ k.conn.log → k.channel.index = .kNew ∧
      ∀ bytes, .write bytes ∉ since .destroyed k.conn.log)
    (hC : .destroyed ∈ k.conn.log → k.leavesDead op)
    (he : k.exec c t own op o = some (k', is)) (hm : .destroyed ∈ k'.conn.log) :
    k'.channel.index = .kNew ∧ ∀ bytes, .write bytes ∉ since .destroyed k'.conn.log := by
  by_cases hold : .destroyed ∈ k.conn.log
  · obtain ⟨hidx, hno⟩ := h hold
    obtain ⟨hidx', es, hlog, hes⟩ := Ctx.exec_dead hag hidx hop (hdes hold) (hC hold) he
    refine ⟨hidx', fun bytes hb => ?_⟩
    rw [hlog, since_append_of_mem es hold] at hb
    exact (List.mem_append.mp hb).elim (hno bytes) (hes bytes)
  · obtain rfl := ConnEvent.of_causedBy_destroyed
      (((Ctx.exec_effect hag he).mem_log hm).resolve_left hold)
    obtain ⟨hch, _, _, hlog⟩ := Ctx.exec_channelRemove hag he
    refine ⟨by rw [hch], fun bytes hb => ?_⟩
    rw [hlog, since_append_of_not_mem _ hold] at hb
    have hb := List.dropWhile_subset _ hb
    cases List.mem_singleton.mp hb

theorem dead_step (hi : Inv s) (hc : c < s.created) (h : s.Dead c) (hC : StaysDead c s a)
    (hs : Step s a s') : s'.Dead c := by
  have hag := hi.agrees c hc
  refine ⟨ending_step hi hc h.toEnding hs, fun hm => ?_⟩
  cases turn_step hi hc hs with
  | idle hno r hctx htr =>
      have hconn : s'.conns c = s.conns c := congrArg Ctx.conn hctx
      rw [hconn] at hm ⊢
      rw [hctx]
      exact h.dead hm
  | establish o rest ha hst hun hk he htr' =>
      rcases (Ctx.exec_effect hag he).mem_log hm with hm | hm
      · rw [hun.log] at hm
        exact absurd hm List.not_mem_nil
      · cases hm
  | own o op rest is T ha hst hop hk he htr htr' hset =>
      refine dead_run hag hop (fun hd e => (h.done hd).2 ?_) h.dead
        (fun hd => hC hd op (ha ▸ executed_of_stack hst)) he hm
      rw [htr, e]
      exact List.mem_cons_self
  | foreign t o op rest is ha ht hst hany hk he htr =>
      exact dead_run hag (ConnOp.ne_of_anyThread hany rfl)
        (fun _ => ConnOp.ne_of_anyThread hany rfl) h.dead
        (fun hd => hC hd op (ha ▸ executed_of_stack hst)) he hm

section Runs

variable {name : List Char} {addr : InetAddress} {numLoops : Nat} {writeComplete : Bool}
  {tr : List (Process × Label)}

/-- **A destroyed connection stays dead**, in every run in which what is executed on it behind
    `ConnectDestroyed` leaves it dead: its channel's index stays `kNew`, neither its poller nor the
    kernel has its fd, and there is no `write` any more. -/
theorem stays_dead (h : Run step (init name addr numLoops writeComplete) tr s) (c : ConnId)
    (hc : c < s.created) (hC : ∀ p ∈ tr, StaysDead c p.1 p.2)
    (hd : .destroyed ∈ (s.conns c).log) :
    (s.chans (.conn c)).index = .kNew ∧ s.pollers (s.conns c).loop (s.fd c) = Slot.empty ∧
      ∀ bytes, .write bytes ∉ since .destroyed (s.conns c).log := by
  have hdead : s.Dead c := conn_run (I := (Dead · c)) c
    (fun _ _ hun => ⟨ending_of_untouched hun, fun hm => by
      rw [show (Process.conns _ c).log = [] from hun.log] at hm
      exact absurd hm List.not_mem_nil⟩)
    (fun _ _ _ hi hc h ha hs => dead_step hi hc h ha hs) h hC hc
  obtain ⟨hidx, hno⟩ := hdead.dead hd
  exact ⟨hidx, ((inv_run h).agrees c hc).trans (Channel.slot_of_kNew _ hidx), hno⟩

/-- Another thread queues a functor, and makes `calls`; the functor destroys the server, and
    `ConnectDestroyed` of the connection is called. -/
def destroyerRun (calls : List Label) : List Label := List.flatten
  [acceptRun, settleRun, [.user (.user 0) (.queueInLoop 0 7)], runs (.user 0) 2, calls,
    [.poll 0 [(.wakeup 0, epollIn)], .dispatch 0, .run (.loop 0) .none, .loop 0 .startFunctors,
      .loop 0 .swap, .loop 0 (.next (.loop 0)), .user (.loop 0) .destroyServer,
      .run (.loop 0) (.entry (some 0)), .run (.loop 0) .none]]

/-- `~TcpServer` and its functor return. -/
def returnRun : List Label :=
  [.run (.loop 0) (.entry none), .run (.loop 0) .none, .ret (.loop 0), .loop 0 .ret]

/-- `Send` on another thread is accepted, and its `SendInLoop` queued. -/
def sendCall : List Label := [.user (.user 0) (.send 0 [1, 2])] ++ runs (.user 0) 5

/-- `ConnectDestroyed` finds `kConnected` and reports the DOWN; what is left of it is `Remove`. -/
def destroyRun : List Label :=
  destroyerRun sendCall ++ runs (.loop 0) 3 ++ [.ret (.loop 0)]

/-- The `SendInLoop` queued behind the destruction is executed. -/
def sendDeadRun : List Label := List.flatten
  [destroyRun, runs (.loop 0) 3, returnRun,
    [.loop 0 (.next (.loop 0)), .run (.loop 0) (.write (.wrote 1))]]

theorem stays_dead_send : ∃ s, Machine.exec step oneLoop sendDeadRun = some s ∧
    .sendInLoop (.user 0) [1, 2] .refused ∈ since .destroyed (s.conns 0).log ∧
      (s.chans (.conn 0)).index = .kNew ∧ s.pollers (s.conns 0).loop (s.fd 0) = Slot.empty ∧
      ∀ bytes, .write bytes ∉ since .destroyed (s.conns 0).log := by
  have h : ((Machine.exec step oneLoop sendDeadRun).any fun s =>
      decide (0 < s.created ∧ .destroyed ∈ (s.conns 0).log ∧
        .sendInLoop (.user 0) [1, 2] .refused ∈ since .destroyed (s.conns 0).log)) = true := by
    decide +kernel
  have hdead : ((execTrace step oneLoop sendDeadRun []).all fun p =>
      decide (StaysDead 0 p.1 p.2)) = true := by decide +kernel
  obtain ⟨s, hs, hb⟩ := (Option.any_eq_true _ _).mp h
  obtain ⟨hc, hd, hsend⟩ := of_decide_eq_true hb
  exact ⟨s, hs, hsend, stays_dead (exec_run .start hs) 0 hc
    (fun p hp => of_decide_eq_true (List.all_eq_true.mp hdead p hp)) hd⟩

/-- Behind the `Send`, its thread calls `Shutdown`: `ConnectDestroyed` finds `kDisconnecting`. The
    `SendInLoop` behind it writes, and registers the channel for the rest. -/
def resurrectRun : List Label := List.flatten
  [destroyerRun (sendCall ++ [.user (.user 0) (.shutdown 0)] ++ runs (.user 0) 6),
    runs (.loop 0) 4, returnRun,
    [.loop 0 (.next (.loop 0)), .run (.loop 0) (.write (.wrote 1))]]

/-- **A destroyed connection written to and registered again.** -/
theorem resurrected : ¬ ∀ (tr : List (Process × Label)) (s : Process), Run step oneLoop tr s →
    ∀ c < s.created, .destroyed ∈ (s.conns c).log →
      (s.chans (.conn c)).index = .kNew ∧ s.pollers (s.conns c).loop (s.fd c) = Slot.empty ∧
        ∀ bytes, .write bytes ∉ since .destroyed (s.conns c).log := by
  intro hall
  have h : ((Machine.exec step oneLoop resurrectRun).any fun s =>
      decide (0 < s.created ∧ .destroyed ∈ (s.conns 0).log ∧ (s.chans (.conn 0)).index = .kAdded ∧
        .write [1] ∈ since .destroyed (s.conns 0).log)) = true := by decide +kernel
  obtain ⟨s, hs, hb⟩ := (Option.any_eq_true _ _).mp h
  obtain ⟨hc, hd, hidx, _⟩ := of_decide_eq_true hb
  have := (hall _ s (exec_run .start hs) 0 hc hd).1
  rw [hidx] at this
  cases this

end Runs

/-! ## UP and DOWN -/

/-- **The end of the connection goes the way it should**: `ConnectDestroyed` does not find
    `kDisconnecting`, and no `Shutdown` stores `kDisconnecting` over the `kDisconnected` of a
    `ConnectDestroyed` under way. -/
def EndsClean (c : ConnId) (s : Process) (a : Label) : Prop :=
  (s.executed c a = some .connectDestroyed → (s.conns c).state ≠ .kDisconnecting) ∧
  (s.executed c a = some .shutdownSetState →
    ¬ ((s.conns c).state = .kDisconnected ∧ .channelRemove ∈ s.trail c))

instance (c : ConnId) (s : Process) (a : Label) : Decidable (EndsClean c s a) :=
  inferInstanceAs (Decidable (_ ∧ _))

/-- A DOWN has been reported since the UP, if there was one. -/
def DownSinceUp (log : List ConnEvent) : Prop :=
  .connection true ∈ log → .connection false ∈ since (.connection true) log

theorem downSinceUp_down {log : List ConnEvent} : DownSinceUp (log ++ [.connection false]) := by
  intro hm
  have hup : .connection true ∈ log := by
    rcases List.mem_append.mp hm with hm | hm
    · exact hm
    · cases List.mem_singleton.mp hm
  rw [since_append_of_mem _ hup]
  exact List.mem_append_right _ List.mem_cons_self

theorem downSinceUp_append {log es : List ConnEvent} (h : DownSinceUp log)
    (hes : .connection true ∉ es) : DownSinceUp (log ++ es) := by
  intro hm
  have hup := (List.mem_append.mp hm).resolve_right hes
  rw [since_append_of_mem _ hup]
  exact List.mem_append_left _ (h hup)

/-- **The DOWN of a connection that is `kDisconnected`** has been reported, or is reported next. -/
structure Notified (s : Process) (c : ConnId) : Prop where
  events : (s.ctx c).conn.state = .kDisconnected → (s.ctx c).channel.events = kNoneEvent
  down : (s.ctx c).conn.state = .kDisconnected →
    DownSinceUp (s.ctx c).conn.log ∨ .connectionCallback ∈ s.trail c
  under : .channelRemove ∈ s.trail c →
    (s.ctx c).conn.state = .kDisconnected ∨ .destroySetState ∈ s.trail c

theorem notified_of_untouched (h : s.Untouched c) : s.Notified c := by
  refine ⟨fun _ => h.events, fun _ => Or.inl fun hm => ?_, fun hm => ?_⟩
  · rw [h.log] at hm
    exact absurd hm List.not_mem_nil
  · rw [h.trail] at hm
    exact absurd hm List.not_mem_nil

/-- What a function executed on the connection reports. -/
theorem down_run {k k' : Ctx} {own : Bool} {op : ConnOp} {o : Outcome} {is : List Instr}
    (hag : k.Agrees c) (hs : k.conn.state = .kDisconnected)
    (he : k.exec c t own op o = some (k', is)) :
    (DownSinceUp k.conn.log → DownSinceUp k'.conn.log) ∧
      (op = .connectionCallback → DownSinceUp k'.conn.log) := by
  have hcb : op = .connectionCallback → DownSinceUp k'.conn.log := by
    rintro rfl
    cases he
    have hf : k.isConnected = false := by
      rw [Ctx.isConnected, hs]
      rfl
    simp only [Ctx.record, hf]
    exact downSinceUp_down
  refine ⟨fun hdown => ?_, hcb⟩
  by_cases hop : op = .connectionCallback
  · exact hcb hop
  · obtain ⟨es, hlog, hes⟩ := (Ctx.exec_effect hag he).log
    rw [hlog]
    exact downSinceUp_append hdown fun hm => hop (ConnEvent.of_causedBy_connection (hes _ hm))

section Own

variable {op : ConnOp} {o : Outcome} {T : List ConnOp} {is : List Instr}

/-- `c`'s loop's thread executes a function of `c`'s. -/
theorem notified_own (hag : (s.ctx c).Agrees c) (h : s.Notified c) (hop : op ≠ .connectEstablished)
    (hk : (s.ctx c).conn.state ≠ .kConnecting)
    (hdes : op = .connectDestroyed → (s.ctx c).conn.state ≠ .kDisconnecting)
    (hsh : op = .shutdownSetState →
      ¬ ((s.ctx c).conn.state = .kDisconnected ∧ .channelRemove ∈ s.trail c))
    (he : (s.ctx c).exec c t true op o = some (s'.ctx c, is))
    (htr : s.trail c = (innerOp op).toList ++ T)
    (htr' : s'.trail c = leaves (s.ctx c).conn.state op ++ T ∨
      op = .handleWrite ∧ s'.trail c = .shutdownIfDisconnecting :: T)
    (hset : ∀ op' ∈ T, op'.settled = true) : s'.Notified c := by
  have hstate := (Ctx.exec_effect hag he).state
  have hhead : ∀ {op'}, op' ∈ s.trail c → op'.settled = false → op' = op :=
    fun hm => eq_of_mem_trail (htr ▸ hm) hset
  refine ⟨fun hd => ?_, fun hd => ?_, fun hm => ?_⟩
  · rw [hstate] at hd
    rcases ConnOp.of_nextState_kDisconnected hd with e | e | hd
    · exact Ctx.exec_disableAll hag he (Or.inl e)
    · exact Ctx.exec_disableAll hag he (Or.inr e)
    · exact Ctx.exec_disconnected hag hd (h.events hd) hop he
  · rw [hstate] at hd
    rcases ConnOp.of_nextState_kDisconnected hd with rfl | rfl | hd
    · exact Or.inr (mem_trail_of_leaves htr' (by decide) List.mem_cons_self)
    · exact Or.inr (mem_trail_of_leaves htr' (by decide) List.mem_cons_self)
    · obtain ⟨hkeep, hcb⟩ := down_run hag hd he
      left
      rcases h.down hd with hdown | hm
      · exact hkeep hdown
      · exact hcb (hhead hm rfl).symm
  · rw [hstate]
    rcases of_mem_trail hm htr' with hl | hm
    · obtain rfl := ConnOp.of_leadsTo_channelRemove hl
      by_cases hcon : (s.ctx c).conn.state = .kConnected
      · exact Or.inr (destroySetState_mem htr' hcon)
      · left
        show (s.ctx c).conn.state = .kDisconnected
        cases hst : (s.ctx c).conn.state with
        | kConnecting => exact absurd hst hk
        | kConnected => exact absurd hst hcon
        | kDisconnecting => exact absurd hst (hdes rfl)
        | kDisconnected => rfl
    · left
      have hm : .channelRemove ∈ s.trail c := by
        rw [htr]
        exact List.mem_append_right _ hm
      rcases h.under hm with hd | hd
      · rw [hd]
        exact ConnOp.nextState_kDisconnected hop fun e => hsh e ⟨hd, hm⟩
      · rw [← hhead hd rfl]
        rfl

end Own

theorem notified_step (hi : Inv s) (hc : c < s.created) (h : s.Notified c) (hC : EndsClean c s a)
    (hs : Step s a s') : s'.Notified c := by
  have hag := hi.agrees c hc
  cases turn_step hi hc hs with
  | idle hno r hctx htr =>
      refine ⟨?_, ?_, ?_⟩
      · rw [hctx]
        exact h.events
      · rw [hctx, htr]
        exact h.down
      · rw [hctx, htr]
        exact h.under
  | establish o rest ha hst hun hk he htr' =>
      have hstate := (Ctx.exec_effect hag he).state
      refine ⟨fun hd => ?_, fun hd => ?_, fun hm => ?_⟩
      · rw [hstate] at hd
        cases hd
      · rw [hstate] at hd
        cases hd
      · rw [htr'] at hm
        cases List.mem_singleton.mp hm
  | own o op rest is T ha hst hop hk he htr htr' hset =>
      have hex : s.executed c a = some op := ha ▸ executed_of_stack hst
      exact notified_own hag h hop hk (fun e => hC.1 (e ▸ hex)) (fun e => hC.2 (e ▸ hex)) he htr
        htr' hset
  | foreign t o op rest is ha ht hst hany hk he htr =>
      have hstate := (Ctx.exec_effect hag he).state
      have hop : op ≠ .connectEstablished := ConnOp.ne_of_anyThread hany rfl
      have hback : (s'.ctx c).conn.state = .kDisconnected →
          (s.ctx c).conn.state = .kDisconnected := by
        intro hd
        rw [hstate] at hd
        rcases ConnOp.of_nextState_kDisconnected hd with e | e | hd
        · exact absurd e (ConnOp.ne_of_anyThread hany rfl)
        · exact absurd e (ConnOp.ne_of_anyThread hany rfl)
        · exact hd
      refine ⟨fun hd => ?_, fun hd => ?_, fun hm => ?_⟩
      · exact Ctx.exec_disconnected hag (hback hd) (h.events (hback hd)) hop he
      · rw [htr]
        exact (h.down (hback hd)).imp_left (down_run hag (hback hd) he).1
      · rw [htr] at hm ⊢
        rw [hstate]
        refine (h.under hm).imp_left fun hd => ?_
        rw [hd]
        exact ConnOp.nextState_kDisconnected hop
          fun e => hC.2 (ha ▸ e ▸ executed_of_stack hst) ⟨hd, hm⟩

section Runs

variable {name : List Char} {addr : InetAddress} {numLoops : Nat} {writeComplete : Bool}
  {tr : List (Process × Label)}

/-- **Every UP is matched by a DOWN.** In every run in which connections end the way they should:
    when `ConnectDestroyed` returns, a DOWN has been reported since the UP, the connection is
    `kDisconnected`, and its channel has no interest and is unregistered. -/
theorem up_then_down (h : Run step (init name addr numLoops writeComplete) tr s) (c : ConnId)
    (hc : c < s.created) (hC : ∀ p ∈ tr, EndsClean c p.1 p.2) {o : Outcome} {rest : List Instr}
    (hst : s.stack t = .conn c .channelRemove :: rest) (hs : step s (.run t o) = some s') :
    (.connection true ∈ (s'.conns c).log →
      .connection false ∈ since (.connection true) (s'.conns c).log) ∧
    (s'.conns c).state = .kDisconnected ∧ (s'.chans (.conn c)).events = kNoneEvent ∧
    (s'.chans (.conn c)).index = .kNew ∧ s'.pollers (s'.conns c).loop (s'.fd c) = Slot.empty := by
  have hi := inv_run h
  have hno : s.Notified c := conn_run (I := (Notified · c)) c (fun _ _ => notified_of_untouched)
    (fun _ _ _ hi hc h ha hs => notified_step hi hc h ha hs) h hC hc
  have hag := hi.agrees c hc
  cases turn_step hi hc (of_step hs) with
  | idle hidle => exact absurd hst (hidle t o _ rest rfl)
  | establish o' rest' ha hst' =>
      cases ha
      rw [hst] at hst'
      cases hst'
  | own o' op rest' is T ha hst' hop hk he htr htr' hset =>
      cases ha
      rw [hst] at hst'
      cases hst'
      have hm : ConnOp.channelRemove ∈ s.trail c := by
        rw [htr]
        exact List.mem_cons_self
      have hd : (s.ctx c).conn.state = .kDisconnected := by
        refine (hno.under hm).resolve_right fun hd => ?_
        cases eq_of_mem_trail (htr ▸ hd) hset rfl
      have hdown : DownSinceUp (s.ctx c).conn.log := by
        refine (hno.down hd).resolve_right fun hd => ?_
        cases eq_of_mem_trail (htr ▸ hd) hset rfl
      obtain ⟨hch, hslot, hstate, _⟩ := Ctx.exec_channelRemove hag he
      refine ⟨(down_run hag hd he).1 hdown, hstate.trans hd, ?_, ?_, hslot⟩
      · exact (congrArg Channel.events hch).trans (hno.events hd)
      · exact congrArg Channel.index hch
  | foreign t' o' op rest' is ha ht hst' hany hk he htr =>
      cases ha
      rw [hst] at hst'
      cases hst'
      cases hany

theorem up_then_down_destroy : ∃ s s', Machine.exec step oneLoop destroyRun = some s ∧
    step s (.run (.loop 0) .none) = some s' ∧ .connection true ∈ (s'.conns 0).log ∧
    (.connection true ∈ (s'.conns 0).log →
      .connection false ∈ since (.connection true) (s'.conns 0).log) ∧
    (s'.conns 0).state = .kDisconnected ∧ (s'.chans (.conn 0)).events = kNoneEvent ∧
    (s'.chans (.conn 0)).index = .kNew ∧
    s'.pollers (s'.conns 0).loop (s'.fd 0) = Slot.empty := by
  have h : ((Machine.exec step oneLoop destroyRun).any fun s =>
      decide (0 < s.created ∧ (s.stack (.loop 0)).head? = some (.conn 0 .channelRemove)) &&
        (step s (.run (.loop 0) .none)).any fun s' =>
          decide (.connection true ∈ (s'.conns 0).log)) = true := by decide +kernel
  have hclean : ((execTrace step oneLoop destroyRun []).all fun p =>
      decide (EndsClean 0 p.1 p.2)) = true := by decide +kernel
  obtain ⟨s, hs, hb⟩ := (Option.any_eq_true _ _).mp h
  obtain ⟨hb, h'⟩ := Bool.and_eq_true_iff.mp hb
  obtain ⟨hc, hhead⟩ := of_decide_eq_true hb
  obtain ⟨s', hs', hup⟩ := (Option.any_eq_true _ _).mp h'
  obtain ⟨rest, hst⟩ := List.head?_eq_some_iff.mp hhead
  exact ⟨s, s', hs, hs', of_decide_eq_true hup, up_then_down (exec_run .start hs) 0 hc
    (fun p hp => of_decide_eq_true (List.all_eq_true.mp hclean p hp)) hst hs'⟩

/-- `Shutdown` in the connection callback, then the server is destroyed: `ConnectDestroyed` finds
    `kDisconnecting`. -/
def skipRun : List Label :=
  acceptRun ++ [.user (.loop 0) (.shutdown 0), .run (.loop 0) .none, .run (.loop 0) .none,
    .run (.loop 0) .none, .run (.loop 0) .none, .run (.loop 0) .none,
    .user (.loop 0) .destroyServer, .run (.loop 0) (.entry (some 0)), .run (.loop 0) .none,
    .run (.loop 0) .none]

/-- **`ConnectDestroyed` returns without a DOWN**, with the state and the interest left as they
    were. -/
theorem up_without_down : ¬ ∀ (tr : List (Process × Label)) (s s' : Process) (t : ThreadId)
    (o : Outcome) (rest : List Instr), Run step oneLoop tr s → ∀ c < s.created,
      s.stack t = .conn c .channelRemove :: rest → step s (.run t o) = some s' →
      (.connection true ∈ (s'.conns c).log →
        .connection false ∈ since (.connection true) (s'.conns c).log) ∧
      (s'.conns c).state = .kDisconnected ∧ (s'.chans (.conn c)).events = kNoneEvent ∧
      (s'.chans (.conn c)).index = .kNew ∧
      s'.pollers (s'.conns c).loop (s'.fd c) = Slot.empty := by
  intro hall
  have h : ((Machine.exec step oneLoop skipRun).any fun s =>
      decide (0 < s.created ∧ (s.stack (.loop 0)).head? = some (.conn 0 .channelRemove)) &&
        (step s (.run (.loop 0) .none)).any fun s' =>
          decide (.connection true ∈ (s'.conns 0).log ∧ .connection false ∉ (s'.conns 0).log ∧
            (s'.conns 0).state = .kDisconnecting ∧
            (s'.chans (.conn 0)).events ≠ kNoneEvent)) = true := by decide +kernel
  obtain ⟨s, hs, hb⟩ := (Option.any_eq_true _ _).mp h
  obtain ⟨hb, h'⟩ := Bool.and_eq_true_iff.mp hb
  obtain ⟨hc, hhead⟩ := of_decide_eq_true hb
  obtain ⟨s', hs', hb'⟩ := (Option.any_eq_true _ _).mp h'
  obtain ⟨rest, hst⟩ := List.head?_eq_some_iff.mp hhead
  have hstate := (of_decide_eq_true hb').2.2.1
  rw [(hall _ s s' _ _ rest (exec_run .start hs) 0 hc hst hs').2.1] at hstate
  cases hstate

end Runs

end Process

end CuteMuduo