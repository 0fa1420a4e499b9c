/-
  File:      CuteMuduo/TcpServer/Dispatch.lean
  Subject:   WHAT WAITS TO BE HANDLED: the channels `Poll` has put into `active_channels_`, until
             `Loop()` has called `HandleEvent` on each of them (event_loop.cpp).

  The vector holds raw pointers. A handler may accept connections, close its own and go through
  the server's registry, on this loop or on another; but `Remove` is executed in
  `DoPendingFunctors`, or with nothing to handle (`Removing`), so that what waits stays as `Poll`
  has left it, and in `channels_` (`undispatched_stays`).

  * `Channel.Waits` -- the channel keeps its `revents_` and stays registered: every function of
    a connection but the end of `ConnectDestroyed` (`exec_waits`);
  * `OwnChannels` -- a loop's wakeup channel and the acceptor's agree with their registrations;
  * `Removing` -- where the parts of `ConnectDestroyed` and of `~TcpServer` are executed.
-/
import CuteMuduo.TcpServer.ServerEnd

namespace CuteMuduo

open Machine

/-! ## A channel that waits -/

/-- **The channel keeps its `revents_`**, and stays in `channels_` if it is there. -/
structure Channel.Waits (ch ch' : Channel) : Prop where
  revents : ch'.revents = ch.revents
  index : ch.index ≠ .kNew → ch'.index ≠ .kNew

theorem Channel.Waits.refl (ch : Channel) : ch.Waits ch := ⟨rfl, id⟩

theorem Channel.nextIndex_ne_kNew (index : Index) (events : EventMask) :
    nextIndex index events ≠ .kNew := by
  unfold nextIndex
  split <;> exact Index.noConfusion

namespace Ctx

variable {k k' : Ctx} {c : ConnId} {t : ThreadId} {own : Bool} {op : ConnOp} {o : Outcome}
  {is : List Instr}

/-- A new interest. -/
theorem waits_updateChannel {d : Channel} {events : EventMask} {p : Slot Chan × Channel}
    (ha : k.slot = d.slot (.conn c)) (hd : d.revents = k.channel.revents)
    (h : k.slot.updateChannel (.conn c) { d with events := events } = some p) :
    k.channel.Waits p.2 := by
  obtain ⟨he, _⟩ := of_updateChannel ha h
  rw [he]
  exact ⟨hd, fun _ => Channel.nextIndex_ne_kNew _ _⟩

theorem waits_appendOutput {remaining : List UInt8} (ha : k.Agrees c)
    (h : k.appendOutput c remaining = some (k', is)) : k.channel.Waits k'.channel := by
  rcases (of_appendOutput h).2.1 with ⟨_, hch, _⟩ | ⟨_, hen⟩
  · rw [hch]
    exact .refl _
  · exact waits_updateChannel ha rfl hen

theorem waits_sendInLoop {sender : ThreadId} {msg : List UInt8} {r : WriteResult}
    (ha : k.Agrees c) (h : k.sendInLoop c sender msg r = some (k', is)) :
    k.channel.Waits k'.channel := by
  cases of_sendInLoop h with
  | rest _ _ _ _ _ _ _ h => exact waits_appendOutput (k := k.record _) ha h
  | buffered _ _ _ _ _ h => exact waits_appendOutput (k := k.record _) ha h
  | _ => exact .refl _

theorem waits_handleWrite {r : WriteResult} (ha : k.Agrees c)
    (h : k.handleWrite c r = some (k', is)) : k.channel.Waits k'.channel := by
  cases of_handleWrite h with
  | drained _ _ _ _ _ p hp => exact waits_updateChannel ha rfl hp
  | _ => exact .refl _

/-- **A channel is taken out of `channels_` by the end of `ConnectDestroyed` only**, and its
    `revents_` are changed by none of its connection's functions. -/
theorem exec_waits (ha : k.Agrees c) (h : k.exec c t own op o = some (k', is))
    (hop : op ≠ .channelRemove) : k.channel.Waits k'.channel := by
  cases op with
  | connectEstablished =>
      obtain ⟨p, hp, e⟩ := Option.map_eq_some_iff.mp h
      cases e
      exact waits_updateChannel (d := k.channel.tie) ha rfl hp
  | destroySetState | handleClose =>
      obtain ⟨p, hp, e⟩ := Option.map_eq_some_iff.mp h
      cases e
      exact waits_updateChannel ha rfl hp
  | channelRemove => exact absurd rfl hop
  | handleWrite =>
      cases o with
      | write r => exact waits_handleWrite ha h
      | _ => cases h
  | sendInLoop sender msg =>
      cases o with
      | write r => exact waits_sendInLoop ha h
      | _ => cases h
  | _ =>
      rw [exec_channel h rfl]
      exact .refl _

end Ctx

namespace Instr

/-- A part of connection `c`'s `ConnectDestroyed`. -/
def removes (c : ConnId) : Instr → Bool
  | .conn d .connectDestroyed | .conn d .destroySetState | .conn d .channelRemove => d == c
  | _ => false

/-- A part of `~TcpServer`, or a `ConnectDestroyed` that it hands over. -/
def tearsDown : Instr → Bool
  | .runInLoop _ (.conn _ .connectDestroyed) => true
  | i => i.destroys

theorem of_removes {c : ConnId} {i : Instr} (h : i.removes c = true) : ∃ op, i = .conn c op ∧
    (op = .connectDestroyed ∨ op = .destroySetState ∨ op = .channelRemove) := by
  unfold removes at h
  split at h
  · exact ⟨_, by rw [eq_of_beq h], Or.inl rfl⟩
  · exact ⟨_, by rw [eq_of_beq h], Or.inr (Or.inl rfl)⟩
  · exact ⟨_, by rw [eq_of_beq h], Or.inr (Or.inr rfl)⟩
  · cases h

end Instr

namespace Process

variable {s s' s₁ : Process} {a : Label} {l : LoopId} {t : ThreadId} {c : ConnId} {ch : Chan}
  {o : Outcome} {i j : Instr} {is rest : List Instr}

/-! ## Channels and registrations -/

/-- `HasChannel` of loop `l`'s poller. -/
def hasChannel (s : Process) (l : LoopId) (ch : Chan) : Bool :=
  (s.pollers l (s.chans ch).fd).hasChannel ch

/-- The channel and its registration with loop `l`'s poller agree. -/
def ChanAgrees (s : Process) (l : LoopId) (ch : Chan) : Prop :=
  s.pollers l (s.chans ch).fd = (s.chans ch).slot ch

theorem hasChannel_iff (h : s.ChanAgrees l ch) :
    s.hasChannel l ch = true ↔ (s.chans ch).index ≠ .kNew := by
  unfold hasChannel
  rw [h, Slot.hasChannel, Channel.slot]
  by_cases hi : (s.chans ch).index = .kNew
  · rw [if_pos hi]
    exact iff_of_false Bool.false_ne_true (not_not_intro hi)
  · rw [if_neg hi]
    exact iff_of_true (beq_self_eq_true _) hi

/-- What is in the epoll set is in `channels_`. -/
theorem hasChannel_of_epoll (h : s.ChanAgrees l ch) {e : EventMask × Chan}
    (he : (s.pollers l (s.chans ch).fd).epoll = some e) : s.hasChannel l ch = true := by
  refine (hasChannel_iff h).mpr fun hi => ?_
  rw [h, Channel.slot_of_kNew ch hi] at he
  cases he

/-- **The channels that are no connection's**: each loop's wakeup channel, and the acceptor's. -/
structure OwnChannels (s : Process) : Prop where
  wakeupFd : ∀ l, (s.chans (.wakeup l)).fd = l
  wakeup : ∀ l ≤ s.numLoops, s.ChanAgrees l (.wakeup l)
  acceptorFd : (s.chans .acceptor).fd = s.numLoops + 1
  acceptor : s.AcceptorAgrees

/-- Where neither these channels nor the fds below the connections' are touched. -/
theorem OwnChannels.of_same (h : s.OwnChannels) (hn : s'.numLoops = s.numLoops)
    (hch : ∀ ch, (∀ c, ch ≠ .conn c) → ∃ r, s'.chans ch = (s.chans ch).setRevents r)
    (hp : ∀ l fd, fd < firstFd s.numLoops → s'.pollers l fd = s.pollers l fd) :
    s'.OwnChannels := by
  have hfd : ∀ ch, (∀ c, ch ≠ .conn c) → (s'.chans ch).fd = (s.chans ch).fd := by
    intro ch hne
    obtain ⟨r, hr⟩ := hch ch hne
    rw [hr]
    rfl
  have hagrees : ∀ l ch, (∀ c, ch ≠ .conn c) → (s.chans ch).fd < firstFd s.numLoops →
      s.ChanAgrees l ch → s'.ChanAgrees l ch := by
    intro l ch hne hlt hag
    obtain ⟨r, hr⟩ := hch ch hne
    unfold ChanAgrees
    rw [hfd ch hne, hp l _ hlt, hag, hr]
    rfl
  have hw : ∀ l c, Chan.wakeup l ≠ .conn c := fun _ _ => Chan.noConfusion
  have ha : ∀ c, Chan.acceptor ≠ .conn c := fun _ => Chan.noConfusion
  refine ⟨fun l => (hfd _ (hw l)).trans (h.wakeupFd l), fun l hl => ?_, ?_, ?_⟩
  · rw [hn] at hl
    refine hagrees l _ (hw l) ?_ (h.wakeup l hl)
    rw [h.wakeupFd]
    exact Nat.lt_of_le_of_lt hl (Nat.lt_add_of_pos_right Nat.two_pos)
  · rw [hfd _ ha, h.acceptorFd, hn]
  · refine hagrees 0 _ ha ?_ h.acceptor
    rw [h.acceptorFd]
    exact Nat.lt_succ_self _

/-- `~Acceptor` takes the acceptor's channel out of the poller. -/
theorem ownChannels_drop (h : s.OwnChannels) {p q : Slot Chan × Channel}
    (hp : (s.chans .acceptor).disableAll (s.pollers 0 (s.chans .acceptor).fd) .acceptor = some p)
    (hq : p.2.remove p.1 .acceptor = some q) : (s.dropAcceptor q).OwnChannels := by
  have hwake : ∀ l, (s.dropAcceptor q).chans (.wakeup l) = s.chans (.wakeup l) := by
    intro l
    have hne : Chan.wakeup l ≠ .acceptor := Chan.noConfusion
    exact Function.update_of_ne hne q.2 s.chans
  obtain ⟨hfd, hindex, hslot⟩ := acceptor_drop h.acceptor hp hq
  refine ⟨fun l => ?_, fun l hl => ?_, ?_, ?_⟩
  · rw [hwake]
    exact h.wakeupFd l
  · unfold ChanAgrees
    rw [hwake, pollers_dropAcceptor fun _ => ?_]
    · exact h.wakeup l hl
    · rw [h.wakeupFd, h.acceptorFd]
      exact Nat.ne_of_lt (Nat.lt_succ_of_le hl)
  · exact hfd.trans h.acceptorFd
  · unfold AcceptorAgrees
    rw [hfd, hslot, Channel.slot_of_kNew _ hindex]

theorem ownChannels_step (hw : Wf s) (h : s.OwnChannels) (hs : Step s a s') :
    s'.OwnChannels := by
  have hkeep : ∀ ch, ∃ r, s.chans ch = (s.chans ch).setRevents r := fun ch =>
    ⟨(s.chans ch).revents, rfl⟩
  have hother : ∀ (c : ConnId) (d : Channel) (ch : Chan), (∀ c, ch ≠ .conn c) →
      ∃ r, Function.update s.chans (.conn c) d ch = (s.chans ch).setRevents r := by
    intro c d ch hne
    rw [Function.update_of_ne (hne c)]
    exact hkeep ch
  cases hs with
  | run t o i rest s₁ is hst he =>
      have hi := hw.stack t i (mem_stack hst)
      cases he with
      | conn c op k is he =>
          refine h.of_same rfl (hother c k.channel) fun l fd hlt => ?_
          show Function.update s.pollers (s.conns c).loop _ l fd = _
          by_cases hl : l = (s.conns c).loop
          · rw [hl, Function.update_self, Function.update_of_ne]
            exact Nat.ne_of_lt (Nat.lt_of_lt_of_le hlt (hw.fd_ge c hi.1))
          · rw [Function.update_of_ne hl]
      | create fd =>
          exact h.of_same rfl (hother s.created (Channel.create fd)) fun _ _ _ => rfl
      | destroyAcceptor p q hp hq =>
          have hd := ownChannels_drop h hp hq
          exact ⟨hd.wakeupFd, hd.wakeup, hd.acceptorFd, hd.acceptor⟩
      | _ => exact h.of_same rfl (fun ch _ => hkeep ch) fun _ _ _ => rfl
  | user t v s₁ is hu hcall =>
      obtain ⟨held, server, rfl, _⟩ := called_same hcall
      exact h.of_same rfl (fun ch _ => hkeep ch) fun _ _ _ => rfl
  | poll m events l' hst hev hnd hl hs =>
      exact h.of_same rfl (fun ch _ => setRevents_eq s.chans events ch) fun _ _ _ => rfl
  | _ => exact h.of_same rfl (fun ch _ => hkeep ch) fun _ _ _ => rfl

/-- **Every channel of loop `l`'s agrees** with its registration. -/
theorem chanAgrees (hw : Wf s) (h : s.OwnChannels) (hl : l ≤ s.numLoops) (hch : s.chanHome l ch) :
    s.ChanAgrees l ch := by
  cases ch with
  | wakeup m =>
      cases hch
      exact h.wakeup _ hl
  | acceptor =>
      cases hch
      exact h.acceptor
  | conn c =>
      obtain ⟨hc, rfl⟩ := hch
      exact hw.agrees c hc

/-! ## Where `Remove` is executed -/

/-- `~TcpServer` goes on from itself. -/
theorem tearsDown_follows (h : Follows s t i j) (hj : j.tearsDown = true) :
    i.tearsDown = true := by
  cases h with
  | conn c op _ hp => cases hp <;> cases hj
  | runHere l f => cases f <;> cases hj
  | entry c hc => rfl
  | entries | thread | acceptor => rfl
  | quit => cases hj
  | join => rfl
  | _ => cases hj

/-- `ConnectDestroyed` goes on from itself; where it is called at once, `~TcpServer` has handed it
    over. -/
theorem removes_follows (hi : s.instrHome t i) (h : Follows s t i j) (hj : j.removes c = true) :
    i.removes c = true ∨ i.tearsDown = true := by
  obtain ⟨op', rfl, hop'⟩ := Instr.of_removes hj
  generalize hk : Instr.conn c op' = k at h
  cases h with
  | conn d op _ hp =>
      left
      cases hp with
      | conn op'' hlead =>
          cases hk
          rcases hop' with rfl | rfl | rfl
          · cases op <;> cases hlead
          · rw [(ConnOp.of_leadsTo_destroySetState hlead).1]
            exact beq_self_eq_true c
          · rw [ConnOp.of_leadsTo_channelRemove hlead]
            exact beq_self_eq_true c
      | sendHere =>
          cases hk
          rcases hop' with e | e | e <;> cases e
      | _ => cases hk
  | handler d op hop =>
      cases hk
      rcases hop' with rfl | rfl | rfl <;> cases hop
  | runHere l f hl =>
      cases f with
      | conn d op =>
          cases hk
          have hf : op'.isFunctor = true := hi.1.2.2.1
          rcases hop' with rfl | rfl | rfl
          · exact Or.inr rfl
          · cases hf
          · cases hf
      | _ => cases hk
  | _ => cases hk

/-- While its thread is busy, a loop that is not handling events stays where it is. -/
theorem phase_busy (hs : Step s a s') (hbusy : s.stack (.loop l) ≠ [])
    (hdis : (s.loops l).phase.dispatching = false) :
    (s'.loops l).phase = (s.loops l).phase := by
  have hother : ∀ {m : LoopId} {m' : EventLoop ThreadId Functor}, s.stack (.loop m) = [] →
      (Function.update s.loops m m' l).phase = (s.loops l).phase := by
    intro m m' hst
    rw [Function.update_of_ne]
    rintro rfl
    exact hbusy hst
  cases hs with
  | run t o i rest s₁ is hst he =>
      cases he with
      | loop _ m b m' _ hi hl hb =>
          show (Function.update s.loops m m' l).phase = _
          by_cases e : l = m
          · subst e
            rw [Function.update_self]
            obtain ⟨hen, rfl⟩ := EventLoop.step_eq_some.mp hb
            cases hi with
            | handleRead =>
                rw [(EventLoop.enabled_handleRead.mp hen).2] at hdis
                cases hdis
            | _ => rfl
          · rw [Function.update_of_ne e]
      | _ => rfl
  | user t v s₁ is hu hcall =>
      obtain ⟨held, server, rfl, _⟩ := called_same hcall
      rfl
  | loop m b m' hst => exact hother hst
  | poll m events m' hst => exact hother hst
  | _ => rfl

/-- **Where `Remove` is executed**: in the functor `ConnectDestroyed`, as long as the server lives,
    and with nothing to handle at all. -/
structure Removing (s : Process) : Prop where
  idle : ∀ l, ∀ i ∈ s.stack (.loop l), i.tearsDown = true ∨ (∃ c, i.removes c = true) →
    (s.loops l).phase.dispatching = false
  live : s.server.life = .live → ∀ t, ∀ i ∈ s.stack t, i.tearsDown = false
  functor : s.server.life = .live → ∀ t c, ∀ i ∈ s.stack t, i.removes c = true →
    ∃ l rest, t = .loop l ∧ (s.loops l).phase = .functor (.conn c .connectDestroyed) rest

/-- A step of `Loop()` with functors of the batch left calls the first of them. -/
theorem phase_next {loop loop' : EventLoop ThreadId Functor} {f : Functor} {fs : List Functor}
    {b : EventLoop.Action ThreadId Functor} (hph : loop.phase = .batch (f :: fs))
    (hb : isControl b = true) (h : loop.step b = some loop') : loop'.phase = .functor f fs := by
  obtain ⟨he, rfl⟩ := EventLoop.step_eq_some.mp h
  have hne : ∀ {ph}, loop.phase = ph → ph = .batch (f :: fs) := fun e => e.symm.trans hph
  cases b with
  | next t =>
      show (loop.next t).phase = _
      rw [EventLoop.next_of_batch hph]
  | enterLoop => cases hne (EventLoop.enabled_enterLoop.mp he).2
  | test => cases hne (EventLoop.enabled_test.mp he).2
  | startFunctors => cases hne (EventLoop.enabled_startFunctors.mp he).2
  | swap => cases hne (EventLoop.enabled_swap.mp he).2
  | ret =>
      obtain ⟨_, g, gs, e⟩ := EventLoop.enabled_ret.mp he
      cases hne e
  | finish => cases hne (EventLoop.enabled_finish.mp he).2
  | _ => cases hb

/-- What stays on a stack leaves the loop where it is. -/
theorem Removing.stays (h : s.Removing) (hs : Step s a s') (hi : i ∈ s.stack (.loop l))
    (hr : i.tearsDown = true ∨ ∃ c, i.removes c = true) :
    (s'.loops l).phase = (s.loops l).phase :=
  phase_busy hs (List.ne_nil_of_mem hi) (h.idle l i hi hr)

theorem removing_idle (hw : Wf s) (hf : s.Frames) (h : s.Removing) (hout : DestroyedOutside s a)
    (hs : Step s a s') (hj : j ∈ s'.stack (.loop l))
    (hr : j.tearsDown = true ∨ ∃ c, j.removes c = true) :
    (s'.loops l).phase.dispatching = false := by
  rcases mem_stack_step hs hj with hj | hp
  · rw [h.stays hs hj hr]
    exact h.idle l j hj hr
  · cases hp with
    | exec t o i rest hst _ hfol =>
        have hm : i ∈ s.stack (.loop l) := mem_stack hst
        have hi : i.tearsDown = true ∨ ∃ c, i.removes c = true := by
          rcases hr with hr | ⟨c, hr⟩
          · exact Or.inl (tearsDown_follows hfol hr)
          · exact (removes_follows (hw.stack _ i hm) hfol hr).symm.imp_right fun h => ⟨c, h⟩
        rw [h.stays hs hm hi]
        exact h.idle l i hm hi
    | call t v _ ha =>
        cases ha with
        | destroyServer ht =>
            -- outside the callbacks there is nothing but functors of the user's below
            cases ht
            cases hs with
            | user _ _ s₁ is hu hcall =>
                obtain ⟨held, server, rfl, _⟩ := called_same hcall
                have hbare := (nested_call hf hu).resolve_left fun ⟨c, hc⟩ => hout rfl c hc
                exact Bool.not_eq_true' _ ▸ hbare.1
        | _ => rcases hr with hr | ⟨c, hr⟩ <;> cases hr
    | functor l b f fs hph =>
        cases hs with
        | loop _ _ loop' hst hact hb hl hstep =>
            show (Function.update s.loops l loop' l).phase.dispatching = false
            rw [Function.update_self, phase_next hph hb hstep]
            rfl
    | event l ch hch => rcases hr with hr | ⟨c, hr⟩ <;> cases hr

theorem removing_live (h : s.Removing) (hs : Step s a s') (hl : s'.server.life = .live)
    (hj : j ∈ s'.stack t) : j.tearsDown = false := by
  have hold := live_of_live hs hl
  rcases mem_stack_step hs hj with hj | hp
  · exact h.live hold t j hj
  · cases hp with
    | exec _ o i rest hst _ hfol =>
        refine Bool.eq_false_iff.mpr fun hd => ?_
        have hi := h.live hold _ i (mem_stack hst)
        rw [tearsDown_follows hfol hd] at hi
        cases hi
    | call _ v _ ha =>
        cases ha with
        | destroyServer =>
            cases hs with
            | user _ _ s₁ is hu hcall =>
                cases hcall
                cases hl
        | _ => rfl
    | functor l b f fs hph => cases f <;> rfl
    | event l ch hch => rfl

theorem removing_functor (hw : Wf s) (h : s.Removing) (hs : Step s a s')
    (hl : s'.server.life = .live) (hj : j ∈ s'.stack t) (hr : j.removes c = true) :
    ∃ l rest, t = .loop l ∧ (s'.loops l).phase = .functor (.conn c .connectDestroyed) rest := by
  have hold := live_of_live hs hl
  have hstay : ∀ {i : Instr}, i ∈ s.stack t → i.removes c = true → ∃ l rest, t = .loop l ∧
      (s'.loops l).phase = .functor (.conn c .connectDestroyed) rest := by
    intro i hi hr
    obtain ⟨l, rest, rfl, hph⟩ := h.functor hold t c i hi hr
    exact ⟨l, rest, rfl, (h.stays hs hi (Or.inr ⟨c, hr⟩)).trans hph⟩
  rcases mem_stack_step hs hj with hj | hp
  · exact hstay hj hr
  · cases hp with
    | exec _ o i rest hst _ hfol =>
        have hi : i ∈ s.stack t := mem_stack hst
        refine hstay hi ((removes_follows (hw.stack _ i hi) hfol hr).resolve_right fun hd => ?_)
        rw [h.live hold _ i hi] at hd
        cases hd
    | call _ v _ ha => cases ha <;> cases hr
    | functor l b f fs hph =>
        have hq : f ∈ (s.loops l).queue := by
          rw [EventLoop.queue, hph]
          exact List.mem_append_left _ List.mem_cons_self
        have hhome := hw.queue l f hq
        obtain ⟨op, hop, hcase⟩ := Instr.of_removes hr
        cases f with
        | conn d op' =>
            cases hop
            have hf : op.isFunctor = true := hhome.2.2.1
            rcases hcase with rfl | rfl | rfl
            · cases hs with
              | loop _ _ loop' hst hact hb hl hstep =>
                  refine ⟨l, fs, rfl, ?_⟩
                  show (Function.update s.loops l loop' l).phase = _
                  rw [Function.update_self, phase_next hph hb hstep]
            · cases hf
            · cases hf
        | _ => cases hop
    | event l ch hch => cases hr

theorem removing_step (hw : Wf s) (hf : s.Frames) (h : s.Removing) (hout : DestroyedOutside s a)
    (hs : Step s a s') : s'.Removing :=
  ⟨fun _ _ hj hr => removing_idle hw hf h hout hs hj hr, fun hl _ _ hj => removing_live h hs hl hj,
    fun hl _ _ _ hj hr => removing_functor hw h hs hl hj hr⟩

/-! ## What waits to be handled -/

/-- A channel is one loop's. -/
theorem chanHome_unique {m : LoopId} (h : s.chanHome l ch) (h' : s.chanHome m ch) : l = m := by
  cases ch with
  | wakeup n => exact h.symm.trans h'
  | acceptor => exact h.trans h'.symm
  | conn c => exact h.2.symm.trans h'.2

/-- What waits to be handled is on a loop that is there. -/
theorem le_of_active (hf : s.Frames) (hch : ch ∈ s.active l) : l ≤ s.numLoops := by
  have hl : s.hasLoop l = true := by
    by_contra hl
    rw [(hf.gone l (Bool.eq_false_iff.mpr hl)).2] at hch
    exact absurd hch List.not_mem_nil
  exact of_decide_eq_true (Bool.and_eq_true_iff.mp hl).1

/-- `Poll` leaves the masks of the channels it does not report. -/
theorem setRevents_of_not_mem {chans : Chan → Channel} {events : List (Chan × EventMask)}
    (h : ch ∉ events.map Prod.fst) : setRevents chans events ch = chans ch := by
  induction events with
  | nil => rfl
  | cons e events ih =>
      rw [List.map_cons, List.mem_cons, not_or] at h
      obtain ⟨d, r⟩ := e
      rw [setRevents, Function.update_of_ne h.1]
      exact ih h.2

/-- And in those it reports, the masks it reports. -/
theorem revents_setRevents {chans : Chan → Channel} {events : List (Chan × EventMask)}
    {e : Chan × EventMask} (hnd : (events.map Prod.fst).Nodup) (he : e ∈ events) :
    (setRevents chans events e.1).revents = e.2 := by
  induction events with
  | nil => exact absurd he List.not_mem_nil
  | cons d events ih =>
      obtain ⟨ch, r⟩ := d
      obtain ⟨hnot, hrest⟩ := List.nodup_cons.mp hnd
      rcases List.mem_cons.mp he with rfl | hm
      · rw [setRevents, Function.update_self]
        rfl
      · have hne : e.1 ≠ ch := by
          rintro rfl
          exact hnot (List.mem_map.mpr ⟨e, hm, rfl⟩)
        rw [setRevents, Function.update_of_ne hne]
        exact ih hrest hm

/-- **No step disturbs a channel that waits**, until the next `Poll` of its loop. -/
theorem waits_step (hw : Wf s) (hf : s.Frames) (hr : s.Removing) (hs : Step s a s')
    (hpoll : ∀ events, a ≠ .poll l events) (hch : ch ∈ s.active l) :
    (s.chans ch).Waits (s'.chans ch) := by
  have hhome := hw.active l ch hch
  have hdis := hf.active l (List.ne_nil_of_mem hch)
  have hbusy : ∀ {i : Instr}, i ∈ s.stack (.loop l) → i.tearsDown = true ∨
      (∃ c, i.removes c = true) → False := by
    intro i hi hrem
    rw [hr.idle l i hi hrem] at hdis
    cases hdis
  cases hs with
  | run t o i rest s₁ is hst he =>
      have hm : i ∈ s.stack t := mem_stack hst
      have hi := hw.stack t i hm
      cases he with
      | conn c op k is he =>
          show (s.chans ch).Waits (Function.update s.chans (.conn c) k.channel ch)
          by_cases e : ch = .conn c
          · subst e
            rw [Function.update_self]
            refine Ctx.exec_waits (hw.agrees c hi.1) he fun hop => ?_
            subst hop
            obtain rfl : t = .loop l := by
              rw [hi.2.resolve_left Bool.false_ne_true, hhome.2]
            exact hbusy hm (Or.inr ⟨c, beq_self_eq_true c⟩)
          · rw [Function.update_of_ne e]
            exact .refl _
      | create fd =>
          show (s.chans ch).Waits (Function.update s.chans (.conn s.created) _ ch)
          rw [Function.update_of_ne]
          · exact .refl _
          · rintro rfl
            exact absurd hhome.1 (Nat.lt_irrefl _)
      | destroyAcceptor p q =>
          show (s.chans ch).Waits (Function.update s.chans .acceptor q.2 ch)
          rw [Function.update_of_ne]
          · exact .refl _
          · rintro rfl
            cases hhome
            cases hi
            exact hbusy hm (Or.inl rfl)
      | _ => exact .refl _
  | user t v s₁ is hu hcall =>
      obtain ⟨held, server, rfl, _⟩ := called_same hcall
      exact .refl _
  | poll m events l' hst hev =>
      show (s.chans ch).Waits (setRevents s.chans events ch)
      rw [setRevents_of_not_mem]
      · exact .refl _
      · intro hm
        obtain ⟨e, he, rfl⟩ := List.mem_map.mp hm
        obtain ⟨r, hreg⟩ := of_mayReport (hev e he)
        obtain rfl := chanHome_unique hhome (hw.epoll m _ _ hreg)
        exact hpoll events rfl
  | _ => exact .refl _

/-- The channel loop `l` calls `HandleEvent` on in the step. -/
def handled (l : LoopId) (p : Process × Label) : Option Chan :=
  match p.2 with
  | .dispatch m => if m = l then (p.1.active l).head? else none
  | _ => none

/-- The channels loop `l` has called `HandleEvent` on, in order. -/
def dispatched (l : LoopId) (tr : List (Process × Label)) : List Chan :=
  tr.reverse.filterMap (handled l)

theorem dispatched_cons (l : LoopId) (p : Process × Label) (tr : List (Process × Label)) :
    dispatched l (p :: tr) = dispatched l tr ++ (handled l p).toList :=
  filterMap_reverse_cons _ _ _

/-- **`Loop()` takes the channels one by one**, in the order of the list. -/
theorem active_step (hs : Step s a s') (hpoll : ∀ events, a ≠ .poll l events) :
    (handled l (s, a)).toList ++ s'.active l = s.active l := by
  cases hs with
  | run t o i rest s₁ is hst he => exact congrFun (exec_kept he).2.1 l
  | user t v s₁ is hu hcall =>
      obtain ⟨held, server, rfl, _⟩ := called_same hcall
      rfl
  | poll m events =>
      have hne : l ≠ m := by
        rintro rfl
        exact hpoll events rfl
      exact Function.update_of_ne hne _ _
  | dispatch m ch rest hst hact =>
      show (if m = l then (s.active l).head? else none).toList ++
        Function.update s.active m rest l = _
      by_cases e : m = l
      · subst e
        rw [if_pos rfl, Function.update_self, hact]
        rfl
      · rw [if_neg e, Function.update_of_ne (Ne.symm e)]
        rfl
  | _ => rfl

/-- **What `Poll` returned, and what is left of it**: `past` is handled, and the rest waits, in
    order, with the masks reported, and in `channels_`. -/
structure Undispatched (s : Process) (l : LoopId) (events : List (Chan × EventMask))
    (past : List Chan) : Prop where
  list : past ++ s.active l = events.map Prod.fst
  revents : ∀ e ∈ events, e.1 ∈ s.active l → (s.chans e.1).revents = e.2
  hasChannel : ∀ ch ∈ s.active l, s.hasChannel l ch = true

theorem undispatched_poll {events : List (Chan × EventMask)} (hw : Wf s') (hf : s'.Frames)
    (ho : s'.OwnChannels) (hs : Step s (.poll l events) s') :
    s'.Undispatched l events [] := by
  have hagrees : ∀ ch ∈ s'.active l, s'.ChanAgrees l ch := fun ch hch =>
    chanAgrees hw ho (le_of_active hf hch) (hw.active l ch hch)
  cases hs with
  | poll _ _ l' hst hev hnd =>
      refine ⟨Function.update_self _ _ _, fun e he _ => revents_setRevents hnd he,
        fun ch hch => ?_⟩
      have hm : ch ∈ events.map Prod.fst := by
        rw [← Function.update_self l (events.map Prod.fst) s.active]
        exact hch
      obtain ⟨e, he, rfl⟩ := List.mem_map.mp hm
      obtain ⟨r, hr⟩ := of_mayReport (hev e he)
      refine hasChannel_of_epoll (hagrees e.1 hch) (e := (r, e.1)) ?_
      obtain ⟨r', hr'⟩ := setRevents_eq s.chans events e.1
      show (s.pollers l (setRevents s.chans events e.1).fd).epoll = _
      rw [hr']
      exact hr

theorem undispatched_step {events : List (Chan × EventMask)} {past : List Chan} (hw : Wf s)
    (hw' : Wf s') (hf : s.Frames) (hr : s.Removing) (ho : s.OwnChannels) (ho' : s'.OwnChannels)
    (h : s.Undispatched l events past) (hs : Step s a s') (hpoll : ∀ events, a ≠ .poll l events) :
    s'.Undispatched l events (past ++ (handled l (s, a)).toList) := by
  have hact := active_step hs hpoll
  have hold : ∀ {ch}, ch ∈ s'.active l → ch ∈ s.active l := fun hch => by
    rw [← hact]
    exact List.mem_append_right _ hch
  refine ⟨?_, fun e he hch => ?_, fun ch hch => ?_⟩
  · rw [List.append_assoc, hact, h.list]
  · exact (waits_step hw hf hr hs hpoll (hold hch)).revents.trans (h.revents e he (hold hch))
  · have hm := hold hch
    have hl := le_of_active hf hm
    have hhome := hw.active l ch hm
    have hl' : l ≤ s'.numLoops := by
      rw [numLoops_step hs]
      exact hl
    have hag := chanAgrees hw ho hl hhome
    have hag' := chanAgrees hw' ho' hl' (hw'.active l ch hch)
    have hreg := (hasChannel_iff hag).mp (h.hasChannel ch hm)
    exact (hasChannel_iff hag').mpr ((waits_step hw hf hr hs hpoll hm).index hreg)

section Runs

variable {name : List Char} {addr : InetAddress} {numLoops : Nat} {writeComplete : Bool}
  {tr : List (Process × Label)}

theorem ownChannels_init : (init name addr numLoops writeComplete).OwnChannels := by
  refine ⟨fun _ => rfl, fun l hl => ?_, rfl, ?_⟩
  · exact if_pos ⟨hl, rfl⟩
  · have hne : ¬ ((0 : Nat) ≤ numLoops ∧ numLoops + 1 = 0) := fun h => Nat.noConfusion h.2
    unfold AcceptorAgrees
    show (if (0 : Nat) ≤ numLoops ∧ numLoops + 1 = 0 then (listening 0).slot (Chan.wakeup 0)
      else if (0 : Nat) = 0 ∧ numLoops + 1 = numLoops + 1 then
        (listening (numLoops + 1)).slot Chan.acceptor else Slot.empty) = _
    rw [if_neg hne, if_pos ⟨rfl, rfl⟩]
    rfl

theorem ownChannels_run (h : Run step (init name addr numLoops writeComplete) tr s) :
    s.OwnChannels := by
  induction h with
  | start => exact ownChannels_init
  | step tr s a s' h hs ih => exact ownChannels_step (wf_run h) ih (of_step hs)

theorem removing_run (h : Run step (init name addr numLoops writeComplete) tr s)
    (hout : ∀ p ∈ tr, DestroyedOutside p.1 p.2) : s.Removing := by
  induction h with
  | start =>
      exact ⟨fun _ _ hi => absurd hi List.not_mem_nil, fun _ _ _ hi => absurd hi List.not_mem_nil,
        fun _ _ _ _ hi => absurd hi List.not_mem_nil⟩
  | step tr s a s' h hs ih =>
      have hold := ih fun p hp => hout p (List.mem_cons_of_mem _ hp)
      exact removing_step (wf_run h) (frames_run h) hold (hout (s, a) List.mem_cons_self)
        (of_step hs)

/-- Where the server lives, nothing has destroyed it. -/
theorem destroyedOutside_of_live (h : Run step (init name addr numLoops writeComplete) tr s)
    (hlive : s.server.life = .live) : ∀ p ∈ tr, DestroyedOutside p.1 p.2 := by
  intro p hp e
  obtain ⟨s₂, hs, hl⟩ := h.all_after (I := fun s => s.server.life = .live)
    ⟨live_run h hlive, hlive⟩ hp
  rw [e] at hs
  cases of_step hs with
  | user _ _ s₁ is hu hcall =>
      cases hcall
      cases hl

/-- Behind a `Poll`, until the next one of the loop. -/
theorem undispatched_run {s₁ s₂ : Process} {tr₁ tr₂ : List (Process × Label)}
    {events : List (Chan × EventMask)}
    (h₁ : Run step (init name addr numLoops writeComplete) tr₁ s₁)
    (hs : s₁.step (.poll l events) = some s₂) (h₂ : Run step s₂ tr₂ s)
    (hout : ∀ p ∈ tr₂ ++ (s₁, .poll l events) :: tr₁, DestroyedOutside p.1 p.2)
    (hlater : ∀ p ∈ tr₂, ∀ events', p.2 ≠ .poll l events') :
    s.Undispatched l events (dispatched l tr₂) := by
  have hstart := Run.step _ _ _ _ h₁ hs
  induction h₂ with
  | start =>
      exact undispatched_poll (wf_run hstart) (frames_run hstart) (ownChannels_run hstart)
        (of_step hs)
  | step tr₂ s a s' h₂ hs' ih =>
      have hout' : ∀ p ∈ tr₂ ++ (s₁, .poll l events) :: tr₁, DestroyedOutside p.1 p.2 :=
        fun p hp => hout p (List.mem_cons_of_mem _ hp)
      have hlast := ih hout' fun p hp => hlater p (List.mem_cons_of_mem _ hp)
      have hrun := hstart.trans h₂
      have hnext := Run.step _ _ _ _ hrun hs'
      rw [dispatched_cons]
      exact undispatched_step (wf_run hrun) (wf_run hnext) (frames_run hrun)
        (removing_run hrun hout') (ownChannels_run hrun) (ownChannels_run hnext) hlast
        (of_step hs') (hlater (s, a) List.mem_cons_self)

/-- **No channel is removed while it waits.** In every run in which `~TcpServer` is not called
    from the callbacks of the server's connections, and in every state behind a `Poll` of a loop
    and in front of its next one: the channels `HandleEvent` has been called on and those that
    still wait are, in order, those that `Poll` returned; the channels that wait have the
    `revents_` it reported, and `HasChannel` finds each of them. And as long as the server lives,
    a connection's channel is removed by the functor `ConnectDestroyed`, called in
    `DoPendingFunctors` of the connection's loop. -/
theorem undispatched_stays (h : Run step (init name addr numLoops writeComplete) tr s)
    (hout : ∀ p ∈ tr, DestroyedOutside p.1 p.2) :
    (∀ l events tr₁ s₁ tr₂, tr = tr₂ ++ (s₁, .poll l events) :: tr₁ →
      (∀ p ∈ tr₂, ∀ events', p.2 ≠ .poll l events') →
      s.Undispatched l events (dispatched l tr₂)) ∧
    ∀ p ∈ tr, p.1.server.life = .live → ∀ c, p.1.executed c p.2 = some .channelRemove →
      ∃ l o rest, p.2 = .run (.loop l) o ∧ l = (p.1.conns c).loop ∧
        (p.1.loops l).phase = .functor (.conn c .connectDestroyed) rest := by
  refine ⟨fun l events tr₁ s₁ tr₂ e hlater => ?_, fun p hp hlive c hex => ?_⟩
  · obtain ⟨s₂, h₁, hs, h₂⟩ := h.split_append e
    exact undispatched_run h₁ hs h₂ (e ▸ hout) hlater
  · obtain ⟨tr₁, tr₂, _, h₁, _, _, rfl⟩ := h.split hp
    have hrem := removing_run h₁ fun q hq =>
      hout q (List.mem_append_right _ (List.mem_cons_of_mem _ hq))
    obtain ⟨t, o, rest, hlabel, hst⟩ := of_executed hex
    have hm := mem_stack hst
    obtain ⟨l, fs, rfl, hph⟩ := hrem.functor hlive t c _ hm (beq_self_eq_true c)
    have hl : ThreadId.loop l = .loop (p.1.conns c).loop :=
      ((wf_run h₁).stack _ _ hm).2.resolve_left Bool.false_ne_true
    exact ⟨l, o, fs, hlabel, ThreadId.loop.inj hl, hph⟩

/-- The peer of the one connection hangs up, and another connection comes in. -/
def bothReady : Label := .poll 0 [(.conn 0, epollHup), (.acceptor, epollIn)]

/-- The first is closed; its functor `ConnectDestroyed` is queued. -/
def closeRun : List Label :=
  [.dispatch 0] ++ runs (.loop 0) 3 ++ [.ret (.loop 0)] ++ runs (.loop 0) 8

/-- Then the acceptor is handled, and the functor is called. -/
def removeRun : List Label :=
  [.dispatch 0, .run (.loop 0) .none, .run (.loop 0) (.accept none), .run (.loop 0) .none,
    .loop 0 .startFunctors, .loop 0 .swap, .loop 0 (.next (.loop 0)), .run (.loop 0) .none]

theorem undispatched_stays_close : ∃ s s₁ s₂ s₃,
    Machine.exec step oneLoop (acceptRun ++ settleRun) = some s ∧ step s bothReady = some s₁ ∧
    Machine.exec step s₁ closeRun = some s₂ ∧ s₂.active 0 = [.acceptor] ∧
    s₂.Undispatched 0 [(.conn 0, epollHup), (.acceptor, epollIn)]
      (dispatched 0 (execTrace step s₁ closeRun [])) ∧
    Machine.exec step s₂ removeRun = some s₃ ∧
    ∃ rest, (s₃.loops 0).phase = .functor (.conn 0 .connectDestroyed) rest := by
  have h : ((Machine.exec step oneLoop (acceptRun ++ settleRun)).any fun s =>
      (step s bothReady).any fun s₁ => (Machine.exec step s₁ closeRun).any fun s₂ =>
        decide (s₂.active 0 = [.acceptor]) && (Machine.exec step s₂ removeRun).any fun s₃ =>
          (step s₃ (.run (.loop 0) .none)).any fun s₄ => decide (s₄.server.life = .live ∧
            s₃.executed 0 (.run (.loop 0) .none) = some .channelRemove)) = true := by
    decide +kernel
  obtain ⟨s, hs, h⟩ := (Option.any_eq_true _ _).mp h
  obtain ⟨s₁, hp, h⟩ := (Option.any_eq_true _ _).mp h
  obtain ⟨s₂, hs₂, h⟩ := (Option.any_eq_true _ _).mp h
  obtain ⟨hact, h⟩ := Bool.and_eq_true_iff.mp h
  obtain ⟨s₃, hs₃, h⟩ := (Option.any_eq_true _ _).mp h
  obtain ⟨s₄, hs₄, h⟩ := (Option.any_eq_true _ _).mp h
  obtain ⟨hlive, hex⟩ := of_decide_eq_true h
  have hclose := (Run.step _ _ _ _ (exec_run .start hs) hp).trans (exec_run .start hs₂)
  have hall := Run.step _ _ _ _ (hclose.trans (exec_run .start hs₃)) hs₄
  have hlives := live_run hall hlive
  -- while the server lives, nothing has destroyed it
  have hout := destroyedOutside_of_live hall hlive
  have hwait := (undispatched_stays hclose fun p hp =>
    hout p (List.mem_cons_of_mem _ (List.mem_append_right _ hp))).1 0 _ _ s _ rfl fun p hp => ?_
  · obtain ⟨l, o, rest, hlabel, _, hph⟩ := (undispatched_stays hall hout).2 (s₃, _)
      List.mem_cons_self (hlives _ List.mem_cons_self) 0 hex
    cases hlabel
    exact ⟨s, s₁, s₂, s₃, hs, hp, hs₂, of_decide_eq_true hact, hwait, hs₃, rest, hph⟩
  · have hpolls : ∀ a ∈ closeRun, ∀ events, a ≠ .poll 0 events := by simp [closeRun, runs]
    exact hpolls _ ((label_mem_execTrace _ hp).resolve_left List.not_mem_nil)

end Runs

end Process

end CuteMuduo
