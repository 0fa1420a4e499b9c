/-
  File:      CuteMuduo/TcpServer/Progress.lean
  Subject:   NOTHING GETS STUCK, over every run of the program: a thread of the library's can always
             go on, whatever the kernel answers, unless it waits in `Join`, or what it is about to
             use is gone (`progress`).

  A step that is not possible is a run that ends: `LOG_FATAL` in `EpollPoller::Update`, an empty
  `std::function` called, a call on an object that does not exist. Only the last of these is
  reached, and only on a loop whose thread has returned or on a server that is destroyed.

  * `Ctx.exec_isSome` -- no function of a connection's fails, whatever the kernel answers;
  * `Noticed` -- a notification is queued only where its callback is set;
  * `Pending` -- an accept finds the server there, and the threads to join are the sub loops';
  * `Halted` -- the reasons for which a thread makes no step.
-/
import CuteMuduo.TcpServer.Calls
import CuteMuduo.TcpServer.Notify

namespace CuteMuduo

open Machine

/-! ## One connection -/

/-- The callback a function of the connection's calls is set. -/
def TcpConnection.hasCallback (conn : TcpConnection) : ConnOp → Bool
  | .writeComplete => conn.writeCompleteCallback
  | .highWaterMark _ => conn.highWaterMarkCallback
  | _ => true

namespace Ctx

variable {k k' : Ctx} {c : ConnId} {t : ThreadId} {own : Bool} {op : ConnOp} {o : Outcome}
  {is : List Instr}

/-- `high_water_mark_callback_` is set by its setter, and stays as it is otherwise. -/
theorem exec_highWaterMark (h : k.exec c t own op o = some (k', is)) :
    k'.conn.highWaterMarkCallback = match op with
      | .setHighWaterMark _ => true
      | _ => k.conn.highWaterMarkCallback := by
  cases op with
  | send msg =>
      simp only [exec, send] at h
      split at h <;> (cases h; rfl)
  | connectEstablished | destroySetState | channelRemove | closeCallback | handleClose =>
      obtain ⟨p, _, e⟩ := Option.map_eq_some_iff.mp h
      cases e
      rfl
  | shutdownInLoop =>
      cases h
      split <;> rfl
  | writeComplete | highWaterMark _ =>
      obtain ⟨rfl, rfl⟩ := of_userCallback h
      rfl
  | handleRead =>
      cases o with
      | read r => cases of_handleRead h <;> rfl
      | _ => cases h
  | handleWrite =>
      cases o with
      | write r => cases of_handleWrite h <;> rfl
      | _ => cases h
  | sendInLoop sender msg =>
      cases o with
      | write r =>
          cases of_sendInLoop h with
          | rest _ _ _ _ _ _ _ h | buffered _ _ _ _ _ h =>
              rw [(of_appendOutput h).1]
              rfl
          | _ => rfl
      | _ => cases h
  | _ =>
      cases h
      rfl

/-- A callback that is set stays set. -/
theorem exec_hasCallback (ha : k.Agrees c) (h : k.exec c t own op o = some (k', is))
    {op' : ConnOp} (hcb : k.conn.hasCallback op' = true) : k'.conn.hasCallback op' = true := by
  cases op' with
  | writeComplete => exact (exec_effect ha h).same.writeComplete.trans hcb
  | highWaterMark size =>
      have hcb : k.conn.highWaterMarkCallback = true := hcb
      show k'.conn.highWaterMarkCallback = true
      rw [exec_highWaterMark h, hcb]
      split <;> rfl
  | _ => rfl

/-- **What a step hands over calls a callback that is set.** -/
theorem exec_calls (ha : k.Agrees c) (h : k.exec c t own op o = some (k', is)) {j : Instr}
    (hj : j ∈ is) {d : ConnId} {op' : ConnOp} (hf : j.carries = some (.conn d op')) :
    d = c ∧ k'.conn.hasCallback op' = true := by
  have hnotice : ∀ f l, j = .queueInLoop l f → f ∈ k.notices k' c op o := by
    rintro f l rfl
    rw [← exec_queued h]
    exact List.mem_filterMap.mpr ⟨_, hj, rfl⟩
  cases exec_produced h j hj with
  | writeComplete =>
      cases hf
      have hm := hnotice _ _ rfl
      simp only [notices, List.mem_append, List.mem_ite_nil_right, List.mem_singleton,
        Bool.and_eq_true] at hm
      rcases hm with ⟨hm, _⟩ | ⟨_, hm⟩
      · have hset : k.conn.hasCallback .writeComplete = true := hm.1
        exact ⟨rfl, exec_hasCallback ha h hset⟩
      · cases hm
  | highWaterMark size =>
      cases hf
      have hm := hnotice _ _ rfl
      simp only [notices, List.mem_append, List.mem_ite_nil_right, List.mem_singleton,
        Bool.and_eq_true] at hm
      rcases hm with ⟨_, hm⟩ | ⟨hm, _⟩
      · cases hm
      · have hset : k.conn.hasCallback (.highWaterMark size) = true := hm.1
        exact ⟨rfl, exec_hasCallback ha h hset⟩
  | conn op' hop hown =>
      cases hf
      refine ⟨rfl, ?_⟩
      cases op' <;> first | rfl | (cases op <;> cases hop)
  | callback | release | removeConnection => cases hf
  | _ =>
      cases hf
      exact ⟨rfl, rfl⟩

/-- What the kernel may answer to the system call of `op`: `readv` and `write` move no more than
    they are offered. -/
def Answers (k : Ctx) : ConnOp → Outcome → Prop
  | .handleRead, o => ∃ r, o = .read r ∧
      ∀ bytes, r = .data bytes → bytes.length ≤ k.conn.inputBuffer.readCapacity
  | .handleWrite, o => ∃ r, o = .write r ∧ r.nwrote ≤ k.conn.outputBuffer.readableBytes
  | .sendInLoop _ msg, o => ∃ r, o = .write r ∧ r.nwrote ≤ msg.length
  | _, _ => True

/-- A system call may always fail. -/
theorem exists_answers (k : Ctx) (op : ConnOp) : ∃ o, k.Answers op o := by
  cases op with
  | handleRead => exact ⟨_, .failed .eWouldBlock, rfl, nofun⟩
  | handleWrite => exact ⟨_, .failed .eWouldBlock .eWouldBlock, rfl, Nat.zero_le _⟩
  | sendInLoop u msg => exact ⟨_, .failed .eWouldBlock .eWouldBlock, rfl, Nat.zero_le _⟩
  | _ => exact ⟨.none, trivial⟩

/-- An operation on a channel that agrees with its registration does not fail. -/
theorem updateChannel_isSome {q : Slot Chan} {d : Channel} (hq : q = d.slot (.conn c))
    (events : EventMask) : (q.updateChannel (.conn c) { d with events := events }).isSome := by
  rw [hq, Channel.updateChannel_slot]
  rfl

theorem appendOutput_isSome {remaining : List UInt8} (ha : k.Agrees c) :
    (k.appendOutput c remaining).isSome := by
  simp only [appendOutput]
  split
  · rfl
  · rw [Option.isSome_map]
    exact updateChannel_isSome (d := k.channel) ha _

theorem sendInLoop_isSome {u : ThreadId} {msg : List UInt8} {r : WriteResult} (ha : k.Agrees c)
    (hr : r.nwrote ≤ msg.length) : (k.sendInLoop c u msg r).isSome := by
  have hal : r.allowed msg.length = true := decide_eq_true hr
  have happ : ∀ es remaining, ((k.record es).appendOutput c remaining).isSome :=
    fun es remaining => appendOutput_isSome (k := k.record es) ha
  simp only [sendInLoop, hal, if_true]
  split
  · rfl
  · split
    · split
      · rfl
      · split
        · exact happ _ _
        · rfl
    · split
      · exact happ _ _
      · rfl

theorem handleWrite_isSome {r : WriteResult} (ha : k.Agrees c)
    (hr : r.nwrote ≤ k.conn.outputBuffer.readableBytes) : (k.handleWrite c r).isSome := by
  have hal : r.allowed k.conn.outputBuffer.readableBytes = true := decide_eq_true hr
  simp only [handleWrite, hal, if_true]
  split
  · split
    · split
      · rw [Option.isSome_map]
        exact updateChannel_isSome (d := k.channel) ha _
      · rfl
    · rfl
  · rfl

theorem handleRead_isSome {r : ReadResult}
    (hr : ∀ bytes, r = .data bytes → bytes.length ≤ k.conn.inputBuffer.readCapacity) :
    (k.handleRead c r).isSome := by
  cases r with
  | data bytes =>
      simp only [handleRead, hr bytes rfl, if_true]
      split <;> rfl
  | failed err => rfl

/-- **No function of a connection's fails**, whatever the kernel answers: neither does `epoll_ctl`,
    nor is a callback called that is not set. -/
theorem exec_isSome (ha : k.Agrees c) (hclose : k.conn.closeCallback.isSome)
    (hcb : k.conn.hasCallback op = true) (ho : k.Answers op o) :
    (k.exec c t own op o).isSome := by
  cases op with
  | connectEstablished =>
      show (Option.map _ _).isSome
      rw [Option.isSome_map]
      exact updateChannel_isSome (d := k.channel.tie) ha _
  | destroySetState | handleClose =>
      show (Option.map _ _).isSome
      rw [Option.isSome_map]
      exact updateChannel_isSome (d := k.channel) ha _
  | channelRemove =>
      show (Option.map _ _).isSome
      rw [Option.isSome_map]
      show (k.slot.removeChannel (.conn c) k.channel).isSome
      rw [ha, Channel.removeChannel_slot]
      rfl
  | closeCallback =>
      show (Option.map _ _).isSome
      rw [Option.isSome_map]
      exact hclose
  | handleRead =>
      obtain ⟨r, rfl, hr⟩ := ho
      exact handleRead_isSome hr
  | handleWrite =>
      obtain ⟨r, rfl, hr⟩ := ho
      exact handleWrite_isSome ha hr
  | sendInLoop u msg =>
      obtain ⟨r, rfl, hr⟩ := ho
      exact sendInLoop_isSome ha hr
  | send msg =>
      simp only [exec, send]
      split <;> rfl
  | writeComplete | highWaterMark _ => exact Option.isSome_of_eq_some (if_pos hcb)
  | _ => rfl

end Ctx

namespace Instr

/-- The loop the instruction is a call on. -/
def target : Instr → Option LoopId
  | .queueInLoop l _ | .queueWake l | .quit l | .quitWake l => some l
  | _ => none

/-- The instruction uses the server or its acceptor first thing. -/
def needsServer : Instr → Bool
  | .handleEvent .acceptor | .acceptorEventEnd | .removeConnection _
  | .removeConnectionInLoop _ => true
  | _ => false

end Instr

namespace Process

variable {s s' s₁ : Process} {a : Label} {c : ConnId} {l : LoopId} {t : ThreadId} {o : Outcome}
  {i j : Instr} {is rest : List Instr}

/-! ## The notifications -/

/-- **What is under way calls a callback that is set.** -/
def Noticed (s : Process) : Prop :=
  ∀ c op, s.InFlight (.conn c op) → (s.conns c).hasCallback op = true

/-- A callback of a connection's that is set stays set. -/
theorem hasCallback_step (hw : Wf s) (hs : Step s a s') (hc : c < s.created) {op : ConnOp}
    (h : (s.conns c).hasCallback op = true) : (s'.conns c).hasCallback op = true := by
  cases seen_step hw hc hs with
  | other hno r hctx =>
      have hconn : s'.conns c = s.conns c := congrArg Ctx.conn hctx
      rw [hconn]
      exact h
  | run u o op' rest is ha hst he => exact Ctx.exec_hasCallback (hw.agrees c hc) he h

/-- **What is under way calls a callback that is set**, over a step. -/
theorem noticed_step (hw : Wf s) (h : s.Noticed) (hs : Step s a s') : s'.Noticed := by
  intro c op hf
  have hold : s.InFlight (.conn c op) → (s'.conns c).hasCallback op = true := fun hin =>
    hasCallback_step hw hs (lt_of_inFlight hw hin rfl) (h c op hin)
  rcases hf with ⟨u, j, hj, hjf⟩ | ⟨l, hl⟩
  · rcases mem_stack_step hs hj with hm | hp
    · exact hold (Or.inl ⟨u, j, hm, hjf⟩)
    · cases hp with
      | exec _ o i rest hst _ hfol =>
          by_cases hi : ∃ d op', i = .conn d op'
          · obtain ⟨d, op', rfl⟩ := hi
            have hd : d < s.created := (hw.stack u _ (mem_stack hst)).1
            cases seen_step hw hd hs with
            | other hno r hctx => exact absurd hst (hno u o op' rest rfl)
            | run _ _ op'' rest' is ha hst' he hst'' hloops =>
                cases ha
                rw [hst] at hst'
                cases hst'
                rw [hst'', Function.update_self] at hj
                rcases List.mem_append.mp hj with hj | hj
                · obtain ⟨rfl, hcb⟩ := Ctx.exec_calls (hw.agrees d hd) he hj hjf
                  exact hcb
                · exact hold (Or.inl ⟨u, j, hst ▸ List.mem_cons_of_mem _ hj, hjf⟩)
          · rcases follows_carries hfol hjf with hh | hm
            · exact hold (Or.inl ⟨u, i, mem_stack hst, Instr.carries_of_hands hh⟩)
            · cases hm with
              | conn d op' => exact absurd ⟨d, op', rfl⟩ hi
              | handler _ op hop => cases op <;> first | rfl | cases hop
              | _ => rfl
      | call _ v _ ha =>
          have hm := asked_carries ha hjf
          cases hm <;> rfl
      | functor l b g fs hph =>
          rcases Functor.carries_instr g with e | e
          · refine hold (Or.inr ⟨l, ?_⟩)
            rw [EventLoop.queue, hph, Option.some.inj (e.symm.trans hjf)]
            exact List.mem_append_left _ List.mem_cons_self
          · rw [e] at hjf
            cases hjf
      | event l ch hch => cases hjf
  · rcases queue_grows hs hl with hl | ⟨t, rest, hst⟩
    · exact hold (Or.inr ⟨l, hl⟩)
    · exact hold (Or.inl ⟨t, _, mem_stack hst, rfl⟩)

/-! ## The acceptor and the joins -/

/-- **What is left of an accept, and of the joins**: the server is there, and the threads to join
    are those of the sub loops. -/
structure Pending (s : Process) : Prop where
  accept : ∀ t, .acceptorHandleRead ∈ s.stack t → s.server.life ≠ .dead
  join : ∀ t l, .join l ∈ s.stack t ∨ .destroyThread l ∈ s.stack t → 0 < l ∧ l ≤ s.numLoops

/-- An accept is what `HandleEvent` of the acceptor leaves to do. -/
theorem accept_pushed {u : ThreadId} (h : Pushed s a u .acceptorHandleRead) :
    ∃ o rest, a = .run u o ∧ s.stack u = .handleEvent .acceptor :: rest := by
  generalize hj : Instr.acceptorHandleRead = j at h
  cases h with
  | exec _ o i rest hst j hfol =>
      cases hfol with
      | accept => exact ⟨o, rest, rfl, hst⟩
      | conn c op _ hpr => cases hpr <;> cases hj
      | runHere l f hl => cases f <;> cases hj
      | _ => cases hj
  | call _ v _ ha => cases ha <;> cases hj
  | functor l b f fs hph => cases f <;> cases hj
  | event l ch hch => cases hj

/-- A join comes of `~EventLoopThread`, and that of `~TcpServer`. -/
theorem join_pushed {u : ThreadId} (h : Pushed s a u j) (hj : j = .join l ∨ j = .destroyThread l) :
    ∃ o i rest, a = .run u o ∧ s.stack u = i :: rest ∧
      (i = .destroyThread l ∨ i = .destroyEntries ∧ j = .destroyThread l) := by
  cases h with
  | exec _ o i rest hst _ hfol =>
      refine ⟨o, i, rest, rfl, hst, ?_⟩
      cases hfol with
      | join m =>
          rcases hj with hj | hj <;> cases hj
          exact Or.inl rfl
      | thread m =>
          rcases hj with hj | hj <;> cases hj
          exact Or.inr ⟨rfl, rfl⟩
      | conn c op _ hpr => cases hpr <;> rcases hj with hj | hj <;> cases hj
      | runHere l f hl => cases f <;> rcases hj with hj | hj <;> cases hj
      | _ => rcases hj with hj | hj <;> cases hj
  | call _ v _ ha => cases ha <;> rcases hj with hj | hj <;> cases hj
  | functor l b f fs hph => cases f <;> rcases hj with hj | hj <;> cases hj
  | event l ch hch => rcases hj with hj | hj <;> cases hj

/-- `~TcpServer` joins the threads of the sub loops. -/
theorem destroyThread_pushed (hst : s.stack t = .destroyEntries :: rest)
    (hs : Step s (.run t o) s') (hno : .destroyThread l ∉ rest)
    (hm : .destroyThread l ∈ s'.stack t) : 0 < l ∧ l ≤ s.numLoops := by
  cases hs with
  | run _ _ i rest' s₁ is hst' he =>
      rw [hst] at hst'
      cases hst'
      rw [stack_setStack_self] at hm
      have hm := (List.mem_append.mp hm).resolve_right hno
      cases he with
      | quiet _ _ hq => cases hq
      | loop _ m b l' _ hi => cases hi
      | entry c => simp at hm
      | lastEntry =>
          rcases List.mem_append.mp hm with hm | hm
          · obtain ⟨n, hn, e⟩ := List.mem_map.mp hm
            cases e
            exact ⟨Nat.succ_pos n, List.mem_range.mp hn⟩
          · cases List.mem_singleton.mp hm

/-- An accept goes on only where the server is there. -/
theorem life_of_accept (hst : s.stack t = .handleEvent .acceptor :: rest)
    (hs : Step s (.run t o) s') : s'.server.life ≠ .dead := by
  cases hs with
  | run _ _ i rest' s₁ is hst' he =>
      rw [hst] at hst'
      cases hst'
      cases he with
      | quiet _ _ hq => cases hq <;> assumption
      | loop _ m b l' _ hi => cases hi

theorem pending_step (hw : Wf s) (h : s.Pending) (hs : Step s a s') : s'.Pending := by
  refine ⟨fun u hm => ?_, fun u l hm => ?_⟩
  · rcases mem_stack_step hs hm with hold | hp
    · rcases life_step hs with e | ⟨_, _, e⟩ | ⟨t, o, rest, rfl, hst, e⟩
      · rw [e]
        exact h.accept u hold
      · rw [e]
        exact Life.noConfusion
      · -- the base loop's thread is at `~Acceptor`, not at an accept
        have hu : u = .loop 0 := hw.stack u _ hold
        have ht : t = .loop 0 := hw.stack t _ (mem_stack hst)
        subst hu ht
        rw [hst] at hold
        have hset := hw.settled_rest hst _ ((List.mem_cons.mp hold).resolve_left Instr.noConfusion)
        cases hset
    · obtain ⟨o, rest, rfl, hst⟩ := accept_pushed hp
      exact life_of_accept hst hs
  · rw [numLoops_step hs]
    have hpush : ∀ j, (j = .join l ∨ j = .destroyThread l) → j ∈ s'.stack u →
        0 < l ∧ l ≤ s.numLoops := by
      intro j hj hm
      by_cases hold : j ∈ s.stack u
      · exact h.join u l (by rcases hj with rfl | rfl <;> simp [hold])
      · have hp := (mem_stack_step hs hm).resolve_left hold
        obtain ⟨o, i, rest, rfl, hst, rfl | ⟨rfl, rfl⟩⟩ := join_pushed hp hj
        · exact h.join u l (Or.inr (mem_stack hst))
        · refine destroyThread_pushed hst hs (fun hr => hold ?_) hm
          exact hst ▸ List.mem_cons_of_mem _ hr
    rcases hm with hm | hm
    · exact hpush _ (Or.inl rfl) hm
    · exact hpush _ (Or.inr rfl) hm

/-! ## Going on -/

/-- What the environment may answer where `i` is executed: to a system call, or as the order of an
    `unordered_map`. -/
def Answers (s : Process) : Instr → Outcome → Prop
  | .conn c op, o => (s.ctx c).Answers op o
  | .acceptorHandleRead, o => ∃ fd, o = .accept fd ∧
      ∀ n, fd = some n → s.freshFd n = true ∧ s.server.nextConnId < 2 ^ 31
  | .destroyEntries, o =>
      (∃ c, o = .entry (some c) ∧ ∃ e ∈ s.server.connections, e.2 = some c) ∨
      (o = .entry none ∧ ∀ e ∈ s.server.connections, e.2 = none)
  | _, _ => True

theorem exists_answers (s : Process) (i : Instr) : ∃ o, s.Answers i o := by
  cases i with
  | conn c op => exact (s.ctx c).exists_answers op
  | acceptorHandleRead => exact ⟨_, none, rfl, nofun⟩
  | destroyEntries =>
      by_cases h : ∃ c, ∃ e ∈ s.server.connections, e.2 = some c
      · obtain ⟨c, hc⟩ := h
        exact ⟨_, Or.inl ⟨c, rfl, hc⟩⟩
      · refine ⟨_, Or.inr ⟨rfl, fun e he => ?_⟩⟩
        exact Option.eq_none_iff_forall_ne_some.mpr fun c hc => h ⟨c, e, he, hc⟩
  | _ => exact ⟨.none, trivial⟩

/-- **What the instruction is about to use is gone**: the loop it calls, or the server. -/
def UsesGone (s : Process) (i : Instr) : Prop :=
  (∃ l, i.target = some l ∧ s.hasLoop l = false) ∨
    i.needsServer = true ∧ s.server.life = .dead

/-- The step is the library's: no call of user code. -/
def Label.own : Label → Bool
  | .user _ _ => false
  | _ => true

/-- Thread `t` can make a step of the library's. -/
def CanStep (s : Process) (t : ThreadId) : Prop :=
  ∃ a : Label, a.thread = t ∧ a.own = true ∧ (s.step a).isSome

/-- **Why thread `t` makes no step of the library's.** -/
inductive Halted (s : Process) (t : ThreadId) : Prop where
  /-- A thread of the user's is in its own code. -/
  | user (u : Nat) (ht : t = .user u) (hst : s.stack t = [])
  /-- There is no such loop, or its thread has ended. -/
  | ended (l : LoopId) (ht : t = .loop l) (h : s.hasLoop l = false)
  /-- `Loop()` of the base loop has returned. -/
  | left (ht : t = .loop 0) (hst : s.stack t = []) (hp : (s.loops 0).phase = .left)
  /-- `Join` waits for a thread that has not ended. -/
  | joins (l : LoopId) (rest : List Instr) (hst : s.stack t = .join l :: rest)
      (h : s.threadDone l = false)
  | gone (i : Instr) (rest : List Instr) (hst : s.stack t = i :: rest) (h : s.UsesGone i)

/-- **The invariants that keep a thread going.** -/
structure Sound (s : Process) : Prop extends Wf s where
  frames : s.Frames
  own : s.OwnChannels
  calling : s.Calling
  busy : s.Busy
  waking : s.Waking
  noticed : s.Noticed
  pending : s.Pending

theorem sound_step (h : s.Sound) (hs : s.step a = some s') : s'.Sound where
  toWf := (wf_step h.toWf (of_step hs)).1
  frames := frames_step h.frames (of_step hs)
  own := ownChannels_step h.toWf h.own (of_step hs)
  calling := calling_step h.toWf h.calling (of_step hs)
  busy := busy_step h.frames h.busy (of_step hs)
  waking := waking_step h.toWf h.waking hs
  noticed := noticed_step h.toWf h.noticed (of_step hs)
  pending := pending_step h.toWf h.pending (of_step hs)

/-- A call's kind says where the thread is in it. -/
theorem call_idle (h : s.Sound) (hc : callOn l (s.stack t) = .idle) :
    (s.loops l).call t = .idle := by
  have hk := h.calling l t
  rw [hc] at hk
  cases hcall : (s.loops l).call t <;> rw [hcall] at hk <;> first | rfl | cases hk

theorem loopStep_isSome {b : EventLoop.Action ThreadId Functor} (hl : s.hasLoop l = true)
    (he : (s.loops l).enabled b = true) : (s.loopStep l b).isSome := by
  unfold loopStep EventLoop.step
  rw [if_pos hl, if_pos he]
  rfl

/-- A thread may start a call where it executes the call's instruction. -/
theorem mayCall_of_stack (h : s.Sound) (hst : s.stack t = i :: rest)
    (hc : callOn l (s.stack t) = .idle) : (s.loops l).mayCall t = true := by
  refine EventLoop.mayCall_iff.mpr ⟨call_idle h hc, fun ht => ?_⟩
  rw [h.threadId] at ht
  subst ht
  exact h.busy l (hst ▸ List.cons_ne_nil _ _)

/-- **A call on a loop that is there** goes on. -/
theorem exec_target (h : s.Sound) (hst : s.stack t = i :: rest) (hi : i.target = some l)
    (hl : s.hasLoop l = true) : (s.exec t i o).isSome := by
  have hk := h.calling l t
  rw [hst] at hk
  cases i with
  | queueInLoop m f =>
      cases hi
      simp only [exec, Option.isSome_map]
      exact loopStep_isSome hl (mayCall_of_stack h hst (hst ▸ rfl))
  | quit m =>
      cases hi
      simp only [exec, Option.isSome_map]
      exact loopStep_isSome hl (mayCall_of_stack h hst (hst ▸ rfl))
  | queueWake m =>
      cases hi
      simp only [exec, Option.isSome_map]
      refine loopStep_isSome hl (EventLoop.enabled_queueWake.mpr ?_)
      rw [callOn, if_pos rfl] at hk
      cases hcall : (s.loops l).call t with
      | queued k => exact ⟨k, rfl⟩
      | _ =>
          rw [hcall] at hk
          cases hk
  | quitWake m =>
      cases hi
      simp only [exec, Option.isSome_map]
      refine loopStep_isSome hl ?_
      rw [callOn, if_pos rfl] at hk
      cases hcall : (s.loops l).call t with
      | quitting => simp [EventLoop.enabled, hcall]
      | _ =>
          rw [hcall] at hk
          cases hk
  | _ => cases hi

/-- `HandleEvent` on the wakeup channel finds it reported, and reads the eventfd. -/
theorem exec_wakeup_isSome (h : s.Sound) (hst : s.stack t = .handleEvent (.wakeup l) :: rest) :
    (s.exec t (.handleEvent (.wakeup l)) o).isSome := by
  obtain ⟨m, ht, hm⟩ := h.stack t _ (mem_stack hst)
  obtain rfl : l = m := hm
  subst ht
  have hpos : 0 < s.wakeups l := by
    rw [wakeups, hst, List.count_cons_self]
    omega
  have hph : (s.loops l).phase = .dispatch true := by
    rw [h.waking.once] at hpos
    generalize (s.loops l).phase = p at hpos
    unfold Phase.waking at hpos
    split at hpos
    · rfl
    · exact absurd hpos (Nat.lt_irrefl 0)
  have hidle : (s.loops l).ownIdle = true := by
    unfold EventLoop.ownIdle
    rw [h.threadId]
    exact decide_eq_true (call_idle h (hst ▸ rfl))
  simp only [exec, handleEvent, h.waking.readable l hpos]
  refine Eq.trans (Option.isSome_map (f := (·, []))) ?_
  exact loopStep_isSome (hasLoop_of_stack h.frames hst)
    (EventLoop.enabled_handleRead.mpr ⟨hidle, hph⟩)

/-- **An instruction that uses nothing that is gone** goes on, whatever the environment answers. -/
theorem exec_isSome (h : s.Sound) (hst : s.stack t = i :: rest) (hno : ¬ s.UsesGone i)
    (hcb : ∀ arg, i ≠ .callback arg) (hj : ∀ l, i = .join l → s.threadDone l = true)
    (ho : s.Answers i o) : (s.exec t i o).isSome := by
  have hhome := h.stack t i (mem_stack hst)
  have hserver : i.needsServer = true → ¬ s.server.life = .dead := fun hi hd =>
    hno (Or.inr ⟨hi, hd⟩)
  have htarget : ∀ l, i.target = some l → (s.exec t i o).isSome := by
    intro l hi
    refine exec_target h hst hi ?_
    by_contra hl
    exact hno (Or.inl ⟨l, hi, Bool.eq_false_iff.mpr hl⟩)
  cases i with
  | conn c op =>
      simp only [exec, Option.isSome_map]
      refine Ctx.exec_isSome (h.agrees c hhome.1) ?_ ?_ ho
      · exact Option.isSome_of_eq_some (h.close c hhome.1)
      · exact h.noticed c op (Or.inl ⟨t, _, mem_stack hst, rfl⟩)
  | handleEvent ch =>
      cases ch with
      | wakeup l => exact exec_wakeup_isSome h hst
      | acceptor =>
          simp only [exec, handleEvent, if_neg (hserver rfl)]
          rfl
      | conn c => rfl
  | callback arg => exact absurd rfl (hcb arg)
  | queueInLoop l f => exact htarget l rfl
  | queueWake l => exact htarget l rfl
  | quit l => exact htarget l rfl
  | quitWake l => exact htarget l rfl
  | removeConnection c =>
      simp only [exec, if_neg (hserver rfl)]
      rfl
  | removeConnectionInLoop c =>
      simp only [exec, removeConnectionInLoop, if_neg (hserver rfl)]
      rfl
  | acceptorHandleRead =>
      obtain ⟨fd, rfl, hfd⟩ := ho
      cases fd with
      | none => rfl
      | some n =>
          have hlife := h.pending.accept t (mem_stack hst)
          exact Option.isSome_of_eq_some (if_pos ⟨hlife, hfd n rfl⟩)
  | acceptorEventEnd =>
      simp only [exec, if_neg (hserver rfl)]
      rfl
  | destroyEntries =>
      rcases ho with ⟨c, rfl, e, he, hec⟩ | ⟨rfl, hall⟩
      · have hany : s.server.connections.any (·.2 == some c) = true :=
          List.any_eq_true.mpr ⟨e, he, beq_iff_eq.mpr hec⟩
        exact Option.isSome_of_eq_some (if_pos hany)
      · have hall : s.server.connections.all (·.2 == none) = true :=
          List.all_eq_true.mpr fun e he => beq_iff_eq.mpr (hall e he)
        exact Option.isSome_of_eq_some (if_pos hall)
  | join l => exact Option.isSome_of_eq_some (if_pos (hj l rfl))
  | destroyAcceptor =>
      have hag : s.pollers 0 (s.chans .acceptor).fd = (s.chans .acceptor).slot .acceptor :=
        h.own.acceptor
      simp only [exec, destroyAcceptor, Channel.disableAll, hag, Channel.updateChannel_slot,
        Option.bind_some, Option.isSome_map, Channel.remove, Channel.removeChannel_slot]
      rfl
  | release c => rfl
  | runInLoop l f => rfl
  | destroyThread l => rfl

/-- **`Loop()` goes on** where its thread has nothing else to do. -/
theorem loop_canStep (h : s.Sound) (hl : s.hasLoop l = true) (hst : s.stack (.loop l) = [])
    (hleft : l = 0 → (s.loops 0).phase ≠ .left) : s.CanStep (.loop l) := by
  have hidle : (s.loops l).ownIdle = true := by
    unfold EventLoop.ownIdle
    rw [h.threadId]
    exact decide_eq_true (call_idle h (hst ▸ rfl))
  cases hact : s.active l with
  | cons ch rest => exact ⟨.dispatch l, rfl, rfl, by simp [step, hst, hact]⟩
  | nil =>
      have hgo : ∀ b, isControl b = true → (s.loops l).enabled b = true → s.CanStep (.loop l) := by
        intro b hb he
        refine ⟨.loop l b, rfl, rfl, ?_⟩
        simp only [step]
        rw [if_pos ⟨hst, hact, hb⟩, Option.isSome_map]
        exact loopStep_isSome hl he
      cases hph : (s.loops l).phase with
      | init => exact hgo _ rfl (EventLoop.enabled_enterLoop.mpr ⟨hidle, hph⟩)
      | test => exact hgo _ rfl (EventLoop.enabled_test.mpr ⟨hidle, hph⟩)
      | poll =>
          -- the time is up, and nothing is reported
          refine ⟨.poll l [], rfl, rfl, ?_⟩
          simp only [step]
          rw [if_pos ⟨hst, rfl, List.nodup_nil⟩, Option.isSome_map]
          exact loopStep_isSome hl (EventLoop.enabled_pollReturn.mpr ⟨hidle, Bool.noConfusion, hph⟩)
      | dispatch wake =>
          have hwk := h.waking.once l
          rw [wakeups, hst, hact, hph] at hwk
          cases wake with
          | false => exact hgo _ rfl (EventLoop.enabled_startFunctors.mpr ⟨hidle, hph⟩)
          | true => cases hwk
      | swap => exact hgo _ rfl (EventLoop.enabled_swap.mpr ⟨hidle, hph⟩)
      | batch fs =>
          cases fs with
          | nil => exact hgo _ rfl (EventLoop.enabled_finish.mpr ⟨hidle, hph⟩)
          | cons f fs =>
              exact hgo (.next (.loop l)) rfl
                (EventLoop.enabled_next.mpr ⟨hidle, h.threadId l, f, fs, hph⟩)
      | functor f fs => exact hgo _ rfl (EventLoop.enabled_ret.mpr ⟨hidle, f, fs, hph⟩)
      | left =>
          have h0 : 0 < l := Nat.pos_of_ne_zero fun e => hleft e (e ▸ hph)
          refine ⟨.threadEnd l, rfl, rfl, ?_⟩
          simp only [step]
          rw [if_pos ⟨h0, hl, hst, hph⟩]
          rfl

/-- **A thread that is not halted goes on.** -/
theorem canStep_of_not_halted (h : s.Sound) (hno : ¬ s.Halted t) : s.CanStep t := by
  cases hst : s.stack t with
  | nil =>
      cases t with
      | user u => exact absurd (.user u rfl hst) hno
      | loop l =>
          refine loop_canStep h ?_ hst fun h0 hp => hno (.left (h0 ▸ rfl) hst hp)
          by_contra hl
          exact hno (.ended l rfl (Bool.eq_false_iff.mpr hl))
  | cons i rest =>
      by_cases hcb : ∃ arg, i = .callback arg
      · obtain ⟨arg, rfl⟩ := hcb
        exact ⟨.ret t, rfl, rfl, by simp [step, hst]⟩
      · obtain ⟨o, ho⟩ := s.exists_answers i
        refine ⟨.run t o, rfl, rfl, ?_⟩
        simp only [step, hst, Option.isSome_map]
        refine exec_isSome h hst (fun hg => hno (.gone i rest hst hg))
          (fun arg e => hcb ⟨arg, e⟩) (fun l e => ?_) ho
        subst e
        by_contra hd
        exact hno (.joins l rest hst (Bool.eq_false_iff.mpr hd))

/-- A use of what is gone is no step. -/
theorem exec_gone {p : Process × List Instr} (hg : s.UsesGone i)
    (he : s.exec t i o = some p) : False := by
  have hloop : ∀ {m : LoopId} {b : EventLoop.Action ThreadId Functor} {js : List Instr},
      s.hasLoop m = false → (s.loopStep m b).map (·, js) = some p → False := by
    intro m b js hm h
    obtain ⟨s₁, hs, _⟩ := Option.map_eq_some_iff.mp h
    exact absurd (of_loopStep hs).1 (by rw [hm]; exact Bool.false_ne_true)
  rcases hg with ⟨l, hl, hgone⟩ | ⟨hi, hdead⟩
  · cases i <;> cases hl <;> exact hloop hgone he
  · cases i with
    | handleEvent ch =>
        cases ch with
        | acceptor =>
            simp only [exec, handleEvent, if_pos hdead] at he
            cases he
        | _ => cases hi
    | removeConnection c | acceptorEventEnd =>
        simp only [exec, if_pos hdead] at he
        cases he
    | removeConnectionInLoop c =>
        simp only [exec, removeConnectionInLoop, if_pos hdead] at he
        cases he
    | _ => cases hi

/-- A thread with something on its stack executes it, or returns from it. -/
theorem step_busy (hst : s.stack t = i :: rest) (ha : a.thread = t) (hown : a.own = true)
    (hs : s.step a = some s') :
    (∃ o p, a = .run t o ∧ s.exec t i o = some p) ∨ ∃ arg, i = .callback arg := by
  have hbusy : ∀ {l}, t = .loop l → s.stack (.loop l) ≠ [] := by
    rintro l rfl
    exact hst ▸ List.cons_ne_nil _ _
  cases of_step hs with
  | run u o j rest' s₁ is hst' he =>
      cases ha
      have hst : s.stack u = i :: rest := hst
      simp only [step, hst] at hs
      obtain ⟨p, hp, _⟩ := Option.map_eq_some_iff.mp hs
      exact Or.inl ⟨o, p, rfl, hp⟩
  | user _ _ _ _ hu _ => cases hown
  | ret u arg rest' hst' =>
      cases ha
      exact Or.inr ⟨arg, (List.cons.inj (hst.symm.trans hst')).1⟩
  | loop l b l' hnil => exact absurd hnil (hbusy ha.symm)
  | poll l events l' hnil => exact absurd hnil (hbusy ha.symm)
  | dispatch l ch rest' hnil => exact absurd hnil (hbusy ha.symm)
  | threadEnd l h0 hl hnil => exact absurd hnil (hbusy ha.symm)

/-- `Loop()` has returned: no step of it is left. -/
theorem not_control_left {loop loop' : EventLoop ThreadId Functor}
    {b : EventLoop.Action ThreadId Functor} (hp : loop.phase = .left)
    (hb : isControl b = true ∨ ∃ wake, b = .pollReturn wake) : loop.step b ≠ some loop' := by
  intro hs
  obtain ⟨he, _⟩ := EventLoop.step_eq_some.mp hs
  rcases hb with hb | ⟨wake, rfl⟩
  · cases b <;> first | (simp [EventLoop.enabled, hp] at he; done) | cases hb
  · simp [EventLoop.enabled, hp] at he

/-- **A halted thread makes no step of the library's.** -/
theorem Halted.not_canStep (hf : s.Frames) (h : s.Halted t) : ¬ s.CanStep t := by
  rintro ⟨a, ha, hown, hs⟩
  obtain ⟨s', hs⟩ := Option.isSome_iff_exists.mp hs
  cases h with
  | user u ht hst =>
      subst ht
      cases of_step hs with
      | run _ o i rest s₁ is hst' he =>
          cases ha
          rw [hst] at hst'
          cases hst'
      | ret _ arg rest hst' =>
          cases ha
          rw [hst] at hst'
          cases hst'
      | user _ _ _ _ hu _ => cases hown
      | _ => cases ha
  | ended l ht hl =>
      subst ht
      have hgone := hf.gone l hl
      have hno : s.hasLoop l ≠ true := by rw [hl]; exact Bool.false_ne_true
      cases of_step hs with
      | user _ _ _ _ hu _ => cases hown
      | run _ o i rest s₁ is hst he =>
          cases ha
          rw [hgone.1] at hst
          cases hst
      | ret _ arg rest hst =>
          cases ha
          rw [hgone.1] at hst
          cases hst
      | dispatch m ch rest hst hact =>
          cases ha
          rw [hgone.2] at hact
          cases hact
      | loop m b m' hst hact hb hl' hstep =>
          cases ha
          exact hno hl'
      | poll m events m' hst hev hnd hl' hstep =>
          cases ha
          exact hno hl'
      | threadEnd m h0 hl' hst hp =>
          cases ha
          exact hno hl'
  | left ht hst hp =>
      subst ht
      cases of_step hs with
      | user _ _ _ _ hu _ => cases hown
      | run _ o i rest s₁ is hst' he =>
          cases ha
          rw [hst] at hst'
          cases hst'
      | ret _ arg rest hst' =>
          cases ha
          rw [hst] at hst'
          cases hst'
      | dispatch m ch rest hst' hact =>
          cases ha
          have hdis := hf.active 0 (hact ▸ List.cons_ne_nil _ _)
          rw [hp] at hdis
          cases hdis
      | loop m b m' hst' hact hb hl' hstep =>
          cases ha
          exact not_control_left hp (Or.inl hb) hstep
      | poll m events m' hst' hev hnd hl' hstep =>
          cases ha
          exact not_control_left hp (Or.inr ⟨_, rfl⟩) hstep
      | threadEnd m h0 hl' hst' hp' =>
          cases ha
          exact absurd h0 (Nat.lt_irrefl 0)
  | joins l rest hst hd =>
      rcases step_busy hst ha hown hs with ⟨o, p, _, he⟩ | ⟨arg, e⟩
      · have hno : ¬ s.threadDone l = true := by rw [hd]; exact Bool.false_ne_true
        simp only [exec, if_neg hno] at he
        cases he
      · cases e
  | gone i rest hst hg =>
      rcases step_busy hst ha hown hs with ⟨o, p, _, he⟩ | ⟨arg, rfl⟩
      · exact exec_gone hg he
      · rcases hg with ⟨l, hl, _⟩ | ⟨hi, _⟩
        · cases hl
        · cases hi

section Runs

variable {name : List Char} {addr : InetAddress} {numLoops : Nat} {writeComplete : Bool}
  {tr : List (Process × Label)}

theorem sound_init : (init name addr numLoops writeComplete).Sound where
  toWf := wf_init
  frames := frames_run .start
  own := ownChannels_init
  calling := fun _ _ => rfl
  busy := fun _ hne => absurd rfl hne
  waking := ⟨fun _ => rfl, fun _ hpos => absurd hpos (Nat.lt_irrefl 0)⟩
  noticed := by
    rintro c op (⟨_, _, hm, _⟩ | ⟨_, hm⟩) <;> exact absurd hm List.not_mem_nil
  pending := ⟨fun _ hm => absurd hm List.not_mem_nil,
    fun _ _ hm => by rcases hm with hm | hm <;> exact absurd hm List.not_mem_nil⟩

theorem sound_run (h : Run step (init name addr numLoops writeComplete) tr s) : s.Sound :=
  h.inv sound_init fun _ _ _ hs hstep => sound_step hs hstep

/-- **Nothing gets stuck.** In every state of every run, a thread can make a step of the library's
    if and only if it is not halted: in its own code, ended, in a `Join` that waits, or at a use of
    a loop or of a server that is gone. Then it goes on whatever the environment answers: no
    `epoll_ctl` fails, no callback is called that is not set, and no call comes between the parts
    of another. And a `Join` waits for a thread that can go on, or is at such a use itself. -/
theorem progress (h : Run step (init name addr numLoops writeComplete) tr s) (t : ThreadId) :
    (s.CanStep t ↔ ¬ s.Halted t) ∧
    (∀ i rest, s.stack t = i :: rest → (∀ arg, i ≠ .callback arg) → ¬ s.Halted t →
      (∃ o, s.Answers i o) ∧ ∀ o, s.Answers i o → (s.step (.run t o)).isSome) ∧
    ∀ l rest, s.stack t = .join l :: rest → s.threadDone l = false →
      s.CanStep (.loop l) ∨ ∃ i rest, s.stack (.loop l) = i :: rest ∧ s.UsesGone i := by
  have hs := sound_run h
  refine ⟨⟨fun hc hh => hh.not_canStep hs.frames hc, canStep_of_not_halted hs⟩, ?_, ?_⟩
  · intro i rest hst hcb hno
    refine ⟨s.exists_answers i, fun o ho => ?_⟩
    simp only [step, hst, Option.isSome_map]
    refine exec_isSome hs hst (fun hg => hno (.gone i rest hst hg)) hcb (fun l e => ?_) ho
    subst e
    by_contra hd
    exact hno (.joins l rest hst (Bool.eq_false_iff.mpr hd))
  · intro l rest hst hd
    obtain ⟨h0, hle⟩ := hs.pending.join t l (Or.inl (mem_stack hst))
    by_cases hhalt : s.Halted (.loop l)
    · -- of the reasons to halt, a sub loop whose thread is there has one only
      right
      cases hhalt with
      | user u ht => cases ht
      | ended m ht hl =>
          cases ht
          have hhas : s.hasLoop l = true := by simp [hasLoop, hle, hd]
          rw [hhas] at hl
          cases hl
      | left ht =>
          cases ht
          exact absurd h0 (Nat.lt_irrefl 0)
      | joins m rest' hst' hd' =>
          have hhome : ThreadId.loop l = .loop 0 := hs.stack _ _ (mem_stack hst')
          cases hhome
          exact absurd h0 (Nat.lt_irrefl 0)
      | gone i rest' hst' hg => exact ⟨i, rest', hst', hg⟩
    · exact Or.inl (canStep_of_not_halted hs hhalt)

/-- `~TcpServer` on the base loop's thread, as far as the `Join` of the sub loop. -/
def joinRun : List Label :=
  [.user (.loop 0) .destroyServer, .run (.loop 0) (.entry none), .run (.loop 0) .none,
    .run (.loop 0) .none, .run (.loop 0) .none]

theorem progress_join : ∃ tr s, Run step twoLoops tr s ∧ s.stack (.loop 0) =
    [.join 1, .destroyAcceptor] ∧ s.CanStep (.loop 1) := by
  have h : ((Machine.exec step twoLoops joinRun).any fun s => decide (
      s.stack (.loop 0) = [.join 1, .destroyAcceptor] ∧ s.threadDone 1 = false ∧
      s.stack (.loop 1) = [])) = true := by decide +kernel
  obtain ⟨s, hs, hb⟩ := (Option.any_eq_true _ _).mp h
  obtain ⟨hst, hd, hnil⟩ := of_decide_eq_true hb
  have hrun := exec_run .start hs
  refine ⟨_, s, hrun, hst, ?_⟩
  rcases (progress hrun (.loop 0)).2.2 1 _ hst hd with hc | ⟨i, rest, hst', _⟩
  · exact hc
  · rw [hnil] at hst'
    cases hst'

end Runs

end Process

end CuteMuduo
