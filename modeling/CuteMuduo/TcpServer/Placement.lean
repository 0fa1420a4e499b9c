/-
  File:      CuteMuduo/TcpServer/Placement.lean
  Subject:   EVERYTHING IN ITS PLACE, in every state the program reaches:

  * `Stored` -- the connections, their fds, channels and registrations: fds are distinct, and
    channel, poller and kernel agree about every connection;
  * `Placed` -- what a stack, a task queue or a list of active channels holds belongs to that
    thread or loop (a connection's functions to the thread of its loop, the server's to the base
    loop's thread), speaks of connections there are, and only what may wait lies below the first
    instruction of a stack;
  * `wf_run` -- both, over every run.
-/
import CuteMuduo.TcpServer.Step
import CuteMuduo.EventLoop.Queue

namespace CuteMuduo

open Machine

namespace Process

/-- The fd of connection `c`. -/
abbrev fd (s : Process) (c : ConnId) : Nat := (s.chans (.conn c)).fd

/-! ## Where things belong -/

/-- Functor `f` may wait in loop `l`'s queue. A message of the loop's own thread never does. -/
def functorHome (s : Process) (l : LoopId) : Functor → Prop
  | .conn c op => c < s.created ∧ (s.conns c).loop = l ∧ op.isFunctor = true ∧
      ∀ msg, op ≠ .sendInLoop (.loop l) msg
  | .removeConnectionInLoop c => c < s.created ∧ l = 0
  | .user _ => True

/-- Thread `t` may hand over functor `f`. -/
def functorFrom (t : ThreadId) : Functor → Prop
  | .conn _ .connectEstablished => t = .loop 0
  | .conn _ .connectDestroyed => t = .loop 0
  | .conn _ (.sendInLoop sender _) => t = sender
  | _ => True

/-- Channel `ch` may be reported by loop `l`. -/
def chanHome (s : Process) (l : LoopId) : Chan → Prop
  | .wakeup l' => l' = l
  | .acceptor => l = 0
  | .conn c => c < s.created ∧ (s.conns c).loop = l

/-- Thread `t` may execute the instruction. -/
def instrHome (s : Process) (t : ThreadId) : Instr → Prop
  | .conn c op => c < s.created ∧ (op.anyThread = true ∨ t = .loop (s.conns c).loop)
  | .handleEvent ch => ∃ l, t = .loop l ∧ s.chanHome l ch
  | .callback arg => ∀ c, arg = some c → c < s.created
  | .release c => c < s.created
  | .runInLoop l f => s.functorHome l f ∧ functorFrom t f
  | .queueInLoop l f => s.functorHome l f ∧ functorFrom t f
  | .queueWake _ => True
  | .quit _ => True
  | .quitWake _ => True
  | .removeConnection c => c < s.created
  | .removeConnectionInLoop c => c < s.created ∧ t = .loop 0
  | .acceptorHandleRead => t = .loop 0
  | .acceptorEventEnd => t = .loop 0
  | .destroyEntries => t = .loop 0
  | .destroyThread _ => t = .loop 0
  | .join _ => t = .loop 0
  | .destroyAcceptor => t = .loop 0

/-- **Connections only come**, and what no step changes of them stays. -/
structure Grows (s s' : Process) : Prop where
  created : s.created ≤ s'.created
  same : ∀ c < s.created, Ctx.SameConn (s.ctx c) (s'.ctx c)
  numLoops : s'.numLoops = s.numLoops

theorem Grows.refl (s : Process) : Grows s s := ⟨Nat.le_refl _, fun _ _ => .refl _, rfl⟩

/-- Where the connections are the same. -/
theorem Grows.of_ctx {s s' : Process} (hc : s'.created = s.created)
    (hctx : ∀ c < s.created, s'.ctx c = s.ctx c) (hn : s'.numLoops = s.numLoops) : Grows s s' :=
  ⟨Nat.le_of_eq hc.symm, fun c hlt => hctx c hlt ▸ .refl _, hn⟩

section Mono

variable {s s' : Process}

theorem Grows.loop (hg : Grows s s') {c : ConnId} (hc : c < s.created) :
    (s'.conns c).loop = (s.conns c).loop := (hg.same c hc).loop

theorem functorHome_mono (hg : Grows s s') {l : LoopId} {f : Functor}
    (h : s.functorHome l f) : s'.functorHome l f := by
  cases f with
  | conn c op => exact ⟨Nat.lt_of_lt_of_le h.1 hg.created, (hg.loop h.1).trans h.2.1, h.2.2⟩
  | removeConnectionInLoop c => exact ⟨Nat.lt_of_lt_of_le h.1 hg.created, h.2⟩
  | user k => trivial

theorem chanHome_mono (hg : Grows s s') {l : LoopId} {ch : Chan}
    (h : s.chanHome l ch) : s'.chanHome l ch := by
  cases ch with
  | wakeup l' => exact h
  | acceptor => exact h
  | conn c => exact ⟨Nat.lt_of_lt_of_le h.1 hg.created, (hg.loop h.1).trans h.2⟩

theorem instrHome_mono (hg : Grows s s') {t : ThreadId} {i : Instr}
    (h : s.instrHome t i) : s'.instrHome t i := by
  have hlt : ∀ {c}, c < s.created → c < s'.created := fun h => Nat.lt_of_lt_of_le h hg.created
  cases i with
  | conn c op =>
      refine ⟨hlt h.1, ?_⟩
      rw [hg.loop h.1]
      exact h.2
  | handleEvent ch =>
      obtain ⟨l, ht, hch⟩ := h
      exact ⟨l, ht, chanHome_mono hg hch⟩
  | callback arg => exact fun c hc => hlt (h c hc)
  | release c => exact hlt h
  | runInLoop l f => exact ⟨functorHome_mono hg h.1, h.2⟩
  | queueInLoop l f => exact ⟨functorHome_mono hg h.1, h.2⟩
  | removeConnection c => exact hlt h
  | removeConnectionInLoop c => exact ⟨hlt h.1, h.2⟩
  | _ => exact h

end Mono

/-! ## The connections and their registrations -/

/-- **The connections, their fds and registrations.** -/
structure Stored (s : Process) : Prop where
  close : ∀ c < s.created, (s.conns c).closeCallback = some c
  agrees : ∀ c < s.created, (s.ctx c).Agrees c
  fd_ge : ∀ c < s.created, firstFd s.numLoops ≤ s.fd c
  fd_inj : ∀ c < s.created, ∀ d < s.created, s.fd c = s.fd d → c = d
  acceptorFd : (s.chans .acceptor).fd < firstFd s.numLoops
  /-- Where no connection is, nothing is registered. -/
  free : ∀ l fd, firstFd s.numLoops ≤ fd →
    (∀ c < s.created, (s.conns c).loop = l → s.fd c ≠ fd) → s.pollers l fd = Slot.empty
  epoll : ∀ l fd e, (s.pollers l fd).epoll = some e → s.chanHome l e.2

section Ctx

variable {s : Process} {c d : ConnId} {k : Ctx}

theorem ctx_setCtx_self (h : Ctx.SameConn (s.ctx c) k) : (s.setCtx c k).ctx c = k := by
  obtain ⟨conn, channel, slot⟩ := k
  have hfd : channel.fd = (s.chans (.conn c)).fd := h.fd
  have hloop : conn.loop = (s.conns c).loop := h.loop
  simp only [setCtx, ctx, Function.update_self, hfd, hloop]

theorem ctx_setCtx_of_ne (hne : d ≠ c) (hfd : s.fd d ≠ s.fd c) :
    (s.setCtx c k).ctx d = s.ctx d := by
  have hch : Chan.conn d ≠ Chan.conn c := fun e => hne (Chan.conn.inj e)
  have hslot : Function.update s.pollers (s.conns c).loop
      (Function.update (s.pollers (s.conns c).loop) (s.chans (.conn c)).fd k.slot)
        (s.conns d).loop (s.chans (.conn d)).fd =
      s.pollers (s.conns d).loop (s.chans (.conn d)).fd := by
    by_cases hl : (s.conns d).loop = (s.conns c).loop
    · rw [hl, Function.update_self, Function.update_of_ne hfd]
    · rw [Function.update_of_ne hl]
  simp only [setCtx, ctx, Function.update_of_ne hne, Function.update_of_ne hch, hslot]

/-- A connection's step, seen from any connection. -/
theorem ctx_setCtx (hs : Stored s) (hc : c < s.created) (hd : d < s.created)
    (h : Ctx.SameConn (s.ctx c) k) : (s.setCtx c k).ctx d = if d = c then k else s.ctx d := by
  split
  · rename_i e
    rw [e]
    exact ctx_setCtx_self h
  · rename_i hne
    exact ctx_setCtx_of_ne hne fun e => hne (hs.fd_inj d hd c hc e)

theorem grows_setCtx (hs : Stored s) (hc : c < s.created) (h : Ctx.SameConn (s.ctx c) k) :
    Grows s (s.setCtx c k) := by
  refine ⟨Nat.le_refl _, fun d hd => ?_, rfl⟩
  rw [ctx_setCtx hs hc hd h]
  split
  · rename_i e
    rw [e]
    exact h
  · exact .refl _

/-- **A step on a connection** keeps the registrations in order. -/
theorem Stored.setCtx (hs : Stored s) (hc : c < s.created) (h : Ctx.SameConn (s.ctx c) k)
    (ha : k.Agrees c) : Stored (s.setCtx c k) := by
  have hg := grows_setCtx hs hc h
  have hfd : ∀ d < s.created, (s.setCtx c k).fd d = s.fd d := fun d hd => (hg.same d hd).fd
  refine ⟨fun d hd => ?_, fun d hd => ?_, fun d hd => ?_, fun d hd d' hd' e => ?_, ?_, ?_, ?_⟩
  · exact (hg.same d hd).closeCallback.trans (hs.close d hd)
  · rw [ctx_setCtx hs hc hd h]
    split
    · rename_i e
      rw [e]
      exact ha
    · exact hs.agrees d hd
  · rw [hfd d hd]
    exact hs.fd_ge d hd
  · rw [hfd d hd, hfd d' hd'] at e
    exact hs.fd_inj d hd d' hd' e
  · show (Function.update s.chans (.conn c) k.channel .acceptor).fd < _
    rw [Function.update_of_ne (by exact fun e => by cases e)]
    exact hs.acceptorFd
  · intro l fd hge hno
    have hno' : ∀ d < s.created, (s.conns d).loop = l → s.fd d ≠ fd := by
      intro d hd hl
      rw [← hfd d hd]
      exact hno d hd ((hg.loop hd).trans hl)
    show Function.update s.pollers (s.conns c).loop _ l fd = _
    by_cases hl : l = (s.conns c).loop
    · subst hl
      rw [Function.update_self, Function.update_of_ne fun e => hno' c hc rfl e.symm]
      exact hs.free _ fd hge hno'
    · rw [Function.update_of_ne hl]
      exact hs.free l fd hge hno'
  · intro l fd e he
    change (Function.update s.pollers (s.conns c).loop _ l fd).epoll = some e at he
    apply chanHome_mono hg
    by_cases hl : l = (s.conns c).loop
    · subst hl
      rw [Function.update_self] at he
      by_cases hf : fd = (s.chans (.conn c)).fd
      · subst hf
        rw [Function.update_self, ha] at he
        simp only [Channel.slot] at he
        split at he
        · cases he
          exact ⟨hc, rfl⟩
        · cases he
      · rw [Function.update_of_ne hf] at he
        exact hs.epoll _ fd e he
    · rw [Function.update_of_ne hl] at he
      exact hs.epoll l fd e he

end Ctx

section Create

variable {s : Process} {fd : Nat} {c : ConnId}

/-- What `accept4` promises of its fd. -/
theorem of_freshFd (h : s.freshFd fd = true) :
    firstFd s.numLoops ≤ fd ∧ ∀ c < s.created, s.fd c ≠ fd := by
  obtain ⟨hge, hall⟩ := Bool.and_eq_true_iff.mp h
  refine ⟨of_decide_eq_true hge, fun c hc => ?_⟩
  exact bne_iff_ne.mp (List.all_eq_true.mp hall c (List.mem_range.mpr hc))

/-- A new connection leaves the others alone. -/
theorem ctx_newConnection_of_lt (hc : c < s.created) : (s.newConnection fd).1.ctx c = s.ctx c := by
  have hne : c ≠ s.created := Nat.ne_of_lt hc
  have hch : Chan.conn c ≠ Chan.conn s.created := fun e => hne (Chan.conn.inj e)
  simp only [newConnection, ctx, Function.update_of_ne hne, Function.update_of_ne hch]

/-- The new connection: nothing is registered for it. -/
theorem ctx_newConnection_self (hs : Stored s) (hf : s.freshFd fd = true) :
    (s.newConnection fd).1.ctx s.created = ⟨s.freshConn, Channel.create fd, Slot.empty⟩ := by
  obtain ⟨hge, hno⟩ := of_freshFd hf
  have hslot : s.pollers s.freshConn.loop fd = Slot.empty :=
    hs.free _ fd hge fun c hc _ => hno c hc
  simp only [newConnection, ctx, Function.update_self]
  rw [show (Channel.create fd).fd = fd from rfl, hslot]

theorem grows_newConnection : Grows s (s.newConnection fd).1 := by
  refine ⟨Nat.le_succ _, fun c hc => ?_, rfl⟩
  rw [ctx_newConnection_of_lt hc]
  exact .refl _

theorem Stored.newConnection (hs : Stored s) (hf : s.freshFd fd = true) :
    Stored (s.newConnection fd).1 := by
  obtain ⟨hge, hno⟩ := of_freshFd hf
  have hold : ∀ c < s.created, (s.newConnection fd).1.ctx c = s.ctx c :=
    fun c hc => ctx_newConnection_of_lt hc
  have hnew := ctx_newConnection_self hs hf
  have hcases : ∀ c < (s.newConnection fd).1.created, c < s.created ∨ c = s.created :=
    fun c hc => Nat.lt_succ_iff_lt_or_eq.mp hc
  have hfd : ∀ c < s.created, (s.newConnection fd).1.fd c = s.fd c :=
    fun c hc => congrArg (fun k => k.channel.fd) (hold c hc)
  have hfd' : (s.newConnection fd).1.fd s.created = fd :=
    congrArg (fun k => k.channel.fd) hnew
  refine ⟨fun c hc => ?_, fun c hc => ?_, fun c hc => ?_, fun c hc d hd e => ?_, ?_, ?_, ?_⟩
  · rcases hcases c hc with hc | rfl
    · exact (congrArg (fun k => k.conn.closeCallback) (hold c hc)).trans (hs.close c hc)
    · exact congrArg (fun k => k.conn.closeCallback) hnew
  · rcases hcases c hc with hc | rfl
    · rw [hold c hc]
      exact hs.agrees c hc
    · rw [hnew]
      exact (Channel.slot_of_kNew _ rfl).symm
  · rcases hcases c hc with hc | rfl
    · rw [hfd c hc]
      exact hs.fd_ge c hc
    · rw [hfd']
      exact hge
  · rcases hcases c hc with hc | rfl <;> rcases hcases d hd with hd | rfl
    · rw [hfd c hc, hfd d hd] at e
      exact hs.fd_inj c hc d hd e
    · rw [hfd c hc, hfd'] at e
      exact absurd e (hno c hc)
    · rw [hfd d hd, hfd'] at e
      exact absurd e.symm (hno d hd)
    · rfl
  · show (Function.update s.chans (.conn s.created) (Channel.create fd) .acceptor).fd < _
    rw [Function.update_of_ne (by exact fun e => by cases e)]
    exact hs.acceptorFd
  · intro l fd' hge' hno'
    refine hs.free l fd' hge' fun c hc hl => ?_
    have hne := hno' c (Nat.lt_succ_of_lt hc)
    rw [hfd c hc] at hne
    exact hne ((congrArg (fun k => k.conn.loop) (hold c hc)).trans hl)
  · exact fun l fd' e he => chanHome_mono grows_newConnection (hs.epoll l fd' e he)

end Create

/-- The kernel reports what is registered. -/
theorem of_mayReport {s : Process} {l : LoopId} {e : Chan × EventMask}
    (h : s.mayReport l e = true) :
    ∃ events, (s.pollers l (s.chans e.1).fd).epoll = some (events, e.1) := by
  obtain ⟨hreg, _⟩ := Bool.and_eq_true_iff.mp h
  obtain ⟨⟨events, ch⟩, hr, hptr⟩ := (Option.any_eq_true _ _).mp hreg
  obtain rfl : ch = e.1 := eq_of_beq hptr
  exact ⟨events, hr⟩

/-- The masks `Poll` writes are all that changes in the channels. -/
theorem setRevents_eq (chans : Chan → Channel) (events : List (Chan × EventMask)) (ch : Chan) :
    ∃ revents, setRevents chans events ch = (chans ch).setRevents revents := by
  induction events with
  | nil => exact ⟨(chans ch).revents, rfl⟩
  | cons e events ih =>
      obtain ⟨ch', revents⟩ := e
      obtain ⟨r, hr⟩ := ih
      simp only [setRevents]
      by_cases hch : ch = ch'
      · subst hch
        rw [Function.update_self, hr]
        exact ⟨revents, rfl⟩
      · rw [Function.update_of_ne hch, hr]
        exact ⟨r, rfl⟩

/-- A connection after `Poll`: only its channel's mask may have changed. -/
theorem ctx_setRevents (s : Process) (events : List (Chan × EventMask)) (c : ConnId) :
    ∃ revents, ctx { s with chans := setRevents s.chans events } c =
      { s.ctx c with channel := (s.ctx c).channel.setRevents revents } := by
  obtain ⟨r, hr⟩ := setRevents_eq s.chans events (.conn c)
  refine ⟨r, ?_⟩
  simp only [ctx, hr]
  rfl

theorem grows_setRevents (s : Process) (events : List (Chan × EventMask)) :
    Grows s { s with chans := setRevents s.chans events } := by
  refine ⟨Nat.le_refl _, fun c _ => ?_, rfl⟩
  obtain ⟨r, hr⟩ := ctx_setRevents s events c
  rw [hr]
  exact ⟨rfl, rfl, rfl, rfl, rfl⟩

theorem Stored.setRevents {s : Process} (hs : Stored s) (events : List (Chan × EventMask)) :
    Stored { s with chans := setRevents s.chans events } := by
  have hfd : ∀ ch, (Process.setRevents s.chans events ch).fd = (s.chans ch).fd := by
    intro ch
    obtain ⟨r, hr⟩ := setRevents_eq s.chans events ch
    rw [hr]
    rfl
  refine ⟨hs.close, fun c hc => ?_, fun c hc => ?_, fun c hc d hd e => ?_, ?_, ?_, ?_⟩
  · obtain ⟨r, hr⟩ := ctx_setRevents s events c
    rw [hr]
    exact hs.agrees c hc
  · show _ ≤ (Process.setRevents s.chans events (.conn c)).fd
    rw [hfd]
    exact hs.fd_ge c hc
  · change (Process.setRevents s.chans events (.conn c)).fd =
      (Process.setRevents s.chans events (.conn d)).fd at e
    rw [hfd, hfd] at e
    exact hs.fd_inj c hc d hd e
  · show (Process.setRevents s.chans events .acceptor).fd < _
    rw [hfd]
    exact hs.acceptorFd
  · intro l fd hge hno
    refine hs.free l fd hge fun c hc hl => ?_
    have hne := hno c hc hl
    change (Process.setRevents s.chans events (.conn c)).fd ≠ fd at hne
    rwa [hfd] at hne
  · exact fun l fd e he => chanHome_mono (grows_setRevents s events) (hs.epoll l fd e he)

theorem pollers_dropAcceptor {s : Process} {q : Slot Chan × Channel} {l : LoopId} {fd : Nat}
    (h : l = 0 → fd ≠ (s.chans .acceptor).fd) :
    (s.dropAcceptor q).pollers l fd = s.pollers l fd := by
  show Function.update s.pollers 0 _ l fd = _
  by_cases hl : l = 0
  · subst hl
    rw [Function.update_self, Function.update_of_ne (h rfl)]
  · rw [Function.update_of_ne hl]

theorem pollers_dropAcceptor_self {s : Process} {q : Slot Chan × Channel} :
    (s.dropAcceptor q).pollers 0 (s.chans .acceptor).fd = q.1 := by
  show Function.update s.pollers 0
    (Function.update (s.pollers 0) (s.chans .acceptor).fd q.1) 0 _ = _
  rw [Function.update_self, Function.update_self]

theorem chans_dropAcceptor_self {s : Process} {q : Slot Chan × Channel} :
    (s.dropAcceptor q).chans .acceptor = q.2 := by
  show Function.update s.chans .acceptor q.2 .acceptor = _
  rw [Function.update_self]

/-- What is in an epoll set behind `~Acceptor` was in it before. -/
theorem epoll_dropAcceptor {s : Process} {p q : Slot Chan × Channel}
    (hp : (s.chans .acceptor).disableAll (s.pollers 0 (s.chans .acceptor).fd) .acceptor = some p)
    (hq : p.2.remove p.1 .acceptor = some q) {l : LoopId} {fd : Nat} {e : EventMask × Chan}
    (he : ((s.dropAcceptor q).pollers l fd).epoll = some e) :
    (s.pollers l fd).epoll = some e ∨ l = 0 ∧ e.2 = .acceptor := by
  by_cases h : l = 0 → fd ≠ (s.chans .acceptor).fd
  · rw [pollers_dropAcceptor h] at he
    exact Or.inl he
  · obtain ⟨rfl, hfd⟩ := Classical.not_imp.mp h
    obtain rfl := not_not.mp hfd
    rw [pollers_dropAcceptor_self] at he
    rcases Slot.epoll_removeChannel hq he with he | he
    · rcases Slot.epoll_updateChannel hp he with he | he
      · exact Or.inl he
      · exact Or.inr ⟨rfl, he⟩
    · exact Or.inr ⟨rfl, he⟩

/-- `~Acceptor` touches no connection. -/
theorem destroyAcceptor_spec {s : Process} (hs : Stored s) {p q : Slot Chan × Channel}
    (hp : (s.chans .acceptor).disableAll (s.pollers 0 (s.chans .acceptor).fd) .acceptor = some p)
    (hq : p.2.remove p.1 .acceptor = some q) :
    (∀ c < s.created, (s.dropAcceptor q).ctx c = s.ctx c) ∧ Stored (s.dropAcceptor q) := by
  have hpfd := Slot.fd_updateChannel (show Slot.updateChannel _ _ _ = some p from hp)
  have hfd : q.2.fd = (s.chans .acceptor).fd := (Slot.fd_removeChannel hq).trans hpfd
  have hch : ∀ c, (s.dropAcceptor q).chans (.conn c) = s.chans (.conn c) := by
    intro c
    show Function.update s.chans .acceptor q.2 (.conn c) = _
    rw [Function.update_of_ne (by exact fun e => by cases e)]
  have hlt : ∀ fd, firstFd s.numLoops ≤ fd → fd ≠ (s.chans .acceptor).fd := by
    rintro fd hge rfl
    exact absurd hs.acceptorFd (Nat.not_lt.mpr hge)
  have hctx : ∀ c < s.created, (s.dropAcceptor q).ctx c = s.ctx c := by
    intro c hc
    have hslot : (s.dropAcceptor q).pollers (s.conns c).loop (s.fd c) =
        s.pollers (s.conns c).loop (s.fd c) :=
      pollers_dropAcceptor fun _ => hlt _ (hs.fd_ge c hc)
    show Ctx.mk (s.conns c) ((s.dropAcceptor q).chans (.conn c))
      ((s.dropAcceptor q).pollers (s.conns c).loop ((s.dropAcceptor q).chans (.conn c)).fd) = _
    rw [hch c, hslot]
    rfl
  have hfds : ∀ c, (s.dropAcceptor q).fd c = s.fd c := fun c => congrArg Channel.fd (hch c)
  refine ⟨hctx, hs.close, fun c hc => ?_, fun c hc => ?_, fun c hc d hd e => ?_, ?_, ?_, ?_⟩
  · rw [hctx c hc]
    exact hs.agrees c hc
  · rw [hfds]
    exact hs.fd_ge c hc
  · rw [hfds, hfds] at e
    exact hs.fd_inj c hc d hd e
  · rw [chans_dropAcceptor_self, hfd]
    exact hs.acceptorFd
  · intro l fd hge hno
    rw [pollers_dropAcceptor fun _ => hlt fd hge]
    refine hs.free l fd hge fun c hc hl => ?_
    rw [← hfds c]
    exact hno c hc hl
  · intro l fd e he
    rcases epoll_dropAcceptor hp hq he with he | ⟨rfl, hptr⟩
    · have hhome := hs.epoll l fd e he
      cases hch : e.2 with
      | wakeup l' => rw [hch] at hhome; exact hhome
      | acceptor => rw [hch] at hhome; exact hhome
      | conn c => rw [hch] at hhome; exact hhome
    · rw [hptr]
      rfl

/-- The connection's own thread asks: `IsInLoopThread()` of its loop. -/
theorem isInLoopThread_iff {s : Process} {l : LoopId} {t : ThreadId}
    (h : (s.loops l).threadId = .loop l) : s.isInLoopThread l t = true ↔ t = .loop l := by
  unfold isInLoopThread EventLoop.isInLoopThread
  rw [decide_eq_true_iff, h]
  exact eq_comm

/-- **Executing an instruction** keeps the registrations in order, and connections only come. -/
theorem exec_stored {s s' : Process} {t : ThreadId} {o : Outcome} {i : Instr} {is : List Instr}
    (hs : Stored s) (hi : s.instrHome t i) (h : Exec s t o i s' is) : Stored s' ∧ Grows s s' := by
  cases h with
  | conn c op k is h =>
      have he := Ctx.exec_effect (hs.agrees c hi.1) h
      exact ⟨hs.setCtx hi.1 he.same he.agrees, grows_setCtx hs hi.1 he.same⟩
  | quiet i is h => exact ⟨hs, .refl s⟩
  | loop i l a l' is hi hl h =>
      exact ⟨⟨hs.close, hs.agrees, hs.fd_ge, hs.fd_inj, hs.acceptorFd, hs.free, hs.epoll⟩,
        ⟨Nat.le_refl _, fun _ _ => .refl _, rfl⟩⟩
  | create fd ho hlife hf hid => exact ⟨hs.newConnection hf, grows_newConnection⟩
  | remove c hlife =>
      exact ⟨⟨hs.close, hs.agrees, hs.fd_ge, hs.fd_inj, hs.acceptorFd, hs.free, hs.epoll⟩,
        ⟨Nat.le_refl _, fun _ _ => .refl _, rfl⟩⟩
  | entry c ho h =>
      exact ⟨⟨hs.close, hs.agrees, hs.fd_ge, hs.fd_inj, hs.acceptorFd, hs.free, hs.epoll⟩,
        ⟨Nat.le_refl _, fun _ _ => .refl _, rfl⟩⟩
  | lastEntry ho h =>
      exact ⟨⟨hs.close, hs.agrees, hs.fd_ge, hs.fd_inj, hs.acceptorFd, hs.free, hs.epoll⟩,
        ⟨Nat.le_refl _, fun _ _ => .refl _, rfl⟩⟩
  | destroyAcceptor p q hp hq =>
      obtain ⟨hctx, hst⟩ := destroyAcceptor_spec hs hp hq
      refine ⟨hst, Nat.le_refl _, fun c hc => ?_, rfl⟩
      rw [hctx c hc]
      exact .refl _

/-! ## Stacks, queues and entries -/

/-- **What stacks, queues and the registry hold belongs there.** -/
structure Placed (s : Process) : Prop where
  threadId : ∀ l, (s.loops l).threadId = .loop l
  stack : ∀ t, ∀ i ∈ s.stack t, s.instrHome t i
  settled : ∀ t, ∀ i ∈ (s.stack t).tail, i.settled = true
  queue : ∀ l, ∀ f ∈ (s.loops l).queue, s.functorHome l f
  active : ∀ l, ∀ ch ∈ s.active l, s.chanHome l ch
  held : ∀ c ∈ s.held, c < s.created
  entries : ∀ e ∈ s.server.connections, ∀ c, e.2 = some c → c < s.created ∧ e.1 = (s.conns c).name

theorem mem_tail_append {xs ys : List Instr} {i : Instr} (h : i ∈ (xs ++ ys).tail) :
    i ∈ xs.tail ∨ i ∈ ys := by
  cases xs with
  | nil => exact Or.inr (List.mem_of_mem_tail h)
  | cons x xs => exact List.mem_append.mp h

theorem settled_handlers {c : ConnId} {revents : EventMask} :
    ∀ i ∈ (handlers c revents).tail, i.settled = true := by
  intro i hi
  simp only [handlers, List.append_assoc] at hi
  rcases mem_tail_append hi with hi | hi
  · split at hi <;> exact absurd hi List.not_mem_nil
  · simp only [List.mem_append] at hi
    rcases hi with hi | hi | hi <;>
      (split at hi <;>
        first | exact absurd hi List.not_mem_nil | (rw [List.mem_singleton.mp hi]; rfl))

theorem instrHome_instr {s : Process} {l : LoopId} {f : Functor} (h : s.functorHome l f) :
    s.instrHome (.loop l) f.instr := by
  cases f with
  | conn c op => exact ⟨h.1, Or.inr (by rw [h.2.1])⟩
  | removeConnectionInLoop c => exact ⟨h.1, by rw [h.2]⟩
  | user k => exact fun c hc => by cases hc

theorem instrHome_releases {s : Process} {l : LoopId} {t : ThreadId} {f : Functor}
    (h : s.functorHome l f) : ∀ i ∈ f.releases, s.instrHome t i := by
  intro i hi
  unfold Functor.releases at hi
  split at hi
  · rename_i c hc
    rw [List.mem_singleton.mp hi]
    cases f with
    | conn d op =>
        have : d = c := by
          cases op <;> first | exact Option.some.inj hc | cases hc
        exact this ▸ h.1
    | removeConnectionInLoop d =>
        cases hc
        exact h.1
    | user k => cases hc
  · exact absurd hi List.not_mem_nil

theorem settled_releases {f : Functor} : ∀ i ∈ f.releases, i.settled = true := by
  intro i hi
  unfold Functor.releases at hi
  split at hi
  · rw [List.mem_singleton.mp hi]
    rfl
  · exact absurd hi List.not_mem_nil

section Exec

variable {s s' : Process} {t : ThreadId} {o : Outcome} {i : Instr} {is : List Instr}

/-- What a connection's step leaves to do belongs to its thread. -/
theorem instrHome_of_produced (hs : Stored s) (hid : ∀ l, (s.loops l).threadId = .loop l)
    {c : ConnId} {op : ConnOp} (hi : s.instrHome t (.conn c op)) {j : Instr}
    (h : Ctx.Produced (s.ctx c) c t (s.isInLoopThread (s.conns c).loop t) op j) :
    s.instrHome t j := by
  obtain ⟨hc, hop⟩ := hi
  cases h with
  | callback =>
      intro d hd
      cases hd
      exact hc
  | release => exact hc
  | removeConnection d _ hd =>
      have := (hs.close c hc).symm.trans hd
      cases this
      exact hc
  | writeComplete => exact ⟨⟨hc, rfl, rfl, fun _ e => by cases e⟩, trivial⟩
  | highWaterMark size => exact ⟨⟨hc, rfl, rfl, fun _ e => by cases e⟩, trivial⟩
  | sendInLoop msg _ hown =>
      refine ⟨⟨hc, rfl, rfl, fun _ e => ?_⟩, rfl⟩
      cases e
      exact absurd ((isInLoopThread_iff (hid _)).mpr rfl) (Bool.eq_false_iff.mp hown)
  | shutdownInLoop => exact ⟨⟨hc, rfl, rfl, fun _ e => by cases e⟩, trivial⟩
  | sendHere msg _ hown => exact ⟨hc, Or.inr ((isInLoopThread_iff (hid _)).mp hown)⟩
  | conn op' _ hown => exact ⟨hc, hop.imp_left hown⟩

theorem quiet_home (hid : ∀ l, (s.loops l).threadId = .loop l) (hi : s.instrHome t i)
    (h : Quiet s t i is) : ∀ j ∈ is, s.instrHome t j := by
  have hnil : ∀ j ∈ ([] : List Instr), s.instrHome t j := fun j hj => absurd hj List.not_mem_nil
  have hone : ∀ {i : Instr}, s.instrHome t i → ∀ j ∈ [i], s.instrHome t j :=
    fun h j hj => by rw [List.mem_singleton.mp hj]; exact h
  cases h with
  | wakeup l => exact hnil
  | acceptor => exact hnil
  | accept =>
      obtain ⟨l, rfl, hl⟩ := hi
      cases hl
      intro j hj
      rcases List.mem_cons.mp hj with rfl | hj
      · rfl
      · exact hone (i := .acceptorEventEnd) rfl j hj
  | acceptorEnd => exact hnil
  | handlers c =>
      obtain ⟨l, rfl, hc, hl⟩ := hi
      intro j hj
      obtain ⟨op, rfl, _⟩ := of_mem_handlers hj
      exact ⟨hc, Or.inr (by rw [hl])⟩
  | release c => exact hnil
  | runHere l f hl =>
      intro j hj
      have ht := (isInLoopThread_iff (hid l)).mp hl
      rcases List.mem_cons.mp hj with rfl | hj
      · rw [ht]
        exact instrHome_instr hi.1
      · exact instrHome_releases hi.1 j hj
  | runThere l f hl => exact hone hi
  | removeConnection c => exact hone ⟨⟨hi, rfl⟩, trivial⟩
  | notAccepted => exact hnil
  | destroyThread l =>
      intro j hj
      rcases List.mem_cons.mp hj with rfl | hj
      · trivial
      · exact hone (i := .join l) hi j hj
  | threadGone l => exact hnil
  | joined l => exact hnil

/-- **What an instruction leaves to do belongs to its thread.** -/
theorem exec_home (hs : Stored s) (hid : ∀ l, (s.loops l).threadId = .loop l)
    (hent : ∀ e ∈ s.server.connections, ∀ c, e.2 = some c → c < s.created)
    (hi : s.instrHome t i) (h : Exec s t o i s' is) : ∀ j ∈ is, s'.instrHome t j := by
  have hg := (exec_stored hs hi h).2
  have hone : ∀ {s : Process} {i : Instr}, s.instrHome t i → ∀ j ∈ [i], s.instrHome t j :=
    fun h j hj => by rw [List.mem_singleton.mp hj]; exact h
  cases h with
  | conn c op k is h =>
      exact fun j hj => instrHome_mono hg
        (instrHome_of_produced hs hid hi (Ctx.exec_produced h j hj))
  | quiet i is h => exact quiet_home hid hi h
  | loop i l a l' is hl =>
      cases hl with
      | queueInLoop l f => exact hone trivial
      | queueWake l => exact fun j hj => absurd hj List.not_mem_nil
      | quit l => exact hone trivial
      | quitWake l => exact fun j hj => absurd hj List.not_mem_nil
      | handleRead l => exact fun j hj => absurd hj List.not_mem_nil
  | create fd ho hlife hf hid =>
      intro j hj
      have hnew : (s.newConnection fd).1.functorHome (s.server.getNextLoop s.numLoops).1
          (.conn s.created .connectEstablished) := by
        refine ⟨Nat.lt_succ_self _, ?_, rfl, fun _ e => by cases e⟩
        exact congrArg (fun k => k.conn.loop) (ctx_newConnection_self hs hf)
      rcases List.mem_cons.mp hj with rfl | hj
      · exact ⟨hnew, hi⟩
      · exact hone (s := (s.newConnection fd).1) (i := .release s.created)
          (Nat.lt_succ_self s.created) j hj
  | remove c hlife => exact hone ⟨⟨hi.1, rfl, rfl, fun _ e => by cases e⟩, hi.2⟩
  | entry c ho hc =>
      obtain ⟨e, he, hec⟩ := hc
      have hc : c < s.created := hent e he c hec
      intro j hj
      rcases List.mem_cons.mp hj with rfl | hj
      · exact ⟨⟨hc, rfl, rfl, fun _ e => by cases e⟩, hi⟩
      · rcases List.mem_cons.mp hj with rfl | hj
        · exact hc
        · exact hone (i := .destroyEntries) hi j hj
  | lastEntry ho hn =>
      intro j hj
      rcases List.mem_append.mp hj with hj | hj
      · obtain ⟨n, _, rfl⟩ := List.mem_map.mp hj
        exact hi
      · exact hone (i := .destroyAcceptor) hi j hj
  | destroyAcceptor p q hp hq => exact fun j hj => absurd hj List.not_mem_nil

/-- **Only what may wait** is left behind the next instruction. -/
theorem exec_tail (hs : Stored s) (hi : s.instrHome t i) (h : Exec s t o i s' is) :
    ∀ j ∈ is.tail, j.settled = true := by
  have hnil : ∀ j ∈ ([] : List Instr), j.settled = true := fun j hj => absurd hj List.not_mem_nil
  cases h with
  | conn c op k is h => exact (Ctx.exec_effect (hs.agrees c hi.1) h).tail
  | quiet i is h =>
      cases h with
      | accept =>
          intro j hj
          rw [List.mem_singleton.mp hj]
          rfl
      | handlers c => exact settled_handlers
      | runHere l f hl => exact settled_releases
      | destroyThread l =>
          intro j hj
          rw [List.mem_singleton.mp hj]
          rfl
      | _ => exact hnil
  | loop i l a l' is hl => cases hl <;> exact hnil
  | create fd ho hlife hf hid =>
      intro j hj
      rw [List.mem_singleton.mp hj]
      rfl
  | remove c hlife => exact hnil
  | entry c ho h =>
      intro j hj
      rcases List.mem_cons.mp hj with rfl | hj
      · rfl
      · rw [List.mem_singleton.mp hj]
        rfl
  | lastEntry ho h =>
      intro j hj
      rcases List.mem_append.mp (List.mem_of_mem_tail hj) with hj | hj
      · obtain ⟨n, _, rfl⟩ := List.mem_map.mp hj
        rfl
      · rw [List.mem_singleton.mp hj]
        rfl
  | destroyAcceptor p q hp hq => exact hnil

/-- **Task queues grow by pushes only**: what waits after an instruction waited before, or is
    the functor it pushed. -/
theorem exec_queue (h : Exec s t o i s' is) (l : LoopId) :
    (s'.loops l).queue = (s.loops l).queue ∨
      ∃ f, i = .queueInLoop l f ∧ (s'.loops l).queue = (s.loops l).queue ++ [f] := by
  cases h with
  | loop i l₁ a l' is hi hl h =>
      by_cases e : l = l₁
      · subst e
        simp only [Function.update_self]
        cases hi with
        | queueInLoop l f => exact Or.inr ⟨f, rfl, EventLoop.queue_push h⟩
        | _ => exact Or.inl (EventLoop.queue_step rfl h)
      · have hl : Function.update s.loops l₁ l' l = s.loops l := Function.update_of_ne e _ _
        exact Or.inl (congrArg EventLoop.queue hl)
  | _ => exact Or.inl rfl

theorem exec_threadId (h : Exec s t o i s' is) (l : LoopId) :
    (s'.loops l).threadId = (s.loops l).threadId := by
  cases h with
  | loop i l₁ a l' is hi hl h =>
      by_cases e : l = l₁
      · subst e
        simp only [Function.update_self]
        exact EventLoop.threadId_step h
      · simp only [Function.update_of_ne e]
  | _ => rfl

/-- What no instruction touches. -/
theorem exec_kept (h : Exec s t o i s' is) :
    s'.stack = s.stack ∧ s'.active = s.active ∧ s'.held = s.held ∧
      s'.threadDone = s.threadDone := by
  cases h <;> exact ⟨rfl, rfl, rfl, rfl⟩

/-- **The registry's entries are the connections of that name.** -/
theorem exec_entries (hs : Stored s) (hi : s.instrHome t i)
    (hent : ∀ e ∈ s.server.connections, ∀ c, e.2 = some c → c < s.created ∧ e.1 = (s.conns c).name)
    (h : Exec s t o i s' is) : ∀ e ∈ s'.server.connections, ∀ c, e.2 = some c →
      c < s'.created ∧ e.1 = (s'.conns c).name := by
  have hg := (exec_stored hs hi h).2
  have hold : ∀ e ∈ s.server.connections, ∀ c, e.2 = some c →
      c < s'.created ∧ e.1 = (s'.conns c).name := by
    intro e he c hc
    obtain ⟨hlt, hname⟩ := hent e he c hc
    exact ⟨Nat.lt_of_lt_of_le hlt hg.created, hname.trans (hg.same c hlt).name.symm⟩
  cases h with
  | create fd ho hlife hf hid =>
      intro e he c hc
      rcases List.mem_cons.mp he with rfl | he
      · cases hc
        refine ⟨Nat.lt_succ_self _, ?_⟩
        exact (congrArg (fun k => k.conn.name) (ctx_newConnection_self hs hf)).symm
      · exact hold e (List.mem_of_mem_filter he) c hc
  | remove c hlife => exact fun e he => hold e (List.mem_of_mem_filter he)
  | entry c ho h =>
      intro e he d hd
      obtain ⟨e', he', rfl⟩ := List.mem_map.mp he
      split at hd
      · cases hd
      · rename_i hne
        rw [if_neg hne]
        exact hold e' he' d hd
  | lastEntry ho h => exact fun e he => absurd he List.not_mem_nil
  | _ => exact hold

end Exec

/-! ## Steps and runs -/

/-- **Everything is in its place.** -/
structure Wf (s : Process) : Prop extends Stored s, Placed s

/-- What a stack may become: a part of it stays, what is put on top belongs there. -/
theorem Placed.setStack {s r : Process} (hp : Placed s) (hg : Grows s r) {t : ThreadId}
    {is : List Instr} (hst : r.stack = s.stack)
    (hhome : ∀ i ∈ is, r.instrHome t i) (htail : ∀ i ∈ is.tail, i.settled = true)
    (hid : ∀ l, (r.loops l).threadId = .loop l)
    (hq : ∀ l, ∀ f ∈ (r.loops l).queue, r.functorHome l f)
    (hact : ∀ l, ∀ ch ∈ r.active l, r.chanHome l ch)
    (hheld : ∀ c ∈ r.held, c < r.created)
    (hent : ∀ e ∈ r.server.connections, ∀ c, e.2 = some c →
      c < r.created ∧ e.1 = (r.conns c).name) : Placed (r.setStack t is) := by
  refine ⟨hid, fun u i hi => ?_, fun u i hi => ?_, hq, hact, hheld, hent⟩
  · change i ∈ Function.update r.stack t is u at hi
    by_cases e : u = t
    · subst e
      rw [Function.update_self] at hi
      exact hhome i hi
    · rw [Function.update_of_ne e, hst] at hi
      exact instrHome_mono hg (hp.stack u i hi)
  · change i ∈ (Function.update r.stack t is u).tail at hi
    by_cases e : u = t
    · subst e
      rw [Function.update_self] at hi
      exact htail i hi
    · rw [Function.update_of_ne e, hst] at hi
      exact hp.settled u i hi

theorem Placed.settled_rest {s : Process} (hp : Placed s) {t : ThreadId} {i : Instr}
    {rest : List Instr} (hst : s.stack t = i :: rest) : ∀ j ∈ rest, j.settled = true :=
  fun j hj => hp.settled t j (by rw [hst]; exact hj)

/-- Below a callback, or with nothing to do, everything is settled. -/
theorem settled_of_userCode {s : Process} (hp : Placed s) {t : ThreadId}
    (hu : s.userCode t = true) : ∀ i ∈ s.stack t, i.settled = true := by
  intro i hi
  have htail := hp.settled t
  cases hst : s.stack t with
  | nil =>
      rw [hst] at hi
      exact absurd hi List.not_mem_nil
  | cons j rest =>
      rw [hst] at hi htail
      rcases List.mem_cons.mp hi with rfl | hi
      · unfold userCode at hu
        rw [hst] at hu
        cases i with
        | callback arg => rfl
        | _ => cases hu
      · exact htail i hi

/-- User code has pointers to connections there are. -/
theorem lt_of_mayUse {s : Process} (hp : Placed s) {t : ThreadId} {c : ConnId}
    (h : s.mayUse t c = true) : c < s.created := by
  rcases Bool.or_eq_true_iff.mp h with h | h
  · exact hp.held c (List.contains_iff_mem.mp h)
  · have harg : s.argument t = some c := eq_of_beq h
    unfold argument at harg
    split at harg
    · rename_i arg rest hst
      exact hp.stack t (.callback arg) (mem_stack hst) c harg
    · cases harg

theorem lt_of_argument {s : Process} (hp : Placed s) {t : ThreadId} {c : ConnId}
    (h : s.argument t = some c) : c < s.created :=
  lt_of_mayUse hp (t := t) (Bool.or_eq_true_iff.mpr (Or.inr (by rw [h]; exact beq_self_eq_true _)))

/-- What a call touches. -/
theorem called_same {s s' : Process} {t : ThreadId} {u : UserCall} {is : List Instr}
    (h : Called s t u s' is) : ∃ held server,
      s' = { s with held := held, server := server } ∧
        server.connections = s.server.connections := by
  cases h <;> exact ⟨_, _, rfl, rfl⟩

/-- What a call leaves to do. -/
theorem called_spec {s s' : Process} (hp : Placed s) {t : ThreadId} {u : UserCall}
    {is : List Instr} (h : Called s t u s' is) :
    (∀ i ∈ is, s.instrHome t i) ∧ (∀ i ∈ is.tail, i.settled = true) ∧
      ∀ c ∈ s'.held, c < s.created := by
  have hnil : ∀ i ∈ ([] : List Instr), i.settled = true := fun i hi => absurd hi List.not_mem_nil
  have hone : ∀ {i : Instr}, s.instrHome t i → ∀ j ∈ [i], s.instrHome t j :=
    fun h j hj => by rw [List.mem_singleton.mp hj]; exact h
  have huse : ∀ c op, s.mayUse t c = true → op.anyThread = true →
      (∀ i ∈ [Instr.conn c op, .release c], s.instrHome t i) ∧
      (∀ i ∈ [Instr.conn c op, .release c].tail, i.settled = true) := by
    intro c op hm hop
    refine ⟨fun i hi => ?_, fun i hi => ?_⟩
    · rcases List.mem_cons.mp hi with rfl | hi
      · exact ⟨lt_of_mayUse hp hm, Or.inl hop⟩
      · exact hone (i := .release c) (lt_of_mayUse hp hm) i hi
    · rw [List.mem_singleton.mp hi]
      rfl
  cases h with
  | send c msg hm => exact ⟨(huse c _ hm rfl).1, (huse c _ hm rfl).2, hp.held⟩
  | shutdown c hm => exact ⟨(huse c _ hm rfl).1, (huse c _ hm rfl).2, hp.held⟩
  | setHighWaterMark c mark hm => exact ⟨(huse c _ hm rfl).1, (huse c _ hm rfl).2, hp.held⟩
  | retrieve c len harg hown =>
      exact ⟨hone ⟨lt_of_argument hp harg, Or.inr ((isInLoopThread_iff (hp.threadId _)).mp hown)⟩,
        hnil, hp.held⟩
  | copy c hm =>
      refine ⟨fun i hi => absurd hi List.not_mem_nil, hnil, fun d hd => ?_⟩
      rcases List.mem_cons.mp hd with rfl | hd
      · exact lt_of_mayUse hp hm
      · exact hp.held d hd
  | drop c =>
      exact ⟨fun i hi => absurd hi List.not_mem_nil, hnil,
        fun d hd => hp.held d (List.mem_of_mem_erase hd)⟩
  | queueInLoop l k => exact ⟨hone ⟨trivial, trivial⟩, hnil, hp.held⟩
  | runInLoop l k => exact ⟨hone ⟨trivial, trivial⟩, hnil, hp.held⟩
  | quit l => exact ⟨hone trivial, hnil, hp.held⟩
  | destroyServer ht hlife => exact ⟨hone ht, hnil, hp.held⟩

/-- A step of a loop's machine that pushes nothing keeps its queue's functors at home. -/
theorem queue_loopStep {s : Process} (hp : Placed s) {l : LoopId}
    {a : EventLoop.Action ThreadId Functor} {l' : EventLoop ThreadId Functor}
    (h : (s.loops l).step a = some l') (ha : isControl a = true ∨ ∃ wake, a = .pollReturn wake) :
    (∀ m, (Function.update s.loops l l' m).threadId = .loop m) ∧
    ∀ m, ∀ f ∈ (Function.update s.loops l l' m).queue, s.functorHome m f := by
  have hsub : ∀ f ∈ l'.queue, f ∈ (s.loops l).queue := by
    intro f hf
    refine (EventLoop.mem_queue_step h hf).resolve_right ?_
    rintro ⟨t, rfl | rfl⟩ <;> rcases ha with ha | ⟨wake, ha⟩ <;> cases ha
  refine ⟨fun m => ?_, fun m f hf => ?_⟩
  · by_cases e : m = l
    · subst e
      rw [Function.update_self]
      exact (EventLoop.threadId_step h).trans (hp.threadId m)
    · rw [Function.update_of_ne e]
      exact hp.threadId m
  · by_cases e : m = l
    · subst e
      rw [Function.update_self] at hf
      exact hp.queue m f (hsub f hf)
    · rw [Function.update_of_ne e] at hf
      exact hp.queue m f hf

/-- What the loop puts on its thread's stack: the functor it takes from its queue. -/
theorem nextInstr_spec {s : Process} (hp : Placed s) {l : LoopId}
    {a : EventLoop.Action ThreadId Functor} :
    (∀ i ∈ s.nextInstr l a, s.instrHome (.loop l) i) ∧
      ∀ i ∈ (s.nextInstr l a).tail, i.settled = true := by
  unfold nextInstr
  split
  · split
    · rename_i f rest hph
      refine ⟨fun i hi => ?_, fun i hi => absurd hi List.not_mem_nil⟩
      rw [List.mem_singleton.mp hi]
      refine instrHome_instr (hp.queue l f ?_)
      rw [EventLoop.queue, hph]
      exact List.mem_append_left _ List.mem_cons_self
    · exact ⟨fun i hi => absurd hi List.not_mem_nil, fun i hi => absurd hi List.not_mem_nil⟩
  · exact ⟨fun i hi => absurd hi List.not_mem_nil, fun i hi => absurd hi List.not_mem_nil⟩

/-- **Every step keeps everything in its place**, and connections only come. -/
theorem wf_step {s s' : Process} {a : Label} (hw : Wf s) (hstep : Step s a s') :
    Wf s' ∧ Grows s s' := by
  obtain ⟨hs, hp⟩ := hw
  cases hstep with
  | run t o i rest s₁ is hst he =>
      have hi : s.instrHome t i := hp.stack t i (mem_stack hst)
      obtain ⟨hs₁, hg⟩ := exec_stored hs hi he
      obtain ⟨hk₁, hk₂, hk₃, _⟩ := exec_kept he
      refine ⟨⟨⟨hs₁.close, hs₁.agrees, hs₁.fd_ge, hs₁.fd_inj, hs₁.acceptorFd, hs₁.free, hs₁.epoll⟩,
        hp.setStack hg hk₁ (fun j hj => ?_) (fun j hj => ?_) (fun l => ?_) (fun l f hf => ?_)
          (fun l ch hch => ?_) (fun c hc => ?_) (exec_entries hs hi hp.entries he)⟩,
        hg.created, hg.same, hg.numLoops⟩
      · rcases List.mem_append.mp hj with hj | hj
        · exact exec_home hs hp.threadId (fun e he c hc => (hp.entries e he c hc).1) hi he j hj
        · exact instrHome_mono hg
            (hp.stack t j (by rw [hst]; exact List.mem_cons_of_mem _ hj))
      · rcases mem_tail_append hj with hj | hj
        · exact exec_tail hs hi he j hj
        · exact hp.settled_rest hst j hj
      · exact (exec_threadId he l).trans (hp.threadId l)
      · apply functorHome_mono hg
        rcases exec_queue he l with hq | ⟨g, rfl, hq⟩
        · rw [hq] at hf
          exact hp.queue l f hf
        · rw [hq] at hf
          rcases List.mem_append.mp hf with hf | hf
          · exact hp.queue l f hf
          · rw [List.mem_singleton.mp hf]
            exact hi.1
      · rw [hk₂] at hch
        exact chanHome_mono hg (hp.active l ch hch)
      · rw [hk₃] at hc
        exact Nat.lt_of_lt_of_le (hp.held c hc) hg.created
  | user t u s₁ is hu hc =>
      obtain ⟨h₁, h₂, h₃⟩ := called_spec hp hc
      have hset := settled_of_userCode hp hu
      have htail : ∀ i ∈ (is ++ s.stack t).tail, i.settled = true := by
        intro i hi
        rcases mem_tail_append hi with hi | hi
        · exact h₂ i hi
        · exact hset i hi
      have hhome : ∀ i ∈ is ++ s.stack t, s.instrHome t i := by
        intro i hi
        rcases List.mem_append.mp hi with hi | hi
        · exact h₁ i hi
        · exact hp.stack t i hi
      obtain ⟨held, server, rfl, hcon⟩ := called_same hc
      exact ⟨⟨⟨hs.close, hs.agrees, hs.fd_ge, hs.fd_inj, hs.acceptorFd, hs.free, hs.epoll⟩,
        hp.setStack (r := { s with held := held, server := server })
          (.of_ctx rfl (fun _ _ => rfl) rfl) rfl hhome htail hp.threadId hp.queue hp.active h₃
          (fun e he => hp.entries e (hcon ▸ he))⟩, .of_ctx rfl (fun _ _ => rfl) rfl⟩
  | ret t arg rest hst =>
      refine ⟨⟨⟨hs.close, hs.agrees, hs.fd_ge, hs.fd_inj, hs.acceptorFd, hs.free, hs.epoll⟩,
        hp.setStack (.refl s) rfl (fun i hi => ?_) (fun i hi => ?_) hp.threadId hp.queue hp.active
          hp.held hp.entries⟩, .of_ctx rfl (fun _ _ => rfl) rfl⟩
      · exact hp.stack t i (by rw [hst]; exact List.mem_cons_of_mem _ hi)
      · exact hp.settled t i (by rw [hst]; exact List.mem_of_mem_tail hi)
  | loop l a l' hst hact ha hl h =>
      obtain ⟨hid, hq⟩ := queue_loopStep hp h (Or.inl ha)
      obtain ⟨h₁, h₂⟩ := nextInstr_spec hp (l := l) (a := a)
      exact ⟨⟨⟨hs.close, hs.agrees, hs.fd_ge, hs.fd_inj, hs.acceptorFd, hs.free, hs.epoll⟩,
        hp.setStack (r := { s with loops := Function.update s.loops l l' })
          (.of_ctx rfl (fun _ _ => rfl) rfl) rfl h₁ h₂ hid hq hp.active hp.held hp.entries⟩,
        .of_ctx rfl (fun _ _ => rfl) rfl⟩
  | poll l events l' hst hev hnd hl h =>
      obtain ⟨hid, hq⟩ := queue_loopStep hp h (Or.inr ⟨_, rfl⟩)
      have hg := grows_setRevents s events
      have hs' := hs.setRevents events
      refine ⟨⟨⟨hs'.close, hs'.agrees, hs'.fd_ge, hs'.fd_inj, hs'.acceptorFd, hs'.free, hs'.epoll⟩,
        hid, hp.stack, hp.settled, hq, fun m ch hch => ?_, hp.held, hp.entries⟩,
        hg.created, hg.same, hg.numLoops⟩
      change ch ∈ Function.update s.active l (events.map Prod.fst) m at hch
      by_cases e : m = l
      · subst e
        rw [Function.update_self] at hch
        obtain ⟨e, he, rfl⟩ := List.mem_map.mp hch
        obtain ⟨r, hr⟩ := of_mayReport (hev e he)
        exact hs.epoll m _ _ hr
      · rw [Function.update_of_ne e] at hch
        exact hp.active m ch hch
  | dispatch l ch rest hst hact =>
      have hch : s.chanHome l ch := hp.active l ch (by rw [hact]; exact List.mem_cons_self)
      refine ⟨⟨⟨hs.close, hs.agrees, hs.fd_ge, hs.fd_inj, hs.acceptorFd, hs.free, hs.epoll⟩,
        hp.setStack (r := { s with active := Function.update s.active l rest })
          (.of_ctx rfl (fun _ _ => rfl) rfl) rfl (fun i hi => ?_)
          (fun i hi => absurd hi List.not_mem_nil) hp.threadId hp.queue (fun m ch' hch' => ?_)
          hp.held hp.entries⟩, .of_ctx rfl (fun _ _ => rfl) rfl⟩
      · rw [List.mem_singleton.mp hi]
        exact ⟨l, rfl, hch⟩
      · change ch' ∈ Function.update s.active l rest m at hch'
        by_cases e : m = l
        · subst e
          rw [Function.update_self] at hch'
          exact hp.active m ch' (by rw [hact]; exact List.mem_cons_of_mem _ hch')
        · rw [Function.update_of_ne e] at hch'
          exact hp.active m ch' hch'
  | threadEnd l h0 hl hst hph =>
      exact ⟨⟨⟨hs.close, hs.agrees, hs.fd_ge, hs.fd_inj, hs.acceptorFd, hs.free, hs.epoll⟩,
        hp.threadId, hp.stack, hp.settled, hp.queue, hp.active, hp.held, hp.entries⟩,
        .of_ctx rfl (fun _ _ => rfl) rfl⟩

section Runs

variable {name : List Char} {addr : InetAddress} {numLoops : Nat} {writeComplete : Bool}

theorem stored_init : Stored (init name addr numLoops writeComplete) := by
  refine ⟨fun c hc => absurd hc (Nat.not_lt_zero c), fun c hc => absurd hc (Nat.not_lt_zero c),
    fun c hc => absurd hc (Nat.not_lt_zero c), fun c hc => absurd hc (Nat.not_lt_zero c),
    Nat.lt_succ_self _, fun l fd hge _ => ?_, fun l fd e he => ?_⟩
  · change numLoops + 2 ≤ fd at hge
    simp only [init]
    have hlt : numLoops + 1 < fd := hge
    rw [if_neg fun h => Nat.not_lt.mpr (Nat.le_succ_of_le h.1) (h.2 ▸ hlt),
      if_neg fun h => Nat.ne_of_gt hlt h.2]
  · simp only [init] at he
    split at he
    · cases he
      rfl
    · split at he
      · rename_i h
        cases he
        exact h.1
      · cases he

theorem wf_init : Wf (init name addr numLoops writeComplete) := by
  have hq : ∀ l, ((init name addr numLoops writeComplete).loops l).queue = [] := fun _ => rfl
  refine ⟨stored_init, fun l => rfl, fun t i hi => absurd hi List.not_mem_nil,
    fun t i hi => absurd hi List.not_mem_nil, fun l f hf => ?_,
    fun l ch hch => absurd hch List.not_mem_nil, fun c hc => absurd hc List.not_mem_nil,
    fun e he => absurd he List.not_mem_nil⟩
  rw [hq l] at hf
  exact absurd hf List.not_mem_nil

/-- **Everything is in its place in every state a run reaches.** -/
theorem wf_run {tr : List (Process × Label)} {s : Process}
    (h : Run step (init name addr numLoops writeComplete) tr s) : Wf s :=
  h.inv wf_init fun _ _ _ hw hs => (wf_step hw (of_step hs)).1

end Runs

end Process

end CuteMuduo
