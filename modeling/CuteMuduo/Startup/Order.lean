/-
  File:      CuteMuduo/Startup/Order.lean
  Subject:   THE ORDER OF THE START, over every run of it (`start_order`): the pool is started once,
             `loops_` is filled in order with loops that are published, and the acceptor listens
             only when it is full.

  * `Handshake` -- a thread and the owner that waits for it, whatever the loop does meanwhile;
  * `Ordered` -- the pool, as its starter goes through it; at most one thread is in `Start`.
-/
import CuteMuduo.Startup

namespace CuteMuduo

open Machine

/-! ## A thread and its owner -/

namespace EventLoop

variable {T F : Type} [DecidableEq T] {l l' : EventLoop T F} {b : Action T F}

/-- The steps of `Loop()`; the others are those of calls. -/
def goesOn : Action T F → Bool
  | .queueInLoop _ _ | .queueWake _ | .runInLoop _ _ | .quitStore _ | .quitWake _ => false
  | _ => true

/-- A call leaves `Loop()` where it is. -/
theorem phase_call (hb : goesOn b = false) (hs : l.step b = some l') : l'.phase = l.phase := by
  obtain ⟨_, rfl⟩ := step_eq_some.mp hs
  cases b with
  | runInLoop t f =>
      show (l.runInLoop t f).phase = l.phase
      unfold runInLoop
      split <;> rfl
  | queueInLoop | queueWake | quitStore | quitWake => rfl
  | _ => cases hb

/-- `Loop()` ends because of a `Quit`. -/
def QuitCause (l : EventLoop T F) : Prop := l.quit = true ∨ l.phase = .left → l.quitCalled = true

theorem quitCause_step (h : QuitCause l) (hs : l.step b = some l') : QuitCause l' := by
  obtain ⟨he, rfl⟩ := step_eq_some.mp hs
  -- a step that goes on with `Loop()` leaves both flags as they are
  have hkeep : ∀ {l' : EventLoop T F}, l'.quit = l.quit → l'.quitCalled = l.quitCalled →
      l'.phase ≠ .left → QuitCause l' :=
    fun hq hc hp hl => hc.trans (h (Or.inl (hq.symm.trans (hl.resolve_right hp))))
  cases b with
  | queueInLoop t f => exact h
  | queueWake t => exact h
  | runInLoop t f =>
      show QuitCause (l.runInLoop t f)
      unfold runInLoop
      split <;> exact h
  | quitStore t => exact fun _ => rfl
  | quitWake t => exact h
  | enterLoop =>
      intro hq
      rcases hq with hq | hq <;> cases hq
  | test =>
      intro hq
      refine h (Or.inl ?_)
      rcases hq with hq | hq
      · exact hq
      · by_contra hno
        have hp : (if l.quit then Phase.left else .poll : Phase F) = .left := hq
        rw [if_neg hno] at hp
        cases hp
  | next t =>
      obtain ⟨_, _, f, rest, hp⟩ := enabled_next.mp he
      show QuitCause (l.next t)
      rw [next_of_batch hp]
      exact hkeep rfl rfl fun e => by cases e
  | ret =>
      obtain ⟨_, f, rest, hp⟩ := enabled_ret.mp he
      show QuitCause l.ret
      rw [ret_of_functor hp]
      exact hkeep rfl rfl fun e => by cases e
  | pollReturn | handleRead | startFunctors | swap | finish =>
      exact hkeep rfl rfl fun e => by cases e

end EventLoop

namespace EventLoopThread

variable {T F : Type} [DecidableEq T] {e e' : EventLoopThread T F} {a : Action T F}

/-- **Where the thread stands, and where its owner.** -/
structure Handshake (e : EventLoopThread T F) : Prop where
  ptr : e.loopPtr = decide (e.func = .published)
  built : e.ownerPc = .built → e.func = .notStarted
  waiting : e.ownerPc = .waiting → e.func ≠ .notStarted
  started : e.ownerPc = .started → e.func = .published ∨ e.func = .returned
  early : e.func = .notStarted ∨ e.func = .callback → e.loop.phase = .init
  ended : e.func = .returned → e.loop.phase = .left
  quit : EventLoop.QuitCause e.loop

omit [DecidableEq T] in
theorem handshake_create (owner t : T) : Handshake (create owner t : EventLoopThread T F) where
  ptr := rfl
  built _ := rfl
  waiting h := by cases h
  started h := by cases h
  early _ := rfl
  ended h := by cases h
  quit h := by rcases h with h | h <;> cases h

/-- A loop that is not there makes no step; before it is published, none of `Loop()`. -/
theorem func_of_loop {b : EventLoop.Action T F} (hs : e.step (.loop b) = some e') :
    e.func ≠ .notStarted ∧ e.func ≠ .returned ∧
      (e.func ≠ .published → EventLoop.goesOn b = false) := by
  obtain ⟨he, _⟩ := step_eq_some.mp hs
  have hc := (Bool.and_eq_true_iff.mp he).2
  have halive : e.alive = true → e.func ≠ .notStarted ∧ e.func ≠ .returned := by
    unfold alive
    split <;> rename_i hf <;> rw [hf] <;> decide
  have hcall : ∀ t, e.mayCall t = true → e.func ≠ .notStarted ∧ e.func ≠ .returned := fun t hm =>
    halive (Bool.and_eq_true_iff.mp (Bool.and_eq_true_iff.mp hm).1).1
  cases b with
  | queueInLoop t f => exact ⟨(hcall t hc).1, (hcall t hc).2, fun _ => rfl⟩
  | runInLoop t f => exact ⟨(hcall t hc).1, (hcall t hc).2, fun _ => rfl⟩
  | quitStore t => exact ⟨(hcall t hc).1, (hcall t hc).2, fun _ => rfl⟩
  | queueWake t => exact ⟨(halive hc).1, (halive hc).2, fun _ => rfl⟩
  | quitWake t =>
      have hal := halive (Bool.and_eq_true_iff.mp hc).1
      exact ⟨hal.1, hal.2, fun _ => rfl⟩
  | _ =>
      have hp : e.func = .published := of_decide_eq_true hc
      exact ⟨by rw [hp]; decide, by rw [hp]; decide, fun hno => absurd hp hno⟩

/-- **The two stay in step**, whatever is done to the loop. -/
theorem handshake_step (h : Handshake e) (hs : e.step a = some e') : Handshake e' := by
  have hloop := loop_step hs
  obtain ⟨he, rfl⟩ := step_eq_some.mp hs
  cases a with
  | start =>
      have hf := h.built (of_decide_eq_true he)
      refine ⟨?_, OwnerPc.noConfusion, fun _ => FuncPc.noConfusion, OwnerPc.noConfusion,
        fun _ => h.early (Or.inl hf), FuncPc.noConfusion, h.quit⟩
      exact h.ptr.trans (by rw [hf]; rfl)
  | publish =>
      have hf : e.func = .callback := of_decide_eq_true (Bool.and_eq_true_iff.mp he).1
      refine ⟨rfl, fun ho => ?_, fun _ => FuncPc.noConfusion, fun _ => Or.inl rfl, fun hn => ?_,
        FuncPc.noConfusion, h.quit⟩
      · rw [h.built ho] at hf
        cases hf
      · rcases hn with hn | hn <;> cases hn
  | startReturns =>
      obtain ⟨ho, hp⟩ := Bool.and_eq_true_iff.mp he
      have hf : e.func = .published := of_decide_eq_true (h.ptr ▸ hp)
      exact ⟨h.ptr, OwnerPc.noConfusion, OwnerPc.noConfusion, fun _ => Or.inl hf, h.early, h.ended,
        h.quit⟩
  | destroy =>
      have hno : ∀ pc : OwnerPc, pc = .built ∨ pc = .waiting ∨ pc = .started →
          (if e.loopPtr then .quit else .destroyed : OwnerPc) ≠ pc := by
        rintro pc hpc
        split <;> rcases hpc with rfl | rfl | rfl <;> decide
      exact ⟨h.ptr, fun ho => absurd ho (hno _ (Or.inl rfl)),
        fun ho => absurd ho (hno _ (Or.inr (Or.inl rfl))),
        fun ho => absurd ho (hno _ (Or.inr (Or.inr rfl))), h.early, h.ended, h.quit⟩
  | destroyQuit =>
      exact ⟨h.ptr, OwnerPc.noConfusion, OwnerPc.noConfusion, OwnerPc.noConfusion, h.early,
        h.ended, EventLoop.quitCause_step h.quit hloop⟩
  | destroyWake =>
      exact ⟨h.ptr, OwnerPc.noConfusion, OwnerPc.noConfusion, OwnerPc.noConfusion, h.early,
        h.ended, EventLoop.quitCause_step h.quit hloop⟩
  | join =>
      exact ⟨h.ptr, OwnerPc.noConfusion, OwnerPc.noConfusion, OwnerPc.noConfusion, h.early,
        h.ended, h.quit⟩
  | unpublish =>
      obtain ⟨hf, hp⟩ := Bool.and_eq_true_iff.mp he
      have hf : e.func = .published := of_decide_eq_true hf
      have hleft : e.loop.phase = .left := by
        revert hp
        generalize e.loop.phase = p
        cases p <;> simp
      refine ⟨rfl, fun ho => ?_, fun _ => FuncPc.noConfusion, fun _ => Or.inr rfl, fun hn => ?_,
        fun _ => hleft, h.quit⟩
      · rw [h.built ho] at hf
        cases hf
      · rcases hn with hn | hn <;> cases hn
  | loop b =>
      obtain ⟨hn, hr, hcall⟩ := func_of_loop hs
      refine ⟨h.ptr, h.built, h.waiting, h.started, fun hf => ?_, fun hf => absurd hf hr,
        EventLoop.quitCause_step h.quit hloop⟩
      have hc : e.func = .callback := hf.resolve_left hn
      have hb := hcall (by rw [hc]; decide)
      exact (EventLoop.phase_call hb hloop).trans (h.early (Or.inr hc))

/-- Only its owner's steps move the owner. -/
theorem ownerPc_step (hs : e.step a = some e')
    (ha : a = .publish ∨ a = .unpublish ∨ ∃ b, a = .loop b) : e'.ownerPc = e.ownerPc := by
  obtain ⟨_, rfl⟩ := step_eq_some.mp hs
  rcases ha with rfl | rfl | ⟨b, rfl⟩ <;> rfl

end EventLoopThread

namespace Startup

variable {F : Type} {s s' : Startup F} {a : Action F} {t : ThreadId} {i : Nat}

/-! ## The threads -/

/-- **Every sub loop is the machine `EventLoopThread`**, as far as its thread has come. -/
structure Booted (s : Startup F) : Prop where
  handshake : ∀ i, (s.sub i).Handshake
  /-- The owner is past `Thread::Start` where the new thread has stored its id. -/
  tid : ∀ i, (s.thread i).tid = none ↔ (s.sub i).ownerPc = .built
  owner : ∀ i, (s.sub i).ownerPc = .built ∨ (s.sub i).ownerPc = .waiting ∨
    (s.sub i).ownerPc = .started
  acceptor : s.slot = s.acceptor.slot .acceptor

/-- What `sub` lets a thread do is no step of its owner. -/
theorem of_allowsSub {a : EventLoopThread.Action ThreadId F} (h : s.allowsSub i a = true) :
    a = .publish ∨ a = .unpublish ∨ ∃ b, a = .loop b := by
  cases a with
  | publish => exact Or.inl rfl
  | unpublish => exact Or.inr (Or.inl rfl)
  | loop b => exact Or.inr (Or.inr ⟨b, rfl⟩)
  | _ => cases h

/-- `Acceptor::Listen` touches the acceptor only. -/
theorem of_listen (h : s.listen = some s') (hag : s.slot = s.acceptor.slot .acceptor) :
    ∃ ch : Channel, ch.events = s.acceptor.events ||| kReadEvent ∧
      s' = { s with slot := ch.slot .acceptor, acceptor := ch, listenning := true } := by
  obtain ⟨p, hp, rfl⟩ := Option.map_eq_some_iff.mp h
  rw [Channel.enableReading, hag, Channel.updateChannel_slot] at hp
  cases hp
  exact ⟨_, rfl, rfl⟩

theorem booted_init {name : List Char} {numThreads : Int} {callback : Bool} {fd : Nat} :
    (init name numThreads callback fd : Startup F).Booted where
  handshake _ := EventLoopThread.handshake_create _ _
  tid _ := ⟨fun _ => rfl, fun _ => rfl⟩
  owner _ := Or.inl rfl
  acceptor := rfl

/-- A step of thread `i` keeps what the three say of it. -/
theorem Booted.update {e : EventLoopThread ThreadId F} (h : s.Booted) (th : Thread)
    (he : e.Handshake) (htid : th.tid = none ↔ e.ownerPc = .built)
    (howner : e.ownerPc = .built ∨ e.ownerPc = .waiting ∨ e.ownerPc = .started)
    (hsub : s'.sub = Function.update s.sub i e)
    (hth : s'.thread = Function.update s.thread i th)
    (hac : s'.slot = s.slot ∧ s'.acceptor = s.acceptor) : s'.Booted := by
  refine ⟨fun j => ?_, fun j => ?_, fun j => ?_, ?_⟩
  · rw [hsub]
    by_cases hj : j = i
    · rw [hj, Function.update_self]
      exact he
    · rw [Function.update_of_ne hj]
      exact h.handshake j
  · rw [hsub, hth]
    by_cases hj : j = i
    · rw [hj, Function.update_self, Function.update_self]
      exact htid
    · rw [Function.update_of_ne hj, Function.update_of_ne hj]
      exact h.tid j
  · rw [hsub]
    by_cases hj : j = i
    · rw [hj, Function.update_self]
      exact howner
    · rw [Function.update_of_ne hj]
      exact h.owner j
  · rw [hac.1, hac.2]
    exact h.acceptor

theorem booted_step (h : s.Booted) (hs : Step s a s') : s'.Booted := by
  cases hs with
  | spawn t i hpc hi =>
      exact h.update _ (EventLoopThread.handshake_create _ _) ⟨fun _ => rfl, fun _ => rfl⟩
        (Or.inl rfl) rfl rfl ⟨rfl, rfl⟩
  | setTid i e hst htid hstep =>
      have hw : e.ownerPc = .waiting := by
        obtain ⟨_, rfl⟩ := EventLoopThread.step_eq_some.mp hstep
        rfl
      refine h.update _ (EventLoopThread.handshake_step (h.handshake i) hstep) ?_
        (Or.inr (Or.inl hw)) rfl rfl ⟨rfl, rfl⟩
      rw [hw]
      exact ⟨fun e => by (cases e), fun e => by (cases e)⟩
  | startReturns t i e hpc hstep =>
      have hw : (s.sub i).ownerPc = .waiting ∧ e.ownerPc = .started := by
        obtain ⟨he, rfl⟩ := EventLoopThread.step_eq_some.mp hstep
        exact ⟨of_decide_eq_true (Bool.and_eq_true_iff.mp he).1, rfl⟩
      refine h.update (s.thread i) (EventLoopThread.handshake_step (h.handshake i) hstep) ?_
        (Or.inr (Or.inr hw.2)) rfl (Function.update_eq_self i _).symm ⟨rfl, rfl⟩
      rw [h.tid, hw.1, hw.2]
      exact ⟨fun e => by (cases e), fun e => by (cases e)⟩
  | sub i b e hal hstep =>
      have ho := EventLoopThread.ownerPc_step hstep (of_allowsSub hal)
      refine h.update (s.thread i) (EventLoopThread.handshake_step (h.handshake i) hstep) ?_
        ?_ rfl (Function.update_eq_self i _).symm ⟨rfl, rfl⟩
      · rw [ho]
        exact h.tid i
      · rw [ho]
        exact h.owner i
  | listenHere t s₁ hpc ht hl =>
      obtain ⟨ch, _, rfl⟩ := of_listen hl h.acceptor
      exact ⟨h.handshake, h.tid, h.owner, rfl⟩
  | runListen b l s₁ hal hc hb hl =>
      obtain ⟨ch, _, rfl⟩ := of_listen hl h.acceptor
      exact ⟨h.handshake, h.tid, h.owner, rfl⟩
  | _ => exact ⟨h.handshake, h.tid, h.owner, h.acceptor⟩

/-! ## The pool -/

/-- Every sub loop is started, and in `loops_`. -/
def Full (s : Startup F) : Prop := s.built = s.numLoops ∧ s.loops.length = s.numLoops

/-- What there is of the pool while its starter stands at `pc`. -/
def PoolAt (s : Startup F) : StartPc → Prop
  | .idle => True
  | .starting i => i ≤ s.numLoops ∧ s.built = i ∧ s.loops.length = i
  | .spawned i => i < s.numLoops ∧ s.built = i + 1 ∧ s.loops.length = i ∧
      (s.thread i).started = true
  | .waiting i => i < s.numLoops ∧ s.built = i + 1 ∧ s.loops.length = i ∧
      (s.thread i).tid.isSome = true
  | .callback | .listen | .queued => s.Full

/-- The acceptor listens, or the base loop is to see to it. -/
def Listens (s : Startup F) : Prop := s.listenning = true ∨ .listen ∈ s.base.queue

/-- **The pool, as it is filled.** -/
structure Ordered (s : Startup F) : Prop where
  started : s.started = s.calls % 2 ^ 32
  before : s.calls = 0 → (∀ t, s.pc t = .idle) ∧ s.built = 0 ∧ s.loops = []
  one : ∀ t u, s.pc t ≠ .idle → s.pc u ≠ .idle → t = u
  loops : s.loops = (List.range s.loops.length).map (· + 1)
  owners : ∀ i, (s.sub i).ownerPc = .started ↔ i < s.loops.length
  pool : ∀ t, s.PoolAt (s.pc t)
  full : 0 < s.calls → (∀ t, s.pc t = .idle) → s.Full
  listens : s.Listens → 0 < s.calls ∧ s.Full ∧ ∀ t, s.pc t = .idle ∨ s.pc t = .queued

theorem ordered_init {name : List Char} {numThreads : Int} {callback : Bool} {fd : Nat} :
    (init name numThreads callback fd : Startup F).Ordered where
  started := rfl
  before _ := ⟨fun _ => rfl, rfl, rfl⟩
  one _ _ h := absurd rfl h
  loops := rfl
  owners _ := ⟨fun h => by (cases h), fun h => absurd h (Nat.not_lt_zero _)⟩
  pool _ := trivial
  full h := absurd h (Nat.lt_irrefl 0)
  listens h := by
    rcases h with h | h
    · cases h
    · exact absurd h List.not_mem_nil

/-- A step of a thread that is not in `Start`. -/
theorem Ordered.other (h : s.Ordered) (hpc : s'.pc = s.pc) (hnum : s'.numThreads = s.numThreads)
    (hbuilt : s'.built = s.built) (hloops : s'.loops = s.loops)
    (hcalls : s'.calls = s.calls ∨ 0 < s.calls ∧ 0 < s'.calls)
    (hstarted : s'.started = s'.calls % 2 ^ 32)
    (hst : ∀ i, (s.thread i).started = true → (s'.thread i).started = true)
    (htid : ∀ i, (s.thread i).tid.isSome = true → (s'.thread i).tid.isSome = true)
    (howner : ∀ i, (s'.sub i).ownerPc = .started ↔ (s.sub i).ownerPc = .started)
    (hl : s'.Listens → s.Listens) : s'.Ordered := by
  have hn : s'.numLoops = s.numLoops := by rw [numLoops, hnum]; rfl
  have hfull : s.Full → s'.Full := fun hf => ⟨by rw [hbuilt, hn]; exact hf.1,
    by rw [hloops, hn]; exact hf.2⟩
  have hpos : 0 < s'.calls ↔ 0 < s.calls := by
    rcases hcalls with e | ⟨h0, h0'⟩
    · rw [e]
    · exact ⟨fun _ => h0, fun _ => h0'⟩
  refine ⟨hstarted, fun h0 => ?_, ?_, ?_, fun i => ?_, fun t => ?_, fun h0 hidle => ?_,
    fun hli => ?_⟩
  · rw [hpc, hbuilt, hloops]
    exact h.before (Nat.eq_zero_of_not_pos fun hp => by have := hpos.mpr hp; omega)
  · rw [hpc]
    exact h.one
  · rw [hloops]
    exact h.loops
  · rw [hloops]
    exact (howner i).trans (h.owners i)
  · rw [hpc]
    have hp := h.pool t
    generalize s.pc t = pc at hp
    cases pc with
    | idle => trivial
    | starting i => exact ⟨hn ▸ hp.1, hbuilt ▸ hp.2.1, hloops ▸ hp.2.2⟩
    | spawned i => exact ⟨hn ▸ hp.1, hbuilt ▸ hp.2.1, hloops ▸ hp.2.2.1, hst i hp.2.2.2⟩
    | waiting i => exact ⟨hn ▸ hp.1, hbuilt ▸ hp.2.1, hloops ▸ hp.2.2.1, htid i hp.2.2.2⟩
    | callback | listen | queued => exact hfull hp
  · exact hfull (h.full (hpos.mp h0) (hpc ▸ hidle))
  · obtain ⟨h0, hf, hall⟩ := h.listens (hl hli)
    exact ⟨hpos.mpr h0, hfull hf, hpc ▸ hall⟩

/-- A step of the thread that starts the pool. -/
theorem ordered_move {pc : StartPc} (hothers : ∀ u, u ≠ t → s.pc u = .idle)
    (hpc : s'.pc = Function.update s.pc t pc) (h0 : 0 < s'.calls)
    (hstarted : s'.started = s'.calls % 2 ^ 32)
    (hloops : s'.loops = (List.range s'.loops.length).map (· + 1))
    (howners : ∀ i, (s'.sub i).ownerPc = .started ↔ i < s'.loops.length)
    (hpool : s'.PoolAt pc) (hfull : pc = .idle → s'.Full)
    (hl : s'.Listens → s'.Full ∧ (pc = .idle ∨ pc = .queued)) : s'.Ordered := by
  have hat : ∀ {u}, u ≠ t → s'.pc u = .idle := fun {u} hu => by
    rw [hpc, Function.update_of_ne hu]
    exact hothers u hu
  have hself : s'.pc t = pc := by rw [hpc, Function.update_self]
  refine ⟨hstarted, fun e => absurd h0 (by omega), fun u v hu hv => ?_, hloops, howners,
    fun u => ?_, fun _ hidle => hfull (hself.symm.trans (hidle t)),
    fun hli => ⟨h0, (hl hli).1, fun u => ?_⟩⟩
  · have hut : u = t := Classical.byContradiction fun hne => hu (hat hne)
    have hvt : v = t := Classical.byContradiction fun hne => hv (hat hne)
    exact hut.trans hvt.symm
  · by_cases hu : u = t
    · rw [hu, hself]
      exact hpool
    · rw [hat hu]
      trivial
  · by_cases hu : u = t
    · rw [hu, hself]
      exact (hl hli).2
    · exact Or.inl (hat hu)

/-- While `t` is in `Start`, no other thread is. -/
theorem Ordered.others (h : s.Ordered) (ht : s.pc t ≠ .idle) :
    0 < s.calls ∧ ∀ u, u ≠ t → s.pc u = .idle := by
  refine ⟨Nat.pos_of_ne_zero fun h0 => ht ((h.before h0).1 t), fun u hu => ?_⟩
  by_contra hne
  exact hu (h.one u t hne ht)

/-- Where `t` is in `Start` and not at its end, the acceptor is not listening yet. -/
theorem Ordered.not_listens (h : s.Ordered) (ht : s.pc t ≠ .idle) (hq : s.pc t ≠ .queued) :
    ¬ s.Listens := fun hl => ((h.listens hl).2.2 t).elim ht hq

/-- The base loop's queue has a `Listen` in it only where it had it before. -/
theorem listens_base {b : EventLoop.Action ThreadId (BaseFunctor F)}
    {l : EventLoop ThreadId (BaseFunctor F)} (hb : queuesOwn b = true)
    (hs : s.base.step b = some l) (hl : { s with base := l }.Listens) : s.Listens := by
  rcases hl with hl | hl
  · exact Or.inl hl
  · rcases EventLoop.mem_queue_step hs hl with hl | ⟨t, rfl | rfl⟩
    · exact Or.inr hl
    · cases hb
    · cases hb

/-- A step of thread `i` that does not move its owner to the end of `StartLoop`. -/
theorem started_update {e : EventLoopThread ThreadId F}
    (he : e.ownerPc = .started ↔ (s.sub i).ownerPc = .started) (j : Nat) :
    (Function.update s.sub i e j).ownerPc = .started ↔ (s.sub j).ownerPc = .started := by
  by_cases hj : j = i
  · rw [hj, Function.update_self]
    exact he
  · rw [Function.update_of_ne hj]

/-- **Every step keeps the order**, in the first `2 ^ 32` calls of `Start`. -/
theorem ordered_step (hb : s.Booted) (h : s.Ordered) (hs : Step s a s')
    (hcalls : s'.calls ≤ 2 ^ 32) : s'.Ordered := by
  cases hs with
  | first t hm hpc h0 =>
      have hc0 : s.calls = 0 := by
        have hst := h.started
        have hle : s.calls + 1 ≤ 2 ^ 32 := hcalls
        omega
      obtain ⟨hidle, hbuilt, hloops⟩ := h.before hc0
      refine ordered_move (fun u _ => hidle u) (if_pos h0) (Nat.succ_pos _) ?_ h.loops h.owners
        ⟨Nat.zero_le _, hbuilt, List.length_eq_zero_iff.mpr hloops⟩ (fun e => by cases e)
        fun hl => absurd (h.listens hl).1 (by omega)
      show (s.started + 1) % 2 ^ 32 = (s.calls + 1) % 2 ^ 32
      rw [h.started, Nat.mod_add_mod]
  | again t hm h0 =>
      have hpos : 0 < s.calls := Nat.pos_of_ne_zero fun e => h0 (by simp [h.started, e])
      refine h.other (if_neg h0) rfl rfl rfl (Or.inr ⟨hpos, Nat.succ_pos _⟩) ?_ (fun _ => id)
        (fun _ => id) (fun _ => Iff.rfl) id
      show (s.started + 1) % 2 ^ 32 = (s.calls + 1) % 2 ^ 32
      rw [h.started, Nat.mod_add_mod]
  | spawn t i hpc hi =>
      have hne : s.pc t ≠ .idle := by rw [hpc]; exact StartPc.noConfusion
      obtain ⟨h0, hothers⟩ := h.others hne
      obtain ⟨_, hbuilt, hlen⟩ : s.PoolAt (.starting i) := hpc ▸ h.pool t
      refine ordered_move hothers rfl h0 h.started h.loops (fun j => ?_)
        ⟨hi, rfl, hlen, by simp [spawn, setPc, Thread.start]⟩ (fun e => by cases e)
        fun hl => absurd hl (h.not_listens hne (by rw [hpc]; exact StartPc.noConfusion))
      show (Function.update s.sub i (.create t (.loop (i + 1))) j).ownerPc = .started ↔ _
      by_cases hj : j = i
      · subst hj
        rw [Function.update_self]
        exact ⟨fun e => by (cases e), fun hlt => absurd hlt (by rw [← hlen]; exact Nat.lt_irrefl _)⟩
      · rw [Function.update_of_ne hj]
        exact h.owners j
  | allStarted t i hpc hi =>
      have hne : s.pc t ≠ .idle := by rw [hpc]; exact StartPc.noConfusion
      obtain ⟨h0, hothers⟩ := h.others hne
      obtain ⟨hle, hbuilt, hlen⟩ : s.PoolAt (.starting i) := hpc ▸ h.pool t
      have hfull : s.Full := ⟨hbuilt.trans (Nat.le_antisymm hle hi),
        hlen.trans (Nat.le_antisymm hle hi)⟩
      refine ordered_move hothers rfl h0 h.started h.loops h.owners ?_ ?_
        fun hl => absurd hl (h.not_listens hne (by rw [hpc]; exact StartPc.noConfusion))
      · split <;> exact hfull
      · intro e
        split at e <;> cases e
  | setTid i e hst htid hstep =>
      obtain ⟨he, rfl⟩ := EventLoopThread.step_eq_some.mp hstep
      have hbuilt : (s.sub i).ownerPc = .built := of_decide_eq_true he
      refine h.other rfl rfl rfl rfl (Or.inl rfl) h.started (fun j hj => ?_) (fun j hj => ?_)
        (started_update ?_) id
      · by_cases e : j = i
        · subst e
          simp [Thread.setTid, hst]
        · simpa [Function.update_of_ne e] using hj
      · by_cases e : j = i
        · subst e
          simp [Thread.setTid]
        · simpa [Function.update_of_ne e] using hj
      · rw [hbuilt]
        exact ⟨fun e => by (cases e), fun e => by (cases e)⟩
  | tidSet t i hpc htid =>
      have hne : s.pc t ≠ .idle := by rw [hpc]; exact StartPc.noConfusion
      obtain ⟨h0, hothers⟩ := h.others hne
      obtain ⟨hi, hbuilt, hlen, _⟩ : s.PoolAt (.spawned i) := hpc ▸ h.pool t
      exact ordered_move hothers rfl h0 h.started h.loops h.owners ⟨hi, hbuilt, hlen, htid⟩
        (fun e => by cases e)
        fun hl => absurd hl (h.not_listens hne (by rw [hpc]; exact StartPc.noConfusion))
  | startReturns t i e hpc hstep =>
      have hne : s.pc t ≠ .idle := by rw [hpc]; exact StartPc.noConfusion
      obtain ⟨h0, hothers⟩ := h.others hne
      obtain ⟨hi, hbuilt, hlen, _⟩ : s.PoolAt (.waiting i) := hpc ▸ h.pool t
      obtain ⟨_, rfl⟩ := EventLoopThread.step_eq_some.mp hstep
      have hlen' : (s.loops ++ [i + 1]).length = i + 1 := by rw [List.length_append, hlen]; rfl
      refine ordered_move hothers rfl h0 h.started ?_ (fun j => ?_) ⟨hi, hbuilt, hlen'⟩
        (fun e => by cases e)
        fun hl => absurd hl (h.not_listens hne (by rw [hpc]; exact StartPc.noConfusion))
      · show s.loops ++ [i + 1] = (List.range (s.loops ++ [i + 1]).length).map (· + 1)
        rw [hlen', List.range_succ, List.map_append, ← hlen, ← h.loops]
        rfl
      · show (Function.update s.sub i _ j).ownerPc = .started ↔ j < (s.loops ++ [i + 1]).length
        rw [hlen']
        by_cases hj : j = i
        · subst hj
          rw [Function.update_self]
          exact ⟨fun _ => Nat.lt_succ_self _, fun _ => rfl⟩
        · rw [Function.update_of_ne hj, h.owners, hlen]
          omega
  | callbackReturns t hpc hno =>
      have hne : s.pc t ≠ .idle := by rw [hpc]; exact StartPc.noConfusion
      obtain ⟨h0, hothers⟩ := h.others hne
      have hfull : s.PoolAt .callback := hpc ▸ h.pool t
      exact ordered_move hothers rfl h0 h.started h.loops h.owners hfull (fun e => by cases e)
        fun hl => absurd hl (h.not_listens hne (by rw [hpc]; exact StartPc.noConfusion))
  | listenHere t s₁ hpc ht hl =>
      have hne : s.pc t ≠ .idle := by rw [hpc]; exact StartPc.noConfusion
      obtain ⟨h0, hothers⟩ := h.others hne
      have hfull : s.PoolAt .listen := hpc ▸ h.pool t
      obtain ⟨ch, _, rfl⟩ := of_listen hl hb.acceptor
      exact ordered_move hothers rfl h0 h.started h.loops h.owners trivial (fun _ => hfull)
        fun _ => ⟨hfull, Or.inl rfl⟩
  | listenThere t b hpc ht hstep =>
      have hne : s.pc t ≠ .idle := by rw [hpc]; exact StartPc.noConfusion
      obtain ⟨h0, hothers⟩ := h.others hne
      have hfull : s.PoolAt .listen := hpc ▸ h.pool t
      exact ordered_move hothers rfl h0 h.started h.loops h.owners hfull (fun e => by cases e)
        fun _ => ⟨hfull, Or.inr rfl⟩
  | wake t b hpc hstep =>
      have hne : s.pc t ≠ .idle := by rw [hpc]; exact StartPc.noConfusion
      obtain ⟨h0, hothers⟩ := h.others hne
      have hfull : s.PoolAt .queued := hpc ▸ h.pool t
      exact ordered_move hothers rfl h0 h.started h.loops h.owners trivial (fun _ => hfull)
        fun _ => ⟨hfull, Or.inl rfl⟩
  | sub i b e hal hstep =>
      have ho := EventLoopThread.ownerPc_step hstep (of_allowsSub hal)
      exact h.other rfl rfl rfl rfl (Or.inl rfl) h.started (fun _ => id) (fun _ => id)
        (started_update (ho ▸ Iff.rfl)) id
  | base b l hal hown hno hstep =>
      exact h.other rfl rfl rfl rfl (Or.inl rfl) h.started (fun _ => id) (fun _ => id)
        (fun _ => Iff.rfl) (listens_base hown hstep)
  | runListen b l s₁ hal hc hstep hl =>
      have hin : .listen ∈ s.base.queue := by
        unfold callsListen at hc
        split at hc
        · split at hc
          · rename_i rest hph
            rw [EventLoop.queue, hph]
            exact List.mem_append_left _ List.mem_cons_self
          · cases hc
        · cases hc
      obtain ⟨ch, _, rfl⟩ := of_listen hl hb.acceptor
      exact h.other rfl rfl rfl rfl (Or.inl rfl) h.started (fun _ => id) (fun _ => id)
        (fun _ => Iff.rfl) fun _ => Or.inr hin

/-! ## Names -/

/-- **`snprintf` truncates no name**: a number of `int` has ten digits at most. -/
theorem threadName_eq (s : Startup F) (hi : i < 2 ^ 31) :
    s.threadName i = cStr s.name ++ Nat.toDigits 10 i := by
  have hlen : (Nat.toDigits 10 i).length ≤ 10 :=
    (Nat.length_toDigits_le_iff (by decide) (by decide)).mpr (Nat.lt_of_lt_of_le hi (by decide))
  have hname : (cStr s.name).length ≤ s.name.length :=
    (List.takeWhile_sublist _).length_le
  unfold threadName
  rw [List.take_of_length_le]
  rw [List.length_append]
  omega

/-- **Each thread is named after the pool** and its number in it. -/
def Named (s : Startup F) : Prop :=
  ∀ i, (s.thread i).started = true → (s.thread i).name = cStr s.name ++ Nat.toDigits 10 i

theorem named_step (h : s.Named) (hn : s.numLoops < 2 ^ 31) (hs : Step s a s') : s'.Named := by
  cases hs with
  | spawn t i hpc hi =>
      intro j hj
      by_cases e : j = i
      · subst e
        have hj : j < 2 ^ 31 := Nat.lt_trans hi hn
        have hne : s.threadName j ≠ [] := by
          rw [threadName_eq s hj]
          exact List.append_ne_nil_of_right_ne_nil _
            (List.ne_nil_of_length_pos Nat.length_toDigits_pos)
        show (Function.update s.thread j _ j).name = _
        rw [Function.update_self]
        exact (if_neg hne).trans (threadName_eq s hj)
      · change (Function.update s.thread i _ j).started = true at hj
        rw [Function.update_of_ne e] at hj
        show (Function.update s.thread i _ j).name = _
        rw [Function.update_of_ne e]
        exact h j hj
  | setTid i e hst htid hstep =>
      intro j hj
      by_cases e : j = i
      · subst e
        show (Function.update s.thread j _ j).name = _
        rw [Function.update_self]
        exact h j hst
      · change (Function.update s.thread i _ j).started = true at hj
        rw [Function.update_of_ne e] at hj
        show (Function.update s.thread i _ j).name = _
        rw [Function.update_of_ne e]
        exact h j hj
  | listenHere t s₁ hpc ht hl | runListen b l s₁ hal hc hstep hl =>
      obtain ⟨p, _, rfl⟩ := Option.map_eq_some_iff.mp hl
      exact h
  | _ => exact h

/-- What is set before the start stays as it is, and calls are counted. -/
theorem const_step (hs : Step s a s') :
    s'.name = s.name ∧ s'.numThreads = s.numThreads ∧ s.calls ≤ s'.calls := by
  cases hs with
  | first | again => exact ⟨rfl, rfl, Nat.le_succ _⟩
  | listenHere t s₁ hpc ht hl | runListen b l s₁ hal hc hstep hl =>
      obtain ⟨p, _, rfl⟩ := Option.map_eq_some_iff.mp hl
      exact ⟨rfl, rfl, Nat.le_refl _⟩
  | _ => exact ⟨rfl, rfl, Nat.le_refl _⟩

/-! ## Every run -/

section Runs

variable {name : List Char} {numThreads : Int} {callback : Bool} {fd : Nat}
  {tr : List (Startup F × Action F)}

theorem booted_run (h : Run step (init name numThreads callback fd) tr s) : s.Booted :=
  h.inv booted_init fun _ _ _ hb hs => booted_step hb (of_step hs)

theorem const_run (h : Run step (init name numThreads callback fd) tr s) :
    s.name = name ∧ s.numThreads = numThreads :=
  h.inv (I := fun s => s.name = name ∧ s.numThreads = numThreads) ⟨rfl, rfl⟩
    fun _ _ _ hc hs => ⟨(const_step (of_step hs)).1.trans hc.1,
      (const_step (of_step hs)).2.1.trans hc.2⟩

theorem ordered_run (h : Run step (init name numThreads callback fd) tr s)
    (hcalls : s.calls ≤ 2 ^ 32) : s.Ordered := by
  induction h with
  | start => exact ordered_init
  | step tr s a s' h hs ih =>
      have hle := (const_step (of_step hs)).2.2
      exact ordered_step (booted_run h) (ih (Nat.le_trans hle hcalls)) (of_step hs) hcalls

theorem named_run (h : Run step (init name numThreads callback fd) tr s)
    (hint : numThreads.toNat < 2 ^ 31) : s.Named := by
  induction h with
  | start => exact fun i hi => by cases hi
  | step tr s a s' h hs ih =>
      exact named_step ih (by rw [numLoops, (const_run h).2]; exact hint) (of_step hs)

/-- A sub loop's thread is built before its loop is in `loops_`, and one at most is ahead. -/
theorem Ordered.sizes (h : s.Ordered) :
    s.loops.length ≤ s.built ∧ s.built ≤ s.loops.length + 1 ∧ s.built ≤ s.numLoops := by
  by_cases hidle : ∀ t, s.pc t = .idle
  · rcases Nat.eq_zero_or_pos s.calls with h0 | h0
    · obtain ⟨_, hb, hl⟩ := h.before h0
      rw [hb, hl]
      exact ⟨Nat.le_refl 0, Nat.zero_le _, Nat.zero_le _⟩
    · have hf := h.full h0 hidle
      rw [hf.1, hf.2]
      exact ⟨Nat.le_refl _, Nat.le_succ _, Nat.le_refl _⟩
  · obtain ⟨t, ht⟩ := Classical.not_forall.mp hidle
    have hp := h.pool t
    generalize s.pc t = pc at ht hp
    cases pc with
    | idle => exact absurd rfl ht
    | starting i =>
        obtain ⟨hi, hb, hl⟩ := hp
        omega
    | spawned i | waiting i =>
        obtain ⟨hi, hb, hl, _⟩ := hp
        omega
    | callback | listen | queued =>
        obtain ⟨hb, hl⟩ := hp
        omega

/-- **The server starts in order.** In every state of every run with no more than `2 ^ 32` calls
    of `Start`, whichever threads make them: at most one thread is past `started_`; `loops_` has
    the first of the sub loops, in order, each with its loop published behind its callback, or
    ended by a `Quit`; no more than one further thread is built, and none beyond their number;
    each is named after the pool and its number; and where the acceptor listens, all is done. -/
theorem start_order (h : Run step (init name numThreads callback fd) tr s)
    (hcalls : s.calls ≤ 2 ^ 32) (hint : numThreads.toNat < 2 ^ 31) :
    (∀ t u, s.pc t ≠ .idle → s.pc u ≠ .idle → t = u) ∧
    s.loops = (List.range s.loops.length).map (· + 1) ∧
    (∀ i, i < s.loops.length → (s.sub i).func = .published ∨
      (s.sub i).func = .returned ∧ (s.sub i).loop.quitCalled = true) ∧
    (s.loops.length ≤ s.built ∧ s.built ≤ s.loops.length + 1 ∧ s.built ≤ numThreads.toNat) ∧
    (∀ i, (s.thread i).started = true → (s.thread i).name = cStr name ++ Nat.toDigits 10 i) ∧
    (s.listenning = true → s.loops = (List.range numThreads.toNat).map (· + 1) ∧
      ∀ t, s.pc t = .idle ∨ s.pc t = .queued) := by
  have hb := booted_run h
  have ho := ordered_run h hcalls
  obtain ⟨hname, hnum⟩ := const_run h
  have hn : s.numLoops = numThreads.toNat := by rw [numLoops, hnum]
  refine ⟨ho.one, ho.loops, fun i hi => ?_, hn ▸ ho.sizes, hname ▸ named_run h hint, fun hl => ?_⟩
  · have hand := hb.handshake i
    refine (hand.started ((ho.owners i).mpr hi)).imp_right fun hf => ⟨hf, ?_⟩
    exact hand.quit (Or.inr (hand.ended hf))
  · obtain ⟨_, hf, hall⟩ := ho.listens (Or.inl hl)
    exact ⟨by rw [← hn, ← hf.2]; exact ho.loops, hall⟩

end Runs

/-- The base loop's thread calls `Start`, for two sub loops. -/
def startTwo : List (Action Nat) :=
  [.fetchAdd (.loop 0), .next (.loop 0), .setTid 0, .tidSet (.loop 0), .sub 0 .publish,
    .startReturns (.loop 0), .next (.loop 0), .setTid 1, .sub 1 .publish, .tidSet (.loop 0),
    .sub 0 (.loop .enterLoop), .startReturns (.loop 0), .next (.loop 0), .listen (.loop 0)]

theorem start_order_two : ∃ tr s,
    Run step (init ['s'] 2 true 3 : Startup Nat) tr s ∧ s.loops = [1, 2] := by
  have h : ((Machine.exec step (init ['s'] 2 true 3 : Startup Nat) startTwo).any fun s =>
      decide (s.listenning = true ∧ s.calls = 1)) = true := by decide +kernel
  obtain ⟨s, hs, hb⟩ := (Option.any_eq_true _ _).mp h
  obtain ⟨hl, hc⟩ := of_decide_eq_true hb
  have hrun := exec_run .start hs
  have hle : s.calls ≤ 2 ^ 32 := by
    rw [hc]
    decide
  exact ⟨_, s, hrun, ((start_order hrun hle (by decide)).2.2.2.2.2 hl).1⟩

end Startup

end CuteMuduo
