/-
  File:      CuteMuduo/Startup/Program.lean
  Subject:   WHAT `Start` LEAVES (`start_program`): the state in which it returns, read as a state
             of the whole program, is one that the runs of the whole program reach.

  The runs of `Process` begin with `Start` returned and no sub loop entered; the threads that
  `Start` has published go into their loops, and around in them, while it is still at work. Here
  the base loop's thread calls `Start` before it enters `Loop()`, and no user code uses a loop
  until it returns.

  * `Untouched` -- a loop that nobody has called, wherever its thread stands;
  * `program` -- a started server as a state of the whole program.
-/
import CuteMuduo.Startup.Return
import CuteMuduo.TcpServer

namespace CuteMuduo

open Machine

/-! ## A loop that goes around -/

/-- Nothing is to be handled, and no functor to be called. -/
def Phase.goesRound {F : Type} : Phase F → Bool
  | .init | .test | .poll | .dispatch false | .swap | .batch [] => true
  | _ => false

namespace EventLoop

variable {T F : Type} [DecidableEq T] {l l' : EventLoop T F} {b : Action T F}

/-- **Nobody has called the loop.** -/
structure Untouched (l : EventLoop T F) : Prop where
  quit : l.quit = false
  wakeupFd : l.wakeupFd = 0
  pending : l.pendingFunctors = []
  call : ∀ t, l.call t = .idle
  phase : l.phase.goesRound = true

omit [DecidableEq T] in
theorem untouched_create (t : T) : (create t : EventLoop T F).Untouched :=
  ⟨rfl, rfl, rfl, fun _ => rfl, rfl⟩

/-- Its thread takes it around. -/
theorem untouched_step (h : l.Untouched) (hb : goesOn b = true) (hs : l.step b = some l') :
    l'.Untouched := by
  obtain ⟨he, rfl⟩ := step_eq_some.mp hs
  cases b with
  | enterLoop => exact ⟨rfl, h.wakeupFd, h.pending, h.call, rfl⟩
  | test =>
      refine ⟨h.quit, h.wakeupFd, h.pending, h.call, ?_⟩
      show (if l.quit then Phase.left else .poll : Phase F).goesRound = true
      rw [h.quit]
      rfl
  | pollReturn wake =>
      have hw : wake = false := Bool.eq_false_iff.mpr fun e =>
        absurd ((enabled_pollReturn.mp he).2.1 e) (by rw [h.wakeupFd]; exact Nat.lt_irrefl 0)
      subst hw
      exact ⟨h.quit, h.wakeupFd, h.pending, h.call, rfl⟩
  | handleRead => exact ⟨h.quit, rfl, h.pending, h.call, rfl⟩
  | startFunctors => exact ⟨h.quit, h.wakeupFd, h.pending, h.call, rfl⟩
  | swap =>
      refine ⟨h.quit, h.wakeupFd, rfl, h.call, ?_⟩
      show (Phase.batch l.pendingFunctors).goesRound = true
      rw [h.pending]
      rfl
  | next t =>
      obtain ⟨_, _, f, rest, hp⟩ := enabled_next.mp he
      have := h.phase
      rw [hp] at this
      cases this
  | ret =>
      obtain ⟨_, f, rest, hp⟩ := enabled_ret.mp he
      have := h.phase
      rw [hp] at this
      cases this
  | finish => exact ⟨h.quit, h.wakeupFd, h.pending, h.call, rfl⟩
  | _ => cases hb

end EventLoop

/-- A new channel is registered for reading. -/
theorem enableReading_create {P : Type} [DecidableEq P] (fd : Nat) (ptr : P) :
    (Channel.create fd).enableReading ((Channel.create fd).slot ptr) ptr =
      some ((Process.listening fd).slot ptr, Process.listening fd) := by
  unfold Channel.enableReading
  rw [Channel.updateChannel_slot]
  simp [Channel.create, Process.listening, Channel.nextIndex, kReadEvent, kNoneEvent]

namespace Process

variable {p : Process} {l : LoopId} {b : EventLoop.Action ThreadId Functor}
  {l' : EventLoop ThreadId Functor}

/-- **The whole program can take an untouched loop around**: `Poll` has nothing to report. -/
theorem reachable_round (hl : p.hasLoop l = true) (hst : p.stack (.loop l) = [])
    (hact : p.active l = []) (hu : (p.loops l).Untouched) (hb : EventLoop.goesOn b = true)
    (hs : (p.loops l).step b = some l') :
    Reachable step p { p with loops := Function.update p.loops l l' } := by
  have hloop : p.loopStep l b = some { p with loops := Function.update p.loops l l' } := by
    simp [loopStep, hl, hs]
  have hset : ∀ q : Process, q.stack (.loop l) = [] → q.setStack (.loop l) [] = q := fun q hq => by
    unfold setStack
    rw [← hq, Function.update_eq_self]
  have hcontrol : isControl b = true → p.nextInstr l b = [] →
      p.step (.loop l b) = some { p with loops := Function.update p.loops l l' } :=
    fun hc hn => by
      simp only [step, hst, hact, hc, hloop, hn, and_self, if_true, Option.map_some]
      exact congrArg some (hset { p with loops := Function.update p.loops l l' } hst)
  obtain ⟨he, _⟩ := EventLoop.step_eq_some.mp hs
  cases b with
  | pollReturn wake =>
      have hw : wake = false := Bool.eq_false_iff.mpr fun e =>
        absurd ((EventLoop.enabled_pollReturn.mp he).2.1 e)
          (by rw [hu.wakeupFd]; exact Nat.lt_irrefl 0)
      subst hw
      have hkeep : Function.update p.active l [] = p.active := by
        rw [← hact, Function.update_eq_self]
      refine .single (a := .poll l []) ?_
      simp [step, hst, hloop, setRevents, hkeep]
  | handleRead =>
      have := hu.phase
      rw [(EventLoop.enabled_handleRead.mp he).2] at this
      cases this
  | next t =>
      obtain ⟨_, _, f, rest, hp⟩ := EventLoop.enabled_next.mp he
      have := hu.phase
      rw [hp] at this
      cases this
  | enterLoop | test | startFunctors | swap | ret | finish => exact .single (hcontrol rfl rfl)
  | _ => cases hb

end Process

namespace Startup

/-! ## The start, undisturbed -/

section Steps

variable {F : Type} {s s' : Startup F} {a : Action F} {fd : Nat}

/-- The base loop's thread starts the server before it enters `Loop()`; no user code uses a loop. -/
def quiet : Action F → Bool
  | .fetchAdd t => decide (t = .loop 0)
  | .sub _ (.loop b) => EventLoop.goesOn b
  | .base _ => false
  | _ => true

/-- **How far such a start has come.** -/
structure Quiet (fd : Nat) (s : Startup F) : Prop where
  starter : ∀ t, s.pc t ≠ .idle → t = .loop 0
  base : s.base = .create (.loop 0)
  untouched : ∀ i, (s.sub i).loop.Untouched
  fresh : ∀ i, (s.sub i).func = .notStarted → (s.sub i).loop = .create (.loop (i + 1))
  acceptor : s.acceptor = if s.listenning then Process.listening fd else .create fd

theorem quiet_init {name : List Char} {numThreads : Int} {callback : Bool} :
    (init name numThreads callback fd : Startup F).Quiet fd where
  starter _ h := absurd rfl h
  base := rfl
  untouched _ := EventLoop.untouched_create _
  fresh _ _ := rfl
  acceptor := rfl

/-- A step of the starter. -/
theorem Quiet.move (h : s.Quiet fd) {t : ThreadId} {pc : StartPc} (ht : t = .loop 0)
    (hpc : s'.pc = Function.update s.pc t pc) (hbase : s'.base = s.base) (hsub : s'.sub = s.sub)
    (hac : s'.acceptor = if s'.listenning then Process.listening fd else .create fd) :
    s'.Quiet fd := by
  refine ⟨fun u hu => ?_, hbase.trans h.base, hsub ▸ h.untouched, hsub ▸ h.fresh, hac⟩
  by_cases e : u = t
  · exact e.trans ht
  · rw [hpc, Function.update_of_ne e] at hu
    exact h.starter u hu

/-- A step of the thread of a sub loop. -/
theorem Quiet.update (h : s.Quiet fd) {i : Nat} {e : EventLoopThread ThreadId F}
    (hpc : s'.pc = s.pc) (hbase : s'.base = s.base) (hsub : s'.sub = Function.update s.sub i e)
    (hac : s'.acceptor = s.acceptor ∧ s'.listenning = s.listenning) (hu : e.loop.Untouched)
    (hf : e.func = .notStarted → e.loop = .create (.loop (i + 1))) : s'.Quiet fd := by
  have hself : ∀ j, s'.sub j = if j = i then e else s.sub j := fun j => by
    rw [hsub, Function.update_apply]
  refine ⟨hpc ▸ h.starter, hbase.trans h.base, fun j => ?_, fun j => ?_, ?_⟩
  · rw [hself]
    split
    · exact hu
    · exact h.untouched j
  · rw [hself]
    split
    · rename_i e
      exact e ▸ hf
    · exact h.fresh j
  · rw [hac.1, hac.2]
    exact h.acceptor

/-- **The start goes its way.** -/
theorem quiet_step (hb : s.Booted) (ho : s.Ordered) (hse : s.Seated) (h : s.Quiet fd)
    (hq : quiet a = true) (hs : Step s a s') : s'.Quiet fd := by
  cases hs with
  | first t hm hpc h0 => exact h.move (of_decide_eq_true hq) (if_pos h0) rfl rfl h.acceptor
  | again t hm h0 =>
      have hpc : (s.fetchAdd t).pc = s.pc := if_neg h0
      exact ⟨hpc ▸ h.starter, h.base, h.untouched, h.fresh, h.acceptor⟩
  | spawn t i hpc hi =>
      have ht := h.starter t (by rw [hpc]; exact StartPc.noConfusion)
      have hspawn : (s.spawn t i).Quiet fd := h.update (i := i) rfl rfl rfl ⟨rfl, rfl⟩
        (EventLoop.untouched_create _) fun _ => rfl
      exact hspawn.move ht rfl rfl rfl hspawn.acceptor
  | allStarted t i hpc hi =>
      exact h.move (h.starter t (by rw [hpc]; exact StartPc.noConfusion)) rfl rfl rfl h.acceptor
  | setTid i e hst htid hstep =>
      obtain ⟨_, rfl⟩ := EventLoopThread.step_eq_some.mp hstep
      exact h.update (i := i) rfl rfl rfl ⟨rfl, rfl⟩ (h.untouched i) fun e => by cases e
  | tidSet t i hpc htid =>
      exact h.move (h.starter t (by rw [hpc]; exact StartPc.noConfusion)) rfl rfl rfl h.acceptor
  | startReturns t i e hpc hstep =>
      have ht := h.starter t (by rw [hpc]; exact StartPc.noConfusion)
      obtain ⟨_, rfl⟩ := EventLoopThread.step_eq_some.mp hstep
      have hpush : (s.pushLoop i ((s.sub i).apply .startReturns)).Quiet fd :=
        h.update (i := i) rfl rfl rfl ⟨rfl, rfl⟩ (h.untouched i) (h.fresh i)
      exact hpush.move ht rfl rfl rfl hpush.acceptor
  | callbackReturns t hpc hno =>
      exact h.move (h.starter t (by rw [hpc]; exact StartPc.noConfusion)) rfl rfl rfl h.acceptor
  | listenHere t s₁ hpc ht hl =>
      have hne : s.pc t ≠ .idle := by rw [hpc]; exact StartPc.noConfusion
      -- the acceptor does not listen yet
      have hno : s.listenning = false := Bool.eq_false_iff.mpr fun e =>
        ho.not_listens hne (by rw [hpc]; exact StartPc.noConfusion) (Or.inl e)
      have hold : s.acceptor = .create fd := by rw [h.acceptor, hno]; rfl
      have hac : s₁.acceptor = Process.listening fd ∧ s₁.listenning = true ∧ s₁.pc = s.pc ∧
          s₁.base = s.base ∧ s₁.sub = s.sub := by
        obtain ⟨p, hp, rfl⟩ := Option.map_eq_some_iff.mp hl
        rw [hb.acceptor, hold, enableReading_create] at hp
        cases hp
        exact ⟨rfl, rfl, rfl, rfl, rfl⟩
      have hpc' : (s₁.setPc t .idle).pc = Function.update s.pc t .idle := by
        rw [← hac.2.2.1]
        rfl
      refine h.move (h.starter t hne) hpc' hac.2.2.2.1 hac.2.2.2.2 ?_
      show s₁.acceptor = if s₁.listenning then _ else _
      rw [hac.1, hac.2.1]
      rfl
  | listenThere t b hpc ht hstep =>
      have e := h.starter t (by rw [hpc]; exact StartPc.noConfusion)
      rw [EventLoop.isInLoopThread, hse.baseId, e] at ht
      exact absurd ht (by simp)
  | wake t b hpc hstep =>
      obtain ⟨k, hk⟩ := hse.queued t hpc
      rw [h.base] at hk
      cases hk
  | sub i b e hal hstep =>
      have hloop := EventLoopThread.loop_step hstep
      have hu : e.loop.Untouched ∧ (e.func = .notStarted → False) := by
        obtain ⟨he, rfl⟩ := EventLoopThread.step_eq_some.mp hstep
        rcases of_allowsSub hal with rfl | rfl | ⟨b, rfl⟩
        · exact ⟨h.untouched i, fun e => by cases e⟩
        · exact ⟨h.untouched i, fun e => by cases e⟩
        · exact ⟨EventLoop.untouched_step (h.untouched i) hq hloop,
            (EventLoopThread.func_of_loop hstep).1⟩
      exact h.update (i := i) rfl rfl rfl ⟨rfl, rfl⟩ hu.1 fun e => (hu.2 e).elim
  | base | runListen => cases hq

end Steps

/-! ## The whole program -/

section Program

variable {s s' : Startup Functor} {a : Action Functor} {fd : Nat}

/-- The loops, the base loop as it is built. -/
def allLoops (s : Startup Functor) : LoopId → EventLoop ThreadId Functor
  | 0 => .create (.loop 0)
  | i + 1 => (s.sub i).loop

/-- **A started server as a state of the whole program**: the loops of its threads, its acceptor
    and what the base loop's poller holds of it. -/
def program (s : Startup Functor) (addr : InetAddress) (writeComplete : Bool) : Process :=
  let p := Process.init s.name addr s.loops.length writeComplete
  { p with
    loops := s.allLoops
    chans := Function.update p.chans .acceptor s.acceptor
    pollers := Function.update p.pollers 0
      (Function.update (p.pollers 0) s.acceptor.fd s.slot) }

/-- **What a step does to the loops**: nothing, or the thread of one of them takes it around. -/
theorem allLoops_step (ho : s.Ordered) (hse : s.Seated) (h : s.Quiet fd) (hq : quiet a = true)
    (hs : Step s a s') : s'.allLoops = s.allLoops ∨
      ∃ i b l, i < s.built ∧ EventLoop.goesOn b = true ∧ (s.sub i).loop.step b = some l ∧
        s'.allLoops = Function.update s.allLoops (i + 1) l := by
  have hupdate : ∀ {i e}, s'.sub = Function.update s.sub i e →
      s'.allLoops = Function.update s.allLoops (i + 1) e.loop := fun {i e} hsub => by
    funext l
    cases l with
    | zero => exact (Function.update_of_ne (Nat.succ_ne_zero i).symm _ _).symm
    | succ j =>
        show (s'.sub j).loop = _
        rw [hsub]
        by_cases hj : j = i
        · rw [hj, Function.update_self, Function.update_self]
        · rw [Function.update_of_ne hj, Function.update_of_ne fun e => hj (Nat.succ.inj e)]
          rfl
  have hsame : ∀ {i e}, s'.sub = Function.update s.sub i e → e.loop = (s.sub i).loop →
      s'.allLoops = s.allLoops := fun {i e} hsub he => by
    rw [hupdate hsub, he]
    exact Function.update_eq_self (i + 1) s.allLoops
  cases hs with
  | spawn t i hpc hi =>
      obtain ⟨_, hbuilt, _⟩ : s.PoolAt (.starting i) := hpc ▸ ho.pool t
      exact Or.inl (hsame rfl (h.fresh i (hse.unbuilt i (Nat.le_of_eq hbuilt)).1).symm)
  | setTid i e hst htid hstep =>
      obtain ⟨_, rfl⟩ := EventLoopThread.step_eq_some.mp hstep
      exact Or.inl (hsame rfl rfl)
  | startReturns t i e hpc hstep =>
      obtain ⟨_, rfl⟩ := EventLoopThread.step_eq_some.mp hstep
      exact Or.inl (hsame rfl rfl)
  | sub i b e hal hstep =>
      have hloop := EventLoopThread.loop_step hstep
      rcases of_allowsSub hal with rfl | rfl | ⟨b, rfl⟩
      · exact Or.inl (hsame rfl hloop)
      · exact Or.inl (hsame rfl hloop)
      · exact Or.inr ⟨i, b, e.loop,
          hse.lt_built (Or.inl (EventLoopThread.func_of_loop hstep).1), hq, hloop, hupdate rfl⟩
  | listenHere t s₁ hpc ht hl =>
      obtain ⟨p, _, rfl⟩ := Option.map_eq_some_iff.mp hl
      exact Or.inl rfl
  | base | runListen => cases hq
  | _ => exact Or.inl rfl

variable {name : List Char} {numThreads : Int} {callback : Bool}
  {tr : List (Startup Functor × Action Functor)}

theorem quiet_run (h : Run step (init name numThreads callback fd) tr s)
    (hq : ∀ p ∈ tr, quiet p.2 = true) (hcalls : s.calls ≤ 2 ^ 32) : s.Quiet fd := by
  induction h with
  | start => exact quiet_init
  | step tr s a s' h hs ih =>
      have hle := Nat.le_trans (const_step (of_step hs)).2.2 hcalls
      exact quiet_step (booted_run h) (ordered_run h hle) (seated_run h hle)
        (ih (fun p hp => hq p (List.mem_cons_of_mem _ hp)) hle) (hq (s, a) List.mem_cons_self)
        (of_step hs)

/-- The whole program takes the loops where the start has them. -/
theorem loops_run (addr : InetAddress) (writeComplete : Bool)
    (h : Run step (init name numThreads callback fd) tr s) (hq : ∀ p ∈ tr, quiet p.2 = true)
    (hcalls : s.calls ≤ 2 ^ 32) :
    Reachable Process.step (Process.init name addr numThreads.toNat writeComplete)
      { Process.init name addr numThreads.toNat writeComplete with loops := s.allLoops } := by
  induction h with
  | start =>
      have e : (init name numThreads callback fd : Startup Functor).allLoops =
          (Process.init name addr numThreads.toNat writeComplete).loops := by
        funext l
        cases l <;> rfl
      rw [e]
      exact .refl _ _
  | step tr s a s' h hs ih =>
      have hle := Nat.le_trans (const_step (of_step hs)).2.2 hcalls
      have hq' : ∀ p ∈ tr, quiet p.2 = true := fun p hp => hq p (List.mem_cons_of_mem _ hp)
      have ho := ordered_run h hle
      have hqs := quiet_run h hq' hle
      have hr := ih hq' hle
      have hqa := hq (s, a) List.mem_cons_self
      rcases allLoops_step ho (seated_run h hle) hqs hqa (of_step hs) with
        e | ⟨i, b, l, hi, hb, hl, e⟩
      · rw [e]
        exact hr
      · have hn : i + 1 ≤ numThreads.toNat := by
          have := ho.sizes.2.2
          rw [numLoops, (const_run h).2] at this
          omega
        rw [e]
        refine hr.trans (Process.reachable_round (l := i + 1) ?_ rfl rfl (hqs.untouched i) hb hl)
        exact Bool.and_eq_true_iff.mpr ⟨decide_eq_true hn, rfl⟩

/-- **`Start` leaves what the whole program runs from.** In every run in which the base loop's
    thread starts the server before it enters `Loop()`, no user code uses a loop, and `Start` is
    called `2 ^ 32` times at most, so that `started_` does not come back to 0: where the acceptor
    listens, the base loop is as it was built, and the state, read as one of the whole program, is
    reached by a run of it from `Process.init`. -/
theorem start_program (addr : InetAddress) (writeComplete : Bool)
    (h : Run step (init name numThreads callback (numThreads.toNat + 1)) tr s)
    (hq : ∀ p ∈ tr, quiet p.2 = true) (hcalls : s.calls ≤ 2 ^ 32) (hl : s.listenning = true) :
    s.base = .create (.loop 0) ∧
    ∃ trP, Run Process.step (Process.init name addr numThreads.toNat writeComplete) trP
      (s.program addr writeComplete) := by
  have hqs := quiet_run h hq hcalls
  obtain ⟨hname, hnum⟩ := const_run h
  have hfull : s.loops.length = numThreads.toNat := by
    rw [← hnum]
    exact ((ordered_run h hcalls).listens (Or.inl hl)).2.1.2
  have hac : s.acceptor = Process.listening (numThreads.toNat + 1) := by
    rw [hqs.acceptor, hl]
    rfl
  have hslot : s.slot = (Process.listening (numThreads.toNat + 1)).slot .acceptor :=
    hac ▸ (booted_run h).acceptor
  obtain ⟨trP, hr⟩ := loops_run addr writeComplete h hq hcalls
  refine ⟨hqs.base, trP, ?_⟩
  have e : s.program addr writeComplete =
      { Process.init name addr numThreads.toNat writeComplete with loops := s.allLoops } := by
    unfold program
    rw [hname, hfull, hac, hslot]
    -- the acceptor and its registration are those of `Process.init`
    have hfd : (Process.init name addr numThreads.toNat writeComplete).pollers 0
        (Process.listening (numThreads.toNat + 1)).fd =
          (Process.listening (numThreads.toNat + 1)).slot .acceptor := by
      simp [Process.init, Process.listening, Channel.create]
    have hchans : Function.update (Process.init name addr numThreads.toNat writeComplete).chans
        .acceptor (Process.listening (numThreads.toNat + 1)) =
          (Process.init name addr numThreads.toNat writeComplete).chans :=
      Function.update_eq_self Chan.acceptor _
    simp only [← hfd, hchans, Function.update_eq_self]
  rw [e]
  exact hr

end Program

/-- A start with two sub loops; the first goes into `Poll` before the second is there. -/
def startQuiet : List (Action Functor) :=
  [.fetchAdd (.loop 0), .next (.loop 0), .setTid 0, .tidSet (.loop 0), .sub 0 .publish,
    .sub 0 (.loop .enterLoop), .startReturns (.loop 0), .sub 0 (.loop .test), .next (.loop 0),
    .setTid 1, .sub 1 .publish, .tidSet (.loop 0), .startReturns (.loop 0), .next (.loop 0),
    .listen (.loop 0)]

theorem start_program_two : ∃ tr s, Run step (init ['s'] 2 true 3 : Startup Functor) tr s ∧
    (s.sub 0).loop.phase = .poll ∧
    ∃ trP, Run Process.step (Process.init ['s'] ⟨127, 0, 0, 1, 8000⟩ 2 false) trP
      (s.program ⟨127, 0, 0, 1, 8000⟩ false) := by
  have h : ((Machine.exec step (init ['s'] 2 true 3 : Startup Functor) startQuiet).any fun s =>
      decide (s.listenning = true ∧ s.calls = 1 ∧ (s.sub 0).loop.phase = .poll)) = true := by
    decide +kernel
  obtain ⟨s, hs, hb⟩ := (Option.any_eq_true _ _).mp h
  obtain ⟨hl, hc, hp⟩ := of_decide_eq_true hb
  have hrun := exec_run .start hs
  refine ⟨_, s, hrun, hp, (start_program ⟨127, 0, 0, 1, 8000⟩ false hrun (fun p hm => ?_) ?_ hl).2⟩
  · have hall : startQuiet.all quiet = true := by decide
    exact List.all_eq_true.mp hall p.2
      ((label_mem_execTrace _ hm).resolve_left List.not_mem_nil)
  · rw [hc]
    decide

end Startup

end CuteMuduo
