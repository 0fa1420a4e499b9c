/-
  File:      CuteMuduo/Startup/Return.lean
  Subject:   `Start` RETURNS, over every run of it (`start_returns`): from every state a thread that
             is in `Start` can still be brought to its end, but where the loop it waits for has
             already ended.

  `StartLoop` waits for `loop_ != nullptr`. A loop that is published, runs and is ended by a `Quit`
  before its owner looks again has set `loop_` back, and nobody wakes the owner a second time.

  * `Seated` -- who may be in `Start`, and in which calls on the loops;
  * `Stuck` -- the owner waits for what does not come;
  * `stuck_step`, `gets_on` -- a stuck thread stays stuck, any other gets on.
-/
import CuteMuduo.Startup.Order

namespace CuteMuduo

open Machine

/-! ## Calls on the loops -/

namespace EventLoop

variable {T F : Type} {l l' : EventLoop T F} {b : Action T F} {u : T}

/-- The thread whose call the step belongs to. -/
def caller : Action T F → Option T
  | .queueInLoop t _ | .queueWake t | .runInLoop t _ | .quitStore t | .quitWake t => some t
  | _ => none

variable [DecidableEq T]

/-- A step changes the call of its own thread only. -/
theorem call_other (hs : l.step b = some l') (hu : caller b ≠ some u) : l'.call u = l.call u := by
  obtain ⟨_, rfl⟩ := step_eq_some.mp hs
  have hne : ∀ {t : T} {c : Call}, some t ≠ some u → Function.update l.call t c u = l.call u :=
    fun h => Function.update_of_ne (fun e => h (congrArg some e.symm)) _ _
  cases b with
  | queueInLoop t f | queueWake t | quitStore t | quitWake t => exact hne hu
  | runInLoop t f =>
      show (l.runInLoop t f).call u = l.call u
      unfold runInLoop
      split
      · rfl
      · exact hne hu
  | next t =>
      show (l.next t).call u = l.call u
      unfold next
      split <;> rfl
  | ret =>
      show l.ret.call u = l.call u
      unfold ret
      split <;> rfl
  | _ => rfl

end EventLoop

/-- How far it is to the end of `Start`, with `n` sub loops. -/
def StartPc.remaining (n : Nat) : StartPc → Nat
  | .idle => 0
  | .queued => 1
  | .listen => 2
  | .callback => 3
  | .starting i => 3 * (n - i) + 4
  | .spawned i => 3 * (n - i) + 3
  | .waiting i => 3 * (n - i) + 2

namespace Startup

variable {F : Type} {s s' : Startup F} {a : Action F} {t u : ThreadId} {pc : StartPc} {i j : Nat}

theorem noCall_iff : s.noCall t = true ↔
    s.base.call t = .idle ∧ ∀ i, i < s.built → (s.sub i).loop.call t = .idle := by
  simp only [noCall, Bool.and_eq_true, decide_eq_true_eq, List.all_eq_true, List.mem_range]

theorem of_mayCall (h : s.mayCall t = true) :
    s.userCode t = true ∧ s.noCall t = true ∧ (s.pc t = .idle ∨ s.pc t = .callback) := by
  simpa [mayCall, and_assoc] using h

/-- **Who makes a call's step**: user code that begins one, or the thread that is in it. -/
theorem of_allows {G : Type} {l l' : EventLoop ThreadId G} {b : EventLoop.Action ThreadId G}
    {own : ThreadId} (hal : s.allows own b = true) (hs : l.step b = some l')
    (hu : EventLoop.caller b = some u) :
    s.mayCall u = true ∨ s.pc u ≠ .queued ∧ l.call u ≠ .idle := by
  obtain ⟨he, _⟩ := EventLoop.step_eq_some.mp hs
  cases b with
  | queueInLoop t f | runInLoop t f | quitStore t =>
      cases hu
      exact Or.inl hal
  | queueWake t =>
      cases hu
      obtain ⟨k, hk⟩ := EventLoop.enabled_queueWake.mp he
      exact Or.inr ⟨of_decide_eq_true hal, by rw [hk]; exact Call.noConfusion⟩
  | quitWake t =>
      cases hu
      have hk : l.call u = .quitting := of_decide_eq_true he
      exact Or.inr ⟨of_decide_eq_true hal, by rw [hk]; exact Call.noConfusion⟩
  | _ => cases hu

/-! ## Who is in `Start` -/

/-- **The loops and the calls on them**, as far as the start has come. -/
structure Seated (s : Startup F) : Prop where
  baseId : s.base.threadId = .loop 0
  ids : ∀ i, (s.sub i).loop.threadId = .loop (i + 1)
  owners : ∀ i j, (s.sub i).owner ≠ .loop (j + 1)
  unbuilt : ∀ i, s.built ≤ i → (s.sub i).func = .notStarted ∧ (s.thread i).started = false
  /-- Nobody calls a loop that is not there. -/
  uncalled : ∀ i t, (s.sub i).func = .notStarted → (s.sub i).loop.call t = .idle
  /-- A thread that does not run makes no call. -/
  fresh : ∀ i, (s.sub i).func = .notStarted → s.base.call (.loop (i + 1)) = .idle ∧
    ∀ j, (s.sub j).loop.call (.loop (i + 1)) = .idle
  /-- No sub loop's thread starts the pool. -/
  subs : ∀ i, s.pc (.loop (i + 1)) = .idle
  busy : ∀ t, s.pc t ≠ .idle → s.pc t ≠ .callback → s.pc t ≠ .queued → s.base.call t = .idle
  queued : ∀ t, s.pc t = .queued → ∃ k, s.base.call t = .queued k
  callback : ∀ t, s.pc t = .callback → s.numThreads = 0

theorem seated_init {name : List Char} {numThreads : Int} {callback : Bool} {fd : Nat} :
    (init name numThreads callback fd : Startup F).Seated where
  baseId := rfl
  ids _ := rfl
  owners _ _ e := by cases e
  unbuilt _ _ := ⟨rfl, rfl⟩
  uncalled _ _ _ := rfl
  fresh _ _ := ⟨rfl, fun _ => rfl⟩
  subs _ := rfl
  busy _ h := absurd rfl h
  queued _ e := by cases e
  callback _ e := by cases e

/-- A thread that does not run is not in user code. -/
theorem not_mayCall (h : (s.sub i).func = .notStarted) : s.mayCall (.loop (i + 1)) ≠ true := by
  intro hm
  have hu := (of_mayCall hm).1
  simp [userCode, EventLoopThread.alive, h] at hu

/-- A call's step on a loop is none of a thread that does not run. -/
theorem call_fresh {G : Type} {l l' : EventLoop ThreadId G}
    {b : EventLoop.Action ThreadId G} {own : ThreadId} (hf : (s.sub i).func = .notStarted)
    (hal : s.allows own b = true) (hs : l.step b = some l')
    (hc : l.call (.loop (i + 1)) = .idle) : l'.call (.loop (i + 1)) = .idle := by
  rw [EventLoop.call_other hs fun hu => ?_]
  · exact hc
  · rcases of_allows hal hs hu with hm | ⟨_, hne⟩
    · exact not_mayCall hf hm
    · exact hne hc

/-- What becomes of the threads in `Start` where one of them moves on, alone. -/
theorem Seated.move (h : s.Seated) (hothers : ∀ u, u ≠ t → s.pc u = .idle)
    (hsub : ∀ i, t ≠ .loop (i + 1)) (hpc : s'.pc = Function.update s.pc t pc)
    (hloops : s'.sub = s.sub) (hbase : s'.base.threadId = s.base.threadId)
    (hcall : ∀ u, u ≠ t → s'.base.call u = s.base.call u) (hbuilt : s'.built = s.built)
    (hthread : s'.thread = s.thread)
    (hbusy : pc ≠ .idle → pc ≠ .callback → pc ≠ .queued → s'.base.call t = .idle)
    (hqueued : pc = .queued → ∃ k, s'.base.call t = .queued k)
    (hcallback : pc = .callback → s'.numThreads = 0) : s'.Seated := by
  have hat : ∀ u, s'.pc u ≠ .idle → u = t := fun u hu => by
    by_contra hne
    rw [hpc, Function.update_of_ne hne] at hu
    exact hu (hothers u hne)
  have hself : s'.pc t = pc := by rw [hpc, Function.update_self]
  have hne : ∀ {u p}, s'.pc u = p → p ≠ .idle → u = t := fun {u} p e hp => hat u (e ▸ hp)
  refine ⟨hbase.trans h.baseId, hloops ▸ h.ids, hloops ▸ h.owners, ?_, hloops ▸ h.uncalled, ?_, ?_,
    fun u hi hc hq => ?_, fun u hq => ?_, fun u hc => ?_⟩
  · rw [hbuilt, hloops, hthread]
    exact h.unbuilt
  · rw [hloops]
    exact fun i hf => ⟨(hcall _ (hsub i).symm).trans (h.fresh i hf).1, (h.fresh i hf).2⟩
  · exact fun i => Classical.byContradiction fun hi => hsub i (hat _ hi).symm
  · obtain rfl := hat u hi
    rw [hself] at hi hc hq
    exact hbusy hi hc hq
  · obtain rfl := hne hq StartPc.noConfusion
    exact hqueued (hself.symm.trans hq)
  · obtain rfl := hne hc StartPc.noConfusion
    exact hcallback (hself.symm.trans hc)

/-- What becomes of the threads in `Start` where a step of a loop's is made. -/
theorem Seated.loop (h : s.Seated) {l : EventLoop ThreadId (BaseFunctor F)}
    {b : EventLoop.Action ThreadId (BaseFunctor F)} (hal : s.allows (.loop 0) b = true)
    (hs : s.base.step b = some l) (hpc : s'.pc = s.pc) (hsub : s'.sub = s.sub)
    (hbase : s'.base = l) (hbuilt : s'.built = s.built) (hthread : s'.thread = s.thread)
    (hn : s'.numThreads = s.numThreads) : s'.Seated := by
  have hcall : ∀ u, s.pc u ≠ .idle → s.pc u ≠ .callback →
      (s.pc u = .queued ∨ s.base.call u = .idle) → l.call u = s.base.call u := by
    intro u hi hc hq
    refine EventLoop.call_other hs fun hu => ?_
    rcases of_allows hal hs hu with hm | ⟨hnq, hne⟩
    · exact (of_mayCall hm).2.2.elim hi hc
    · exact hq.elim hnq hne
  refine ⟨?_, hsub ▸ h.ids, hsub ▸ h.owners, ?_, hsub ▸ h.uncalled, fun i hf => ?_, hpc ▸ h.subs,
    fun u hi hc hq => ?_, fun u hq => ?_, ?_⟩
  · rw [hbase, EventLoop.threadId_step hs]
    exact h.baseId
  · rw [hbuilt, hsub, hthread]
    exact h.unbuilt
  · rw [hsub] at hf
    rw [hbase, hsub]
    exact ⟨call_fresh hf hal hs (h.fresh i hf).1, (h.fresh i hf).2⟩
  · rw [hpc] at hi hc hq
    have hold := h.busy u hi hc hq
    rw [hbase, hcall u hi hc (Or.inr hold)]
    exact hold
  · rw [hpc] at hq
    obtain ⟨k, hk⟩ := h.queued u hq
    refine ⟨k, ?_⟩
    rw [hbase, hcall u (by rw [hq]; exact StartPc.noConfusion)
      (by rw [hq]; exact StartPc.noConfusion) (Or.inl hq)]
    exact hk
  · rw [hpc, hn]
    exact h.callback

/-- What becomes of them where a step is made on sub loop `i`. -/
theorem Seated.update (h : s.Seated) {e : EventLoopThread ThreadId F}
    (hsub : s'.sub = Function.update s.sub i e) (hpc : s'.pc = s.pc) (hbase : s'.base = s.base)
    (hbuilt : s'.built = s.built) (hn : s'.numThreads = s.numThreads)
    (hthread : ∀ j, j ≠ i → s'.thread j = s.thread j)
    (hid : e.loop.threadId = .loop (i + 1)) (howner : e.owner = (s.sub i).owner)
    (hi : i < s.built) (hran : e.func ≠ .notStarted)
    (hcall : ∀ j, j ≠ i → (s.sub j).func = .notStarted → e.loop.call (.loop (j + 1)) = .idle) :
    s'.Seated := by
  have hself : s'.sub i = e := by rw [hsub, Function.update_self]
  have hother : ∀ j, j ≠ i → s'.sub j = s.sub j := fun j hj => by
    rw [hsub, Function.update_of_ne hj]
  have hne : ∀ j, (s'.sub j).func = .notStarted → j ≠ i := by
    rintro j hf rfl
    rw [hself] at hf
    exact hran hf
  refine ⟨hbase ▸ h.baseId, fun j => ?_, fun j m => ?_, fun j hj => ?_, fun j t hf => ?_,
    fun j hf => ?_, hpc ▸ h.subs, ?_, ?_, ?_⟩
  · by_cases hj : j = i
    · subst hj
      rw [hself]
      exact hid
    · rw [hother j hj]
      exact h.ids j
  · by_cases hj : j = i
    · subst hj
      rw [hself, howner]
      exact h.owners j m
    · rw [hother j hj]
      exact h.owners j m
  · rw [hbuilt] at hj
    have hji : j ≠ i := by omega
    rw [hother j hji, hthread j hji]
    exact h.unbuilt j hj
  · have hj := hne j hf
    rw [hother j hj] at hf ⊢
    exact h.uncalled j t hf
  · have hj := hne j hf
    rw [hother j hj] at hf
    refine ⟨hbase ▸ (h.fresh j hf).1, fun m => ?_⟩
    by_cases hm : m = i
    · rw [hm, hself]
      exact hcall j hj hf
    · rw [hother m hm]
      exact (h.fresh j hf).2 m
  · rw [hpc, hbase]
    exact h.busy
  · rw [hpc, hbase]
    exact h.queued
  · rw [hpc, hn]
    exact h.callback

/-- A thread that runs, or is started, is built. -/
theorem Seated.lt_built (h : s.Seated)
    (hi : (s.sub i).func ≠ .notStarted ∨ (s.thread i).started = true) : i < s.built := by
  by_contra hlt
  obtain ⟨hf, hst⟩ := h.unbuilt i (Nat.not_lt.mp hlt)
  rcases hi with hi | hi
  · exact hi hf
  · rw [hst] at hi
    cases hi

/-- A new thread is built, and started: it makes no call yet, and nobody calls its loop. -/
theorem Seated.spawn (h : s.Seated) (ht : ∀ j, t ≠ .loop (j + 1)) (hbuilt : s.built = i) :
    (s.spawn t i).Seated := by
  have hold := (h.unbuilt i (Nat.le_of_eq hbuilt)).1
  have hsub : ∀ j, (s.spawn t i).sub j = if j = i then .create t (.loop (i + 1)) else s.sub j :=
    fun j => Function.update_apply _ _ _ j
  have hfunc : ∀ j, ((s.spawn t i).sub j).func = .notStarted → (s.sub j).func = .notStarted :=
    fun j hf => by
      rw [hsub] at hf
      split at hf
      · rename_i e
        rw [e]
        exact hold
      · exact hf
  refine ⟨h.baseId, fun j => ?_, fun j m => ?_, fun j hj => ?_, fun j u hf => ?_, fun j hf => ?_,
    h.subs, h.busy, h.queued, h.callback⟩
  · rw [hsub]
    split
    · rename_i e
      rw [e]
      rfl
    · exact h.ids j
  · rw [hsub]
    split
    · exact ht m
    · exact h.owners j m
  · have hji : i + 1 ≤ j := hj
    obtain ⟨hf, hst⟩ := h.unbuilt j (by omega)
    rw [hsub, if_neg (by omega)]
    refine ⟨hf, ?_⟩
    show (Function.update s.thread i _ j).started = false
    rw [Function.update_of_ne (by omega)]
    exact hst
  · have hf := hfunc j hf
    rw [hsub]
    split
    · rfl
    · exact h.uncalled j u hf
  · have hf := hfunc j hf
    refine ⟨(h.fresh j hf).1, fun m => ?_⟩
    rw [hsub]
    split
    · rfl
    · exact (h.fresh j hf).2 m

/-- **Every step keeps them seated**, in the first `2 ^ 32` calls of `Start`. -/
theorem seated_step (hb : s.Booted) (ho : s.Ordered) (h : s.Seated) (hs : Step s a s')
    (hcalls : s'.calls ≤ 2 ^ 32) : s'.Seated := by
  have hidle : ∀ {t}, s.pc t ≠ .idle → (∀ u, u ≠ t → s.pc u = .idle) ∧ ∀ i, t ≠ .loop (i + 1) :=
    fun {t} ht => ⟨(ho.others ht).2, fun i e => ht (e ▸ h.subs i)⟩
  cases hs with
  | first t hm hpc h0 =>
      have hc0 : s.calls = 0 := by
        have hst := ho.started
        have hle : s.calls + 1 ≤ 2 ^ 32 := hcalls
        omega
      obtain ⟨hall, hbuilt, _⟩ := ho.before hc0
      refine h.move (fun u _ => hall u) (fun i e => ?_) (if_pos h0) rfl rfl (fun _ _ => rfl) rfl rfl
        (fun _ _ _ => (noCall_iff.mp (of_mayCall hm).2.1).1) (fun e => by cases e)
        fun e => by cases e
      exact not_mayCall (h.unbuilt i (hbuilt ▸ Nat.zero_le i)).1 (e ▸ hm)
  | again t hm h0 =>
      have hpc : (s.fetchAdd t).pc = s.pc := if_neg h0
      exact ⟨h.baseId, h.ids, h.owners, h.unbuilt, h.uncalled, h.fresh, hpc ▸ h.subs, hpc ▸ h.busy,
        hpc ▸ h.queued, hpc ▸ h.callback⟩
  | spawn t i hpc hi =>
      have hne : s.pc t ≠ .idle := by rw [hpc]; exact StartPc.noConfusion
      obtain ⟨_, hbuilt, _⟩ : s.PoolAt (.starting i) := hpc ▸ ho.pool t
      obtain ⟨hothers, hsub⟩ := hidle hne
      refine (h.spawn hsub hbuilt).move hothers hsub rfl rfl rfl (fun _ _ => rfl) rfl rfl
        (fun _ _ _ => h.busy t hne ?_ ?_) (fun e => by cases e) fun e => by cases e
      · rw [hpc]; exact StartPc.noConfusion
      · rw [hpc]; exact StartPc.noConfusion
  | allStarted t i hpc hi =>
      have hne : s.pc t ≠ .idle := by rw [hpc]; exact StartPc.noConfusion
      obtain ⟨hothers, hsub⟩ := hidle hne
      refine h.move hothers hsub rfl rfl rfl (fun _ _ => rfl) rfl rfl
        (fun _ _ _ => h.busy t hne ?_ ?_) (fun e => ?_) fun e => ?_
      · rw [hpc]; exact StartPc.noConfusion
      · rw [hpc]; exact StartPc.noConfusion
      · split at e <;> cases e
      · split at e
        · rename_i hc
          exact hc.1
        · cases e
  | setTid i e hst htid hstep =>
      have hran : e.func = .callback ∧ e.loop = (s.sub i).loop ∧ e.owner = (s.sub i).owner := by
        obtain ⟨_, rfl⟩ := EventLoopThread.step_eq_some.mp hstep
        exact ⟨rfl, rfl, rfl⟩
      refine h.update (i := i) rfl rfl rfl rfl rfl (fun j hj => Function.update_of_ne hj _ _)
        (hran.2.1 ▸ h.ids i) hran.2.2 (h.lt_built (Or.inr hst)) (by rw [hran.1]; decide)
        fun j _ hf => ?_
      rw [hran.2.1]
      exact (h.fresh j hf).2 i
  | tidSet t i hpc htid =>
      have hne : s.pc t ≠ .idle := by rw [hpc]; exact StartPc.noConfusion
      obtain ⟨hothers, hsub⟩ := hidle hne
      refine h.move hothers hsub rfl rfl rfl (fun _ _ => rfl) rfl rfl
        (fun _ _ _ => h.busy t hne ?_ ?_) (fun e => by cases e) fun e => by cases e
      · rw [hpc]; exact StartPc.noConfusion
      · rw [hpc]; exact StartPc.noConfusion
  | startReturns t i e hpc hstep =>
      have hne : s.pc t ≠ .idle := by rw [hpc]; exact StartPc.noConfusion
      obtain ⟨hothers, hsub⟩ := hidle hne
      obtain ⟨hi, hbuilt, _⟩ : s.PoolAt (.waiting i) := hpc ▸ ho.pool t
      obtain ⟨he, rfl⟩ := EventLoopThread.step_eq_some.mp hstep
      have hran : (s.sub i).func ≠ .notStarted := (hb.handshake i).waiting
        (of_decide_eq_true (Bool.and_eq_true_iff.mp he).1)
      have hpush : (s.pushLoop i ((s.sub i).apply .startReturns)).Seated :=
        h.update (i := i) rfl rfl rfl rfl rfl (fun _ _ => rfl) (h.ids i) rfl
          (h.lt_built (Or.inl hran)) hran fun j _ hf => (h.fresh j hf).2 i
      refine hpush.move hothers hsub rfl rfl rfl (fun _ _ => rfl) rfl rfl
        (fun _ _ _ => h.busy t hne ?_ ?_) (fun e => by cases e) fun e => by cases e
      · rw [hpc]; exact StartPc.noConfusion
      · rw [hpc]; exact StartPc.noConfusion
  | callbackReturns t hpc hno =>
      have hne : s.pc t ≠ .idle := by rw [hpc]; exact StartPc.noConfusion
      obtain ⟨hothers, hsub⟩ := hidle hne
      exact h.move hothers hsub rfl rfl rfl (fun _ _ => rfl) rfl rfl
        (fun _ _ _ => (noCall_iff.mp hno).1) (fun e => by cases e) fun e => by cases e
  | listenHere t s₁ hpc ht hl =>
      have hne : s.pc t ≠ .idle := by rw [hpc]; exact StartPc.noConfusion
      obtain ⟨hothers, hsub⟩ := hidle hne
      obtain ⟨ch, _, rfl⟩ := of_listen hl hb.acceptor
      exact h.move hothers hsub rfl rfl rfl (fun _ _ => rfl) rfl rfl (fun e => absurd rfl e)
        (fun e => by cases e) fun e => by cases e
  | listenThere t b hpc ht hstep =>
      have hne : s.pc t ≠ .idle := by rw [hpc]; exact StartPc.noConfusion
      obtain ⟨hothers, hsub⟩ := hidle hne
      refine h.move hothers hsub rfl rfl (EventLoop.threadId_step hstep)
        (fun u hu => EventLoop.call_other hstep fun e => hu (Option.some.inj e).symm) rfl rfl
        (fun _ _ e => absurd rfl e) (fun _ => ?_) fun e => by cases e
      obtain ⟨_, rfl⟩ := EventLoop.step_eq_some.mp hstep
      exact ⟨_, Function.update_self _ _ _⟩
  | wake t b hpc hstep =>
      have hne : s.pc t ≠ .idle := by rw [hpc]; exact StartPc.noConfusion
      obtain ⟨hothers, hsub⟩ := hidle hne
      exact h.move hothers hsub rfl rfl (EventLoop.threadId_step hstep)
        (fun u hu => EventLoop.call_other hstep fun e => hu (Option.some.inj e).symm) rfl rfl
        (fun e => absurd rfl e) (fun e => by cases e) fun e => by cases e
  | sub i b e hal hstep =>
      obtain ⟨hf, hran, hid, howner, hcall⟩ :
          (s.sub i).func ≠ .notStarted ∧ e.func ≠ .notStarted ∧
          e.loop.threadId = (s.sub i).loop.threadId ∧ e.owner = (s.sub i).owner ∧
          ∀ j, (s.sub j).func = .notStarted → e.loop.call (.loop (j + 1)) = .idle := by
        have hloop := EventLoopThread.loop_step hstep
        rcases of_allowsSub hal with rfl | rfl | ⟨b, rfl⟩
        · obtain ⟨he, rfl⟩ := EventLoopThread.step_eq_some.mp hstep
          have hf : (s.sub i).func = .callback := of_decide_eq_true (Bool.and_eq_true_iff.mp he).1
          exact ⟨by rw [hf]; decide, FuncPc.noConfusion, rfl, rfl, fun j hf => (h.fresh j hf).2 i⟩
        · obtain ⟨he, rfl⟩ := EventLoopThread.step_eq_some.mp hstep
          have hf : (s.sub i).func = .published := of_decide_eq_true (Bool.and_eq_true_iff.mp he).1
          exact ⟨by rw [hf]; decide, FuncPc.noConfusion, rfl, rfl, fun j hf => (h.fresh j hf).2 i⟩
        · have hf := (EventLoopThread.func_of_loop hstep).1
          obtain ⟨_, rfl⟩ := EventLoopThread.step_eq_some.mp hstep
          exact ⟨hf, hf, EventLoop.threadId_step hloop, rfl,
            fun j hf => call_fresh hf hal hloop ((h.fresh j hf).2 i)⟩
      exact h.update (i := i) rfl rfl rfl rfl rfl (fun _ _ => rfl) (hid.trans (h.ids i)) howner
        (h.lt_built (Or.inl hf)) hran fun j _ hf => hcall j hf
  | base b l hal hown hno hstep => exact h.loop hal hstep rfl rfl rfl rfl rfl rfl
  | runListen b l s₁ hal hc hstep hl =>
      obtain ⟨ch, _, rfl⟩ := of_listen hl hb.acceptor
      exact h.loop hal hstep rfl rfl rfl rfl rfl rfl

/-! ## Waiting in vain -/

/-- `loop_ != nullptr` is not to be found again: the loop has ended, or its thread is, in its
    callback, in a call on a loop that is destroyed, which is undefined. -/
def Lost (s : Startup F) (i : Nat) : Prop :=
  (s.sub i).func = .returned ∨
    (s.sub i).func = .callback ∧
      ∃ j, (s.sub j).func = .returned ∧ (s.sub j).loop.call (.loop (i + 1)) ≠ .idle

/-- Thread `t` waits in `StartLoop` for a loop it will not see. -/
def Stuck (s : Startup F) (t : ThreadId) : Prop :=
  ∃ i, (s.pc t = .spawned i ∨ s.pc t = .waiting i) ∧ s.Lost i

/-- A `ThreadFunc` that has returned stays so, and nobody makes a step of its loop. -/
theorem returned_step (hb : s.Booted) (ho : s.Ordered) (h : s.Seated) (hs : Step s a s')
    (hj : (s.sub j).func = .returned) :
    (s'.sub j).func = .returned ∧ (s'.sub j).loop = (s.sub j).loop := by
  -- a step that leaves `ThreadFunc` and its loop as they are
  have hupdate : ∀ {i e}, (i = j → e.func = .returned ∧ e.loop = (s.sub j).loop) →
      (Function.update s.sub i e j).func = .returned ∧
        (Function.update s.sub i e j).loop = (s.sub j).loop := fun {i e} he => by
    by_cases hi : i = j
    · subst hi
      rw [Function.update_self]
      exact he rfl
    · rw [Function.update_of_ne (Ne.symm hi)]
      exact ⟨hj, rfl⟩
  cases hs with
  | spawn t i hpc hi =>
      refine hupdate fun e => ?_
      obtain ⟨_, hbuilt, _⟩ : s.PoolAt (.starting i) := hpc ▸ ho.pool t
      rw [(h.unbuilt j (by omega)).1] at hj
      cases hj
  | setTid i e hst htid hstep =>
      refine hupdate fun e => ?_
      obtain ⟨he, _⟩ := EventLoopThread.step_eq_some.mp hstep
      rw [← e, (hb.handshake i).built (of_decide_eq_true he)] at hj
      cases hj
  | startReturns t i e hpc hstep =>
      refine hupdate fun e => ?_
      obtain ⟨_, rfl⟩ := EventLoopThread.step_eq_some.mp hstep
      subst e
      exact ⟨hj, rfl⟩
  | sub i b e hal hstep =>
      refine hupdate fun e => ?_
      subst e
      obtain ⟨he, _⟩ := EventLoopThread.step_eq_some.mp hstep
      rcases of_allowsSub hal with rfl | rfl | ⟨b, rfl⟩
      · have hf : (s.sub i).func = .callback := of_decide_eq_true (Bool.and_eq_true_iff.mp he).1
        rw [hf] at hj
        cases hj
      · have hf : (s.sub i).func = .published := of_decide_eq_true (Bool.and_eq_true_iff.mp he).1
        rw [hf] at hj
        cases hj
      · exact absurd hj (EventLoopThread.func_of_loop hstep).2.1
  | listenHere t s₁ hpc ht hl | runListen b l s₁ hal hc hstep hl =>
      obtain ⟨p, _, rfl⟩ := Option.map_eq_some_iff.mp hl
      exact ⟨hj, rfl⟩
  | _ => exact ⟨hj, rfl⟩

/-- A thread leaves its callback only when it is in no call. -/
theorem callback_step (ho : s.Ordered) (h : s.Seated) (hs : Step s a s')
    (hi : (s.sub i).func = .callback) (hcall : s.noCall (.loop (i + 1)) ≠ true) :
    (s'.sub i).func = .callback := by
  have hupdate : ∀ {j e}, (j = i → e.func = .callback) →
      (Function.update s.sub j e i).func = .callback := fun {j e} he => by
    by_cases hj : j = i
    · subst hj
      rw [Function.update_self]
      exact he rfl
    · rw [Function.update_of_ne (Ne.symm hj)]
      exact hi
  cases hs with
  | spawn t j hpc hj =>
      refine hupdate fun e => ?_
      obtain ⟨_, hbuilt, _⟩ : s.PoolAt (.starting j) := hpc ▸ ho.pool t
      rw [(h.unbuilt i (by omega)).1] at hi
      cases hi
  | setTid j e hst htid hstep =>
      obtain ⟨_, rfl⟩ := EventLoopThread.step_eq_some.mp hstep
      exact hupdate fun _ => rfl
  | startReturns t j e hpc hstep =>
      obtain ⟨_, rfl⟩ := EventLoopThread.step_eq_some.mp hstep
      exact hupdate fun e => e ▸ hi
  | sub j b e hal hstep =>
      refine hupdate fun e => ?_
      subst e
      obtain ⟨he, rfl⟩ := EventLoopThread.step_eq_some.mp hstep
      rcases of_allowsSub hal with rfl | rfl | ⟨b, rfl⟩
      · exact absurd (Bool.and_eq_true_iff.mp hal).2 hcall
      · have hf : (s.sub j).func = .published := of_decide_eq_true (Bool.and_eq_true_iff.mp he).1
        rw [hf] at hi
        cases hi
      · exact hi
  | listenHere t s₁ hpc ht hl | runListen b l s₁ hal hc hstep hl =>
      obtain ⟨p, _, rfl⟩ := Option.map_eq_some_iff.mp hl
      exact hi
  | _ => exact hi

theorem lost_step (hb : s.Booted) (ho : s.Ordered) (h : s.Seated) (hs : Step s a s')
    (hi : s.Lost i) : s'.Lost i := by
  rcases hi with hi | ⟨hi, j, hj, hcall⟩
  · exact Or.inl (returned_step hb ho h hs hi).1
  · refine Or.inr ⟨callback_step ho h hs hi fun hno => ?_, j, ?_⟩
    · have hlt : j < s.built := h.lt_built (Or.inl (by rw [hj]; decide))
      exact hcall ((noCall_iff.mp hno).2 j hlt)
    · obtain ⟨hj', hl⟩ := returned_step hb ho h hs hj
      exact ⟨hj', hl ▸ hcall⟩

/-- **Who waits in vain goes on waiting**, in the first `2 ^ 32` calls of `Start`. -/
theorem stuck_step (hb : s.Booted) (ho : s.Ordered) (h : s.Seated) (hs : Step s a s')
    (hcalls : s'.calls ≤ 2 ^ 32) (ht : s.Stuck t) : s'.Stuck t := by
  obtain ⟨i, hpc, hi⟩ := ht
  have hi' := lost_step hb ho h hs hi
  have hne : s.pc t ≠ .idle := by
    rcases hpc with e | e <;> rw [e] <;> exact StartPc.noConfusion
  -- no other thread is in `Start`, and `t` is not elsewhere in it
  have hat : ∀ {u pc}, s.pc u = pc → pc ≠ .idle → s.pc t = pc := fun {u pc} hu hp => by
    rw [ho.one t u hne (hu ▸ hp)]
    exact hu
  cases hs with
  | first u hm hu h0 =>
      have hst := ho.started
      have hle : s.calls + 1 ≤ 2 ^ 32 := hcalls
      exact absurd ((ho.before (by omega)).1 t) hne
  | again u hm h0 =>
      have e : (s.fetchAdd u).pc = s.pc := if_neg h0
      exact ⟨i, by rw [e]; exact hpc, hi'⟩
  | spawn u j hu hj =>
      rcases hpc with e | e <;> rw [hat hu StartPc.noConfusion] at e <;> cases e
  | allStarted u j hu hj =>
      rcases hpc with e | e <;> rw [hat hu StartPc.noConfusion] at e <;> cases e
  | callbackReturns u hu hno =>
      rcases hpc with e | e <;> rw [hat hu StartPc.noConfusion] at e <;> cases e
  | listenHere u s₁ hu hin hl =>
      rcases hpc with e | e <;> rw [hat hu StartPc.noConfusion] at e <;> cases e
  | listenThere u b hu hin hstep =>
      rcases hpc with e | e <;> rw [hat hu StartPc.noConfusion] at e <;> cases e
  | wake u b hu hstep =>
      rcases hpc with e | e <;> rw [hat hu StartPc.noConfusion] at e <;> cases e
  | tidSet u j hu htid =>
      obtain rfl := ho.one t u hne (by rw [hu]; exact StartPc.noConfusion)
      rcases hpc with e | e
      · rw [hu] at e
        cases e
        exact ⟨i, Or.inr (Function.update_self _ _ _), hi'⟩
      · rw [hu] at e
        cases e
  | startReturns u j e hu hstep =>
      have hj := hat hu StartPc.noConfusion
      have hpub : (s.sub j).func = .published := by
        obtain ⟨he, _⟩ := EventLoopThread.step_eq_some.mp hstep
        exact of_decide_eq_true ((hb.handshake j).ptr ▸ (Bool.and_eq_true_iff.mp he).2)
      rcases hpc with e | e
      · rw [hj] at e
        cases e
      · rw [hj] at e
        cases e
        rcases hi with hi | ⟨hi, _⟩ <;> rw [hpub] at hi <;> cases hi
  | setTid | sub | base => exact ⟨i, hpc, hi'⟩
  | runListen b l s₁ hal hc hstep hl =>
      obtain ⟨p, _, rfl⟩ := Option.map_eq_some_iff.mp hl
      exact ⟨i, hpc, hi'⟩

/-! ## Getting on -/

/-- A thread that is in a call on the base loop can end it. -/
theorem finish_base (hu : s.pc u ≠ .queued) :
    ∃ b : EventLoop ThreadId (BaseFunctor F),
      Reachable step s { s with base := b } ∧ b.call u = .idle := by
  cases hc : s.base.call u with
  | idle => exact ⟨s.base, .refl _ _, hc⟩
  | queued k =>
      have he : s.base.step (.queueWake u) = some (s.base.queueWake u) :=
        EventLoop.step_eq_some.mpr ⟨EventLoop.enabled_queueWake.mpr ⟨k, hc⟩, rfl⟩
      refine ⟨s.base.queueWake u, .single (a := .base (.queueWake u)) ?_,
        Function.update_self _ _ _⟩
      simp [step, allows, queuesOwn, callsListen, hu, he]
  | quitting =>
      have he : s.base.step (.quitWake u) = some (s.base.quitWake u) :=
        EventLoop.step_eq_some.mpr ⟨decide_eq_true hc, rfl⟩
      refine ⟨s.base.quitWake u, .single (a := .base (.quitWake u)) ?_,
        Function.update_self _ _ _⟩
      simp [step, allows, queuesOwn, callsListen, hu, he]

/-- A thread that is in a call on a sub loop can end it, while the loop is there. -/
theorem finish_sub (hu : s.pc u ≠ .queued) (howner : u ≠ (s.sub j).owner)
    (hal : (s.sub j).loop.call u ≠ .idle → (s.sub j).alive = true) :
    ∃ l : EventLoop ThreadId F,
      Reachable step s { s with sub := Function.update s.sub j { s.sub j with loop := l } } ∧
        l.threadId = (s.sub j).loop.threadId ∧ l.call u = .idle := by
  cases hc : (s.sub j).loop.call u with
  | idle =>
      refine ⟨(s.sub j).loop, ?_, rfl, hc⟩
      rw [Function.update_eq_self]
      exact .refl _ _
  | queued k =>
      have he : (s.sub j).step (.loop (.queueWake u)) =
          some { s.sub j with loop := (s.sub j).loop.queueWake u } :=
        EventLoopThread.step_eq_some.mpr ⟨Bool.and_eq_true_iff.mpr
          ⟨EventLoop.enabled_queueWake.mpr ⟨k, hc⟩, hal (by rw [hc]; exact Call.noConfusion)⟩, rfl⟩
      refine ⟨(s.sub j).loop.queueWake u, .single (a := .sub j (.loop (.queueWake u))) ?_, rfl,
        Function.update_self _ _ _⟩
      simp [step, allowsSub, allows, hu, he]
  | quitting =>
      have he : (s.sub j).step (.loop (.quitWake u)) =
          some { s.sub j with loop := (s.sub j).loop.quitWake u } := by
        refine EventLoopThread.step_eq_some.mpr ⟨Bool.and_eq_true_iff.mpr
          ⟨decide_eq_true hc, Bool.and_eq_true_iff.mpr
            ⟨hal (by rw [hc]; exact Call.noConfusion), ?_⟩⟩, rfl⟩
        exact Bool.or_eq_true_iff.mpr (Or.inl (decide_eq_true howner))
      refine ⟨(s.sub j).loop.quitWake u, .single (a := .sub j (.loop (.quitWake u))) ?_, rfl,
        Function.update_self _ _ _⟩
      simp [step, allowsSub, allows, hu, he]

/-- **A thread can end its calls**, one loop after the other, while the loops are there. -/
theorem finish_subs (hu : s.pc u ≠ .queued) (howner : ∀ j, u ≠ (s.sub j).owner)
    (hal : ∀ j, (s.sub j).loop.call u ≠ .idle → (s.sub j).alive = true) (n : Nat) :
    ∃ f : Nat → EventLoop ThreadId F,
      Reachable step s { s with sub := fun j => { s.sub j with loop := f j } } ∧
        (∀ j, (f j).threadId = (s.sub j).loop.threadId) ∧
        (∀ j, j < n → (f j).call u = .idle) ∧ ∀ j, n ≤ j → f j = (s.sub j).loop := by
  induction n with
  | zero => exact ⟨fun j => (s.sub j).loop, .refl _ _, fun _ => rfl,
      fun j hj => absurd hj (Nat.not_lt_zero j), fun _ _ => rfl⟩
  | succ n ih =>
      obtain ⟨f, hr, hid, hdone, hrest⟩ := ih
      have haln : (f n).call u ≠ .idle → (s.sub n).alive = true := by
        rw [hrest n (Nat.le_refl n)]
        exact hal n
      obtain ⟨l, hr', hlid, hl⟩ := finish_sub (j := n)
        (s := { s with sub := fun j => { s.sub j with loop := f j } }) hu (howner n) haln
      refine ⟨Function.update f n l, ?_, fun j => ?_, fun j hj => ?_, fun j hj => ?_⟩
      · refine hr.trans ?_
        convert hr' using 2
        funext j
        by_cases hj : j = n
        · subst hj
          rw [Function.update_self, Function.update_self]
        · rw [Function.update_of_ne hj, Function.update_of_ne hj]
      · by_cases e : j = n
        · rw [e, Function.update_self]
          exact hlid.trans (hid n)
        · rw [Function.update_of_ne e]
          exact hid j
      · by_cases e : j = n
        · rw [e, Function.update_self]
          exact hl
        · rw [Function.update_of_ne e]
          exact hdone j (by omega)
      · rw [Function.update_of_ne (by omega)]
        exact hrest j (by omega)

/-- **The new thread can publish its loop**, once it is out of its calls. -/
theorem publish_run (h : s.Seated) (hf : (s.sub i).func = .callback) (hi : ¬ s.Lost i) :
    ∃ s', Reachable step s s' ∧ s'.pc = s.pc ∧ s'.calls = s.calls ∧
      s'.numThreads = s.numThreads ∧
      ∃ l, s'.sub i = { s.sub i with loop := l, func := .published, loopPtr := true } := by
  have hidle := h.subs i
  have hu : s.pc (.loop (i + 1)) ≠ .queued := by rw [hidle]; exact StartPc.noConfusion
  have hal : ∀ j, (s.sub j).loop.call (.loop (i + 1)) ≠ .idle → (s.sub j).alive = true := by
    intro j hj
    unfold EventLoopThread.alive
    cases hfj : (s.sub j).func with
    | notStarted => exact absurd (h.uncalled j _ hfj) hj
    | returned => exact absurd (Or.inr ⟨hf, j, hfj, hj⟩) hi
    | callback | published => rfl
  obtain ⟨b, hrb, hb⟩ := finish_base hu
  obtain ⟨f, hrf, hid, hdone, _⟩ := finish_subs (s := { s with base := b }) hu
    (fun j e => h.owners j i e.symm) hal (max s.built (i + 1))
  have hcall : ∀ j, j < max s.built (i + 1) → (f j).call (.loop (i + 1)) = .idle := hdone
  have hno : ({ s with base := b, sub := fun j => { s.sub j with loop := f j } } :
      Startup F).noCall (.loop (i + 1)) = true :=
    noCall_iff.mpr ⟨hb, fun j hj => hcall j (Nat.lt_of_lt_of_le hj (Nat.le_max_left _ _))⟩
  have hown : (f i).ownIdle = true := by
    refine decide_eq_true ?_
    rw [show (f i).threadId = .loop (i + 1) from (hid i).trans (h.ids i)]
    exact hcall i (Nat.lt_of_lt_of_le (Nat.lt_succ_self i) (Nat.le_max_right _ _))
  have hstep : step { s with base := b, sub := fun j => { s.sub j with loop := f j } }
      (.sub i .publish) = some { s with
        base := b
        sub := Function.update (fun j => { s.sub j with loop := f j }) i
          { s.sub i with loop := f i, func := .published, loopPtr := true } } := by
    simp [step, allowsSub, hno, hidle, EventLoopThread.step, EventLoopThread.enabled, hf, hown,
      EventLoopThread.apply]
  exact ⟨_, (hrb.trans hrf).trans (.single hstep), rfl, rfl, rfl, f i, by simp⟩

/-- `Start` gets on: the thread is nearer to its end, and does not wait in vain. -/
def GetsOn (s : Startup F) (t : ThreadId) : Prop :=
  ∃ s', Reachable step s s' ∧ s'.calls = s.calls ∧ ¬ s'.Stuck t ∧
    (s'.pc t).remaining s'.numLoops < (s.pc t).remaining s.numLoops

theorem getsOn_of (hr : Reachable step s s') (hcalls : s'.calls = s.calls)
    (hn : s'.numThreads = s.numThreads) (hpc : s'.pc t = pc)
    (hno : ∀ i, pc = .spawned i ∨ pc = .waiting i → ¬ s'.Lost i)
    (hlt : pc.remaining s.numLoops < (s.pc t).remaining s.numLoops) : s.GetsOn t := by
  refine ⟨s', hr, hcalls, ?_, ?_⟩
  · rintro ⟨i, hi, hl⟩
    rw [hpc] at hi
    exact hno i hi hl
  · rw [hpc, show s'.numLoops = s.numLoops from congrArg Int.toNat hn]
    exact hlt

/-- The next thread is started, or all are. -/
theorem getsOn_starting (hpc : s.pc t = .starting i) : s.GetsOn t := by
  have hr : Reachable step s (s.startNext t i) := .single (a := .next t) (by simp [step, hpc])
  unfold startNext at hr
  split at hr
  · rename_i hlt
    refine getsOn_of hr rfl rfl (Function.update_self _ _ _) ?_ ?_
    · rintro j (e | e) <;> cases e
      have hf : (((s.spawn t i).setPc t (.spawned i)).sub i).func = .notStarted :=
        congrArg EventLoopThread.func (Function.update_self i _ s.sub)
      rintro (hl | ⟨hl, _⟩) <;> rw [hf] at hl <;> cases hl
    · rw [hpc]
      exact Nat.lt_succ_self _
  · refine getsOn_of hr rfl rfl (Function.update_self _ _ _) (fun j hj => ?_) ?_
    · split at hj <;> rcases hj with e | e <;> cases e
    · rw [hpc]
      split <;> simp only [StartPc.remaining] <;> omega

/-- The new thread stores its id, if it has not yet. -/
theorem tid_run (hb : s.Booted) (h : s.Seated) (hst : (s.thread i).started = true)
    (hi : ¬ s.Lost i) :
    ∃ s', Reachable step s s' ∧ s'.pc = s.pc ∧ s'.calls = s.calls ∧
      s'.numThreads = s.numThreads ∧ (s'.thread i).tid.isSome = true ∧ ¬ s'.Lost i := by
  by_cases htid : (s.thread i).tid = none
  · have hbuilt := (hb.tid i).mp htid
    have hf := (hb.handshake i).built hbuilt
    have hstart : (s.sub i).step .start = some ((s.sub i).apply .start) :=
      EventLoopThread.step_eq_some.mpr ⟨decide_eq_true hbuilt, rfl⟩
    refine ⟨{ s with
        thread := Function.update s.thread i ((s.thread i).setTid (.loop (i + 1)))
        sub := Function.update s.sub i ((s.sub i).apply .start) },
      .single (a := .setTid i) (by simp [step, hst, htid, hstart]), rfl, rfl, rfl,
      by simp [Thread.setTid], ?_⟩
    -- the new thread makes no call yet
    have hcall : ∀ j, (Function.update s.sub i ((s.sub i).apply .start) j).loop.call
        (.loop (i + 1)) = .idle := fun j => by
      by_cases e : j = i
      · rw [e, Function.update_self]
        exact (h.fresh i hf).2 i
      · rw [Function.update_of_ne e]
        exact (h.fresh i hf).2 j
    rintro (hl | ⟨_, j, _, hj⟩)
    · change (Function.update s.sub i ((s.sub i).apply .start) i).func = .returned at hl
      rw [Function.update_self] at hl
      cases hl
    · exact hj (hcall j)
  · exact ⟨s, .refl _ _, rfl, rfl, rfl, Option.isSome_iff_ne_none.mpr htid, hi⟩

/-- ... and its owner goes on to wait for the loop. -/
theorem getsOn_spawned (hb : s.Booted) (ho : s.Ordered) (h : s.Seated)
    (hpc : s.pc t = .spawned i) (hi : ¬ s.Lost i) : s.GetsOn t := by
  obtain ⟨_, _, _, hst⟩ : s.PoolAt (.spawned i) := hpc ▸ ho.pool t
  obtain ⟨s', hr, hpc', hcalls, hn, htid, hi'⟩ := tid_run hb h hst hi
  have hstep : s'.step (.tidSet t) = some (s'.setPc t (.waiting i)) := by
    simp [step, hpc', hpc, htid]
  refine getsOn_of (hr.trans (.single hstep)) hcalls hn (Function.update_self _ _ _) ?_ ?_
  · rintro j (e | e) <;> cases e
    exact hi'
  · rw [hpc]
    exact Nat.lt_succ_self _

/-- The new thread publishes its loop, if it has not yet, and its owner goes on. -/
theorem getsOn_waiting (hb : s.Booted) (ho : s.Ordered) (h : s.Seated)
    (hpc : s.pc t = .waiting i) (hi : ¬ s.Lost i) : s.GetsOn t := by
  obtain ⟨hlt, _, hlen, htid⟩ : s.PoolAt (.waiting i) := hpc ▸ ho.pool t
  have howner : (s.sub i).ownerPc = .waiting := by
    rcases hb.owner i with e | e | e
    · rw [(hb.tid i).mpr e] at htid
      cases htid
    · exact e
    · exact absurd ((ho.owners i).mp e) (by omega)
  -- the loop is published, at once or after its callback
  have hpub : ∃ s' l, Reachable step s s' ∧ s'.pc = s.pc ∧ s'.calls = s.calls ∧
      s'.numThreads = s.numThreads ∧
      s'.sub i = { s.sub i with loop := l, func := .published, loopPtr := true } := by
    cases hf : (s.sub i).func with
    | notStarted => exact absurd hf ((hb.handshake i).waiting howner)
    | callback =>
        obtain ⟨s', hr, hpc', hcalls, hn, l, hl⟩ := publish_run h hf hi
        exact ⟨s', l, hr, hpc', hcalls, hn, hl⟩
    | published =>
        have hptr : (s.sub i).loopPtr = true := (hb.handshake i).ptr.trans (decide_eq_true hf)
        exact ⟨s, (s.sub i).loop, .refl _ _, rfl, rfl, rfl, by rw [← hf, ← hptr]⟩
    | returned => exact absurd (Or.inl hf) hi
  obtain ⟨s', l, hr, hpc', hcalls, hn, hl⟩ := hpub
  have hsub : (s'.sub i).step .startReturns = some ((s'.sub i).apply .startReturns) :=
    EventLoopThread.step_eq_some.mpr ⟨by rw [hl]; simp [EventLoopThread.enabled, howner], rfl⟩
  have hstep : s'.step (.startReturns t) =
      some ((s'.pushLoop i ((s'.sub i).apply .startReturns)).setPc t (.starting (i + 1))) := by
    simp [step, hpc', hpc, hsub]
  refine getsOn_of (hr.trans (.single hstep)) hcalls hn (Function.update_self _ _ _) ?_ ?_
  · rintro j (e | e) <;> cases e
  · rw [hpc]
    show 3 * (s.numLoops - (i + 1)) + 4 < 3 * (s.numLoops - i) + 2
    omega

/-- The callback on the base loop ends its calls and returns. -/
theorem getsOn_callback (ho : s.Ordered) (h : s.Seated) (hpc : s.pc t = .callback) :
    s.GetsOn t := by
  have hfull : s.PoolAt .callback := hpc ▸ ho.pool t
  have hbuilt : s.built = 0 := by
    rw [hfull.1, numLoops, h.callback t hpc]
    rfl
  obtain ⟨b, hr, hb⟩ := finish_base (s := s) (u := t) (by rw [hpc]; exact StartPc.noConfusion)
  have hno : ({ s with base := b } : Startup F).noCall t = true :=
    noCall_iff.mpr ⟨hb, fun i hi => absurd hi (hbuilt ▸ Nat.not_lt_zero i)⟩
  have hstep : step { s with base := b } (.callbackReturns t) =
      some ({ s with base := b }.setPc t .listen) := by
    simp [step, hpc, hno]
  refine getsOn_of (hr.trans (.single hstep)) rfl rfl (Function.update_self _ _ _) ?_ ?_
  · rintro j (e | e) <;> cases e
  · rw [hpc]
    simp [StartPc.remaining]

/-- `RunInLoop` runs `Listen` here, or queues it. -/
theorem getsOn_listen (hb : s.Booted) (h : s.Seated) (hpc : s.pc t = .listen) : s.GetsOn t := by
  by_cases ht : s.base.isInLoopThread t = true
  · obtain ⟨s', hl⟩ : ∃ s', s.listen = some s' := by
      unfold listen Channel.enableReading
      rw [hb.acceptor, Channel.updateChannel_slot]
      exact ⟨_, rfl⟩
    have hs' : s'.calls = s.calls ∧ s'.numThreads = s.numThreads := by
      obtain ⟨_, _, rfl⟩ := of_listen hl hb.acceptor
      exact ⟨rfl, rfl⟩
    have hstep : s.step (.listen t) = some (s'.setPc t .idle) := by simp [step, hpc, ht, hl]
    refine getsOn_of (.single hstep) hs'.1 hs'.2 (Function.update_self _ _ _) ?_ ?_
    · rintro j (e | e) <;> cases e
    · rw [hpc]
      simp [StartPc.remaining]
  · have hbase : s.base.step (.queueInLoop t .listen) = some (s.base.queueInLoop t .listen) := by
      refine EventLoop.step_eq_some.mpr ⟨EventLoop.mayCall_iff.mpr ⟨h.busy t ?_ ?_ ?_, fun e => ?_⟩,
        rfl⟩
      · rw [hpc]; exact StartPc.noConfusion
      · rw [hpc]; exact StartPc.noConfusion
      · rw [hpc]; exact StartPc.noConfusion
      · exact absurd (decide_eq_true e) ht
    have hstep : s.step (.listen t) =
        some ({ s with base := s.base.queueInLoop t .listen }.setPc t .queued) := by
      simp [step, hpc, ht, hbase]
    refine getsOn_of (.single hstep) rfl rfl (Function.update_self _ _ _) ?_ ?_
    · rintro j (e | e) <;> cases e
    · rw [hpc]
      simp [StartPc.remaining]

/-- `QueueInLoop` ends with its `Wakeup`. -/
theorem getsOn_queued (h : s.Seated) (hpc : s.pc t = .queued) : s.GetsOn t := by
  have hbase : s.base.step (.queueWake t) = some (s.base.queueWake t) :=
    EventLoop.step_eq_some.mpr ⟨EventLoop.enabled_queueWake.mpr (h.queued t hpc), rfl⟩
  have hstep : s.step (.wake t) = some ({ s with base := s.base.queueWake t }.setPc t .idle) := by
    simp [step, hpc, hbase]
  refine getsOn_of (.single hstep) rfl rfl (Function.update_self _ _ _) ?_ ?_
  · rintro j (e | e) <;> cases e
  · rw [hpc]
    simp [StartPc.remaining]

/-! ## Every run -/

section Runs

variable {name : List Char} {numThreads : Int} {callback : Bool} {fd : Nat}
  {tr : List (Startup F × Action F)}

theorem seated_run (h : Run step (init name numThreads callback fd) tr s)
    (hcalls : s.calls ≤ 2 ^ 32) : s.Seated := by
  induction h with
  | start => exact seated_init
  | step tr s a s' h hs ih =>
      have hle := Nat.le_trans (const_step (of_step hs)).2.2 hcalls
      exact seated_step (booted_run h) (ordered_run h hle) (ih hle) (of_step hs) hcalls

/-- **Who does not wait in vain gets on.** -/
theorem gets_on (h : Run step (init name numThreads callback fd) tr s) (hcalls : s.calls ≤ 2 ^ 32)
    (ht : s.pc t ≠ .idle) (hno : ¬ s.Stuck t) : s.GetsOn t := by
  have hb := booted_run h
  have ho := ordered_run h hcalls
  have hs := seated_run h hcalls
  cases hpc : s.pc t with
  | idle => exact absurd hpc ht
  | starting i => exact getsOn_starting hpc
  | spawned i => exact getsOn_spawned hb ho hs hpc fun hl => hno ⟨i, Or.inl hpc, hl⟩
  | waiting i => exact getsOn_waiting hb ho hs hpc fun hl => hno ⟨i, Or.inr hpc, hl⟩
  | callback => exact getsOn_callback ho hs hpc
  | listen => exact getsOn_listen hb hs hpc
  | queued => exact getsOn_queued hs hpc

/-- A run on from a state of a run, in which a thread waits in vain. -/
theorem stuck_run {s₁ : Startup F} {tr₁ : List (Startup F × Action F)}
    (h : Run step (init name numThreads callback fd) tr s) (ht : s.Stuck t)
    (h₁ : Run step s tr₁ s₁) (hcalls : s₁.calls ≤ 2 ^ 32) : s₁.Stuck t := by
  induction h₁ with
  | start => exact ht
  | step tr₁ s₁ a s₂ h₁ hs ih =>
      have hle := Nat.le_trans (const_step (of_step hs)).2.2 hcalls
      have hr := h.trans h₁
      exact stuck_step (booted_run hr) (ordered_run hr hle) (seated_run hr hle) (of_step hs) hcalls
        (ih hle)

/-- **`Start` returns, unless a loop ends too early.** From every state of every run, a thread
    that is in `Start` can still be brought to its end, if and only if it does not wait for a loop
    that has ended already, or whose thread is in a call on a loop that is destroyed. -/
theorem start_returns (h : Run step (init name numThreads callback fd) tr s)
    (hcalls : s.calls ≤ 2 ^ 32) (ht : s.pc t ≠ .idle) :
    (∃ tr' s', Run step s tr' s' ∧ s'.calls ≤ 2 ^ 32 ∧ s'.pc t = .idle) ↔ ¬ s.Stuck t := by
  constructor
  · rintro ⟨tr', s', hr, hle, hidle⟩ hst
    obtain ⟨i, e | e, _⟩ := stuck_run h hst hr hle <;> rw [hidle] at e <;> cases e
  · intro hno
    generalize hm : (s.pc t).remaining s.numLoops = m
    induction m using Nat.strongRecOn generalizing s tr with
    | _ m ih =>
        obtain ⟨s₁, ⟨tr₁, hr⟩, hc, hno₁, hlt⟩ := gets_on h hcalls ht hno
        have hle : s₁.calls ≤ 2 ^ 32 := hc ▸ hcalls
        by_cases hidle : s₁.pc t = .idle
        · exact ⟨tr₁, s₁, hr, hle, hidle⟩
        · obtain ⟨tr₂, s₂, hr₂, h₂⟩ := ih _ (hm ▸ hlt) (h.trans hr) hle hidle hno₁ rfl
          exact ⟨_, s₂, hr.trans hr₂, h₂⟩

end Runs

/-- The base loop's thread calls `Start` for one sub loop. The init callback has given the loop to a
    user's thread, which ends it before the owner looks for it. -/
def startEnded : List (Action Nat) :=
  [.fetchAdd (.loop 0), .next (.loop 0), .setTid 0, .tidSet (.loop 0), .sub 0 .publish,
    .sub 0 (.loop .enterLoop), .sub 0 (.loop (.quitStore (.user 1))),
    .sub 0 (.loop (.quitWake (.user 1))), .sub 0 (.loop .test), .sub 0 .unpublish]

/-- `Start` waits for ever. -/
theorem start_returns_not : ∃ tr s,
    Run step (init ['s'] 1 true 2 : Startup Nat) tr s ∧ s.pc (.loop 0) = .waiting 0 ∧
    ¬ ∃ tr' s', Run step s tr' s' ∧ s'.calls ≤ 2 ^ 32 ∧ s'.pc (.loop 0) = .idle := by
  have h : ((Machine.exec step (init ['s'] 1 true 2 : Startup Nat) startEnded).any fun s =>
      decide (s.pc (.loop 0) = .waiting 0 ∧ (s.sub 0).func = .returned ∧ s.calls = 1)) = true := by
    decide +kernel
  obtain ⟨s, hs, hb⟩ := (Option.any_eq_true _ _).mp h
  obtain ⟨hpc, hf, hc⟩ := of_decide_eq_true hb
  have hrun := exec_run .start hs
  refine ⟨_, s, hrun, hpc, fun hr => ?_⟩
  exact (start_returns hrun (by rw [hc]; decide) (by rw [hpc]; exact StartPc.noConfusion)).mp hr
    ⟨0, Or.inr hpc, Or.inl hf⟩

end Startup

end CuteMuduo
