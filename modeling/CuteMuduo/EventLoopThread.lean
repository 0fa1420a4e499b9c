/-
  File:      CuteMuduo/EventLoopThread.lean
  Subject:   `EventLoopThread` (event_loop_thread.hpp, event_loop_thread.cpp): the thread that
             builds an `EventLoop` and runs it, the owner that starts and destroys it, and the
             race of `Quit` against the head of `Loop()`.

  `ThreadFunc` builds a local `loop`, runs the init callback, publishes `&loop` in `loop_` under
  `mtx_` and only then calls `loop.Loop()`, which begins with `quit_ = false`. `StartLoop` hands
  the pointer out as soon as it is published. A `Quit` that stores between the two is undone.

  The steps of the loop are those of the machine `EventLoop`; added here are the pointer `loop_`,
  the owner's `StartLoop` and destructor, and the order `ThreadFunc` puts on all this. Other
  threads use the loop while it exists; a call on it afterwards is undefined and no step.

  * `queueInv_loop` -- the loop inside keeps its task queue in order;
  * `quit_kept_iff` -- in which runs a stored `quit_` stays until `Loop()` returns.
-/
import CuteMuduo.EventLoop.Queue

namespace CuteMuduo

open Machine

/-- Where `ThreadFunc` stands. -/
inductive FuncPc where
  | notStarted
  /-- `loop` is built; `cb_` runs, or there is none. -/
  | callback
  /-- `loop_ = &loop` is stored; about to call `Loop()`, or inside. -/
  | published
  /-- `loop_ = nullptr` is stored and `loop` destroyed. -/
  | returned
  deriving DecidableEq, Repr

/-- Where the owner stands. -/
inductive OwnerPc where
  | built
  /-- In `StartLoop`, at the condition variable. -/
  | waiting
  /-- `StartLoop` has returned. -/
  | started
  /-- In the destructor, past the test of `loop_`, before the store of `Quit`. -/
  | quit
  /-- In the destructor's `Quit`, past its store. -/
  | wake
  /-- In the destructor's `Join`. -/
  | joining
  | destroyed
  deriving DecidableEq, Repr

/-- An `EventLoopThread`, the local `loop` of its `ThreadFunc` and its owner. -/
structure EventLoopThread (T F : Type) where
  owner : T
  /-- `loop_ != nullptr`. -/
  loopPtr : Bool
  exiting : Bool
  func : FuncPc
  ownerPc : OwnerPc
  /-- `loop`; it exists while `ThreadFunc` is in `callback` or in `published`. -/
  loop : EventLoop T F

namespace EventLoopThread

variable {T F : Type}

/-- `EventLoopThread::EventLoopThread()`, called by `owner`; `t` is the thread `thread_` will
    start. -/
def create (owner t : T) : EventLoopThread T F where
  owner := owner
  loopPtr := false
  exiting := false
  func := .notStarted
  ownerPc := .built
  loop := .create t

/-- One step. -/
inductive Action (T F : Type) where
  /-- `StartLoop()` up to the wait: `thread_.Start()`. -/
  | start
  /-- `ThreadFunc()`: the store to `loop_` and `cv_.notify_one()`. -/
  | publish
  /-- `cv_.wait` finds `loop_ != nullptr`; `StartLoop()` returns. -/
  | startReturns
  /-- `~EventLoopThread()`: `exiting_ = true` and the test of `loop_`. -/
  | destroy
  /-- `~EventLoopThread()`: the store of `loop_->Quit()`. -/
  | destroyQuit
  /-- `~EventLoopThread()`: the rest of `loop_->Quit()`. -/
  | destroyWake
  /-- `thread_.Join()` returns. -/
  | join
  /-- `ThreadFunc()`: `loop_ = nullptr`, and its end. -/
  | unpublish
  /-- A step of the loop. -/
  | loop (a : EventLoop.Action T F)
  deriving DecidableEq, Repr

/-- The local `loop` exists. -/
def alive (e : EventLoopThread T F) : Bool :=
  match e.func with
  | .callback | .published => true
  | .notStarted | .returned => false

/-! ## What becomes of a stored `Quit` -/

/-- Once `Quit` has stored, `quit_` is set until `Loop()` returns. -/
def QuitHeld (l : EventLoop T F) : Prop :=
  l.quitCalled = true → l.quit = true ∨ l.phase = .left

/-- **Quit is not lost**: once `Quit` has stored, `quit_` is set until `Loop()` returns, and the
    destructor does not wait in `Join` for a loop that runs with `quit_ == false`. -/
structure QuitKept (e : EventLoopThread T F) : Prop where
  quit : QuitHeld e.loop
  join : ¬ (e.ownerPc = .joining ∧ e.loop.phase.running = true ∧ e.loop.quit = false)

/-- Past the store of the destructor's `Quit`. -/
def quitStored : OwnerPc → Bool
  | .wake | .joining => true
  | _ => false

/-- The invariant behind `QuitKept`. -/
structure KeptInv (e : EventLoopThread T F) : Prop where
  quit : QuitHeld e.loop
  owner : quitStored e.ownerPc = true → e.loop.quitCalled = true

theorem KeptInv.quitKept {e : EventLoopThread T F} (h : KeptInv e) : QuitKept e := by
  refine ⟨h.quit, fun ⟨ho, hr, hq⟩ => ?_⟩
  rcases h.quit (h.owner (by rw [ho]; rfl)) with hq' | hl
  · rw [hq] at hq'
    cases hq'
  · rw [hl] at hr
    cases hr

/-! ## Steps -/

variable [DecidableEq T]

/-- Thread `t` may start a call on the loop: the owner outside `StartLoop` and the destructor,
    the loop's own thread in `cb_` and inside `Loop()`, any other thread at any time. -/
def mayCall (e : EventLoopThread T F) (t : T) : Bool :=
  e.alive && (decide (t ≠ e.owner) || decide (e.ownerPc = .started)) &&
    (decide (t ≠ e.loop.threadId) || decide (e.func = .callback) || e.loop.phase.running)

/-- When a step is possible. -/
def enabled (e : EventLoopThread T F) : Action T F → Bool
  | .start => decide (e.ownerPc = .built)
  | .publish => decide (e.func = .callback) && e.loop.ownIdle
  | .startReturns => decide (e.ownerPc = .waiting) && e.loopPtr
  | .destroy => decide (e.ownerPc = .built) || decide (e.ownerPc = .started)
  | .destroyQuit => decide (e.ownerPc = .quit) && e.alive && e.loop.enabled (.quitStore e.owner)
  | .destroyWake => decide (e.ownerPc = .wake) && e.alive && e.loop.enabled (.quitWake e.owner)
  | .join => decide (e.ownerPc = .joining) && decide (e.func = .returned)
  | .unpublish => decide (e.func = .published) && match e.loop.phase with
    | .left => true
    | _ => false
  | .loop a => e.loop.enabled a && match a with
    | .queueInLoop t _ | .runInLoop t _ | .quitStore t => e.mayCall t
    | .quitWake t => e.alive && (decide (t ≠ e.owner) || decide (e.ownerPc = .started))
    | .queueWake _ => e.alive
    | _ => decide (e.func = .published)

/-- What a step does. -/
def apply (e : EventLoopThread T F) : Action T F → EventLoopThread T F
  | .start => { e with func := .callback, ownerPc := .waiting }
  | .publish => { e with func := .published, loopPtr := true }
  | .startReturns => { e with ownerPc := .started }
  | .destroy =>
    { e with exiting := true, ownerPc := if e.loopPtr then .quit else .destroyed }
  | .destroyQuit => { e with ownerPc := .wake, loop := e.loop.quitStore e.owner }
  | .destroyWake => { e with ownerPc := .joining, loop := e.loop.quitWake e.owner }
  | .join => { e with ownerPc := .destroyed }
  | .unpublish => { e with func := .returned, loopPtr := false }
  | .loop a => { e with loop := e.loop.apply a }

/-- **One step of the thread, its owner and the threads around them.** -/
def step (e : EventLoopThread T F) (a : Action T F) : Option (EventLoopThread T F) :=
  if e.enabled a then some (e.apply a) else none

theorem step_eq_some {e e' : EventLoopThread T F} {a : Action T F} :
    e.step a = some e' ↔ e.enabled a = true ∧ e.apply a = e' := by
  unfold step
  split <;> simp_all

/-- The step of the loop that a step of the thread and its owner makes. -/
def loopAction (e : EventLoopThread T F) : Action T F → Option (EventLoop.Action T F)
  | .destroyQuit => some (.quitStore e.owner)
  | .destroyWake => some (.quitWake e.owner)
  | .loop a => some a
  | _ => none

/-- **The loop inside is the machine `EventLoop`**: every step is a step of it, or leaves it
    alone. -/
theorem loop_step {e e' : EventLoopThread T F} {a : Action T F} (hs : e.step a = some e') :
    match e.loopAction a with
    | some b => e.loop.step b = some e'.loop
    | none => e'.loop = e.loop := by
  obtain ⟨he, rfl⟩ := step_eq_some.mp hs
  cases a with
  | destroyQuit =>
      exact EventLoop.step_eq_some.mpr ⟨(Bool.and_eq_true _ _ ▸ he).2, rfl⟩
  | destroyWake =>
      exact EventLoop.step_eq_some.mpr ⟨(Bool.and_eq_true _ _ ▸ he).2, rfl⟩
  | loop b => exact EventLoop.step_eq_some.mpr ⟨(Bool.and_eq_true _ _ ▸ he).1, rfl⟩
  | _ => rfl

theorem loop_simulates : Simulates (step (T := T) (F := F)) EventLoop.step (fun _ => True)
    EventLoopThread.loop := by
  intro e a e' _ hs
  have h := loop_step hs
  cases hl : e.loopAction a with
  | none =>
      rw [hl] at h
      rw [show e'.loop = e.loop from h]
      exact .refl _ _
  | some b =>
      rw [hl] at h
      exact .single h

/-- **The task queue of the loop inside** is in order, whatever the owner does. -/
theorem queueInv_loop {owner t : T} {e : EventLoopThread T F}
    (h : Reachable step (create owner t) e) : EventLoop.QueueInv t e.loop := by
  obtain ⟨tr, hl⟩ := loop_simulates.reachable trivial (fun _ _ _ _ _ => trivial) h
  exact EventLoop.queueInv_run hl

/-! ## `Quit` against the head of `Loop()` -/

/-- A step of the loop keeps what `Quit` stored, but for the head of `Loop()`. -/
theorem quit_step {l l' : EventLoop T F} {a : EventLoop.Action T F}
    (h : QuitHeld l) (ha : a = .enterLoop → l.quitCalled = false) (hs : l.step a = some l') :
    QuitHeld l' := by
  obtain ⟨he, rfl⟩ := EventLoop.step_eq_some.mp hs
  -- a running loop whose flag is set keeps it set
  have hrun : l.phase.running = true → l.quitCalled = true → l.quit = true := by
    intro hr hc
    rcases h hc with hq | hl
    · exact hq
    · rw [hl] at hr
      cases hr
  cases a with
  | queueInLoop t f => exact h
  | queueWake t => exact h
  | runInLoop t f =>
      show QuitHeld (l.runInLoop t f)
      unfold EventLoop.runInLoop
      split <;> exact h
  | quitStore t => exact fun _ => Or.inl rfl
  | quitWake t => exact h
  | enterLoop =>
      intro hc
      change l.quitCalled = true at hc
      rw [ha rfl] at hc
      cases hc
  | test =>
      intro hc
      exact Or.inl (hrun (by rw [(EventLoop.enabled_test.mp he).2]; rfl) hc)
  | pollReturn wake =>
      exact fun hc => Or.inl (hrun (by rw [(EventLoop.enabled_pollReturn.mp he).2.2]; rfl) hc)
  | handleRead =>
      exact fun hc => Or.inl (hrun (by rw [(EventLoop.enabled_handleRead.mp he).2]; rfl) hc)
  | startFunctors =>
      exact fun hc => Or.inl (hrun (by rw [(EventLoop.enabled_startFunctors.mp he).2]; rfl) hc)
  | swap => exact fun hc => Or.inl (hrun (by rw [(EventLoop.enabled_swap.mp he).2]; rfl) hc)
  | next t =>
      obtain ⟨_, _, f, rest, hp⟩ := EventLoop.enabled_next.mp he
      show QuitHeld (l.next t)
      rw [EventLoop.next_of_batch hp]
      exact fun hc => Or.inl (hrun (by rw [hp]; rfl) hc)
  | ret =>
      obtain ⟨_, f, rest, hp⟩ := EventLoop.enabled_ret.mp he
      show QuitHeld l.ret
      rw [EventLoop.ret_of_functor hp]
      exact fun hc => Or.inl (hrun (by rw [hp]; rfl) hc)
  | finish => exact fun hc => Or.inl (hrun (by rw [(EventLoop.enabled_finish.mp he).2]; rfl) hc)

/-- No step takes back that `Quit` has stored. -/
theorem quitCalled_step {l l' : EventLoop T F} {a : EventLoop.Action T F}
    (h : l.quitCalled = true) (hs : l.step a = some l') : l'.quitCalled = true := by
  obtain ⟨_, rfl⟩ := EventLoop.step_eq_some.mp hs
  cases a with
  | quitStore t => rfl
  | runInLoop t f =>
      show (l.runInLoop t f).quitCalled = true
      unfold EventLoop.runInLoop
      split <;> exact h
  | next t =>
      show (l.next t).quitCalled = true
      unfold EventLoop.next
      split <;> exact h
  | ret =>
      show l.ret.quitCalled = true
      unfold EventLoop.ret
      split <;> exact h
  | _ => exact h

/-- The head of `Loop()`, run after a `Quit` has stored. -/
def clearsQuit (e : EventLoopThread T F) (a : Action T F) : Prop :=
  a = .loop .enterLoop ∧ e.loop.quitCalled = true

theorem keptInv_step {e e' : EventLoopThread T F} {a : Action T F} (h : KeptInv e)
    (ha : ¬ clearsQuit e a) (hs : e.step a = some e') : KeptInv e' := by
  have hl := loop_step hs
  obtain ⟨he, rfl⟩ := step_eq_some.mp hs
  cases a with
  | start => exact ⟨h.quit, fun ho => by cases ho⟩
  | publish => exact ⟨h.quit, h.owner⟩
  | startReturns => exact ⟨h.quit, fun ho => by cases ho⟩
  | destroy =>
      refine ⟨h.quit, fun ho => ?_⟩
      change quitStored (if e.loopPtr then .quit else .destroyed) = true at ho
      split at ho <;> cases ho
  | destroyQuit => exact ⟨fun _ => Or.inl rfl, fun _ => rfl⟩
  | destroyWake =>
      have ho : e.ownerPc = .wake := by
        simp only [enabled, Bool.and_eq_true, decide_eq_true_eq] at he
        exact he.1.1
      exact ⟨h.quit, fun _ => h.owner (by rw [ho]; rfl)⟩
  | join => exact ⟨h.quit, fun ho => by cases ho⟩
  | unpublish => exact ⟨h.quit, h.owner⟩
  | loop b =>
      refine ⟨quit_step h.quit (fun hb => ?_) hl, fun ho => quitCalled_step (h.owner ho) hl⟩
      rw [hb] at ha
      exact Bool.eq_false_iff.mpr fun hc => ha ⟨rfl, hc⟩

/-- **A stored `Quit` is kept, exactly where no `Quit` stores before `Loop()` is entered.** In
    every run of the thread, its owner and any other threads, `quit_` stays set until `Loop()`
    returns, and no `Join` waits for a loop running without it, in all states, if and only if
    the head of `Loop()` never runs after a store of `Quit`. -/
theorem quit_kept_iff {owner t : T} {tr : List (EventLoopThread T F × Action T F)}
    {e : EventLoopThread T F} (h : Run step (create owner t) tr e) :
    ((∀ p ∈ tr, QuitKept p.1) ∧ QuitKept e) ↔ ∀ p ∈ tr, ¬ clearsQuit p.1 p.2 := by
  constructor
  · rintro hall ⟨s, a⟩ hp ⟨rfl, hc⟩
    obtain ⟨s', hs, hk⟩ := h.all_after hall hp
    rw [← (step_eq_some.mp hs).2] at hk
    rcases hk.quit hc with hq | hl
    · cases hq
    · cases hl
  · have h0 : KeptInv (create owner t : EventLoopThread T F) :=
      ⟨fun hc => by (cases hc), fun ho => by cases ho⟩
    refine h.all_of_forall (C := fun e a => ¬ clearsQuit e a) fun tr s h' hC => ?_
    exact (h'.invOn h0 (fun _ _ _ hI hC hs => keptInv_step hI hC hs) hC).quitKept

/-- The owner destroys the thread as soon as `StartLoop` has returned, with `Loop()` not entered
    yet: the loop polls without `quit_` and the owner waits for it. -/
theorem quit_lost : ¬ ∀ (tr : List (EventLoopThread Nat Nat × Action Nat Nat))
    (e : EventLoopThread Nat Nat), Run step (create 1 0) tr e → QuitKept e := by
  intro hall
  have h : exec step (create 1 0 : EventLoopThread Nat Nat) [.start, .publish, .startReturns,
    .destroy, .destroyQuit, .destroyWake, .loop .enterLoop, .loop .test] = some _ := rfl
  exact (hall _ _ (exec_run .start h)).join ⟨rfl, rfl, rfl⟩

/-- A `Quit` after the head of `Loop()` ends the loop, and the owner's `Join` returns. -/
theorem quit_kept_destroy : ∃ (tr : List (EventLoopThread Nat Nat × Action Nat Nat))
    (e : EventLoopThread Nat Nat), Run step (create 1 0) tr e ∧ e.ownerPc = .destroyed ∧
    (∀ p ∈ tr, QuitKept p.1) ∧ QuitKept e := by
  have h : exec step (create 1 0 : EventLoopThread Nat Nat) [.start, .publish, .startReturns,
    .loop .enterLoop, .loop .test, .destroy, .destroyQuit, .destroyWake,
    .loop (.pollReturn true), .loop .handleRead, .loop .startFunctors, .loop .swap,
    .loop .finish, .loop .test, .unpublish, .join] = some _ := rfl
  refine ⟨_, _, exec_run .start h, rfl, (quit_kept_iff (exec_run .start h)).mpr ?_⟩
  rintro ⟨s, a⟩ hm ⟨rfl, hc⟩
  -- `Loop()` is entered once, before the destructor
  iterate 16 (rcases List.mem_cons.mp hm with e | hm; (cases e; try cases hc))
  exact absurd hm List.not_mem_nil

end EventLoopThread

end CuteMuduo
