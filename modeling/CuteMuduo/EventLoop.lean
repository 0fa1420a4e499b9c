/-
  File:      CuteMuduo/EventLoop.lean
  Subject:   THE EVENT LOOP (event_loop.hpp, event_loop.cpp): one `EventLoop`, the thread that
             runs it and any number of other threads, at the granularity of the code's accesses
             to what they share.

  Shared are `quit_` and `calling_pending_functors_` (atomics), `pending_functors_` (under
  `mtx_`) and the counter of the eventfd `wakeup_fd_`. Every access to one of them is a step of
  its own, so a step of another thread may come between any two:

  * `QueueInLoop` is the push under `mtx_` (`queueInLoop`) and then the test
    `!IsInLoopThread() || calling_pending_functors_` with its `Wakeup` (`queueWake`);
  * `Quit` is the store (`quitStore`) and then its test and `Wakeup` (`quitWake`);
  * `Loop` is the two stores at its head (`enterLoop`), the test of `quit_` (`test`), `Poll`,
    the handlers of the active channels, and `DoPendingFunctors`: the store to
    `calling_pending_functors_` (`startFunctors`), the swap under `mtx_` (`swap`), one functor
    after the other (`next`, `ret`) and the store at its end (`finish`).

  What a handler or a functor does is not fixed: while one runs (`Phase.userCode`) the loop's own
  thread may call `QueueInLoop`, `RunInLoop` and `Quit`, as often as it likes. `Loop` is called
  once, by the thread that built the loop; functors call neither `Loop` nor `DoPendingFunctors`
  and do not throw. `T` are the threads, `F` the functors.

  The fields after the line "history" are read by no step; the theorems speak about them.
-/
import CuteMuduo.Lib.Run
import Mathlib.Logic.Function.Basic

namespace CuteMuduo

/-- Where a thread stands inside a call of `QueueInLoop` or of `Quit`. -/
inductive Call where
  | idle
  /-- In `QueueInLoop`, past its push (the `k`th push of the loop), before the test for `Wakeup`. -/
  | queued (k : Nat)
  /-- In `Quit`, past its store, before the test for `Wakeup`. -/
  | quitting
  deriving DecidableEq, Repr

/-- Where the loop's own thread stands. -/
inductive Phase (F : Type) where
  /-- The loop is built, `Loop()` is not called yet. -/
  | init
  /-- About to test `!quit_`. -/
  | test
  /-- Inside `poller_->Poll`. -/
  | poll
  /-- In the `for` over `active_channels_`; `wake`: the wakeup channel is still to be handled. -/
  | dispatch (wake : Bool)
  /-- In `DoPendingFunctors`, about to swap. -/
  | swap
  /-- Between two functors of the batch; `rest` is still to run. -/
  | batch (rest : List F)
  /-- Inside the functor `f` of the batch. -/
  | functor (f : F) (rest : List F)
  /-- `Loop()` has returned. -/
  | left
  deriving DecidableEq, Repr

namespace Phase

variable {F : Type}

/-- What is still to run of the current batch. -/
def rest : Phase F → List F
  | .batch rest => rest
  | .functor _ rest => rest
  | _ => []

/-- The loop's own thread is in code of its own, in a handler or in a functor. -/
def userCode : Phase F → Bool
  | .init | .dispatch _ | .functor _ _ | .left => true
  | _ => false

/-- `Loop()` is not called yet. -/
def isInit : Phase F → Bool
  | .init => true
  | _ => false

/-- The loop runs the functors of a batch. -/
def inBatch : Phase F → Bool
  | .batch _ | .functor _ _ => true
  | _ => false

/-- `Loop()` is entered and has not returned. -/
def running : Phase F → Bool
  | .init | .left => false
  | _ => true

end Phase

/-- An `EventLoop`, its thread and the calls other threads are in. -/
structure EventLoop (T F : Type) where
  threadId : T
  looping : Bool
  quit : Bool
  callingPendingFunctors : Bool
  pendingFunctors : List F
  /-- The counter of the eventfd `wakeup_fd_`. -/
  wakeupFd : Nat
  phase : Phase F
  /-- The local `functors` of `DoPendingFunctors`: the whole batch, until it returns. -/
  functors : List F
  call : T → Call
  -- history
  /-- All pushes, in mutex order. -/
  pushed : List F
  /-- The functors started by `DoPendingFunctors`, each with the thread that ran it. -/
  executed : List (T × F)
  /-- How many pushes had been made at the last swap. -/
  swapped : Nat
  /-- `Quit` has stored to `quit_`. -/
  quitCalled : Bool

namespace EventLoop

variable {T F : Type}

/-- `EventLoop::EventLoop()`, called by thread `t`. -/
def create (t : T) : EventLoop T F where
  threadId := t
  looping := false
  quit := false
  callingPendingFunctors := false
  pendingFunctors := []
  wakeupFd := 0
  phase := .init
  functors := []
  call := fun _ => .idle
  pushed := []
  executed := []
  swapped := 0
  quitCalled := false

/-! ### `Loop()`, run by the loop's own thread -/

/-- `EventLoop::Loop()`: the stores before the `while`. -/
def enterLoop (l : EventLoop T F) : EventLoop T F :=
  { l with looping := true, quit := false, phase := .test }

/-- `while (!quit_)`; behind the loop `looping_ = false`. -/
def test (l : EventLoop T F) : EventLoop T F :=
  { l with
    looping := if l.quit then false else l.looping
    phase := if l.quit then .left else .poll }

/-- `poller_->Poll` returns; `wake`: the wakeup channel is among the active channels. -/
def pollReturn (l : EventLoop T F) (wake : Bool) : EventLoop T F :=
  { l with phase := .dispatch wake }

/-- `EventLoop::HandleRead()`, the read callback of the wakeup channel: a read of an eventfd
    returns its counter and resets it. -/
def handleRead (l : EventLoop T F) : EventLoop T F :=
  { l with wakeupFd := 0, phase := .dispatch false }

/-- `EventLoop::DoPendingFunctors()`: `calling_pending_functors_ = true`. -/
def startFunctors (l : EventLoop T F) : EventLoop T F :=
  { l with callingPendingFunctors := true, phase := .swap }

/-- `functors.swap(pending_functors_)`; `functors` is a fresh, empty vector. -/
def swap (l : EventLoop T F) : EventLoop T F :=
  { l with
    pendingFunctors := []
    functors := l.pendingFunctors
    phase := .batch l.pendingFunctors
    swapped := l.pushed.length }

/-- The next functor of the batch is called, by thread `t`. -/
def next (l : EventLoop T F) (t : T) : EventLoop T F :=
  match l.phase with
  | .batch (f :: rest) => { l with phase := .functor f rest, executed := l.executed ++ [(t, f)] }
  | _ => l

/-- The functor returns. -/
def ret (l : EventLoop T F) : EventLoop T F :=
  match l.phase with
  | .functor _ rest => { l with phase := .batch rest }
  | _ => l

theorem next_of_batch {l : EventLoop T F} {t : T} {f : F} {rest : List F}
    (hp : l.phase = .batch (f :: rest)) :
    l.next t = { l with phase := .functor f rest, executed := l.executed ++ [(t, f)] } := by
  unfold next
  rw [hp]

theorem ret_of_functor {l : EventLoop T F} {f : F} {rest : List F}
    (hp : l.phase = .functor f rest) : l.ret = { l with phase := .batch rest } := by
  unfold ret
  rw [hp]

/-- The end of `DoPendingFunctors()`. -/
def finish (l : EventLoop T F) : EventLoop T F :=
  { l with callingPendingFunctors := false, functors := [], phase := .test }

/-! ### What other threads may call -/

variable [DecidableEq T]

/-- `EventLoop::IsInLoopThread()`, asked by thread `t`. -/
def isInLoopThread (l : EventLoop T F) (t : T) : Bool := decide (l.threadId = t)

/-- The eventfd's counter after `if (b) Wakeup();`: a write adds one to it. -/
def wakeupIf (l : EventLoop T F) (b : Bool) : Nat := if b then l.wakeupFd + 1 else l.wakeupFd

/-- `EventLoop::QueueInLoop()` up to the end of its lock scope: the push. -/
def queueInLoop (l : EventLoop T F) (t : T) (f : F) : EventLoop T F :=
  { l with
    pendingFunctors := l.pendingFunctors ++ [f]
    call := Function.update l.call t (.queued l.pushed.length)
    pushed := l.pushed ++ [f] }

/-- The rest of `EventLoop::QueueInLoop()`. -/
def queueWake (l : EventLoop T F) (t : T) : EventLoop T F :=
  { l with
    wakeupFd := l.wakeupIf (!l.isInLoopThread t || l.callingPendingFunctors)
    call := Function.update l.call t .idle }

/-- `EventLoop::RunInLoop()`: on the loop's own thread the functor runs at once and the queue is
    not touched (what the functor does are further steps of that thread); any other thread
    queues it. -/
def runInLoop (l : EventLoop T F) (t : T) (f : F) : EventLoop T F :=
  if l.isInLoopThread t then l else l.queueInLoop t f

/-- `EventLoop::Quit()`: the store. -/
def quitStore (l : EventLoop T F) (t : T) : EventLoop T F :=
  { l with quit := true, call := Function.update l.call t .quitting, quitCalled := true }

/-- The rest of `EventLoop::Quit()`. -/
def quitWake (l : EventLoop T F) (t : T) : EventLoop T F :=
  { l with
    wakeupFd := l.wakeupIf (!l.isInLoopThread t)
    call := Function.update l.call t .idle }

/-! ## Steps -/

/-- One step, with the choices it leaves open. -/
inductive Action (T F : Type) where
  | queueInLoop (t : T) (f : F)
  | queueWake (t : T)
  | runInLoop (t : T) (f : F)
  | quitStore (t : T)
  | quitWake (t : T)
  | enterLoop
  | test
  | pollReturn (wake : Bool)
  | handleRead
  | startFunctors
  | swap
  | next (t : T)
  | ret
  | finish
  deriving DecidableEq, Repr

/-- Thread `t` may start a call: it is in none, and the loop's own thread makes calls only from
    its own code, from a handler or from a functor. -/
def mayCall (l : EventLoop T F) (t : T) : Bool :=
  decide (l.call t = .idle) && (decide (l.threadId ≠ t) || l.phase.userCode)

/-- The loop's own thread is in no call, so `Loop()` goes on. -/
def ownIdle (l : EventLoop T F) : Bool := decide (l.call l.threadId = .idle)

/-- When a step is possible. -/
def enabled (l : EventLoop T F) : Action T F → Bool
  | .queueInLoop t _ | .runInLoop t _ | .quitStore t => l.mayCall t
  | .queueWake t => match l.call t with
    | .queued _ => true
    | _ => false
  | .quitWake t => decide (l.call t = .quitting)
  | .enterLoop => l.ownIdle && match l.phase with
    | .init => true
    | _ => false
  | .test => l.ownIdle && match l.phase with
    | .test => true
    | _ => false
  -- level-triggered: the wakeup channel is reported only while its counter is positive
  | .pollReturn wake => l.ownIdle && (!wake || decide (0 < l.wakeupFd)) && match l.phase with
    | .poll => true
    | _ => false
  | .handleRead => l.ownIdle && match l.phase with
    | .dispatch true => true
    | _ => false
  | .startFunctors => l.ownIdle && match l.phase with
    | .dispatch false => true
    | _ => false
  | .swap => l.ownIdle && match l.phase with
    | .swap => true
    | _ => false
  | .next t => l.ownIdle && decide (l.threadId = t) && match l.phase with
    | .batch (_ :: _) => true
    | _ => false
  | .ret => l.ownIdle && match l.phase with
    | .functor _ _ => true
    | _ => false
  | .finish => l.ownIdle && match l.phase with
    | .batch [] => true
    | _ => false

/-- What a step does. -/
def apply (l : EventLoop T F) : Action T F → EventLoop T F
  | .queueInLoop t f => l.queueInLoop t f
  | .queueWake t => l.queueWake t
  | .runInLoop t f => l.runInLoop t f
  | .quitStore t => l.quitStore t
  | .quitWake t => l.quitWake t
  | .enterLoop => l.enterLoop
  | .test => l.test
  | .pollReturn wake => l.pollReturn wake
  | .handleRead => l.handleRead
  | .startFunctors => l.startFunctors
  | .swap => l.swap
  | .next t => l.next t
  | .ret => l.ret
  | .finish => l.finish

/-- **One step of the loop and the threads around it.** -/
def step (l : EventLoop T F) (a : Action T F) : Option (EventLoop T F) :=
  if l.enabled a then some (l.apply a) else none

theorem step_eq_some {l l' : EventLoop T F} {a : Action T F} :
    l.step a = some l' ↔ l.enabled a = true ∧ l.apply a = l' := by
  unfold step
  split <;> simp_all

/-! ### The guards, read as propositions -/

section Guards

variable {l : EventLoop T F}

theorem mayCall_iff {t : T} :
    l.mayCall t = true ↔ l.call t = .idle ∧ (l.threadId = t → l.phase.userCode = true) := by
  simp only [mayCall, Bool.and_eq_true, Bool.or_eq_true, decide_eq_true_eq]
  tauto

theorem enabled_queueWake {t : T} :
    l.enabled (.queueWake t) = true ↔ ∃ k, l.call t = .queued k := by
  cases h : l.call t <;> simp [enabled, h]

theorem enabled_enterLoop : l.enabled .enterLoop = true ↔ l.ownIdle = true ∧ l.phase = .init := by
  unfold enabled
  cases l.phase <;> simp

theorem enabled_test : l.enabled .test = true ↔ l.ownIdle = true ∧ l.phase = .test := by
  unfold enabled
  cases l.phase <;> simp

theorem enabled_pollReturn {wake : Bool} : l.enabled (.pollReturn wake) = true ↔
    l.ownIdle = true ∧ (wake = true → 0 < l.wakeupFd) ∧ l.phase = .poll := by
  unfold enabled
  cases l.phase <;> cases wake <;> simp

theorem enabled_handleRead :
    l.enabled .handleRead = true ↔ l.ownIdle = true ∧ l.phase = .dispatch true := by
  unfold enabled
  cases l.phase with
  | dispatch wake => cases wake <;> simp
  | _ => simp

theorem enabled_startFunctors :
    l.enabled .startFunctors = true ↔ l.ownIdle = true ∧ l.phase = .dispatch false := by
  unfold enabled
  cases l.phase with
  | dispatch wake => cases wake <;> simp
  | _ => simp

theorem enabled_swap : l.enabled .swap = true ↔ l.ownIdle = true ∧ l.phase = .swap := by
  unfold enabled
  cases l.phase <;> simp

theorem enabled_next {t : T} : l.enabled (.next t) = true ↔
    l.ownIdle = true ∧ l.threadId = t ∧ ∃ f rest, l.phase = .batch (f :: rest) := by
  unfold enabled
  cases l.phase with
  | batch rest => cases rest <;> simp
  | _ => simp

theorem enabled_ret :
    l.enabled .ret = true ↔ l.ownIdle = true ∧ ∃ f rest, l.phase = .functor f rest := by
  unfold enabled
  cases l.phase <;> simp

theorem enabled_finish : l.enabled .finish = true ↔ l.ownIdle = true ∧ l.phase = .batch [] := by
  unfold enabled
  cases l.phase with
  | batch rest => cases rest <;> simp
  | _ => simp

end Guards

end EventLoop

end CuteMuduo
