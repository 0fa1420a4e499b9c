/-
  File:      CuteMuduo/EventLoop/Wakeup.lean
  Subject:   NO LOST WAKEUP (`EventLoop::QueueInLoop`, `Wakeup`, `Loop`): with work in the queue
             the loop does not sleep in `Poll`.

  `QueueInLoop` wakes the loop unless the caller is the loop's own thread outside
  `DoPendingFunctors`. From a handler that is right: the swap of the same iteration is still
  ahead. Before `Loop()` is entered it is not: the first thing `Loop()` does is to poll.

  * `WakeInv`, `wakeInv_step` -- the invariant, under the condition that the loop's own thread
    queues nothing before `Loop()`;
  * `asleep_after_init` -- the run in which it does, for any functors;
  * `no_lost_wakeup_iff` -- the two together.
-/
import CuteMuduo.EventLoop
import Mathlib.Data.List.Induction

namespace CuteMuduo

open Machine

namespace EventLoop

variable {T F : Type}

/-- Some `QueueInLoop` is past its push and will write to the eventfd. -/
def WakePending (l : EventLoop T F) : Prop :=
  ∃ u k, l.call u = .queued k ∧ (u = l.threadId → l.callingPendingFunctors = true)

/-- Nothing waits in the queue, or the loop is being woken for it. -/
def Woken (l : EventLoop T F) : Prop :=
  l.pendingFunctors = [] ∨ 0 < l.wakeupFd ∨ WakePending l

/-- **No lost wakeup**: inside `Poll` either the queue is empty, or the eventfd's counter is
    positive, or some thread is between its push and its `Wakeup`. -/
def NoLostWakeup (l : EventLoop T F) : Prop :=
  l.phase = .poll →
    l.pendingFunctors = [] ∨ 0 < l.wakeupFd ∨ ∃ u k, l.call u = .queued k

/-- This iteration's swap is still ahead, or the loop has ended: nobody needs to be woken. -/
def needsNoWake : Phase F → Bool
  | .dispatch _ | .swap | .left => true
  | _ => false

/-- Past the first store of `DoPendingFunctors`, before its last. -/
def inDoPendingFunctors : Phase F → Bool
  | .swap | .batch _ | .functor _ _ => true
  | _ => false

/-- **The wakeup invariant.** -/
structure WakeInv (l : EventLoop T F) : Prop where
  calling : inDoPendingFunctors l.phase = true → l.callingPendingFunctors = true
  woken : needsNoWake l.phase = false → Woken l

theorem wakeInv_create (t : T) : WakeInv (create t : EventLoop T F) where
  calling h := by cases h
  woken _ := Or.inl rfl

theorem WakeInv.noLostWakeup {l : EventLoop T F} (h : WakeInv l) : NoLostWakeup l := by
  intro hp
  rcases h.woken (by rw [hp]; rfl) with hw | hw | ⟨u, k, hu, _⟩
  · exact Or.inl hw
  · exact Or.inr (Or.inl hw)
  · exact Or.inr (Or.inr ⟨u, k, hu⟩)

section Preserved

variable {l : EventLoop T F}

/-- Own code that needs a wakeup runs before `Loop()` or in a functor. -/
theorem inDoPendingFunctors_of_userCode {p : Phase F} (hc : p.userCode = true)
    (hi : p.isInit = false) (hn : needsNoWake p = false) : inDoPendingFunctors p = true := by
  cases p with
  | functor f rest => rfl
  | init => cases hi
  | dispatch wake => cases hn
  | left => cases hn
  | _ => cases hc

theorem le_wakeupIf (l : EventLoop T F) (b : Bool) : l.wakeupFd ≤ l.wakeupIf b := by
  unfold wakeupIf
  split <;> omega

/-- With the loop's own thread in no call, a pending wakeup is another thread's: the flag
    `calling_pending_functors_` may change. -/
theorem Woken.setCalling (h : Woken l) {l' : EventLoop T F} (ho : l.ownIdle = true)
    (hid : l'.threadId = l.threadId) (hp : l'.pendingFunctors = l.pendingFunctors)
    (hw : l'.wakeupFd = l.wakeupFd) (hcall : l'.call = l.call) : Woken l' := by
  have ho : l.call l.threadId = .idle := of_decide_eq_true ho
  rcases h with h | h | ⟨u, k, hu, _⟩
  · exact Or.inl (hp.trans h)
  · exact Or.inr (Or.inl (by rw [hw]; exact h))
  · refine Or.inr (Or.inr ⟨u, k, by rw [hcall]; exact hu, fun e => ?_⟩)
    rw [e.trans hid, ho] at hu
    cases hu

variable [DecidableEq T]

/-- **A push** is woken for: by another thread always, by the loop's own thread in a batch. -/
theorem WakeInv.queueInLoop (h : WakeInv l) {t : T} {f : F} (hm : l.mayCall t = true)
    (hi : t = l.threadId → l.phase.isInit = false) : WakeInv (l.queueInLoop t f) where
  calling := h.calling
  woken hn := by
    refine Or.inr (Or.inr ⟨t, l.pushed.length, Function.update_self _ _ _, fun ht => ?_⟩)
    have hcode := (mayCall_iff.mp hm).2 ht.symm
    exact h.calling (inDoPendingFunctors_of_userCode hcode (hi ht) hn)

/-- A pending wakeup outlives a change of the call of a thread that is in no `QueueInLoop`. -/
theorem Woken.setCall (h : Woken l) {l' : EventLoop T F} {t : T} {c : Call}
    (ht : ∀ k, l.call t ≠ .queued k) (hid : l'.threadId = l.threadId)
    (hp : l'.pendingFunctors = l.pendingFunctors) (hw : l.wakeupFd ≤ l'.wakeupFd)
    (hc : l'.callingPendingFunctors = l.callingPendingFunctors)
    (hcall : l'.call = Function.update l.call t c) : Woken l' := by
  rcases h with h | h | ⟨u, k, hu, hcal⟩
  · exact Or.inl (hp.trans h)
  · exact Or.inr (Or.inl (Nat.lt_of_lt_of_le h hw))
  · have hut : u ≠ t := by
      rintro rfl
      exact ht k hu
    refine Or.inr (Or.inr ⟨u, k, ?_, fun e => hc.trans (hcal (e.trans hid))⟩)
    rw [hcall, Function.update_of_ne hut]
    exact hu

/-- **`QueueInLoop`'s own test**: a pending wakeup becomes a write to the eventfd. -/
theorem Woken.queueWake (h : Woken l) (t : T) : Woken (l.queueWake t) := by
  by_cases hw : (!l.isInLoopThread t || l.callingPendingFunctors) = true
  · refine Or.inr (Or.inl ?_)
    show 0 < l.wakeupIf (!l.isInLoopThread t || l.callingPendingFunctors)
    rw [hw]
    exact Nat.succ_pos _
  · rcases h with h | h | ⟨u, k, hu, hc⟩
    · exact Or.inl h
    · exact Or.inr (Or.inl (Nat.lt_of_lt_of_le h (le_wakeupIf l _)))
    · -- the pending one is another thread's: `t` would have written
      have hut : u ≠ t := by
        rintro rfl
        apply hw
        by_cases hid : l.threadId = u
        · rw [hc hid.symm, Bool.or_true]
        · simp [isInLoopThread, hid]
      refine Or.inr (Or.inr ⟨u, k, ?_, hc⟩)
      show Function.update l.call t .idle u = .queued k
      rw [Function.update_of_ne hut]
      exact hu

/-- **Every step keeps the wakeup invariant**, but a push of the loop's own thread before
    `Loop()`. -/
theorem wakeInv_step {l' : EventLoop T F} {a : Action T F} (h : WakeInv l)
    (ha : ∀ f, a = .queueInLoop l.threadId f → l.phase.isInit = false)
    (hs : l.step a = some l') : WakeInv l' := by
  obtain ⟨he, rfl⟩ := step_eq_some.mp hs
  cases a with
  | queueInLoop t f => exact h.queueInLoop he fun ht => ha f (by rw [ht])
  | runInLoop t f =>
      show WakeInv (l.runInLoop t f)
      unfold EventLoop.runInLoop
      split
      · exact h
      · rename_i hid
        exact h.queueInLoop he fun ht => absurd (by simp [isInLoopThread, ht]) hid
  | queueWake t => exact ⟨h.calling, fun hn => (h.woken hn).queueWake t⟩
  | quitStore t =>
      have hi := (mayCall_iff.mp he).1
      exact ⟨h.calling, fun hn => (h.woken hn).setCall (fun k hk => by rw [hi] at hk; cases hk)
        rfl rfl (Nat.le_refl _) rfl rfl⟩
  | quitWake t =>
      have hi : l.call t = .quitting := of_decide_eq_true he
      exact ⟨h.calling, fun hn => (h.woken hn).setCall (fun k hk => by rw [hi] at hk; cases hk)
        rfl rfl (le_wakeupIf l _) rfl rfl⟩
  | enterLoop =>
      obtain ⟨ho, hp⟩ := enabled_enterLoop.mp he
      exact ⟨fun hb => by (cases hb), fun _ =>
         (h.woken (by rw [hp]; rfl)).setCalling ho rfl rfl rfl rfl⟩
  | test =>
      obtain ⟨ho, hp⟩ := enabled_test.mp he
      refine ⟨fun hb => ?_, fun _ => (h.woken (by rw [hp]; rfl)).setCalling ho rfl rfl rfl rfl⟩
      change inDoPendingFunctors (if l.quit then Phase.left else Phase.poll) = true at hb
      split at hb <;> cases hb
  | pollReturn wake =>
      exact ⟨fun hb => by (cases hb), fun hn => by cases hn⟩
  | handleRead =>
      exact ⟨fun hb => by (cases hb), fun hn => by cases hn⟩
  | startFunctors => exact ⟨fun _ => rfl, fun hn => by cases hn⟩
  | swap =>
      obtain ⟨_, hp⟩ := enabled_swap.mp he
      exact ⟨fun _ => h.calling (by rw [hp]; rfl), fun _ => Or.inl rfl⟩
  | next t =>
      obtain ⟨ho, _, f, rest, hp⟩ := enabled_next.mp he
      show WakeInv (l.next t)
      rw [next_of_batch hp]
      exact ⟨fun _ => h.calling (by rw [hp]; rfl),
        fun _ => (h.woken (by rw [hp]; rfl)).setCalling ho rfl rfl rfl rfl⟩
  | ret =>
      obtain ⟨ho, f, rest, hp⟩ := enabled_ret.mp he
      show WakeInv l.ret
      rw [ret_of_functor hp]
      exact ⟨fun _ => h.calling (by rw [hp]; rfl),
        fun _ => (h.woken (by rw [hp]; rfl)).setCalling ho rfl rfl rfl rfl⟩
  | finish =>
      obtain ⟨ho, hp⟩ := enabled_finish.mp he
      exact ⟨fun hb => by (cases hb), fun _ =>
         (h.woken (by rw [hp]; rfl)).setCalling ho rfl rfl rfl rfl⟩

end Preserved

variable [DecidableEq T]

/-! ## Pushes of the loop's own thread before `Loop()` -/

/-- The functors the loop's own thread queued before `Loop()` was entered, in a
    `ThreadInitCallback` for example. -/
def queuedBeforeLoop : List (EventLoop T F × Action T F) → List F
  | [] => []
  | (l, .queueInLoop t f) :: tr =>
    if l.phase.isInit && l.isInLoopThread t then queuedBeforeLoop tr ++ [f]
    else queuedBeforeLoop tr
  | _ :: tr => queuedBeforeLoop tr

/-- Where the list is empty no step of the run was such a push. -/
theorem isInit_of_queuedBeforeLoop {tr : List (EventLoop T F × Action T F)}
    (h : queuedBeforeLoop tr = []) : ∀ p ∈ tr, ∀ f, p.2 = .queueInLoop p.1.threadId f →
      p.1.phase.isInit = false := by
  induction tr with
  | nil => exact fun p hp => absurd hp List.not_mem_nil
  | cons q tr ih =>
      obtain ⟨l, a⟩ := q
      intro p hp f hf
      have htl : queuedBeforeLoop tr = [] := by
        cases a with
        | queueInLoop t g =>
            simp only [queuedBeforeLoop] at h
            split at h
            · exact absurd h (List.append_ne_nil_of_right_ne_nil _ (List.cons_ne_nil _ _))
            · exact h
        | _ => exact h
      rcases List.mem_cons.mp hp with rfl | hp
      · change a = .queueInLoop l.threadId f at hf
        subst hf
        cases hi : l.phase.isInit with
        | false => rfl
        | true => simp [queuedBeforeLoop, hi, isInLoopThread] at h
      · exact ih htl p hp f hf

/-- One push of the loop's own thread before `Loop()`: it writes nothing to the eventfd. -/
def afterInitPush (l : EventLoop T F) (f : F) : EventLoop T F :=
  { l with pendingFunctors := l.pendingFunctors ++ [f], pushed := l.pushed ++ [f] }

theorem init_push {t : T} {tr : List (EventLoop T F × Action T F)} {l : EventLoop T F}
    (h : Run step (create t) tr l) (hid : l.threadId = t) (hp : l.phase = .init)
    (hc : ∀ u, l.call u = .idle) (hcal : l.callingPendingFunctors = false) (f : F) :
    ∃ tr', Run step (create t) tr' (l.afterInitPush f) ∧
      queuedBeforeLoop tr' = queuedBeforeLoop tr ++ [f] := by
  have h₁ : l.step (.queueInLoop t f) = some (l.queueInLoop t f) := by
    refine step_eq_some.mpr ⟨mayCall_iff.mpr ⟨hc t, fun _ => ?_⟩, rfl⟩
    rw [hp]
    rfl
  have h₂ : (l.queueInLoop t f).step (.queueWake t) = some (l.afterInitPush f) := by
    refine step_eq_some.mpr ⟨enabled_queueWake.mpr ⟨_, Function.update_self _ _ _⟩, ?_⟩
    have hw : (l.queueInLoop t f).wakeupIf
        (!(l.queueInLoop t f).isInLoopThread t || l.callingPendingFunctors) = l.wakeupFd := by
      have ht : (l.queueInLoop t f).isInLoopThread t = true := decide_eq_true hid
      rw [ht, hcal]
      rfl
    have hcall : Function.update (Function.update l.call t (.queued l.pushed.length)) t .idle =
        l.call := by
      rw [Function.update_idem, ← hc t, Function.update_eq_self]
    show EventLoop.queueWake _ t = _
    unfold EventLoop.queueWake afterInitPush
    rw [show (l.queueInLoop t f).callingPendingFunctors = l.callingPendingFunctors from rfl, hw]
    simp only [EventLoop.queueInLoop, hcall]
  refine ⟨_, .step _ _ _ _ (.step _ _ _ _ h h₁) h₂, ?_⟩
  simp [queuedBeforeLoop, hp, Phase.isInit, isInLoopThread, hid]

/-- The run in which the loop's own thread queues `pre` before `Loop()`. -/
theorem init_pushes (t : T) (pre : List F) :
    ∃ tr l, Run step (create t) tr l ∧ queuedBeforeLoop tr = pre ∧ l.threadId = t ∧
      l.phase = .init ∧ (∀ u, l.call u = .idle) ∧ l.callingPendingFunctors = false ∧
      l.wakeupFd = 0 ∧ l.pendingFunctors = pre := by
  induction pre using List.reverseRecOn with
  | nil => exact ⟨[], create t, .start, rfl, rfl, rfl, fun _ => rfl, rfl, rfl, rfl⟩
  | append_singleton pre f ih =>
      obtain ⟨tr, l, h, hpre, hid, hp, hc, hcal, hw, hq⟩ := ih
      obtain ⟨tr', h', hpre'⟩ := init_push h hid hp hc hcal f
      refine ⟨tr', l.afterInitPush f, h', by rw [hpre', hpre], hid, hp, hc, hcal, hw, ?_⟩
      show l.pendingFunctors ++ [f] = pre ++ [f]
      rw [hq]

/-- **Asleep with work in the queue**: what the loop's own thread queued before `Loop()` waits
    while the loop polls, and nobody is about to wake it. -/
theorem asleep_after_init (t : T) (pre : List F) :
    ∃ tr l, Run step (create t) tr l ∧ queuedBeforeLoop tr = pre ∧ l.phase = .poll ∧
      l.pendingFunctors = pre ∧ l.wakeupFd = 0 ∧ ∀ u, l.call u = .idle := by
  obtain ⟨tr, l, h, hpre, _, hp, hc, _, hw, hq⟩ := init_pushes t pre
  have ho : l.ownIdle = true := decide_eq_true (hc _)
  have h₁ : l.step .enterLoop = some l.enterLoop :=
    step_eq_some.mpr ⟨enabled_enterLoop.mpr ⟨ho, hp⟩, rfl⟩
  have h₂ : l.enterLoop.step .test = some l.enterLoop.test :=
    step_eq_some.mpr ⟨enabled_test.mpr ⟨ho, rfl⟩, rfl⟩
  exact ⟨_, _, .step _ _ _ _ (.step _ _ _ _ h h₁) h₂, hpre, rfl, hq, hw, hc⟩

/-- **No lost wakeup, exactly when nothing was queued before `Loop()`.** In every run, with any
    number of threads, in which the loop's own thread queued nothing before `Loop()` was entered,
    the loop never sleeps on a non-empty queue; for any other list of functors queued there, some
    run with it does. -/
theorem no_lost_wakeup_iff (t : T) (pre : List F) :
    (∀ tr l, Run step (create t) tr l → queuedBeforeLoop tr = pre → NoLostWakeup l) ↔
      pre = [] := by
  constructor
  · intro hall
    obtain ⟨tr, l, h, hpre, hp, hq, hw, hc⟩ := asleep_after_init t pre
    rcases hall tr l h hpre hp with hn | hn | ⟨u, k, hu⟩
    · exact hq.symm.trans hn
    · rw [hw] at hn
      exact absurd hn (Nat.lt_irrefl 0)
    · rw [hc u] at hu
      cases hu
  · rintro rfl tr l h hpre
    exact (h.invOn (I := WakeInv) (wakeInv_create t)
      (fun _ _ _ hI hC hs => wakeInv_step hI hC hs)
      (isInit_of_queuedBeforeLoop hpre)).noLostWakeup

/-- One functor queued by a `ThreadInitCallback`: the loop sleeps on it. -/
theorem lost_wakeup_init : ¬ ∀ (tr : List (EventLoop Nat Nat × Action Nat Nat))
    (l : EventLoop Nat Nat), Run step (create 0) tr l → NoLostWakeup l := by
  intro hall
  have h : exec step (create 0 : EventLoop Nat Nat)
    [.queueInLoop 0 7, .queueWake 0, .enterLoop, .test] = some _ := rfl
  rcases hall _ _ (exec_run .start h) rfl with hn | hn | ⟨u, k, hu⟩
  · cases hn
  · exact absurd hn (Nat.lt_irrefl 0)
  · revert hu
    show Function.update (Function.update (fun _ => Call.idle) 0 (.queued 0)) 0 .idle u ≠ _
    rw [Function.update_idem, Function.update_eq_self_iff.mpr rfl]
    exact fun hu => by cases hu

end EventLoop

end CuteMuduo
