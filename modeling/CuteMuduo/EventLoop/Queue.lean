/-
  File:      CuteMuduo/EventLoop/Queue.lean
  Subject:   THE TASK QUEUE IS EXACTLY-ONCE FIFO (`EventLoop::RunInLoop`, `QueueInLoop`,
             `DoPendingFunctors`).

  * `QueueInv` -- the invariant: what was executed, what is left of the batch and what waits in
    `pending_functors_` make up all pushes in mutex order; what was executed and what is left of
    the batch are exactly the pushes made before the last swap;
  * `batch_run` -- between a swap and the end of its batch only functors of that batch run;
  * `queue_fifo` -- both over every run, the pushes read off the labels of the run.
-/
import CuteMuduo.EventLoop

namespace CuteMuduo

open Machine

namespace EventLoop

variable {T F : Type}

/-- **The queue invariant.** -/
structure QueueInv (t : T) (l : EventLoop T F) : Prop where
  threadId : l.threadId = t
  ledger : l.executed.map Prod.snd ++ l.phase.rest ++ l.pendingFunctors = l.pushed
  own : ∀ e ∈ l.executed, e.1 = t
  batch : l.executed.map Prod.snd ++ l.phase.rest = l.pushed.take l.swapped
  swapped : l.swapped ≤ l.pushed.length

theorem queueInv_create (t : T) : QueueInv t (create t : EventLoop T F) where
  threadId := rfl
  ledger := rfl
  own _ h := absurd h List.not_mem_nil
  batch := rfl
  swapped := Nat.le_refl 0

section Preserved

variable {t : T} {l : EventLoop T F}

/-- A step that leaves the queue, the batch and the history alone keeps the invariant. -/
theorem QueueInv.frame {l' : EventLoop T F} (h : QueueInv t l) (hid : l'.threadId = l.threadId)
    (hex : l'.executed = l.executed) (hrest : l'.phase.rest = l.phase.rest)
    (hpend : l'.pendingFunctors = l.pendingFunctors) (hpush : l'.pushed = l.pushed)
    (hsw : l'.swapped = l.swapped) : QueueInv t l' where
  threadId := hid.trans h.threadId
  ledger := by rw [hex, hrest, hpend, hpush]; exact h.ledger
  own := by rw [hex]; exact h.own
  batch := by rw [hex, hrest, hpush, hsw]; exact h.batch
  swapped := by rw [hpush, hsw]; exact h.swapped

/-- **The swap**: with the batch run to its end, the whole queue becomes the next batch. -/
theorem QueueInv.swap (h : QueueInv t l) (hr : l.phase.rest = []) : QueueInv t l.swap := by
  have hl := h.ledger
  rw [hr, List.append_nil] at hl
  refine ⟨h.threadId, ?_, h.own, ?_, Nat.le_refl _⟩
  · show l.executed.map Prod.snd ++ l.pendingFunctors ++ [] = l.pushed
    rw [List.append_nil, hl]
  · show l.executed.map Prod.snd ++ l.pendingFunctors = l.pushed.take l.pushed.length
    rw [List.take_length, hl]

/-- **The next functor** moves from the batch to what was executed. -/
theorem QueueInv.next (h : QueueInv t l) {f : F} {rest : List F}
    (hp : l.phase = .batch (f :: rest)) : QueueInv t (l.next t) := by
  have hmove : (l.executed ++ [(t, f)]).map Prod.snd ++ rest =
      l.executed.map Prod.snd ++ l.phase.rest := by
    rw [hp, List.map_append, List.append_assoc]
    rfl
  rw [next_of_batch hp]
  refine ⟨h.threadId, ?_, fun e he => ?_, ?_, h.swapped⟩
  · show (l.executed ++ [(t, f)]).map Prod.snd ++ rest ++ l.pendingFunctors = l.pushed
    rw [hmove, h.ledger]
  · rcases List.mem_append.mp he with he | he
    · exact h.own e he
    · rw [List.mem_singleton.mp he]
  · show (l.executed ++ [(t, f)]).map Prod.snd ++ rest = l.pushed.take l.swapped
    rw [hmove, h.batch]

/-- A push keeps the invariant, whoever makes it and wherever the loop stands. -/
theorem QueueInv.queueInLoop [DecidableEq T] (h : QueueInv t l) (u : T) (f : F) :
    QueueInv t (l.queueInLoop u f) where
  threadId := h.threadId
  ledger := by
    show l.executed.map Prod.snd ++ l.phase.rest ++ (l.pendingFunctors ++ [f]) = l.pushed ++ [f]
    rw [← List.append_assoc, h.ledger]
  own := h.own
  batch := by
    show _ = (l.pushed ++ [f]).take l.swapped
    rw [List.take_append_of_le_length h.swapped]
    exact h.batch
  swapped := by
    show l.swapped ≤ (l.pushed ++ [f]).length
    rw [List.length_append]
    exact Nat.le_add_right_of_le h.swapped

end Preserved

variable [DecidableEq T]

/-- **Every step keeps the queue invariant.** -/
theorem queueInv_step {t : T} {l l' : EventLoop T F} {a : Action T F} (h : QueueInv t l)
    (hs : l.step a = some l') : QueueInv t l' := by
  obtain ⟨he, rfl⟩ := step_eq_some.mp hs
  cases a with
  | queueInLoop u f => exact h.queueInLoop u f
  | queueWake u => exact h.frame rfl rfl rfl rfl rfl rfl
  | runInLoop u f =>
      show QueueInv t (l.runInLoop u f)
      unfold runInLoop
      split
      · exact h
      · exact h.queueInLoop u f
  | quitStore u => exact h.frame rfl rfl rfl rfl rfl rfl
  | quitWake u => exact h.frame rfl rfl rfl rfl rfl rfl
  | enterLoop =>
      have hp := (enabled_enterLoop.mp he).2
      exact h.frame rfl rfl (by rw [hp]; rfl) rfl rfl rfl
  | test =>
      have hp := (enabled_test.mp he).2
      refine h.frame rfl rfl ?_ rfl rfl rfl
      show (if l.quit then Phase.left else Phase.poll).rest = l.phase.rest
      rw [hp]
      split <;> rfl
  | pollReturn wake =>
      have hp := (enabled_pollReturn.mp he).2.2
      exact h.frame rfl rfl (by rw [hp]; rfl) rfl rfl rfl
  | handleRead =>
      have hp := (enabled_handleRead.mp he).2
      exact h.frame rfl rfl (by rw [hp]; rfl) rfl rfl rfl
  | startFunctors =>
      have hp := (enabled_startFunctors.mp he).2
      exact h.frame rfl rfl (by rw [hp]; rfl) rfl rfl rfl
  | swap =>
      have hp := (enabled_swap.mp he).2
      exact h.swap (by rw [hp]; rfl)
  | next u =>
      obtain ⟨_, hid, f, rest, hp⟩ := enabled_next.mp he
      have hu : u = t := hid.symm.trans h.threadId
      subst hu
      exact h.next hp
  | ret =>
      obtain ⟨_, f, rest, hp⟩ := enabled_ret.mp he
      show QueueInv t l.ret
      rw [ret_of_functor hp]
      exact h.frame rfl rfl (by rw [hp]; rfl) rfl rfl rfl
  | finish =>
      have hp := (enabled_finish.mp he).2
      exact h.frame rfl rfl (by rw [hp]; rfl) rfl rfl rfl

theorem queueInv_run {t : T} {tr : List (EventLoop T F × Action T F)} {l : EventLoop T F}
    (h : Run step (create t) tr l) : QueueInv t l :=
  h.inv (queueInv_create t) fun _ _ _ hI hs => queueInv_step hI hs

/-! ## What waits -/

/-- What is still to run: the rest of the batch, then `pending_functors_`. -/
def queue (l : EventLoop T F) : List F := l.phase.rest ++ l.pendingFunctors

/-- A push goes to the end. -/
theorem queue_push {l l' : EventLoop T F} {t : T} {f : F}
    (hs : l.step (.queueInLoop t f) = some l') : l'.queue = l.queue ++ [f] := by
  obtain ⟨_, rfl⟩ := step_eq_some.mp hs
  exact (List.append_assoc _ _ _).symm

/-- The next functor is taken from the front. -/
theorem queue_next {l l' : EventLoop T F} {t : T} (hs : l.step (.next t) = some l') :
    ∃ f rest, l.phase = .batch (f :: rest) ∧ l.queue = f :: l'.queue := by
  obtain ⟨he, rfl⟩ := step_eq_some.mp hs
  obtain ⟨_, _, f, rest, hp⟩ := enabled_next.mp he
  refine ⟨f, rest, hp, ?_⟩
  show l.phase.rest ++ l.pendingFunctors = f :: (l.next t).queue
  rw [next_of_batch hp, hp]
  rfl

/-- The steps that push and take functors. -/
def movesFunctor : Action T F → Bool
  | .queueInLoop _ _ | .runInLoop _ _ | .next _ => true
  | _ => false

/-- No other step changes what waits; the swap only moves it. -/
theorem queue_step {l l' : EventLoop T F} {a : Action T F} (ha : movesFunctor a = false)
    (hs : l.step a = some l') : l'.queue = l.queue := by
  obtain ⟨he, rfl⟩ := step_eq_some.mp hs
  cases a with
  | queueInLoop t f => cases ha
  | runInLoop t f => cases ha
  | next t => cases ha
  | queueWake t => rfl
  | quitStore t => rfl
  | quitWake t => rfl
  | enterLoop =>
      have hp := (enabled_enterLoop.mp he).2
      rw [queue, queue, hp]
      rfl
  | test =>
      have hp := (enabled_test.mp he).2
      show (if l.quit then Phase.left else Phase.poll).rest ++ l.pendingFunctors = l.queue
      rw [queue, hp]
      split <;> rfl
  | pollReturn wake =>
      have hp := (enabled_pollReturn.mp he).2.2
      rw [queue, queue, hp]
      rfl
  | handleRead =>
      have hp := (enabled_handleRead.mp he).2
      rw [queue, queue, hp]
      rfl
  | startFunctors =>
      have hp := (enabled_startFunctors.mp he).2
      rw [queue, queue, hp]
      rfl
  | swap =>
      have hp := (enabled_swap.mp he).2
      rw [queue, queue, hp]
      exact List.append_nil _
  | ret =>
      obtain ⟨_, f, rest, hp⟩ := enabled_ret.mp he
      show l.ret.queue = l.queue
      rw [ret_of_functor hp, queue, queue, hp]
      rfl
  | finish =>
      have hp := (enabled_finish.mp he).2
      rw [queue, queue, hp]
      rfl

/-- **What waits after a step** waited before it, or is pushed by it. -/
theorem mem_queue_step {l l' : EventLoop T F} {a : Action T F} {f : F} (hs : l.step a = some l')
    (hf : f ∈ l'.queue) : f ∈ l.queue ∨ ∃ t, a = .queueInLoop t f ∨ a = .runInLoop t f := by
  have hpush : ∀ {t g}, f ∈ (l.queueInLoop t g).queue → f ∈ l.queue ∨ f = g := by
    intro t g h
    change f ∈ l.phase.rest ++ (l.pendingFunctors ++ [g]) at h
    rw [← List.append_assoc] at h
    exact (List.mem_append.mp h).imp_right List.mem_singleton.mp
  cases a with
  | queueInLoop t g =>
      obtain ⟨_, rfl⟩ := step_eq_some.mp hs
      rcases hpush hf with h | rfl
      · exact Or.inl h
      · exact Or.inr ⟨t, Or.inl rfl⟩
  | runInLoop t g =>
      obtain ⟨_, rfl⟩ := step_eq_some.mp hs
      change f ∈ (l.runInLoop t g).queue at hf
      unfold runInLoop at hf
      split at hf
      · exact Or.inl hf
      · rcases hpush hf with h | rfl
        · exact Or.inl h
        · exact Or.inr ⟨t, Or.inr rfl⟩
  | next t =>
      obtain ⟨g, rest, _, hq⟩ := queue_next hs
      rw [hq]
      exact Or.inl (List.mem_cons_of_mem _ hf)
  | _ =>
      rw [queue_step rfl hs] at hf
      exact Or.inl hf

/-- The functor objects that exist: the batch, until it is over, and `pending_functors_`. -/
def holds (l : EventLoop T F) : List F := l.functors ++ l.pendingFunctors

/-- **What is still to run of a batch** is held by it. -/
theorem batch_step {l l' : EventLoop T F} {a : Action T F} (hs : l.step a = some l')
    (h : ∀ f ∈ l.phase.rest, f ∈ l.functors) : ∀ f ∈ l'.phase.rest, f ∈ l'.functors := by
  obtain ⟨he, rfl⟩ := step_eq_some.mp hs
  have hnil : ∀ {fs : List F}, ∀ f ∈ ([] : List F), f ∈ fs := fun f hf => absurd hf List.not_mem_nil
  cases a with
  | queueInLoop t g | queueWake t | quitStore t | quitWake t => exact h
  | runInLoop t g =>
      change ∀ f ∈ (l.runInLoop t g).phase.rest, f ∈ (l.runInLoop t g).functors
      unfold runInLoop
      split <;> exact h
  | test =>
      change ∀ f ∈ (if l.quit then Phase.left else Phase.poll : Phase F).rest, f ∈ l.functors
      split <;> exact hnil
  | next t =>
      obtain ⟨_, _, g, rest, hp⟩ := enabled_next.mp he
      change ∀ f ∈ (l.next t).phase.rest, f ∈ (l.next t).functors
      rw [hp] at h
      rw [next_of_batch hp]
      exact fun f hf => h f (List.mem_cons_of_mem _ hf)
  | ret =>
      obtain ⟨_, g, rest, hp⟩ := enabled_ret.mp he
      change ∀ f ∈ l.ret.phase.rest, f ∈ l.ret.functors
      rw [hp] at h
      rw [ret_of_functor hp]
      exact h
  | swap => exact fun f hf => hf
  | enterLoop | pollReturn wake | handleRead | startFunctors | finish => exact hnil

theorem threadId_step {l l' : EventLoop T F} {a : Action T F} (hs : l.step a = some l') :
    l'.threadId = l.threadId := by
  obtain ⟨_, rfl⟩ := step_eq_some.mp hs
  cases a with
  | runInLoop t f =>
      show (l.runInLoop t f).threadId = _
      unfold EventLoop.runInLoop
      split <;> rfl
  | next t =>
      show (l.next t).threadId = _
      unfold EventLoop.next
      split <;> rfl
  | ret =>
      show l.ret.threadId = _
      unfold EventLoop.ret
      split <;> rfl
  | _ => rfl

/-! ## The run -/

/-- The functors pushed along a trace, in mutex order. -/
def pushes : List (EventLoop T F × Action T F) → List F
  | [] => []
  | (_, .queueInLoop _ f) :: tr => pushes tr ++ [f]
  | (l, .runInLoop t f) :: tr => if l.isInLoopThread t then pushes tr else pushes tr ++ [f]
  | _ :: tr => pushes tr

theorem pushed_step {l l' : EventLoop T F} {a : Action T F} (hs : l.step a = some l')
    (tr : List (EventLoop T F × Action T F)) (h : l.pushed = pushes tr) :
    l'.pushed = pushes ((l, a) :: tr) := by
  obtain ⟨_, rfl⟩ := step_eq_some.mp hs
  cases a with
  | queueInLoop t f => exact congrArg (· ++ [f]) h
  | runInLoop t f =>
      show (l.runInLoop t f).pushed = _
      unfold EventLoop.runInLoop
      simp only [pushes]
      split
      · exact h
      · exact congrArg (· ++ [f]) h
  | next t =>
      show (l.next t).pushed = _
      unfold EventLoop.next
      split <;> exact h
  | ret =>
      show l.ret.pushed = _
      unfold EventLoop.ret
      split <;> exact h
  | _ => exact h

/-- The recorded pushes are the pushes of the run. -/
theorem pushed_run {t : T} {tr : List (EventLoop T F × Action T F)} {l : EventLoop T F}
    (h : Run step (create t) tr l) : l.pushed = pushes tr := by
  induction h with
  | start => rfl
  | step tr l a l' _ hs ih => exact pushed_step hs tr ih

/-- What has run since the swap and what is left make up the batch the swap took. -/
def InBatchOf (l₀ l : EventLoop T F) : Prop :=
  l.phase.inBatch = true ∧ ∃ ran, l₀.pendingFunctors = ran ++ l.phase.rest ∧
    l.executed.map Prod.snd = l₀.executed.map Prod.snd ++ ran

/-- **One step inside a batch** runs a functor of that batch or none, whatever it pushes. -/
theorem inBatchOf_step {l₀ l l' : EventLoop T F} {a : Action T F} (h : InBatchOf l₀ l)
    (ha : a ≠ .finish) (hs : l.step a = some l') : InBatchOf l₀ l' := by
  obtain ⟨he, rfl⟩ := step_eq_some.mp hs
  obtain ⟨hb, ran, hran, hex⟩ := h
  cases a with
  | queueInLoop t f => exact ⟨hb, ran, hran, hex⟩
  | runInLoop t f =>
      show InBatchOf l₀ (l.runInLoop t f)
      unfold EventLoop.runInLoop
      split <;> exact ⟨hb, ran, hran, hex⟩
  | queueWake t => exact ⟨hb, ran, hran, hex⟩
  | quitStore t => exact ⟨hb, ran, hran, hex⟩
  | quitWake t => exact ⟨hb, ran, hran, hex⟩
  | next t =>
      obtain ⟨_, _, f, rest, hp⟩ := enabled_next.mp he
      show InBatchOf l₀ (l.next t)
      rw [next_of_batch hp]
      refine ⟨rfl, ran ++ [f], ?_, ?_⟩
      · show l₀.pendingFunctors = ran ++ [f] ++ rest
        rw [hran, hp, List.append_assoc]
        rfl
      · show (l.executed ++ [(t, f)]).map Prod.snd = _
        rw [List.map_append, hex, List.append_assoc]
        rfl
  | ret =>
      obtain ⟨_, f, rest, hp⟩ := enabled_ret.mp he
      show InBatchOf l₀ l.ret
      rw [ret_of_functor hp]
      exact ⟨rfl, ran, by rw [hran, hp]; rfl, hex⟩
  | finish => exact absurd rfl ha
  -- no other step is possible while a batch runs
  | enterLoop => rw [(enabled_enterLoop.mp he).2] at hb; cases hb
  | test => rw [(enabled_test.mp he).2] at hb; cases hb
  | pollReturn wake => rw [(enabled_pollReturn.mp he).2.2] at hb; cases hb
  | handleRead => rw [(enabled_handleRead.mp he).2] at hb; cases hb
  | startFunctors => rw [(enabled_startFunctors.mp he).2] at hb; cases hb
  | swap => rw [(enabled_swap.mp he).2] at hb; cases hb

/-- **The batch is closed**: whatever is pushed while it runs, by other threads or by its own
    functors, what runs until its end is a prefix of the functors the swap took. -/
theorem inBatchOf_run {l₀ l : EventLoop T F} {tr : List (EventLoop T F × Action T F)}
    (h : Run step l₀.swap tr l) (hf : ∀ p ∈ tr, p.2 ≠ .finish) : InBatchOf l₀ l :=
  h.invOn (C := fun _ a => a ≠ .finish)
    ⟨rfl, [], rfl, by rw [List.append_nil]; rfl⟩ (fun _ _ _ hI ha hs => inBatchOf_step hI ha hs) hf

/-- **The task queue is exactly-once FIFO.** In every run of the loop of thread `t`, whatever the
    other threads and the functors push and whenever they push it: what was executed, what is
    left of the batch and what waits in `pending_functors_` make up all pushes in mutex order;
    every functor ran on `t`; and from any swap to the end of its batch the functors run are a
    prefix of those the swap took. -/
theorem queue_fifo {t : T} {tr : List (EventLoop T F × Action T F)} {l : EventLoop T F}
    (h : Run step (create t) tr l) :
    l.executed.map Prod.snd ++ l.phase.rest ++ l.pendingFunctors = pushes tr ∧
    (∀ e ∈ l.executed, e.1 = t) ∧
    ∀ (tr' : List (EventLoop T F × Action T F)) (l' : EventLoop T F),
      Run step l.swap tr' l' → (∀ p ∈ tr', p.2 ≠ .finish) →
      ∃ ran, l.pendingFunctors = ran ++ l'.phase.rest ∧
        l'.executed.map Prod.snd = l.executed.map Prod.snd ++ ran := by
  have hI := queueInv_run h
  refine ⟨?_, hI.own, fun tr' l' h' hf => (inBatchOf_run h' hf).2⟩
  rw [← pushed_run h]
  exact hI.ledger

/-- A functor that queues itself again: the second copy waits for the next batch. -/
theorem queue_fifo_requeue : ∃ (tr : List (EventLoop Nat Nat × Action Nat Nat))
    (l : EventLoop Nat Nat), Run step (create 0) tr l ∧ l.phase = .batch [] ∧
    l.executed = [(0, 7)] ∧ l.pendingFunctors = [7] ∧
    l.executed.map Prod.snd ++ l.phase.rest ++ l.pendingFunctors = pushes tr := by
  have h : exec step (create 0) [.queueInLoop 1 7, .queueWake 1, .enterLoop, .test,
    .pollReturn true, .handleRead, .startFunctors, .swap, .next 0, .queueInLoop 0 7,
    .queueWake 0, .ret] = some _ := rfl
  exact ⟨_, _, exec_run .start h, rfl, rfl, rfl, (queue_fifo (exec_run .start h)).1⟩

end EventLoop

end CuteMuduo
