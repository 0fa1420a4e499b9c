/-
  File:      CuteMuduo/EventLoop/Quit.lean
  Subject:   WORK QUEUED BEFORE `Quit` (`EventLoop::Quit`, `Loop`, `DoPendingFunctors`): which of
             it is run before `Loop()` returns.

  The queue is swapped out once per iteration and `quit_` is tested right behind the batch. A
  `Quit` that stores while the swap of its iteration is still ahead (in `Poll`, in a handler, at
  the swap) waits for everything queued so far. One that stores behind the swap waits for the
  rest of the batch only: what sits in `pending_functors_` then is never run.

  * `LastBatch`, `lastBatch_run` -- behind the swap, with `quit_` set: no functor is added to
    what will have run;
  * `SwapAhead`, `swapAhead_run` -- before the swap: all of the queue will have run;
  * `run_before_quit_iff` -- the two together, for every `Quit` of a run.
-/
import CuteMuduo.EventLoop.Queue

namespace CuteMuduo

open Machine

namespace EventLoop

variable {T F : Type}

/-- The `QueueInLoop` of the `k`th push has returned. -/
def Returned (l : EventLoop T F) (k : Nat) : Prop :=
  k < l.pushed.length ∧ ∀ t, l.call t ≠ .queued k

/-- The functor of the `k`th push has been run. -/
def Ran (l : EventLoop T F) (k : Nat) : Prop :=
  ∃ f, l.pushed[k]? = some f ∧ (l.executed.map Prod.snd)[k]? = some f

/-- What has been run or is left of the batch; behind the swap it is all that a `Quit` waits for. -/
def covered (l : EventLoop T F) : Nat := l.executed.length + l.phase.rest.length

/-- Behind the swap of the iteration, or behind `Loop()`. -/
def behindSwap : Phase F → Bool
  | .test | .batch _ | .functor _ _ | .left => true
  | _ => false

/-- **A `Quit` that loses nothing**: it stores before the swap of its iteration, or finds nothing
    in `pending_functors_` whose `QueueInLoop` has returned. -/
def QuitSafe (l : EventLoop T F) : Prop :=
  behindSwap l.phase = true → ∀ k, l.Returned k → k < l.covered

theorem QueueInv.take {t : T} {l : EventLoop T F} (h : QueueInv t l) :
    l.executed.map Prod.snd = l.pushed.take l.executed.length := by
  have hlen : (l.executed.map Prod.snd).length = l.executed.length := List.length_map _
  rw [← h.ledger, List.append_assoc, List.take_append_of_le_length (Nat.le_of_eq hlen.symm),
    List.take_of_length_le (Nat.le_of_eq hlen)]

/-- By FIFO order the functors run are the first ones pushed. -/
theorem QueueInv.ran_iff {t : T} {l : EventLoop T F} (h : QueueInv t l) (k : Nat) :
    l.Ran k ↔ k < l.executed.length := by
  constructor
  · rintro ⟨f, _, hf⟩
    have := (List.getElem?_eq_some_iff.mp hf).1
    rwa [List.length_map] at this
  · intro hk
    have hk' : k < (l.executed.map Prod.snd).length := by rwa [List.length_map]
    refine ⟨(l.executed.map Prod.snd)[k], ?_, List.getElem?_eq_getElem hk'⟩
    have hget := List.getElem?_eq_getElem hk'
    nth_rewrite 1 [h.take] at hget
    rwa [List.getElem?_take_of_lt hk] at hget

/-! ## Behind the swap -/

/-- **The last batch runs**: `quit_` is set behind the swap, and `n` functors will have run. -/
structure LastBatch (n : Nat) (l : EventLoop T F) : Prop where
  quit : l.quit = true
  behind : behindSwap l.phase = true
  covered : l.covered = n

/-- A functor moves from the batch to what was run. -/
theorem covered_next {l : EventLoop T F} {t : T} {f : F} {rest : List F}
    (hp : l.phase = .batch (f :: rest)) : (l.next t).covered = l.covered := by
  rw [next_of_batch hp]
  unfold covered
  rw [hp]
  show (l.executed ++ [(t, f)]).length + rest.length = l.executed.length + (f :: rest).length
  simp only [List.length_append, List.length_cons, List.length_nil]
  omega

theorem covered_ret {l : EventLoop T F} {f : F} {rest : List F}
    (hp : l.phase = .functor f rest) : l.ret.covered = l.covered := by
  rw [ret_of_functor hp]
  unfold covered
  rw [hp]
  rfl

variable [DecidableEq T]

theorem lastBatch_step {n : Nat} {l l' : EventLoop T F} {a : Action T F} (h : LastBatch n l)
    (hs : l.step a = some l') : LastBatch n l' := by
  obtain ⟨he, rfl⟩ := step_eq_some.mp hs
  obtain ⟨hq, hb, hn⟩ := h
  cases a with
  | queueInLoop t f => exact ⟨hq, hb, hn⟩
  | queueWake t => exact ⟨hq, hb, hn⟩
  | runInLoop t f =>
      show LastBatch n (l.runInLoop t f)
      unfold EventLoop.runInLoop
      split <;> exact ⟨hq, hb, hn⟩
  | quitStore t => exact ⟨rfl, hb, hn⟩
  | quitWake t => exact ⟨hq, hb, hn⟩
  | test =>
      have hp := (enabled_test.mp he).2
      -- `quit_` is set: the loop ends here
      have hl : l.test.phase = .left := if_pos hq
      refine ⟨hq, ?_, ?_⟩
      · show behindSwap l.test.phase = true
        rw [hl]
        rfl
      · show l.executed.length + l.test.phase.rest.length = n
        rw [hl, ← hn, EventLoop.covered, hp]
        rfl
  | next t =>
      obtain ⟨_, _, f, rest, hp⟩ := enabled_next.mp he
      refine ⟨?_, ?_, (covered_next hp).trans hn⟩
      · show (l.next t).quit = true
        rw [next_of_batch hp]
        exact hq
      · show behindSwap (l.next t).phase = true
        rw [next_of_batch hp]
        rfl
  | ret =>
      obtain ⟨_, f, rest, hp⟩ := enabled_ret.mp he
      refine ⟨?_, ?_, (covered_ret hp).trans hn⟩
      · show l.ret.quit = true
        rw [ret_of_functor hp]
        exact hq
      · show behindSwap l.ret.phase = true
        rw [ret_of_functor hp]
        rfl
  | finish =>
      have hp := (enabled_finish.mp he).2
      refine ⟨hq, rfl, ?_⟩
      rw [← hn, EventLoop.covered, EventLoop.covered, hp]
      rfl
  -- before the swap, or in `init`
  | enterLoop => rw [(enabled_enterLoop.mp he).2] at hb; cases hb
  | pollReturn wake => rw [(enabled_pollReturn.mp he).2.2] at hb; cases hb
  | handleRead => rw [(enabled_handleRead.mp he).2] at hb; cases hb
  | startFunctors => rw [(enabled_startFunctors.mp he).2] at hb; cases hb
  | swap => rw [(enabled_swap.mp he).2] at hb; cases hb

/-- **A `Quit` behind the swap waits for the rest of its batch only.** -/
theorem lastBatch_run {n : Nat} {l₀ l : EventLoop T F} {tr : List (EventLoop T F × Action T F)}
    (h : Run step l₀ tr l) (h0 : LastBatch n l₀) : LastBatch n l :=
  h.inv h0 fun _ _ _ hI hs => lastBatch_step hI hs

/-! ## Before the swap -/

/-- **The swap of this iteration covers the first `n` pushes**, or a swap has. -/
structure SwapAhead (n : Nat) (l : EventLoop T F) : Prop where
  entered : l.phase.isInit = false
  pushed : n ≤ l.pushed.length
  covered : behindSwap l.phase = true → n ≤ l.covered

theorem swapAhead_step {n : Nat} {t : T} {l l' : EventLoop T F} {a : Action T F}
    (hI : QueueInv t l) (h : SwapAhead n l) (hs : l.step a = some l') : SwapAhead n l' := by
  obtain ⟨he, rfl⟩ := step_eq_some.mp hs
  obtain ⟨hi, hn, hc⟩ := h
  have hpush : ∀ u f, SwapAhead n (l.queueInLoop u f) := fun u f =>
    ⟨hi, Nat.le_trans hn (List.length_append ▸ Nat.le_add_right _ _), hc⟩
  cases a with
  | queueInLoop u f => exact hpush u f
  | queueWake u => exact ⟨hi, hn, hc⟩
  | runInLoop u f =>
      show SwapAhead n (l.runInLoop u f)
      unfold EventLoop.runInLoop
      split
      · exact ⟨hi, hn, hc⟩
      · exact hpush u f
  | quitStore u => exact ⟨hi, hn, hc⟩
  | quitWake u => exact ⟨hi, hn, hc⟩
  | enterLoop => rw [(enabled_enterLoop.mp he).2] at hi; cases hi
  | test =>
      have hp := (enabled_test.mp he).2
      have hc := hc (by rw [hp]; rfl)
      have hr : l.test.phase.rest = l.phase.rest := by
        show (if l.quit then Phase.left else Phase.poll).rest = l.phase.rest
        rw [hp]
        split <;> rfl
      refine ⟨?_, hn, fun _ => ?_⟩
      · show (if l.quit then Phase.left else Phase.poll).isInit = false
        split <;> rfl
      · show n ≤ l.executed.length + l.test.phase.rest.length
        rw [hr]
        exact hc
  | pollReturn wake => exact ⟨rfl, hn, fun hb => by cases hb⟩
  | handleRead => exact ⟨rfl, hn, fun hb => by cases hb⟩
  | startFunctors => exact ⟨rfl, hn, fun hb => by cases hb⟩
  | swap =>
      have hp := (enabled_swap.mp he).2
      refine ⟨rfl, hn, fun _ => ?_⟩
      have hl := hI.ledger
      rw [hp] at hl
      show n ≤ l.executed.length + l.pendingFunctors.length
      rw [← hl] at hn
      simpa [Phase.rest] using hn
  | next u =>
      obtain ⟨_, _, f, rest, hp⟩ := enabled_next.mp he
      refine ⟨?_, ?_, fun _ => (covered_next hp).symm ▸ hc (by rw [hp]; rfl)⟩
      · show (l.next u).phase.isInit = false
        rw [next_of_batch hp]
        rfl
      · show n ≤ (l.next u).pushed.length
        rw [next_of_batch hp]
        exact hn
  | ret =>
      obtain ⟨_, f, rest, hp⟩ := enabled_ret.mp he
      refine ⟨?_, ?_, fun _ => (covered_ret hp).symm ▸ hc (by rw [hp]; rfl)⟩
      · show l.ret.phase.isInit = false
        rw [ret_of_functor hp]
        rfl
      · show n ≤ l.ret.pushed.length
        rw [ret_of_functor hp]
        exact hn
  | finish =>
      have hp := (enabled_finish.mp he).2
      refine ⟨rfl, hn, fun _ => ?_⟩
      have hc := hc (by rw [hp]; rfl)
      rw [EventLoop.covered, hp] at hc
      exact hc

/-- **A `Quit` before the swap waits for everything queued so far.** -/
theorem swapAhead_run {n : Nat} {t : T} {l₀ l : EventLoop T F}
    {tr : List (EventLoop T F × Action T F)} (h : Run step l₀ tr l) (hq : QueueInv t l₀)
    (h0 : SwapAhead n l₀) : SwapAhead n l :=
  h.invWith (C := fun _ _ => True) hq (fun _ _ _ hI hs => queueInv_step hI hs) h0
    (fun _ _ _ hJ hI _ hs => swapAhead_step hJ hI hs) fun _ _ => trivial

/-! ## Every `Quit` of a run -/

/-- What is queued when `Quit` stores, behind the swap, has run at the end of `Loop()` exactly
    where it was in the batch already. -/
theorem executed_of_quit {t u : T} {s s' l : EventLoop T F}
    {tr : List (EventLoop T F × Action T F)} (hI : QueueInv t s)
    (hr : s.phase.running = true) (hs : s.step (.quitStore u) = some s') (h : Run step s' tr l)
    (hl : l.phase = .left) :
    (behindSwap s.phase = true → l.executed.length = s.covered) ∧
    (behindSwap s.phase = false → s.pushed.length ≤ l.executed.length) := by
  have hcov : l.covered = l.executed.length := by rw [covered, hl]; rfl
  have hs' := (step_eq_some.mp hs).2
  refine ⟨fun hb => ?_, fun hb => ?_⟩
  · have h0 : LastBatch s.covered s' := by
      rw [← hs']
      exact ⟨rfl, hb, rfl⟩
    rw [← hcov]
    exact (lastBatch_run h h0).covered
  · have h0 : SwapAhead s.pushed.length s' := by
      rw [← hs']
      refine ⟨?_, Nat.le_refl _, fun hb' => ?_⟩
      · show s.phase.isInit = false
        cases hp : s.phase with
        | init => rw [hp] at hr; cases hr
        | _ => rfl
      · change behindSwap s.phase = true at hb'
        rw [hb] at hb'
        cases hb'
    rw [← hcov]
    exact (swapAhead_run h (queueInv_step hI hs) h0).covered (by rw [hl]; rfl)

/-- **Work queued before `Quit` is run, exactly for the safe `Quit`s.** In every run of the loop
    that ends with `Loop()` returned, with any number of threads and whatever the functors queue:
    everything whose `QueueInLoop` had returned before some `Quit` on the running loop has been
    run if and only if each of these `Quit`s stored before the swap of its iteration or found
    nothing but unreturned pushes in `pending_functors_`. -/
theorem run_before_quit_iff {t : T} {tr : List (EventLoop T F × Action T F)} {l : EventLoop T F}
    (h : Run step (create t) tr l) (hl : l.phase = .left) :
    (∀ s u, (s, .quitStore u) ∈ tr → s.phase.running = true → ∀ k, s.Returned k → l.Ran k) ↔
      ∀ s u, (s, .quitStore u) ∈ tr → s.phase.running = true → s.QuitSafe := by
  have hone : ∀ s u, (s, .quitStore u) ∈ tr → s.phase.running = true →
      ((∀ k, s.Returned k → l.Ran k) ↔ s.QuitSafe) := by
    intro s u hm hr
    obtain ⟨tr₁, tr₂, s', h₁, hs, h₂, _⟩ := h.split hm
    obtain ⟨hbehind, hahead⟩ := executed_of_quit (queueInv_run h₁) hr hs h₂ hl
    simp only [(queueInv_run h).ran_iff]
    cases hb : behindSwap s.phase with
    | true =>
        rw [hbehind hb]
        exact ⟨fun hall _ => hall, fun hsafe => hsafe hb⟩
    | false =>
        refine ⟨fun _ hb' => ?_, fun _ k hk => Nat.lt_of_lt_of_le hk.1 (hahead hb)⟩
        rw [hb] at hb'
        cases hb'
  exact forall₄_congr hone

/-- A `Quit` in `Poll` waits for the functor queued before it. -/
theorem run_before_quit_poll : ∃ (tr : List (EventLoop Nat Nat × Action Nat Nat))
    (l : EventLoop Nat Nat), Run step (create 0) tr l ∧ l.executed = [(0, 7)] ∧
    ∀ s u, (s, .quitStore u) ∈ tr → s.phase.running = true → ∀ k, s.Returned k → l.Ran k := by
  have h : exec step (create 0 : EventLoop Nat Nat) [.enterLoop, .test, .queueInLoop 1 7,
    .queueWake 1, .quitStore 1, .quitWake 1, .pollReturn true, .handleRead, .startFunctors,
    .swap, .next 0, .ret, .finish, .test] = some _ := rfl
  refine ⟨_, _, exec_run .start h, rfl, (run_before_quit_iff (exec_run .start h) rfl).mpr ?_⟩
  intro s u hm _ hb
  -- the one `Quit` of the trace stores in `Poll`
  iterate 14 (rcases List.mem_cons.mp hm with e | hm; (cases e; try cases hb))
  exact absurd hm List.not_mem_nil

/-- **What `~TcpServer` and the thread pool's destruction may do to a sub loop**: thread 1 hands
    functor 7 over while functor 6 runs, then calls `Quit`; functor 7 is never run. -/
theorem lost_before_quit : ¬ ∀ (tr : List (EventLoop Nat Nat × Action Nat Nat))
    (l : EventLoop Nat Nat), Run step (create 0) tr l → l.phase = .left →
    ∀ s u, (s, .quitStore u) ∈ tr → s.phase.running = true → ∀ k, s.Returned k → l.Ran k := by
  intro hall
  have h₁ : exec step (create 0 : EventLoop Nat Nat) [.enterLoop, .test, .queueInLoop 1 6,
    .queueWake 1, .pollReturn true, .handleRead, .startFunctors, .swap, .next 0,
    .queueInLoop 1 7, .queueWake 1] = some _ := rfl
  have h₂ := Run.step _ _ (.quitStore 1) _ (exec_run .start h₁) rfl
  have h₃ := exec_run h₂ (show exec step _ [.quitWake 1, .ret, .finish, .test] = some _ from rfl)
  have hcall : ∀ t k, Function.update (Function.update (Function.update (Function.update
      (fun _ => Call.idle) 1 (.queued 0)) 1 .idle) 1 (.queued 1)) 1 .idle t ≠ .queued k := by
    intro t k e
    simp [Function.update_idem] at e
  obtain ⟨f, _, hf⟩ := hall _ _ h₃ rfl _ 1 (mem_execTrace _ List.mem_cons_self) rfl 1
    ⟨Nat.lt_succ_self 1, fun t => hcall t 1⟩
  cases hf

end EventLoop

end CuteMuduo
