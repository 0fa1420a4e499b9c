/-
  File:      CuteMuduo/TcpServer/Round.lean
  Subject:   `Loop()` GETS AROUND, over every run of the program (`loop_gets_round`): a loop's
             thread, left to itself, comes back to `Poll` with everything run that was queued, or
             out of `Loop()` where `quit_` is set, whatever it is in the middle of.

  No other thread is needed for that, and it does not depend on what the kernel answers: `Poll` and
  the system calls return, callbacks return, and user code asks for nothing new. What can come in
  between is only what `progress` names: what a handler or a functor is about to use is gone, or it
  waits in `Join`.

  * `Nearer`, `own_step` -- each step of the thread brings `Loop()` nearer to its test of `quit_`;
  * `gets_to_test` -- so it gets there;
  * `Covers`, `around_of_dispatch` -- the swap on the way takes all that is queued.
-/
import CuteMuduo.TcpServer.Work
import CuteMuduo.EventLoop.Quit

namespace CuteMuduo

open Machine

namespace Phase

variable {F : Type}

/-- How far `Loop()` is from its end, where `quit_` is set. -/
def ahead : Phase F → Nat
  | .poll => 5
  | .dispatch _ => 4
  | .swap => 3
  | .batch _ | .functor _ _ => 2
  | .test => 1
  | _ => 0

/-- The calls and returns that are left of the batch. -/
def callsLeft : Phase F → Nat
  | .batch rest => 2 * rest.length
  | .functor _ rest => 2 * rest.length + 1
  | _ => 0

end Phase

/-! ## What a round takes -/

namespace EventLoop

variable {T F : Type} {n : Nat} {l l' : EventLoop T F}

/-- **The first `n` pushes are swapped in this round**, or were before. -/
structure Covers (n : Nat) (l : EventLoop T F) : Prop where
  pushed : n ≤ l.pushed.length
  swapped : l.phase.ahead = 4 ∨ l.phase.ahead = 3 ∨ n ≤ l.swapped

variable [DecidableEq T] {b : Action T F}

theorem covers_step (h : Covers n l) (hs : l.step b = some l') : Covers n l' := by
  obtain ⟨he, rfl⟩ := step_eq_some.mp hs
  have hpush : ∀ u f, Covers n (l.queueInLoop u f) := fun u f =>
    ⟨Nat.le_trans h.pushed (List.length_append ▸ Nat.le_add_right _ _), h.swapped⟩
  -- in the other phases the swap has been
  have hdone : ∀ {p}, l.phase = p → p.ahead ≠ 4 → p.ahead ≠ 3 → n ≤ l.swapped :=
    fun e h4 h3 => (h.swapped.resolve_left (e ▸ h4)).resolve_left (e ▸ h3)
  cases b with
  | queueInLoop u f => exact hpush u f
  | runInLoop u f =>
      show Covers n (l.runInLoop u f)
      unfold EventLoop.runInLoop
      split
      · exact h
      · exact hpush u f
  | queueWake u | quitStore u | quitWake u => exact ⟨h.pushed, h.swapped⟩
  | enterLoop =>
      have hp := (enabled_enterLoop.mp he).2
      exact ⟨h.pushed, Or.inr (Or.inr (hdone hp (fun e => by cases e) fun e => by cases e))⟩
  | test =>
      have hp := (enabled_test.mp he).2
      exact ⟨h.pushed, Or.inr (Or.inr (hdone hp (fun e => by cases e) fun e => by cases e))⟩
  | pollReturn wake => exact ⟨h.pushed, Or.inl rfl⟩
  | handleRead => exact ⟨h.pushed, Or.inl rfl⟩
  | startFunctors => exact ⟨h.pushed, Or.inr (Or.inl rfl)⟩
  | swap => exact ⟨h.pushed, Or.inr (Or.inr h.pushed)⟩
  | next u =>
      obtain ⟨_, _, f, fs, hp⟩ := enabled_next.mp he
      have hsw := hdone hp (fun e => by cases e) fun e => by cases e
      show Covers n (l.next u)
      rw [next_of_batch hp]
      exact ⟨h.pushed, Or.inr (Or.inr hsw)⟩
  | ret =>
      obtain ⟨_, f, fs, hp⟩ := enabled_ret.mp he
      have hsw := hdone hp (fun e => by cases e) fun e => by cases e
      show Covers n l.ret
      rw [ret_of_functor hp]
      exact ⟨h.pushed, Or.inr (Or.inr hsw)⟩
  | finish =>
      have hp := (enabled_finish.mp he).2
      exact ⟨h.pushed, Or.inr (Or.inr (hdone hp (fun e => by cases e) fun e => by cases e))⟩

/-- Pushes are not taken back. -/
theorem pushed_grows (hs : l.step b = some l') : l.pushed <+: l'.pushed := by
  obtain ⟨_, rfl⟩ := step_eq_some.mp hs
  cases b with
  | queueInLoop u f => exact List.prefix_append _ _
  | runInLoop u f =>
      show l.pushed <+: (l.runInLoop u f).pushed
      unfold EventLoop.runInLoop
      split
      · exact List.prefix_rfl
      · exact List.prefix_append _ _
  | next u =>
      show l.pushed <+: (l.next u).pushed
      unfold EventLoop.next
      split <;> exact List.prefix_rfl
  | ret =>
      show l.pushed <+: l.ret.pushed
      unfold EventLoop.ret
      split <;> exact List.prefix_rfl
  | _ => exact List.prefix_rfl

/-- Only the head of `Loop()` clears `quit_`. -/
theorem quit_stays (h : l.phase.isInit = false ∧ l.quit = true) (hs : l.step b = some l') :
    l'.phase.isInit = false ∧ l'.quit = true := by
  obtain ⟨he, rfl⟩ := step_eq_some.mp hs
  cases b with
  | runInLoop u f =>
      show (l.runInLoop u f).phase.isInit = false ∧ (l.runInLoop u f).quit = true
      unfold EventLoop.runInLoop
      split <;> exact h
  | quitStore u => exact ⟨h.1, rfl⟩
  | enterLoop =>
      rw [(enabled_enterLoop.mp he).2] at h
      cases h.1
  | test =>
      refine ⟨?_, h.2⟩
      show (if l.quit then Phase.left else .poll : Phase F).isInit = false
      split <;> rfl
  | next u =>
      obtain ⟨_, _, f, fs, hp⟩ := enabled_next.mp he
      show (l.next u).phase.isInit = false ∧ (l.next u).quit = true
      rw [next_of_batch hp]
      exact ⟨rfl, h.2⟩
  | ret =>
      obtain ⟨_, f, fs, hp⟩ := enabled_ret.mp he
      show l.ret.phase.isInit = false ∧ l.ret.quit = true
      rw [ret_of_functor hp]
      exact ⟨rfl, h.2⟩
  | pollReturn | handleRead | startFunctors | swap | finish => exact ⟨rfl, h.2⟩
  | _ => exact h

end EventLoop

namespace Process

variable {s s' s₁ : Process} {a : Label} {l : LoopId} {t : ThreadId} {o : Outcome} {i : Instr}
  {is rest : List Instr}

/-! ## One step -/

/-- Thread `t` has less to do, or has returned from a callback. -/
def Shorter (t : ThreadId) (s s' : Process) : Prop :=
  s'.work t < s.work t ∨ s'.work t = s.work t ∧ (s'.stack t).length < (s.stack t).length

/-- **A thread that executes what is on its stack** gets on with it. -/
theorem shorter_of_executes (hw : Wf s) (hs : Step s a s') (ha : a.thread = t)
    (he : a.executes = true) : Shorter t s s' := by
  have hwork := work_step (t := t) hw hs fun _ => he
  cases hs with
  | run u o i rest s₁ is hst hex =>
      obtain rfl : u = t := ha
      exact Or.inl (work_run hw hst hex)
  | ret u arg rest hst =>
      obtain rfl : u = t := ha
      refine (Nat.lt_or_eq_of_le (Nat.le_of_add_right_le hwork)).imp_right fun e => ⟨e, ?_⟩
      rw [stack_setStack_self, hst]
      exact Nat.lt_succ_self _
  | _ => cases he

/-- A thread does not get on for ever. -/
theorem shorter_wf (t : ThreadId) : WellFounded fun s' s : Process => Shorter t s s' := by
  let toDo (s : Process) := (s.work t, (s.stack t).length)
  have hwf := (Prod.lex Nat.lt_wfRel Nat.lt_wfRel).wf
  refine Subrelation.wf (fun {s' s} h => ?_) (InvImage.wf toDo hwf)
  exact Prod.lex_def.mpr h

/-- What `Loop()` has still to call before its next test: handlers and functors. -/
def toCall (s : Process) (l : LoopId) : Nat :=
  (s.active l).length + (s.loops l).phase.callsLeft

/-- **`Loop()` is nearer to its end**: in another part of the round, or with less to call in it, or
    with less to do in what is called. -/
inductive Nearer (l : LoopId) (s s' : Process) : Prop where
  | ahead (h : (s'.loops l).phase.ahead < (s.loops l).phase.ahead)
  | call (ha : (s'.loops l).phase.ahead = (s.loops l).phase.ahead) (h : s'.toCall l < s.toCall l)
  | work (ha : (s'.loops l).phase.ahead = (s.loops l).phase.ahead)
      (hc : s'.toCall l = s.toCall l) (h : Shorter (.loop l) s s')

/-- `Loop()` is at `Poll`, and `quit_` is not set. -/
structure AtPoll (s : Process) (l : LoopId) : Prop where
  stack : s.stack (.loop l) = []
  active : s.active l = []
  phase : (s.loops l).phase = .poll
  quit : (s.loops l).quit = false

/-- `Loop()` has returned, and `quit_` is set. -/
structure Left (s : Process) (l : LoopId) : Prop where
  stack : s.stack (.loop l) = []
  phase : (s.loops l).phase = .left
  quit : (s.loops l).quit = true

/-- **What a step of its own thread's does to `Loop()`**: it is nearer to its end, but for the test
    that finds `quit_` not set, and the end of the thread. -/
inductive Went (l : LoopId) (s s' : Process) : Prop where
  | on (hrun : (s'.loops l).phase.running = (s.loops l).phase.running) (h : Nearer l s s')
  | poll (h : s'.AtPoll l)
  | left (h' : s'.Left l) (h : Nearer l s s')
  | ended (hp : (s.loops l).phase = .left) (hd : s'.threadDone l = true)

/-- An instruction leaves `Loop()` where it is, but for the handler of the wakeup channel. -/
theorem exec_phase (h : Exec s t o i s₁ is) (l : LoopId) :
    (s₁.loops l).phase = (s.loops l).phase ∨
      (s.loops l).phase = .dispatch true ∧ (s₁.loops l).phase = .dispatch false := by
  cases h with
  | loop _ m b l' is hi hl hs =>
      show (Function.update s.loops m l' l).phase = _ ∨
        _ ∧ (Function.update s.loops m l' l).phase = _
      by_cases e : l = m
      · subst e
        rw [Function.update_self]
        obtain ⟨he, rfl⟩ := EventLoop.step_eq_some.mp hs
        cases hi with
        | handleRead => exact Or.inr ⟨(EventLoop.enabled_handleRead.mp he).2, rfl⟩
        | _ => exact Or.inl rfl
      · rw [Function.update_of_ne e]
        exact Or.inl rfl
  | _ => exact Or.inl rfl

/-- **Each step of the loop's thread brings it nearer**, or to `Poll`. -/
theorem own_step (h : s.Sound) (hs : s.step a = some s') (ha : a.thread = .loop l)
    (hown : a.own = true) (hin : (s.loops l).phase.isInit = false) : Went l s s' := by
  have hexec := shorter_of_executes h.toWf (of_step hs) ha
  cases of_step hs with
  | run u o i rest s₁ is hst he =>
      obtain rfl : u = .loop l := ha
      have hact : (s₁.setStack (.loop l) (is ++ rest)).active l = s.active l :=
        congrFun (exec_kept he).2.1 l
      rcases exec_phase he l with e | ⟨e, e'⟩
      · refine .on (congrArg Phase.running e) (.work (congrArg Phase.ahead e) ?_ (hexec rfl))
        rw [toCall, toCall, hact]
        exact congrArg (_ + Phase.callsLeft ·) e
      · have hp : ((s₁.setStack (.loop l) (is ++ rest)).loops l).phase = .dispatch false := e'
        refine .on (by rw [hp, e]; rfl) (.work (by rw [hp, e]; rfl) ?_ (hexec rfl))
        rw [toCall, toCall, hact, hp, e]
        rfl
  | user u v s₁ is hu hcall => cases hown
  | ret u arg rest hst => exact .on rfl (.work rfl rfl (hexec rfl))
  | loop m b l' hst hact hb hl hstep =>
      obtain rfl : m = l := ThreadId.loop.inj ha
      obtain ⟨he, rfl⟩ := EventLoop.step_eq_some.mp hstep
      generalize hs' : ({ s with loops := Function.update s.loops m ((s.loops m).apply b) } :
        Process).setStack (.loop m) (s.nextInstr m b) = s'
      have hloop : s'.loops m = (s.loops m).apply b := by
        rw [← hs']
        exact Function.update_self _ _ _
      have hact' : s'.active m = [] := by
        rw [← hs']
        exact hact
      cases b with
      | enterLoop =>
          rw [(EventLoop.enabled_enterLoop.mp he).2] at hin
          cases hin
      | test =>
          have hp := (EventLoop.enabled_test.mp he).2
          have hst' : s'.stack (.loop m) = [] := by
            rw [← hs']
            exact stack_setStack_self _ _ _
          have hp' : (s'.loops m).phase = if (s.loops m).quit then .left else .poll := by
            rw [hloop]
            rfl
          have hq' : (s'.loops m).quit = (s.loops m).quit := by
            rw [hloop]
            rfl
          cases hq : (s.loops m).quit with
          | false =>
              rw [hq] at hp' hq'
              exact .poll ⟨hst', hact', hp', hq'⟩
          | true =>
              rw [hq] at hp' hq'
              refine .left ⟨hst', hp', hq'⟩ (.ahead ?_)
              rw [hp', hp]
              exact Nat.lt_succ_self 0
      | startFunctors =>
          have hp := (EventLoop.enabled_startFunctors.mp he).2
          refine .on (by rw [hloop, hp]; rfl) (.ahead ?_)
          rw [hloop, hp]
          exact Nat.lt_succ_self 3
      | swap =>
          have hp := (EventLoop.enabled_swap.mp he).2
          refine .on (by rw [hloop, hp]; rfl) (.ahead ?_)
          rw [hloop, hp]
          exact Nat.lt_succ_self 2
      | next u =>
          obtain ⟨_, _, f, fs, hp⟩ := EventLoop.enabled_next.mp he
          have hp' : (s'.loops m).phase = .functor f fs := by
            rw [hloop]
            exact congrArg EventLoop.phase (EventLoop.next_of_batch hp)
          refine .on (by rw [hp', hp]; rfl) (.call (by rw [hp', hp]; rfl) ?_)
          rw [toCall, toCall, hact', hact, hp', hp]
          show 0 + (2 * fs.length + 1) < 0 + 2 * (fs.length + 1)
          omega
      | ret =>
          obtain ⟨_, f, fs, hp⟩ := EventLoop.enabled_ret.mp he
          have hp' : (s'.loops m).phase = .batch fs := by
            rw [hloop]
            exact congrArg EventLoop.phase (EventLoop.ret_of_functor hp)
          refine .on (by rw [hp', hp]; rfl) (.call (by rw [hp', hp]; rfl) ?_)
          rw [toCall, toCall, hact', hact, hp', hp]
          exact Nat.lt_succ_self _
      | finish =>
          obtain ⟨_, hp⟩ := EventLoop.enabled_finish.mp he
          refine .on (by rw [hloop, hp]; rfl) (.ahead ?_)
          rw [hloop, hp]
          exact Nat.lt_succ_self 1
      | _ => cases hb
  | poll m events l' hst hev hnd hl hstep =>
      obtain rfl : m = l := ThreadId.loop.inj ha
      obtain ⟨he, rfl⟩ := EventLoop.step_eq_some.mp hstep
      have hp := (EventLoop.enabled_pollReturn.mp he).2.2
      refine .on ?_ (.ahead ?_)
      · show (Function.update s.loops m _ m).phase.running = _
        rw [Function.update_self, hp]
        rfl
      · show (Function.update s.loops m _ m).phase.ahead < _
        rw [Function.update_self, hp]
        exact Nat.lt_succ_self 4
  | dispatch m ch rest hst hact =>
      obtain rfl : m = l := ThreadId.loop.inj ha
      refine .on rfl (.call rfl ?_)
      show (Function.update s.active m rest m).length + _ < (s.active m).length + _
      rw [Function.update_self, hact]
      exact Nat.add_lt_add_right (Nat.lt_succ_self _) _
  | threadEnd m h0 hl hst hp =>
      obtain rfl : m = l := ThreadId.loop.inj ha
      exact .ended hp (Function.update_self _ _ _)

/-- `Loop()` cannot get nearer for ever. -/
theorem nearer_wf (l : LoopId) : WellFounded fun s' s : Process => Nearer l s s' := by
  let toGo (s : Process) := ((s.loops l).phase.ahead, s.toCall l, s.work (.loop l),
    (s.stack (.loop l)).length)
  have hwf := (Prod.lex Nat.lt_wfRel
    (Prod.lex Nat.lt_wfRel (Prod.lex Nat.lt_wfRel Nat.lt_wfRel))).wf
  refine Subrelation.wf (fun {s' s} h => ?_) (InvImage.wf toGo hwf)
  cases h with
  | ahead h => exact Prod.lex_def.mpr (Or.inl h)
  | call ha h => exact Prod.lex_def.mpr (Or.inr ⟨ha, Prod.lex_def.mpr (Or.inl h)⟩)
  | work ha hc h =>
      exact Prod.lex_def.mpr (Or.inr ⟨ha, Prod.lex_def.mpr (Or.inr ⟨hc, Prod.lex_def.mpr h⟩)⟩)

/-- The loop is there until its thread ends, behind `Loop()`. -/
theorem hasLoop_running (hs : Step s a s') (hrun : (s.loops l).phase.running = true) :
    s'.hasLoop l = s.hasLoop l := by
  cases hs with
  | run t o i rest s₁ is hst he => exact exec_hasLoop he l
  | user t v s₁ is hu hcall =>
      obtain ⟨held, server, rfl, _⟩ := called_same hcall
      rfl
  | threadEnd m h0 hl hst hp =>
      have hne : l ≠ m := by
        rintro rfl
        rw [hp] at hrun
        cases hrun
      show (_ && !Function.update s.threadDone m true l) = _
      rw [Function.update_of_ne hne]
      rfl
  | _ => rfl

/-! ## A round -/

/-- The loop's thread is in the middle of something it cannot go on with: what it is about to use
    is gone, or it waits in `Join`. -/
def Caught (s : Process) (l : LoopId) : Prop :=
  ∃ i rest, s.stack (.loop l) = i :: rest ∧
    (s.UsesGone i ∨ ∃ m, i = .join m ∧ s.threadDone m = false)

theorem AtPoll.not_caught (h : s.AtPoll l) : ¬ s.Caught l := by
  rintro ⟨i, rest, hst, _⟩
  rw [h.stack] at hst
  cases hst

theorem caught_of_halted (hl : s.hasLoop l = true) (hrun : (s.loops l).phase.running = true)
    (h : s.Halted (.loop l)) : s.Caught l := by
  cases h with
  | user u ht hst => cases ht
  | ended m ht hgone =>
      cases ht
      rw [hl] at hgone
      cases hgone
  | left ht hst hp =>
      cases ht
      rw [hp] at hrun
      cases hrun
  | joins m rest hst hd => exact ⟨_, rest, hst, Or.inr ⟨m, rfl, hd⟩⟩
  | gone i rest hst hg => exact ⟨i, rest, hst, Or.inl hg⟩

/-- The step is one of the thread of loop `l`; user code asks for nothing. -/
def OwnStep (l : LoopId) (_ : Process) (a : Label) : Prop := a.thread = .loop l ∧ a.own = true

/-- **Loop `l` has gone around**, since `s`: it is out of `Loop()`, where `quit_` is set; or back at
    `Poll`, where `quit_` was not set, with all run that was queued; or its thread is caught in
    between. -/
inductive Around (l : LoopId) (s s' : Process) : Prop where
  | left (h : s'.Left l)
  | poll (h : s'.AtPoll l) (hq : (s.loops l).quit = false)
      (hrun : (s.loops l).pushed <+: (s'.loops l).executed.map Prod.snd)
  | caught (h : s'.Caught l)

/-- What is known of loop `l` in the middle of `Loop()`. -/
structure Looping (s : Process) (l : LoopId) : Prop where
  sound : s.Sound
  hasLoop : s.hasLoop l = true
  running : (s.loops l).phase.running = true

theorem Looping.canStep (h : s.Looping l) (hno : ¬ s.Caught l) :
    ∃ a s', OwnStep l s a ∧ s.step a = some s' := by
  obtain ⟨a, ha, hown, hs⟩ := canStep_of_not_halted h.sound fun hh =>
    hno (caught_of_halted h.hasLoop h.running hh)
  obtain ⟨s', hs⟩ := Option.isSome_iff_exists.mp hs
  exact ⟨a, s', ⟨ha, hown⟩, hs⟩

theorem Looping.step (h : s.Looping l) (hs : s.step a = some s')
    (hrun : (s'.loops l).phase.running = true) : s'.Looping l :=
  ⟨sound_step h.sound hs, (hasLoop_running (of_step hs) h.running).trans h.hasLoop, hrun⟩

theorem Looping.isInit (h : s.Looping l) : (s.loops l).phase.isInit = false := by
  have hrun := h.running
  cases hp : (s.loops l).phase <;> rw [hp] at hrun <;> first | rfl | cases hrun

/-- **The loop's thread, left to itself, gets to its test of `quit_`.** -/
theorem gets_to_test (h : s.Looping l) :
    Inevitable step (OwnStep l)
      (fun s' => s'.AtPoll l ∧ s'.hasLoop l = true ∨ s'.Left l ∨ s'.Caught l) s := by
  refine .of_wellFounded (I := (Looping · l)) (nearer_wf l)
    (fun s hl hno => hl.canStep fun hc => hno (Or.inr (Or.inr hc))) ?_ h
  intro s a s' hl _ ha hs
  cases own_step hl.sound hs ha.1 ha.2 hl.isInit with
  | on hrun hnear => exact Or.inr ⟨hl.step hs (hrun.trans hl.running), hnear⟩
  | poll h' =>
      exact Or.inl (Or.inl ⟨h', (hasLoop_running (of_step hs) hl.running).trans hl.hasLoop⟩)
  | left h' _ => exact Or.inl (Or.inr (Or.inl h'))
  | ended hp _ =>
      have hrun := hl.running
      rw [hp] at hrun
      cases hrun

/-- **At `Poll` the thread has one thing to do**: wait until it returns. -/
theorem poll_step (h : s.AtPoll l) (hs : Step s a s') (ha : OwnStep l s a) :
    ∃ wake, (s'.loops l).phase = .dispatch wake := by
  obtain ⟨ha, hown⟩ := ha
  obtain ⟨hst, hact, hp, _⟩ := h
  cases hs with
  | run u o i rest s₁ is hst' he =>
      obtain rfl : u = .loop l := ha
      rw [hst] at hst'
      cases hst'
  | user u v s₁ is hu hcall => cases hown
  | ret u arg rest hst' =>
      obtain rfl : u = .loop l := ha
      rw [hst] at hst'
      cases hst'
  | loop m b l' hst' hact' hb hl hstep =>
      obtain rfl : m = l := ThreadId.loop.inj ha
      obtain ⟨he, rfl⟩ := EventLoop.step_eq_some.mp hstep
      -- the other parts of `Loop()` are in other phases
      have hno : ∀ {q : Phase Functor}, (s.loops m).phase = q → q = .poll := fun e => e ▸ hp
      cases b with
      | enterLoop => cases hno (EventLoop.enabled_enterLoop.mp he).2
      | test => cases hno (EventLoop.enabled_test.mp he).2
      | startFunctors => cases hno (EventLoop.enabled_startFunctors.mp he).2
      | swap => cases hno (EventLoop.enabled_swap.mp he).2
      | next u =>
          obtain ⟨_, _, f, fs, hq⟩ := EventLoop.enabled_next.mp he
          cases hno hq
      | ret =>
          obtain ⟨_, f, fs, hq⟩ := EventLoop.enabled_ret.mp he
          cases hno hq
      | finish => cases hno (EventLoop.enabled_finish.mp he).2
      | _ => cases hb
  | poll m events l' hst' hev hnd hl hstep =>
      obtain rfl : m = l := ThreadId.loop.inj ha
      obtain ⟨_, rfl⟩ := EventLoop.step_eq_some.mp hstep
      refine ⟨events.any (·.1 == .wakeup m), ?_⟩
      show (Function.update s.loops m _ m).phase = _
      rw [Function.update_self]
      rfl
  | dispatch m ch rest hst' hact' =>
      obtain rfl : m = l := ThreadId.loop.inj ha
      rw [hact] at hact'
      cases hact'
  | threadEnd m h0 hl hst' hp' =>
      obtain rfl : m = l := ThreadId.loop.inj ha
      rw [hp] at hp'
      cases hp'

/-! ## All the way around -/

/-- What holds of loop `l` since `s`: nothing queued is taken back, and `quit_` stays set. -/
structure Since (l : LoopId) (s s' : Process) : Prop where
  sound : s'.Sound
  queue : EventLoop.QueueInv (.loop l) (s'.loops l)
  pushed : (s.loops l).pushed <+: (s'.loops l).pushed
  quit : (s.loops l).quit = true → (s'.loops l).phase.isInit = false ∧ (s'.loops l).quit = true

theorem since_step (h : Since l s s₁) (hs : s₁.step a = some s') : Since l s s' := by
  have hsound := sound_step h.sound hs
  rcases loops_step (of_step hs) l with e | ⟨b, hb⟩
  · exact ⟨hsound, e ▸ h.queue, e ▸ h.pushed, e ▸ h.quit⟩
  · exact ⟨hsound, EventLoop.queueInv_step h.queue hb, h.pushed.trans (EventLoop.pushed_grows hb),
      fun hq => EventLoop.quit_stays (h.quit hq) hb⟩

/-- Where `quit_` is set, `Loop()` does not get to `Poll`. -/
theorem Since.not_quit (h : Since l s s') (hpoll : s'.AtPoll l) : (s.loops l).quit = false := by
  by_contra hset
  have hq := (h.quit (Bool.not_eq_false _ ▸ hset)).2
  rw [hpoll.quit] at hq
  cases hq

theorem covers_process {n : Nat} (h : (s.loops l).Covers n) (hs : s.step a = some s') :
    (s'.loops l).Covers n := by
  rcases loops_step (of_step hs) l with e | ⟨b, hb⟩
  · exact e ▸ h
  · exact EventLoop.covers_step h hb

/-- Where `Loop()` is at `Poll` behind the swap of the first pushes, they have been run. -/
theorem executed_of_covers {k : EventLoop ThreadId Functor} {pushed : List Functor}
    (hq : EventLoop.QueueInv t k) (hp : k.phase = .poll) (hc : k.Covers pushed.length)
    (hpre : pushed <+: k.pushed) : pushed <+: k.executed.map Prod.snd := by
  have hn : pushed.length ≤ k.swapped := by
    have := hc.swapped
    rw [hp] at this
    exact (this.resolve_left fun e => by cases e).resolve_left fun e => by cases e
  have hb := hq.batch
  rw [hp] at hb
  change k.executed.map Prod.snd ++ [] = _ at hb
  rw [List.append_nil] at hb
  rw [hb, List.prefix_iff_eq_take.mp hpre]
  exact List.take_prefix_take_left hn

/-- **From where a round begins**: what was queued before is swapped in it. -/
theorem around_of_dispatch (hl : s₁.Looping l) (h : Since l s s₁)
    (hp : ∃ wake, (s₁.loops l).phase = .dispatch wake) :
    Inevitable step (OwnStep l) (Around l s) s₁ := by
  obtain ⟨wake, hp⟩ := hp
  have hc : (s₁.loops l).Covers (s.loops l).pushed.length :=
    ⟨h.pushed.length_le, Or.inl (by rw [hp]; rfl)⟩
  have hgo := (gets_to_test hl).withInv
    (I := fun s' => Since l s s' ∧ (s'.loops l).Covers (s.loops l).pushed.length)
    (fun _ _ _ h _ hs => ⟨since_step h.1 hs, covers_process h.2 hs⟩) ⟨h, hc⟩
  refine hgo.trans fun s' h' => .now s' ?_
  obtain ⟨⟨hpoll, _⟩ | hleft | hcaught, hsince, hcov⟩ := h'
  · refine .poll hpoll ?_ (executed_of_covers hsince.queue hpoll.phase hcov hsince.pushed)
    exact hsince.not_quit hpoll
  · exact .left hleft
  · exact .caught hcaught

section Runs

variable {name : List Char} {addr : InetAddress} {numLoops : Nat} {writeComplete : Bool}
  {tr : List (Process × Label)}

/-- Each loop's queue is in order. -/
theorem queueInv_run (h : Run step (init name addr numLoops writeComplete) tr s) (l : LoopId) :
    EventLoop.QueueInv (.loop l) (s.loops l) := by
  refine h.inv (I := fun s => EventLoop.QueueInv (.loop l) (s.loops l))
    (EventLoop.queueInv_create _) fun s₁ a s₂ h₁ hs => ?_
  rcases loops_step (of_step hs) l with e | ⟨b, hb⟩
  · exact e ▸ h₁
  · exact EventLoop.queueInv_step h₁ hb

/-- **`Loop()` gets around.** In every state of every run, the thread of a loop that is in `Loop()`,
    left to itself, goes on, whatever the kernel answers and `Poll` reports, until it is out of
    `Loop()`, or back at `Poll` with all run that was queued; unless it is caught in between: what
    it is about to use is gone, or it waits in `Join`. Where `quit_` is set already it is not back
    at `Poll`. -/
theorem loop_gets_round (h : Run step (init name addr numLoops writeComplete) tr s)
    (hl : s.hasLoop l = true) (hrun : (s.loops l).phase.running = true) :
    Inevitable step (OwnStep l) (Around l s) s := by
  have hlp : s.Looping l := ⟨sound_run h, hl, hrun⟩
  have hsince : Since l s s :=
    ⟨hlp.sound, queueInv_run h l, List.prefix_rfl, fun hq => ⟨hlp.isInit, hq⟩⟩
  -- the first test may come without a swap before it
  refine ((gets_to_test hlp).withInv (fun _ _ _ h _ hs => since_step h hs) hsince).trans ?_
  rintro s₁ ⟨⟨hpoll, hl₁⟩ | hleft | hcaught, hs₁⟩
  · have hlp₁ : s₁.Looping l := ⟨hs₁.sound, hl₁, by rw [hpoll.phase]; rfl⟩
    refine .later s₁ (hlp₁.canStep hpoll.not_caught) fun a s₂ ha hs => ?_
    obtain ⟨wake, hd⟩ := poll_step hpoll (of_step hs) ha
    refine around_of_dispatch (hlp₁.step hs ?_) (since_step hs₁ hs) ⟨wake, hd⟩
    rw [hd]
    rfl
  · exact .now s₁ (.left hleft)
  · exact .now s₁ (.caught hcaught)

/-- The peer has closed, and a functor of user code's is queued behind that. -/
def queuedRun : List Label :=
  hungUpRun ++ [.user (.user 0) (.queueInLoop 0 7), .run (.user 0) .none, .run (.user 0) .none]

theorem loop_gets_round_queued : ∃ tr s, Run step oneLoop tr s ∧
    s.stack (.loop 0) = [.handleEvent (.conn 0)] ∧ (s.loops 0).pushed = [.user 7] ∧
    Inevitable step (OwnStep 0) (Around 0 s) s ∧
    ∃ tr' s', Run step s tr' s' ∧ Around 0 s s' := by
  have h : ((Machine.exec step oneLoop queuedRun).any fun s => decide (
      s.stack (.loop 0) = [.handleEvent (.conn 0)] ∧ (s.loops 0).pushed = [.user 7] ∧
      s.hasLoop 0 = true ∧ (s.loops 0).phase.running = true)) = true := by
    decide +kernel
  obtain ⟨s, hs, hb⟩ := (Option.any_eq_true _ _).mp h
  obtain ⟨hst, hpush, hl, hrun⟩ := of_decide_eq_true hb
  have hgo := loop_gets_round (exec_run .start hs) hl hrun
  obtain ⟨tr', s', h', _, hend⟩ := hgo.exists_run
  exact ⟨_, s, exec_run .start hs, hst, hpush, hgo, tr', s', h', hend⟩

end Runs

end Process

end CuteMuduo
