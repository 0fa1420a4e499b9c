/-
  File:      CuteMuduo/TcpServer/Calls.lean
  Subject:   WHERE THE THREADS STAND IN THE LOOPS, in every state the program reaches:

  * `Calling` -- a thread is in `QueueInLoop` or `Quit` of a loop exactly where its stack says so;
  * `Busy` -- a loop's thread with something to do is where `Loop()` lets it run code;
  * `Waking` -- the wakeup channel is reported at most once, as readable, and is handled once.
-/
import CuteMuduo.TcpServer.Confinement
import CuteMuduo.TcpServer.Dispatch

namespace CuteMuduo

open Machine

/-! ## Calls in progress -/

/-- The call without its number: none, `QueueInLoop` or `Quit`. -/
inductive CallKind where
  | idle
  | queueing
  | quitting
  deriving DecidableEq

def Call.kind : Call → CallKind
  | .idle => .idle
  | .queued _ => .queueing
  | .quitting => .quitting

/-- The call on loop `l` that a thread with this stack is in. -/
def callOn (l : LoopId) : List Instr → CallKind
  | .queueWake m :: _ => if m = l then .queueing else .idle
  | .quitWake m :: _ => if m = l then .quitting else .idle
  | _ => .idle

/-- The instruction is the rest of a call. -/
def Instr.wakes : Instr → Bool
  | .queueWake _ | .quitWake _ => true
  | _ => false

theorem callOn_cons {l : LoopId} {i : Instr} {rest : List Instr} (h : i.wakes = false) :
    callOn l (i :: rest) = .idle := by
  cases i <;> first | rfl | cases h

theorem callOn_settled {l : LoopId} {xs : List Instr} (h : ∀ i ∈ xs, i.settled = true) :
    callOn l xs = .idle := by
  cases xs with
  | nil => rfl
  | cons i rest =>
      have hi := h i List.mem_cons_self
      cases i <;> first | rfl | cases hi

theorem callOn_append {l : LoopId} {xs ys : List Instr} (hx : ∀ i ∈ xs, i.wakes = false)
    (hy : callOn l ys = .idle) : callOn l (xs ++ ys) = .idle := by
  cases xs with
  | nil => exact hy
  | cons i rest => exact callOn_cons (hx i List.mem_cons_self)

/-- No step of `Loop()` is a call. -/
theorem EventLoop.call_control {l l' : EventLoop ThreadId Functor}
    {a : EventLoop.Action ThreadId Functor} (ha : Process.isControl a = true)
    (hs : l.step a = some l') : l'.call = l.call := by
  obtain ⟨_, rfl⟩ := EventLoop.step_eq_some.mp hs
  cases a with
  | next t =>
      show (l.next t).call = l.call
      unfold EventLoop.next
      split <;> rfl
  | ret =>
      show l.ret.call = l.call
      unfold EventLoop.ret
      split <;> rfl
  | enterLoop | test | startFunctors | swap | finish => rfl
  | _ => cases ha

/-- The wakeup channel is still to be handled. -/
def Phase.waking {F : Type} : Phase F → Bool
  | .dispatch true => true
  | _ => false

/-- A step of `Loop()` that is no return of `Poll` leaves no wakeup to handle. -/
theorem EventLoop.waking_control {l l' : EventLoop ThreadId Functor}
    {a : EventLoop.Action ThreadId Functor} (ha : Process.isControl a = true)
    (hs : l.step a = some l') : l'.phase.waking = false := by
  obtain ⟨he, rfl⟩ := EventLoop.step_eq_some.mp hs
  cases a with
  | next t =>
      obtain ⟨_, _, f, rest, hp⟩ := EventLoop.enabled_next.mp he
      show (l.next t).phase.waking = false
      rw [EventLoop.next_of_batch hp]
      rfl
  | ret =>
      obtain ⟨_, f, rest, hp⟩ := EventLoop.enabled_ret.mp he
      show l.ret.phase.waking = false
      rw [EventLoop.ret_of_functor hp]
      rfl
  | test =>
      show Phase.waking (if l.quit then .left else .poll) = false
      split <;> rfl
  | enterLoop | startFunctors | swap | finish => rfl
  | _ => cases ha

namespace Process

variable {s s' s₁ : Process} {a : Label} {l : LoopId} {t : ThreadId} {o : Outcome}
  {i j : Instr} {is rest : List Instr}

/-- **The stacks and the loops agree** on the calls the threads are in. -/
def Calling (s : Process) : Prop := ∀ l t, ((s.loops l).call t).kind = callOn l (s.stack t)

/-- Only `QueueInLoop` and `Quit` go on with the rest of a call. -/
theorem wakes_follows (h : Follows s t i j) (hi : ∀ l f, i ≠ .queueInLoop l f)
    (hq : ∀ l, i ≠ .quit l) : j.wakes = false := by
  cases h with
  | conn c op _ hp => cases hp <;> rfl
  | runHere l f hl => cases f <;> rfl
  | queueWake l f => exact absurd rfl (hi l f)
  | quitWake l => exact absurd rfl (hq l)
  | _ => rfl

theorem wakes_asked {u : UserCall} (h : Asked s t u j) : j.wakes = false := by
  cases h <;> rfl

/-- What an instruction does to the calls: those of the other threads stay, and its own is what it
    leaves on its stack. -/
theorem calling_exec (hcall : ∀ l, ((s.loops l).call t).kind = callOn l (i :: rest))
    (hset : ∀ j ∈ rest, j.settled = true) (h : Exec s t o i s₁ is) (l : LoopId) :
    (∀ u, u ≠ t → (s₁.loops l).call u = (s.loops l).call u) ∧
      ((s₁.loops l).call t).kind = callOn l (is ++ rest) := by
  have hrest : callOn l rest = .idle := callOn_settled hset
  have hquiet : s₁.loops = s.loops → i.wakes = false → (∀ m f, i ≠ .queueInLoop m f) →
      (∀ m, i ≠ .quit m) → (∀ u, u ≠ t → (s₁.loops l).call u = (s.loops l).call u) ∧
      ((s₁.loops l).call t).kind = callOn l (is ++ rest) := by
    intro hl hw hi hq
    refine ⟨fun u _ => by rw [hl], ?_⟩
    rw [hl, hcall, callOn_cons hw,
      callOn_append (fun j hj => wakes_follows (exec_follows h j hj) hi hq) hrest]
  cases h with
  | loop _ m b l' is hi hl hs =>
      obtain ⟨_, rfl⟩ := EventLoop.step_eq_some.mp hs
      by_cases e : l = m
      · subst e
        simp only [Function.update_self]
        have hother : ∀ c : Call, ∀ u, u ≠ t →
            Function.update (s.loops l).call t c u = (s.loops l).call u :=
          fun c u hu => Function.update_of_ne hu _ _
        cases hi with
        | queueInLoop l f =>
            refine ⟨hother _, ?_⟩
            show (Function.update (s.loops l).call t _ t).kind = _
            simp [callOn, Call.kind]
        | quit l =>
            refine ⟨hother _, ?_⟩
            show (Function.update (s.loops l).call t _ t).kind = _
            simp [callOn, Call.kind]
        | queueWake l =>
            refine ⟨hother _, ?_⟩
            show (Function.update (s.loops l).call t _ t).kind = _
            rw [Function.update_self, List.nil_append, hrest]
            rfl
        | quitWake l =>
            refine ⟨hother _, ?_⟩
            show (Function.update (s.loops l).call t _ t).kind = _
            rw [Function.update_self, List.nil_append, hrest]
            rfl
        | handleRead l =>
            refine ⟨fun u _ => rfl, ?_⟩
            show ((s.loops l).call t).kind = _
            rw [hcall, List.nil_append, hrest]
            rfl
      · simp only [Function.update_of_ne e]
        refine ⟨fun u _ => trivial, (hcall l).trans ?_⟩
        have hne : m ≠ l := Ne.symm e
        cases hi with
        | queueInLoop | quit => exact (if_neg hne).symm
        | queueWake | quitWake => exact (if_neg hne).trans hrest.symm
        | handleRead => exact hrest.symm
  | quiet _ _ hq => cases hq <;> exact hquiet rfl rfl nofun nofun
  | _ => exact hquiet rfl rfl nofun nofun

theorem calling_step (hw : Wf s) (h : s.Calling) (hs : Step s a s') : s'.Calling := by
  intro l u
  -- another thread's stack, and a loop whose calls are as they were
  have hidle : ∀ m, s.stack (.loop m) = [] → callOn l (s.stack (.loop m)) = .idle := by
    intro m hst
    rw [hst]
    rfl
  cases hs with
  | run t o i rest s₁ is hst he =>
      have hcall : ∀ m, ((s.loops m).call t).kind = callOn m (i :: rest) := fun m => hst ▸ h m t
      obtain ⟨hother, hown⟩ := calling_exec hcall (hw.settled_rest hst) he l
      by_cases e : u = t
      · subst e
        rw [stack_setStack_self]
        exact hown
      · rw [stack_setStack_of_ne _ _ e, exec_stack he, ← h l u]
        exact congrArg Call.kind (hother u e)
  | user t v s₁ is hu hcall =>
      have hasked := called_asked hcall
      obtain ⟨held, server, rfl, _⟩ := called_same hcall
      by_cases e : u = t
      · subst e
        rw [stack_setStack_self]
        have hst : callOn l (s.stack u) = .idle := by
          unfold userCode at hu
          split at hu
          · rename_i hst
            rw [hst]
            rfl
          · cases hu
          · rename_i hst
            rw [hst]
            rfl
        rw [callOn_append (fun j hj => wakes_asked (hasked j hj)) hst, ← hst]
        exact h l u
      · rw [stack_setStack_of_ne _ _ e]
        exact h l u
  | ret t arg rest hst =>
      by_cases e : u = t
      · subst e
        rw [stack_setStack_self, callOn_settled (hw.settled_rest hst)]
        have hold := h l u
        rw [hst] at hold
        exact hold
      · rw [stack_setStack_of_ne _ _ e]
        exact h l u
  | loop m b m' hst hact hb hl hstep =>
      have hloops : (Function.update s.loops m m' l).call = (s.loops l).call := by
        by_cases e : l = m
        · subst e
          rw [Function.update_self]
          exact EventLoop.call_control hb hstep
        · rw [Function.update_of_ne e]
      by_cases e : u = .loop m
      · subst e
        rw [stack_setStack_self]
        have hnext : callOn l (s.nextInstr m b) = .idle := by
          unfold nextInstr
          split
          · split
            · rename_i f fs hph
              cases f <;> rfl
            · rfl
          · rfl
        rw [hnext, ← hidle m hst, ← h l]
        exact congrArg (fun f => Call.kind (f (.loop m))) hloops
      · rw [stack_setStack_of_ne _ _ e]
        refine Eq.trans ?_ (h l u)
        exact congrArg (fun f => Call.kind (f u)) hloops
  | poll m events m' hst hev hnd hl hstep =>
      refine Eq.trans ?_ (h l u)
      show Call.kind ((Function.update s.loops m m' l).call u) = _
      by_cases e : l = m
      · subst e
        rw [Function.update_self]
        obtain ⟨_, rfl⟩ := EventLoop.step_eq_some.mp hstep
        rfl
      · rw [Function.update_of_ne e]
  | dispatch m ch rest hst hact =>
      by_cases e : u = .loop m
      · subst e
        rw [stack_setStack_self]
        refine Eq.trans (h l _) (hidle m hst)
      · rw [stack_setStack_of_ne _ _ e]
        exact h l u
  | threadEnd m h0 hl hst hp => exact h l u

/-! ## Where a busy thread's loop is -/

/-- **A loop's thread with something to do** is in user code, in a handler or in a functor. -/
def Busy (s : Process) : Prop := ∀ l, s.stack (.loop l) ≠ [] → (s.loops l).phase.userCode = true

theorem exec_userCode (h : Exec s t o i s₁ is) (l : LoopId) :
    (s₁.loops l).phase.userCode = (s.loops l).phase.userCode := by
  cases h with
  | loop _ m b l' is hi hl hs =>
      show (Function.update s.loops m l' l).phase.userCode = _
      by_cases e : l = m
      · subst e
        rw [Function.update_self]
        obtain ⟨he, rfl⟩ := EventLoop.step_eq_some.mp hs
        cases hi with
        | handleRead =>
            rw [(EventLoop.enabled_handleRead.mp he).2]
            rfl
        | _ => rfl
      · rw [Function.update_of_ne e]
  | _ => rfl

theorem userCode_of_dispatching {F : Type} {p : Phase F} (h : p.dispatching = true) :
    p.userCode = true := by
  cases p <;> first | rfl | cases h

theorem busy_step (hf : s.Frames) (h : s.Busy) (hs : Step s a s') : s'.Busy := by
  intro l hne
  have hkeep : ∀ (t : ThreadId) (xs : List Instr), Function.update s.stack t xs (.loop l) ≠ [] →
      (t = .loop l → (s.loops l).phase.userCode = true) → (s.loops l).phase.userCode = true := by
    intro t xs hne ht
    by_cases e : t = .loop l
    · exact ht e
    · rw [Function.update_of_ne (Ne.symm e)] at hne
      exact h l hne
  cases hs with
  | run t o i rest s₁ is hst he =>
      refine (exec_userCode he l).trans (hkeep t (is ++ rest) ?_ ?_)
      · rw [← exec_stack he]
        exact hne
      · rintro rfl
        exact h l (hst ▸ List.cons_ne_nil _ _)
  | user t v s₁ is hu hcall =>
      obtain ⟨held, server, rfl, _⟩ := called_same hcall
      refine hkeep _ _ hne ?_
      rintro rfl
      by_cases hst : s.stack (.loop l) = []
      · -- `Loop()` is not entered yet, or has returned
        simp only [userCode, hst] at hu
        obtain ⟨_, hp⟩ := Bool.and_eq_true_iff.mp hu
        cases hph : (s.loops l).phase <;> rw [hph] at hp <;> first | rfl | cases hp
      · exact h l hst
  | ret t arg rest hst =>
      refine hkeep _ _ hne ?_
      rintro rfl
      exact h l (hst ▸ List.cons_ne_nil _ _)
  | loop m b m' hst hact hb hl hstep =>
      show (Function.update s.loops m m' l).phase.userCode = true
      by_cases e : l = m
      · subst e
        rw [Function.update_self]
        rw [stack_setStack_self] at hne
        unfold nextInstr at hne
        split at hne
        · split at hne
          · rename_i f fs hph
            rw [phase_next hph hb hstep]
            rfl
          · exact absurd rfl hne
        · exact absurd rfl hne
      · rw [Function.update_of_ne e]
        exact hkeep _ _ hne fun e' => absurd (ThreadId.loop.inj e').symm e
  | poll m events m' hst hev hnd hl hstep =>
      show (Function.update s.loops m m' l).phase.userCode = true
      by_cases e : l = m
      · exact absurd hst (e ▸ hne)
      · rw [Function.update_of_ne e]
        exact h l hne
  | dispatch m ch rest hst hact =>
      refine hkeep _ _ hne ?_
      rintro ⟨⟩
      exact userCode_of_dispatching (hf.active l (hact ▸ List.cons_ne_nil _ _))
  | threadEnd m h0 hl hst hp => exact h l hne

/-! ## The wakeup channel -/

/-- How often `HandleEvent` is still to be called on the wakeup channel of loop `l`. -/
def wakeups (s : Process) (l : LoopId) : Nat :=
  (s.stack (.loop l)).count (.handleEvent (.wakeup l)) + (s.active l).count (.wakeup l)

/-- **The wakeup channel** is still to be handled once where `Poll` has reported it, as readable,
    and not at all otherwise. -/
structure Waking (s : Process) : Prop where
  once : ∀ l, s.wakeups l = (s.loops l).phase.waking.toNat
  readable : ∀ l, 0 < s.wakeups l → (s.chans (.wakeup l)).revents = epollIn

theorem wakeups_eq {l : LoopId} (hst : s'.stack (.loop l) = s.stack (.loop l))
    (hact : s'.active l = s.active l) : s'.wakeups l = s.wakeups l := by
  rw [wakeups, wakeups, hst, hact]

theorem exec_wakeupChan (h : Exec s t o i s₁ is) (l : LoopId) :
    s₁.chans (.wakeup l) = s.chans (.wakeup l) := by
  have hconn : ∀ c (d : Channel), Function.update s.chans (.conn c) d (.wakeup l) =
      s.chans (.wakeup l) := fun c d => Function.update_of_ne Chan.noConfusion _ _
  cases h with
  | conn c op k is h => exact hconn c k.channel
  | create fd => exact hconn s.created (Channel.create fd)
  | destroyAcceptor p q =>
      have hne : Chan.wakeup l ≠ .acceptor := Chan.noConfusion
      exact Function.update_of_ne hne q.2 s.chans
  | _ => rfl

/-- Only `HandleRead` of loop `l`'s own takes its wakeup off. -/
theorem exec_waking (hi : s.instrHome t i) (h : Exec s t o i s₁ is)
    (hne : i = .handleEvent (.wakeup l) → t ≠ .loop l) :
    (s₁.loops l).phase.waking = (s.loops l).phase.waking := by
  cases h with
  | loop _ m b l' is hinstr hl hs =>
      show (Function.update s.loops m l' l).phase.waking = _
      by_cases e : l = m
      · subst e
        rw [Function.update_self]
        obtain ⟨_, rfl⟩ := EventLoop.step_eq_some.mp hs
        cases hinstr with
        | handleRead =>
            obtain ⟨m, ht, hm⟩ := hi
            exact absurd (ht.trans (congrArg _ hm.symm)) (hne rfl)
        | _ => rfl
      · rw [Function.update_of_ne e]
  | _ => rfl

/-- No instruction leaves a `HandleEvent` to do. -/
theorem handleEvent_follows {ch : Chan} : ¬ Follows s t i (.handleEvent ch) := by
  intro h
  generalize hj : Instr.handleEvent ch = j at h
  cases h with
  | conn c op _ hp => cases hp <;> cases hj
  | runHere l f hl => cases f <;> cases hj
  | _ => cases hj

theorem count_handleEvent {ch : Chan} {xs : List Instr} (h : ∀ j ∈ xs, j ≠ .handleEvent ch) :
    xs.count (.handleEvent ch) = 0 :=
  List.count_eq_zero.mpr fun hm => h _ hm rfl

/-- `HandleEvent` on a wakeup channel that is readable reads the eventfd. -/
theorem exec_wakeup {p : Process × List Instr} (hr : (s.chans (.wakeup l)).revents = epollIn)
    (h : s.exec t (.handleEvent (.wakeup l)) o = some p) :
    p.2 = [] ∧ s.loopStep l .handleRead = some p.1 := by
  simp only [exec, handleEvent, hr] at h
  obtain ⟨s₁, hs, rfl⟩ := Option.map_eq_some_iff.mp h
  exact ⟨rfl, hs⟩

/-- A thread's own instruction, seen from loop `l`. -/
theorem waking_run {p : Process × List Instr} (hw : Wf s) (h : s.Waking)
    (hst : s.stack t = i :: rest) (hex : s.exec t i o = some p) :
    (p.1.setStack t (p.2 ++ rest)).wakeups l = (p.1.loops l).phase.waking.toNat ∧
      (p.1.setStack t (p.2 ++ rest)).wakeups l ≤ s.wakeups l := by
  have he := of_exec hex
  have hact : p.1.active = s.active := (exec_kept he).2.1
  have hi := hw.stack t i (mem_stack hst)
  by_cases ht : t = .loop l
  · subst ht
    by_cases hwk : i = .handleEvent (.wakeup l)
    · -- the one wakeup there is is handled
      subst hwk
      have hold := h.once l
      have hpos : 0 < s.wakeups l := by
        rw [wakeups, hst, List.count_cons_self]
        omega
      have hone : s.wakeups l = 1 := by
        rw [hold] at hpos ⊢
        exact Nat.le_antisymm (Bool.toNat_le _) hpos
      obtain ⟨hnil, hloop⟩ := exec_wakeup (h.readable l hpos) hex
      obtain ⟨_, l', hl', hp⟩ := of_loopStep hloop
      obtain ⟨_, rfl⟩ := EventLoop.step_eq_some.mp hl'
      have hzero : (p.1.setStack (.loop l) (p.2 ++ rest)).wakeups l = 0 := by
        rw [wakeups, stack_setStack_self, hnil]
        show rest.count _ + (p.1.active l).count _ = 0
        rw [hact]
        simp only [wakeups, hst, List.count_cons_self] at hone
        omega
      rw [hzero, hp]
      refine ⟨?_, Nat.zero_le _⟩
      show 0 = (Function.update s.loops l _ l).phase.waking.toNat
      rw [Function.update_self]
      rfl
    · have heq : (p.1.setStack (.loop l) (p.2 ++ rest)).wakeups l = s.wakeups l := by
        have hnew : p.2.count (.handleEvent (.wakeup l)) = 0 := by
          refine count_handleEvent fun j hj e => ?_
          exact handleEvent_follows (e ▸ exec_follows he j hj)
        have hold : (i :: rest).count (.handleEvent (.wakeup l)) =
            rest.count (.handleEvent (.wakeup l)) := List.count_cons_of_ne hwk
        rw [wakeups, wakeups, stack_setStack_self, hst, List.count_append, hnew, hold, Nat.zero_add]
        show _ + (p.1.active l).count _ = _
        rw [hact]
      rw [heq, exec_waking hi he fun e => absurd e hwk]
      exact ⟨h.once l, Nat.le_refl _⟩
  · have heq : (p.1.setStack t (p.2 ++ rest)).wakeups l = s.wakeups l := by
      refine wakeups_eq ?_ (congrFun hact l)
      rw [stack_setStack_of_ne _ _ (Ne.symm ht), exec_stack he]
    rw [heq, exec_waking hi he fun _ => ht]
    exact ⟨h.once l, Nat.le_refl _⟩

/-- What `Poll` reports of the wakeup channels. -/
theorem waking_poll {events : List (Chan × EventMask)} {m : LoopId}
    {m' : EventLoop ThreadId Functor} (hw : Wf s) (h : s.Waking)
    (hst : s.stack (.loop m) = []) (hev : ∀ e ∈ events, s.mayReport m e = true)
    (hnd : (events.map Prod.fst).Nodup)
    (hs : (s.loops m).step (.pollReturn (events.any (·.1 == .wakeup m))) = some m') :
    Waking { s with
      loops := Function.update s.loops m m'
      chans := setRevents s.chans events
      active := Function.update s.active m (events.map Prod.fst) } := by
  obtain ⟨_, rfl⟩ := EventLoop.step_eq_some.mp hs
  -- the wakeup channel of another loop is not reported here
  have hforeign : ∀ l, l ≠ m → Chan.wakeup l ∉ events.map Prod.fst := by
    intro l hne hm
    obtain ⟨e, he, hch⟩ := List.mem_map.mp hm
    obtain ⟨mask, hreg⟩ := of_mayReport (hev e he)
    have hhome := hw.epoll m _ _ hreg
    rw [hch] at hhome
    exact hne hhome
  refine ⟨fun l => ?_, fun l hpos => ?_⟩
  · by_cases e : l = m
    · subst e
      have hc : (events.map Prod.fst).count (.wakeup l) =
          (events.any (·.1 == .wakeup l)).toNat := by
        rw [List.Nodup.count hnd]
        by_cases hm : Chan.wakeup l ∈ events.map Prod.fst
        · have hany : events.any (·.1 == .wakeup l) = true := by
            obtain ⟨e, he, hch⟩ := List.mem_map.mp hm
            exact List.any_eq_true.mpr ⟨e, he, beq_iff_eq.mpr hch⟩
          rw [if_pos hm, hany]
          rfl
        · have hany : events.any (·.1 == .wakeup l) = false := by
            refine List.any_eq_false.mpr fun e he hch => hm ?_
            exact List.mem_map.mpr ⟨e, he, beq_iff_eq.mp hch⟩
          rw [if_neg hm, hany]
          rfl
      rw [wakeups]
      show (s.stack (.loop l)).count _ + (Function.update s.active l _ l).count _ = _
      rw [hst, Function.update_self, hc, List.count_nil, Nat.zero_add]
      show _ = Bool.toNat (Phase.waking (Function.update s.loops l _ l).phase)
      rw [Function.update_self]
      cases events.any (·.1 == .wakeup l) <;> rfl
    · refine Eq.trans (wakeups_eq (s := s) rfl (Function.update_of_ne e _ _)) ((h.once l).trans ?_)
      show _ = Bool.toNat (Phase.waking (Function.update s.loops m _ l).phase)
      rw [Function.update_of_ne e]
  · by_cases e : l = m
    · subst e
      have hm : Chan.wakeup l ∈ events.map Prod.fst := by
        by_contra hno
        have hzero : (events.map Prod.fst).count (.wakeup l) = 0 := List.count_eq_zero.mpr hno
        rw [wakeups] at hpos
        change 0 < (s.stack (.loop l)).count _ + (Function.update s.active l _ l).count _ at hpos
        rw [hst, Function.update_self, hzero] at hpos
        exact absurd hpos (Nat.lt_irrefl 0)
      obtain ⟨⟨ch, mask⟩, he, rfl⟩ := List.mem_map.mp hm
      have hmask : mask = epollIn := by
        exact eq_of_beq (Bool.and_eq_true_iff.mp (hev _ he)).2
      rw [← hmask]
      exact revents_setRevents hnd he
    · have hold : 0 < s.wakeups l :=
        Nat.lt_of_lt_of_eq hpos (wakeups_eq (s := s) rfl (Function.update_of_ne e _ _))
      show (setRevents s.chans events (.wakeup l)).revents = _
      rw [setRevents_of_not_mem (hforeign l e)]
      exact h.readable l hold

theorem waking_step (hw : Wf s) (h : s.Waking) (hstep : s.step a = some s') :
    s'.Waking := by
  -- what changes neither the stacks of the loops nor what they have still to handle
  have hkeep : ∀ {t : ThreadId} {xs : List Instr}, (∀ l, t = .loop l →
      xs.count (.handleEvent (.wakeup l)) = (s.stack t).count (.handleEvent (.wakeup l))) →
      ∀ l, (s.setStack t xs).wakeups l = s.wakeups l := by
    intro t xs ht l
    unfold wakeups
    by_cases e : t = .loop l
    · subst e
      rw [stack_setStack_self, ht l rfl]
      rfl
    · rw [stack_setStack_of_ne _ _ (Ne.symm e)]
      rfl
  have hs := of_step hstep
  cases hs with
  | run t o i rest s₁ is hst he =>
      simp only [step, hst] at hstep
      obtain ⟨p, hex, hp⟩ := Option.map_eq_some_iff.mp hstep
      rw [← hp]
      refine ⟨fun l => (waking_run hw h hst hex).1, fun l hpos => ?_⟩
      have hle := (waking_run (l := l) hw h hst hex).2
      refine Eq.trans (congrArg Channel.revents (exec_wakeupChan (of_exec hex) l)) ?_
      exact h.readable l (Nat.lt_of_lt_of_le hpos hle)
  | user t v s₁ is hu hcall =>
      have hasked := called_asked hcall
      obtain ⟨held, server, rfl, _⟩ := called_same hcall
      have hcount : ∀ l, t = .loop l → (is ++ s.stack t).count (.handleEvent (.wakeup l)) =
          (s.stack t).count (.handleEvent (.wakeup l)) := by
        intro l _
        rw [List.count_append, count_handleEvent fun j hj e => ?_, Nat.zero_add]
        cases e ▸ hasked j hj
      exact ⟨fun l => (hkeep hcount l).trans (h.once l),
        fun l hpos => h.readable l (hkeep hcount l ▸ hpos)⟩
  | ret t arg rest hst =>
      have hcount : ∀ l, t = .loop l → rest.count (.handleEvent (.wakeup l)) =
          (s.stack t).count (.handleEvent (.wakeup l)) := by
        intro l _
        rw [hst, List.count_cons_of_ne Instr.noConfusion]
      exact ⟨fun l => (hkeep hcount l).trans (h.once l),
        fun l hpos => h.readable l (hkeep hcount l ▸ hpos)⟩
  | loop m b m' hst hact hb hl hs =>
      have hcount : ∀ l, ThreadId.loop m = .loop l →
          (s.nextInstr m b).count (.handleEvent (.wakeup l)) =
          (s.stack (.loop m)).count (.handleEvent (.wakeup l)) := by
        intro l _
        rw [hst]
        refine count_handleEvent fun j hj e => ?_
        unfold nextInstr at hj
        split at hj
        · split at hj
          · rename_i f fs hph
            rw [List.mem_singleton.mp hj] at e
            cases f <;> cases e
          · exact absurd hj List.not_mem_nil
        · exact absurd hj List.not_mem_nil
      refine ⟨fun l => (hkeep hcount l).trans ?_,
        fun l hpos => h.readable l (hkeep hcount l ▸ hpos)⟩
      show _ = Bool.toNat (Phase.waking (Function.update s.loops m m' l).phase)
      by_cases e : l = m
      · subst e
        rw [Function.update_self, EventLoop.waking_control hb hs, wakeups, hst, hact]
        rfl
      · rw [Function.update_of_ne e]
        exact h.once l
  | poll m events m' hst hev hnd hl hs => exact waking_poll hw h hst hev hnd hs
  | dispatch m ch rest hst hact =>
      have hsame : ∀ l, ({ s with active := Function.update s.active m rest }.setStack (.loop m)
          [.handleEvent ch]).wakeups l = s.wakeups l := by
        intro l
        unfold wakeups
        by_cases e : l = m
        · subst e
          rw [stack_setStack_self, hst, hact]
          show _ + (Function.update s.active l rest l).count _ = _
          rw [Function.update_self, List.count_cons, List.count_cons, List.count_nil]
          by_cases hch : ch = .wakeup l
          · subst hch
            simp only [beq_self_eq_true, if_true]
            omega
          · have h₁ : (ch == Chan.wakeup l) = false := beq_eq_false_iff_ne.mpr hch
            have h₂ : (Instr.handleEvent ch == .handleEvent (.wakeup l)) = false :=
              beq_eq_false_iff_ne.mpr fun e => hch (Instr.handleEvent.inj e)
            simp only [h₁, h₂, Bool.false_eq_true, if_false]
            omega
        · have hne : ThreadId.loop l ≠ .loop m := fun e' => e (ThreadId.loop.inj e')
          rw [stack_setStack_of_ne _ _ hne]
          show _ + (Function.update s.active m rest l).count _ = _
          rw [Function.update_of_ne e]
      exact ⟨fun l => (hsame l).trans (h.once l), fun l hpos => h.readable l (hsame l ▸ hpos)⟩
  | threadEnd m h0 hl hst hp => exact ⟨h.once, h.readable⟩
end Process

end CuteMuduo
