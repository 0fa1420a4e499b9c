/-
  File:      CuteMuduo/TcpServer/Work.lean
  Subject:   EVERY CALL COMES TO AN END, over every run of the program: what is on a thread's stack
             says how many instructions are left until its next callback (`calls_return`).

  Handlers call handlers, and on the base loop alone a closed connection is taken out of
  `connections_` and its end queued without a functor in between; none of it comes back to where
  it began. `Instr.work` bounds what an instruction and all it leads to execute; what `~TcpServer`
  has to do depends on the entries that are left.
-/
import CuteMuduo.TcpServer.Progress

namespace CuteMuduo

open Machine

/-! ## What an instruction leads to -/

/-- The steps of a function of a connection's, and of what it leads to on the same thread. -/
def ConnOp.work : ConnOp → Nat
  | .channelRemove | .connectionCallback | .handleError | .shutdownInLoop | .writeComplete
  | .highWaterMark _ | .setHighWaterMark _ | .retrieve _ => 1
  | .connectEstablished | .destroySetState | .shutdownIfDisconnecting => 2
  | .sendInLoop _ _ => 3
  | .connectDestroyed => 4
  | .handleWrite | .shutdownSetState => 5
  | .shutdown => 6
  | .send _ => 7
  | .closeCallback => 8
  | .handleClose => 11
  | .handleRead => 12

/-- The steps of a functor, where it is called. -/
def Functor.work : Functor → Nat
  | .conn _ op => op.work
  | .removeConnectionInLoop _ => 3
  | .user _ => 0

/-- **The steps of an instruction**, and of what it leads to on the same thread; `d`: those of
    `~TcpServer`'s loop over `connections_`. A callback is the user's. -/
def Instr.work (d : Nat) : Instr → Nat
  | .conn _ op => op.work
  | .handleEvent (.conn _) => 30
  | .handleEvent .acceptor => 9
  | .handleEvent (.wakeup _) | .release _ | .queueWake _ | .quitWake _ | .join _
  | .destroyAcceptor => 1
  | .callback _ => 0
  | .runInLoop _ f => f.work + 3
  | .queueInLoop _ _ | .quit _ => 2
  | .removeConnection _ | .acceptorHandleRead => 7
  | .removeConnectionInLoop _ => 3
  | .acceptorEventEnd => 1
  | .destroyEntries => d
  | .destroyThread _ => 4

/-- The steps of what is on a stack. -/
def stackWork (d : Nat) : List Instr → Nat
  | [] => 0
  | i :: is => i.work d + stackWork d is

section StackWork

variable {d d' : Nat} {i : Instr} {is js : List Instr}

@[simp] theorem stackWork_nil : stackWork d [] = 0 := rfl

@[simp] theorem stackWork_cons : stackWork d (i :: is) = i.work d + stackWork d is := rfl

@[simp] theorem stackWork_append : stackWork d (is ++ js) = stackWork d is + stackWork d js := by
  induction is with
  | nil => exact (Nat.zero_add _).symm
  | cons i is ih => rw [List.cons_append, stackWork_cons, ih, stackWork_cons, Nat.add_assoc]

theorem stackWork_mono (h : d ≤ d') : stackWork d is ≤ stackWork d' is := by
  induction is with
  | nil => exact Nat.le_refl 0
  | cons i is ih =>
      rw [stackWork_cons, stackWork_cons]
      refine Nat.add_le_add ?_ ih
      cases i with
      | destroyEntries => exact h
      | handleEvent ch => cases ch <;> exact Nat.le_refl _
      | _ => exact Nat.le_refl _

/-- Only `~TcpServer` depends on the entries. -/
theorem stackWork_congr (h : .destroyEntries ∉ is) : stackWork d is = stackWork d' is := by
  induction is with
  | nil => rfl
  | cons i is ih =>
      rw [stackWork_cons, stackWork_cons, ih fun hm => h (List.mem_cons_of_mem _ hm)]
      cases i with
      | destroyEntries => exact absurd List.mem_cons_self h
      | handleEvent ch => cases ch <;> rfl
      | _ => rfl

/-- Calling a functor comes to less than handing it over. -/
theorem stackWork_functor (f : Functor) : stackWork d (f.instr :: f.releases) + 1 < f.work + 3 := by
  have hrel : stackWork d f.releases ≤ 1 := by
    unfold Functor.releases
    split
    · exact Nat.le_refl 1
    · exact Nat.zero_le 1
  have hf : f.instr.work d = f.work := by cases f <;> rfl
  rw [stackWork_cons, hf]
  omega

theorem stackWork_handlers (c : ConnId) (revents : EventMask) :
    stackWork d (handlers c revents) ≤ 29 := by
  have hif : ∀ (op : ConnOp) {b : Bool},
      stackWork d (if b then [.conn c op] else []) ≤ op.work := by
    intro op b
    cases b
    · exact Nat.zero_le _
    · exact Nat.le_refl _
  unfold handlers
  rw [stackWork_append, stackWork_append, stackWork_append]
  exact Nat.add_le_add (Nat.add_le_add (Nat.add_le_add (hif .handleClose)
    (hif .handleError)) (hif .handleRead)) (hif .handleWrite)

theorem stackWork_destroyThreads (n : Nat) :
    stackWork d ((List.range n).map fun i => .destroyThread (i + 1)) = 4 * n := by
  induction n with
  | zero => rfl
  | succ n ih =>
      rw [List.range_succ, List.map_append, stackWork_append, ih, Nat.mul_succ]
      rfl

end StackWork

namespace Ctx

variable {k k' : Ctx} {c : ConnId} {t : ThreadId} {own : Bool} {op : ConnOp} {o : Outcome}
  {is : List Instr} {d : Nat}

theorem queueWriteComplete_work : stackWork d (k.queueWriteComplete c) ≤ 2 := by
  unfold queueWriteComplete
  split
  · exact Nat.le_refl 2
  · exact Nat.zero_le 2

theorem appendOutput_work {remaining : List UInt8}
    (h : k.appendOutput c remaining = some (k', is)) : stackWork d is ≤ 2 := by
  obtain ⟨_, _, rfl | ⟨size, rfl⟩⟩ := of_appendOutput h
  · exact Nat.zero_le 2
  · exact Nat.le_refl 2

/-- **What a function of a connection's leaves to do** comes to less than the function. -/
theorem exec_work (h : k.exec c t own op o = some (k', is)) : stackWork d is < op.work := by
  cases op with
  | handleRead =>
      cases o with
      | read r => cases of_handleRead h <;> simp [Instr.work, ConnOp.work]
      | _ => cases h
  | handleWrite =>
      cases o with
      | write r =>
          cases of_handleWrite h with
          | drained =>
              rw [stackWork_append]
              exact Nat.lt_of_le_of_lt (Nat.add_le_add_right queueWriteComplete_work _)
                (by simp [Instr.work, ConnOp.work])
          | _ => simp [ConnOp.work]
      | _ => cases h
  | sendInLoop u msg =>
      cases o with
      | write r =>
          cases of_sendInLoop h with
          | complete => exact Nat.lt_succ_of_le queueWriteComplete_work
          | rest _ _ _ _ _ _ _ h | buffered _ _ _ _ _ h =>
              exact Nat.lt_succ_of_le (appendOutput_work h)
          | _ => simp [ConnOp.work]
      | _ => cases h
  | connectEstablished | destroySetState | channelRemove | closeCallback | handleClose =>
      obtain ⟨p, _, e⟩ := Option.map_eq_some_iff.mp h
      cases e
      simp [Instr.work, ConnOp.work]
  | connectDestroyed | shutdown | shutdownIfDisconnecting =>
      cases h
      split <;> simp [Instr.work, ConnOp.work]
  | send msg =>
      simp only [exec, send] at h
      split at h
      · cases h
        split <;> simp [Instr.work, ConnOp.work, Functor.work]
      · cases h
        simp [ConnOp.work]
  | writeComplete | highWaterMark size =>
      obtain ⟨_, e⟩ := Option.ite_none_right_eq_some.mp h
      cases e
      simp [Instr.work, ConnOp.work]
  | _ =>
      cases h
      simp [Instr.work, ConnOp.work, Functor.work]

end Ctx

/-- An accept is to be executed, or to be called for. -/
def Instr.accepts : Instr → Bool
  | .handleEvent .acceptor | .acceptorHandleRead => true
  | _ => false

namespace Process

variable {s s' s₁ : Process} {a : Label} {c : ConnId} {t : ThreadId} {o : Outcome} {i j : Instr}
  {is rest : List Instr}

/-! ## The entries that are left -/

/-- The entries of `connections_` that point to a connection. -/
def entriesLeft (s : Process) : Nat := s.server.connections.countP (·.2.isSome)

/-- An entry is reset once. -/
theorem countP_reset {m : List (List Char × Option ConnId)} (h : ∃ e ∈ m, e.2 = some c) :
    (TcpServer.reset m c).countP (·.2.isSome) + 1 ≤ m.countP (·.2.isSome) := by
  have hle : ∀ xs : List (List Char × Option ConnId),
      (TcpServer.reset xs c).countP (·.2.isSome) ≤ xs.countP (·.2.isSome) := by
    intro xs
    unfold TcpServer.reset
    rw [List.countP_map]
    refine List.countP_mono_left fun e _ he => ?_
    by_cases hc : e.2 = some c
    · rw [hc]
      rfl
    · simpa [hc] using he
  obtain ⟨e, he, hc⟩ := h
  obtain ⟨xs, ys, rfl⟩ := List.append_of_mem he
  have hx := hle xs
  have hy := hle ys
  simp only [TcpServer.reset, List.map_append, List.map_cons, List.countP_append, List.countP_cons,
    hc, if_true, Option.isSome_none, Option.isSome_some] at hx hy ⊢
  simp only [Bool.false_eq_true, if_false]
  omega

/-- Only an accept adds an entry. -/
theorem exec_entriesLeft (h : Exec s t o i s₁ is) :
    s₁.entriesLeft ≤ s.entriesLeft + if i = .acceptorHandleRead then 1 else 0 := by
  have hfilter : ∀ p : List Char × Option ConnId → Bool,
      (s.server.connections.filter p).countP (·.2.isSome) ≤ s.entriesLeft :=
    fun p => List.filter_sublist.countP_le
  cases h with
  | create fd =>
      show (TcpServer.insert _ _ _).countP _ ≤ _
      rw [TcpServer.insert, List.countP_cons]
      exact Nat.add_le_add (hfilter _) (Nat.le_refl 1)
  | remove c => exact Nat.le_add_right_of_le (hfilter _)
  | entry c ho hc =>
      exact Nat.le_add_right_of_le (Nat.le_of_succ_le (countP_reset hc))
  | lastEntry => exact Nat.zero_le _
  | _ => exact Nat.le_add_right _ _

/-- What `~TcpServer` has to do: for each entry, and for each that an accept may still add, and
    the destruction of the threads and of the acceptor. -/
def destroyWork (s : Process) : Nat :=
  2 + 9 * (s.entriesLeft + (s.stack (.loop 0)).countP Instr.accepts) + 4 * s.numLoops

/-- **What is left to do on thread `t`** until its next callback. -/
def work (s : Process) (t : ThreadId) : Nat :=
  stackWork (if t = .loop 0 then s.destroyWork else 0) (s.stack t)

theorem not_accepts_follows (h : Follows s t i j) (hi : i ≠ .handleEvent .acceptor) :
    j.accepts = false := by
  cases h with
  | conn c op _ hp => cases hp <;> rfl
  | runHere l f => cases f <;> rfl
  | accept => exact absurd rfl hi
  | _ => rfl

/-- An accept counts twice: until it is called, and until it adds an entry. -/
theorem exec_accepts (h : Exec s t o i s₁ is) :
    s₁.entriesLeft + is.countP Instr.accepts ≤ s.entriesLeft + [i].countP Instr.accepts := by
  have hent := exec_entriesLeft h
  have hacc : [i].countP Instr.accepts = if i.accepts then 1 else 0 := by
    simp [List.countP_cons]
  by_cases hi : i = .handleEvent .acceptor
  · subst hi
    cases h with
    | quiet _ _ hq => cases hq <;> simp [Instr.accepts, List.countP_cons]
    | loop _ _ _ _ _ hl => cases hl
  · have hnone : is.countP Instr.accepts = 0 :=
      List.countP_eq_zero.mpr fun j hj => by
        rw [not_accepts_follows (exec_follows h j hj) hi]
        exact Bool.false_ne_true
    rw [hnone, hacc]
    refine Nat.le_trans hent (Nat.add_le_add_left ?_ _)
    split
    · rename_i e
      subst e
      exact Nat.le_refl 1
    · exact Nat.zero_le _

/-- **An instruction comes to less than what it leaves to do**; `d` is the work of `~TcpServer`
    behind it. -/
theorem exec_work {d : Nat} (h : Exec s t o i s₁ is)
    (hd : i = .destroyEntries → s₁.entriesLeft < s.entriesLeft → d + 9 ≤ s.destroyWork) :
    stackWork d is < i.work s.destroyWork := by
  cases h with
  | conn c op k is h => exact Ctx.exec_work h
  | quiet _ _ hq =>
      cases hq with
      | handlers c => exact Nat.lt_succ_of_le (stackWork_handlers c _)
      | runHere l f hl => exact Nat.lt_of_succ_lt (stackWork_functor f)
      | _ => simp [Instr.work, Functor.work]
  | loop _ _ _ _ _ hl => cases hl <;> simp [Instr.work]
  | create fd => simp [Instr.work, Functor.work, ConnOp.work, newConnection]
  | remove c => simp [Instr.work]
  | entry c ho hc =>
      have hd := hd rfl (countP_reset hc)
      simp only [stackWork_cons, stackWork_nil, Instr.work, Functor.work, ConnOp.work]
      omega
  | lastEntry ho hall =>
      rw [stackWork_append, stackWork_destroyThreads]
      simp only [stackWork_cons, stackWork_nil, Instr.work, destroyWork]
      omega
  | destroyAcceptor => simp [Instr.work]

/-! ## Every step -/

/-- The step executes an instruction, or returns from a callback. -/
def Label.executes : Label → Bool
  | .run _ _ | .ret _ => true
  | _ => false

/-- Thread `t` executes an instruction. -/
def Label.runs (t : ThreadId) : Label → Bool
  | .run u _ => u == t
  | _ => false

/-- What another thread does leaves `~TcpServer` no more to do. -/
theorem destroyWork_other (hw : Wf s) (hs : Step s a s') (ha : a.thread ≠ .loop 0) :
    s'.destroyWork ≤ s.destroyWork := by
  have hstack : s'.stack (.loop 0) = s.stack (.loop 0) := stack_thread hs ha
  have hent : s'.entriesLeft ≤ s.entriesLeft := by
    cases hs with
    | run t o i rest s₁ is hst he =>
        have hne : i ≠ .acceptorHandleRead := by
          rintro rfl
          exact ha (hw.stack t _ (mem_stack hst))
        have h := exec_entriesLeft he
        rw [if_neg hne] at h
        exact h
    | user t v s₁ is hu hcall => cases hcall <;> exact Nat.le_refl _
    | _ => exact Nat.le_refl _
  unfold destroyWork
  rw [hstack, numLoops_step hs]
  omega

/-- An instruction of the base loop's leaves `~TcpServer` no more to do. -/
theorem destroyWork_run (hst : s.stack (.loop 0) = i :: rest)
    (he : Exec s (.loop 0) o i s₁ is) :
    (s₁.setStack (.loop 0) (is ++ rest)).destroyWork ≤ s.destroyWork := by
  have hacc := exec_accepts he
  have hn : s₁.numLoops = s.numLoops := by cases he <;> rfl
  have hent : (s₁.setStack (.loop 0) (is ++ rest)).entriesLeft = s₁.entriesLeft := rfl
  have hnum : (s₁.setStack (.loop 0) (is ++ rest)).numLoops = s.numLoops := hn
  unfold destroyWork
  rw [stack_setStack_self, hent, hnum, hst, List.countP_append,
    show i :: rest = [i] ++ rest from rfl, List.countP_append]
  omega

/-- **A thread that executes an instruction** has less left to do. -/
theorem work_run (hw : Wf s) (hst : s.stack t = i :: rest) (he : Exec s t o i s₁ is) :
    (s₁.setStack t (is ++ rest)).work t < s.work t := by
  unfold work
  rw [stack_setStack_self, hst, stackWork_append, stackWork_cons]
  by_cases ht : t = .loop 0
  · subst ht
    rw [if_pos rfl, if_pos rfl]
    have hle := destroyWork_run hst he
    refine Nat.add_lt_add_of_lt_of_le (exec_work he fun hi hlt => ?_) (stackWork_mono hle)
    subst hi
    have hnone : is.countP Instr.accepts = 0 := List.countP_eq_zero.mpr fun j hj => by
      rw [not_accepts_follows (exec_follows he j hj) nofun]
      exact Bool.false_ne_true
    have hn : s₁.numLoops = s.numLoops := by cases he <;> rfl
    have hent : (s₁.setStack (.loop 0) (is ++ rest)).entriesLeft = s₁.entriesLeft := rfl
    have hnum : (s₁.setStack (.loop 0) (is ++ rest)).numLoops = s.numLoops := hn
    unfold destroyWork
    rw [stack_setStack_self, hent, hnum, hst, List.countP_append, hnone, List.countP_cons]
    omega
  · have hno : ∀ {xs : List Instr}, (∀ j ∈ xs, s.instrHome t j) → .destroyEntries ∉ xs :=
      fun h hm => ht (h _ hm)
    have hi : s.instrHome t i := hw.stack t i (mem_stack hst)
    rw [if_neg ht, if_neg ht]
    have hcong : i.work 0 = i.work s.destroyWork := by
      have h : stackWork 0 [i] = stackWork s.destroyWork [i] :=
        stackWork_congr (hno fun j hj => by rw [List.mem_singleton.mp hj]; exact hi)
      simpa using h
    rw [hcong]
    exact Nat.add_lt_add_right (exec_work he fun e => by subst e; exact absurd hi ht) _

/-- **What is left to do until the next callback**, over a step: the thread itself executes an
    instruction of it, and nobody adds to it. -/
theorem work_step (hw : Wf s) (hs : Step s a s') (ha : a.thread = t → a.executes = true) :
    s'.work t + (if a.runs t then 1 else 0) ≤ s.work t := by
  by_cases hat : a.thread = t
  · cases hs with
    | run u o i rest s₁ is hst he =>
        obtain rfl : u = t := hat
        have hruns : Label.runs u (.run u o) = true := beq_self_eq_true u
        rw [if_pos hruns]
        exact work_run hw hst he
    | ret u arg rest hst =>
        obtain rfl : u = t := hat
        have hruns : Label.runs u (.ret u) = false := rfl
        rw [hruns]
        have hd : (s.setStack u rest).destroyWork ≤ s.destroyWork := by
          by_cases hu : u = .loop 0
          · subst hu
            unfold destroyWork
            rw [stack_setStack_self, hst, List.countP_cons]
            exact Nat.add_le_add_right (Nat.add_le_add_left (Nat.mul_le_mul_left 9
              (Nat.add_le_add_left (Nat.le_add_right _ _) _)) _) _
          · unfold destroyWork
            rw [stack_setStack_of_ne _ _ (Ne.symm hu)]
            exact Nat.le_refl _
        unfold work
        rw [stack_setStack_self, hst, stackWork_cons]
        split
        · exact Nat.le_add_left_of_le (stackWork_mono hd)
        · exact Nat.le_add_left _ _
    | _ => exact absurd (ha hat) Bool.false_ne_true
  · have hruns : a.runs t = false := by
      cases a with
      | run u o => exact beq_eq_false_iff_ne.mpr hat
      | _ => rfl
    rw [hruns]
    unfold work
    rw [stack_thread hs hat]
    split
    · rename_i e
      exact stackWork_mono (destroyWork_other hw hs (e ▸ hat))
    · exact Nat.le_refl _

/-- No instruction comes to more than this, but for `~TcpServer`'s loop over `connections_`. -/
theorem work_le (s : Process) (t : ThreadId) :
    s.work t ≤ (30 + if t = .loop 0 then s.destroyWork else 0) * (s.stack t).length := by
  unfold work
  generalize (if t = .loop 0 then s.destroyWork else 0) = d
  generalize s.stack t = is
  induction is with
  | nil => exact Nat.le_refl 0
  | cons i is ih =>
      have hi : i.work d ≤ 30 + d := by
        cases i with
        | conn c op => cases op <;> simp [Instr.work, ConnOp.work] <;> omega
        | handleEvent ch => cases ch <;> simp [Instr.work] <;> omega
        | runInLoop l f =>
            cases f with
            | conn c op => cases op <;> simp [Instr.work, Functor.work, ConnOp.work] <;> omega
            | removeConnectionInLoop c | user k => simp [Instr.work, Functor.work]; omega
        | _ => simp [Instr.work] <;> omega
      rw [stackWork_cons, List.length_cons, Nat.mul_succ, Nat.add_comm]
      exact Nat.add_le_add ih hi

/-- Thread `t` is through with what it had to do: nothing is left, or it is in a callback, or
    halted. -/
def Through (s : Process) (t : ThreadId) : Prop :=
  s.stack t = [] ∨ (∃ arg rest, s.stack t = .callback arg :: rest) ∨ s.Halted t

/-- **A thread that asks for nothing** executes what is left to do on it, and no more. -/
theorem runs_le (hw : Wf s) {tr : List (Process × Label)} (h : Run step s tr s')
    (ht : ∀ p ∈ tr, p.2.thread = t → p.2.executes = true) :
    Wf s' ∧ tr.countP (·.2.runs t) + s'.work t ≤ s.work t := by
  induction h with
  | start => exact ⟨hw, Nat.le_of_eq (Nat.zero_add _)⟩
  | step tr s₁ a s₂ h hs ih =>
      obtain ⟨hw₁, hle⟩ := ih fun p hp => ht p (List.mem_cons_of_mem _ hp)
      have hp := of_step hs
      have hstep := work_step (t := t) hw₁ hp (ht _ List.mem_cons_self)
      refine ⟨(wf_step hw₁ hp).1, ?_⟩
      rw [List.countP_cons]
      dsimp only
      omega

/-- Thread `t` executes its next instruction, where it is not through. -/
theorem runs_of_not_through (h : s.Sound) (hno : ¬ s.Through t) :
    ∃ o s₁, s.step (.run t o) = some s₁ ∧ s₁.work t < s.work t := by
  cases hst : s.stack t with
  | nil => exact absurd (Or.inl hst) hno
  | cons i rest =>
      have hhalt : ¬ s.Halted t := fun hh => hno (Or.inr (Or.inr hh))
      obtain ⟨o, ho⟩ := s.exists_answers i
      have hsome : (s.exec t i o).isSome := by
        refine exec_isSome h hst (fun hg => hhalt (.gone i rest hst hg)) ?_ (fun l e => ?_) ho
        · rintro arg rfl
          exact hno (Or.inr (Or.inl ⟨arg, rest, hst⟩))
        · subst e
          by_contra hd
          exact hhalt (.joins l rest hst (Bool.eq_false_iff.mpr hd))
      obtain ⟨p, hp⟩ := Option.isSome_iff_exists.mp hsome
      refine ⟨o, p.1.setStack t (p.2 ++ rest), ?_, work_run h.toWf hst (of_exec hp)⟩
      simp only [step, hst, hp, Option.map_some]

/-- **A thread left to itself gets through.** -/
theorem gets_through (h : s.Sound) : ∃ tr s', Run step s tr s' ∧
    (∀ p ∈ tr, p.2.runs t = true) ∧ tr.length ≤ s.work t ∧ s'.Through t := by
  induction hn : s.work t using Nat.strongRecOn generalizing s with
  | ind n ih =>
      by_cases hno : s.Through t
      · exact ⟨[], s, .start, fun p hp => absurd hp List.not_mem_nil, Nat.zero_le _, hno⟩
      · obtain ⟨o, s₁, hs, hlt⟩ := runs_of_not_through h hno
        obtain ⟨tr, s', hrun, hall, hlen, hend⟩ := ih _ (hn ▸ hlt) (sound_step h hs) rfl
        refine ⟨tr ++ [(s, .run t o)], s', .trans (.step _ _ _ _ .start hs) hrun, ?_, ?_, hend⟩
        · intro p hp
          rcases List.mem_append.mp hp with hp | hp
          · exact hall p hp
          · rw [List.mem_singleton.mp hp]
            exact beq_self_eq_true t
        · rw [List.length_append]
          exact Nat.le_trans (Nat.succ_le_succ hlen) (hn ▸ hlt)

section Runs

variable {name : List Char} {addr : InetAddress} {numLoops : Nat} {writeComplete : Bool}
  {tr : List (Process × Label)}

/-- **Every call comes to an end.** In every state of every run, for every thread: as long as it
    asks for nothing new, whatever the other threads do and the kernel answers, it executes no
    more instructions than its stack says; and left to itself it executes them, and is through:
    back in `Loop()` or in user code, or halted. -/
theorem calls_return (h : Run step (init name addr numLoops writeComplete) tr s) (t : ThreadId) :
    (∀ tr' s', Run step s tr' s' → (∀ p ∈ tr', p.2.thread = t → p.2.executes = true) →
      tr'.countP (·.2.runs t) ≤ s.work t) ∧
    s.work t ≤ (30 + if t = .loop 0 then s.destroyWork else 0) * (s.stack t).length ∧
    ∃ tr' s', Run step s tr' s' ∧ (∀ p ∈ tr', p.2.runs t = true) ∧ tr'.length ≤ s.work t ∧
      s'.Through t := by
  have hs := sound_run h
  refine ⟨fun tr' s' h' ht => ?_, work_le s t, gets_through hs⟩
  exact Nat.le_trans (Nat.le_add_right _ _) (runs_le hs.toWf h' ht).2

/-- A connection whose peer has closed: `Poll` reports it readable and hung up. -/
def hungUpRun : List Label := List.flatten
  [[.loop 0 .enterLoop, .loop 0 .test, .poll 0 [(.acceptor, epollIn)], .dispatch 0,
      .run (.loop 0) .none, .run (.loop 0) (.accept (some 10))], runs (.loop 0) 3, settleRun,
    [.poll 0 [(.conn 0, epollIn ||| epollHup)], .dispatch 0]]

theorem calls_return_hangUp : ∃ tr s, Run step oneLoop tr s ∧
    s.stack (.loop 0) = [.handleEvent (.conn 0)] ∧
    ∃ tr' s', Run step s tr' s' ∧ tr'.length ≤ 30 ∧ s'.Through (.loop 0) := by
  have h : ((Machine.exec step oneLoop hungUpRun).any fun s => decide (
      s.stack (.loop 0) = [.handleEvent (.conn 0)] ∧ s.work (.loop 0) = 30)) = true := by
    decide +kernel
  obtain ⟨s, hs, hb⟩ := (Option.any_eq_true _ _).mp h
  obtain ⟨hst, hwork⟩ := of_decide_eq_true hb
  have hrun := exec_run .start hs
  obtain ⟨tr', s', h', _, hlen, hend⟩ := (calls_return hrun (.loop 0)).2.2
  exact ⟨_, s, hrun, hst, tr', s', h', hwork ▸ hlen, hend⟩

end Runs

end Process

end CuteMuduo
