/-
  File:      CuteMuduo/TcpServer/Frames.lean
  Subject:   WHERE USER CODE STANDS on the thread of a loop (`frames_run`): a functor of the user's
             is called by the loop itself, with nothing else on the stack, or from within a
             callback of a connection; and what `Poll` reported waits only while the loop is
             handling it. A thread that is gone has nothing to do. And the server's life: it goes on
             or ends, and `~TcpServer` is executed in its end only.
-/
import CuteMuduo.TcpServer.Established

namespace CuteMuduo

open Machine

/-- The loop is handling what `Poll` reported. -/
def Phase.dispatching {F : Type} : Phase F → Bool
  | .dispatch _ => true
  | _ => false

/-- A call of user code that was handed to a loop. -/
def Instr.callsUser : Instr → Bool
  | .callback none | .runInLoop _ (.user _) => true
  | _ => false

/-- The instruction is a part of `~TcpServer`. -/
def Instr.destroys : Instr → Bool
  | .destroyEntries | .destroyThread _ | .join _ | .destroyAcceptor => true
  | _ => false

/-- **Below a call of user code** there is a callback of a connection, or, where `bare`, nothing
    but calls of user code. -/
def Nested (bare : Bool) : List Instr → Prop
  | [] => True
  | i :: rest => (i.callsUser = true → (∃ c, .callback (some c) ∈ rest) ∨
      bare = true ∧ ∀ j ∈ rest, j = .callback none) ∧ Nested bare rest

theorem nested_append {bare : Bool} {xs ys : List Instr} (h : ∀ i ∈ xs, i.callsUser = false)
    (hy : Nested bare ys) : Nested bare (xs ++ ys) := by
  induction xs with
  | nil => exact hy
  | cons i xs ih =>
      refine ⟨fun hi => ?_, ih fun j hj => h j (List.mem_cons_of_mem _ hj)⟩
      rw [h i List.mem_cons_self] at hi
      cases hi

namespace Process

variable {s s' s₁ : Process} {a : Label} {t : ThreadId} {o : Outcome} {i : Instr}
  {is rest : List Instr}

/-- A call of user code comes of one that was handed over, alone. -/
theorem exec_callsUser (h : Exec s t o i s₁ is) :
    (∀ j ∈ is, j.callsUser = false) ∨ i.callsUser = true ∧ is = [.callback none] := by
  have hfol := exec_follows h
  have hno : (∀ f : Functor, ∀ l, i = .runInLoop l f → ∀ k, f ≠ .user k) →
      ∀ j ∈ is, j.callsUser = false := by
    intro hf j hj
    cases hfol j hj with
    | conn c op _ hp => cases hp <;> rfl
    | runHere l f hl =>
        cases f with
        | user k => exact absurd rfl (hf _ l rfl k)
        | _ => rfl
    | _ => rfl
  cases h with
  | quiet _ _ hq =>
      cases hq with
      | runHere l f hl =>
          cases f with
          | user k => exact Or.inr ⟨rfl, rfl⟩
          | _ => exact Or.inl (hno fun f l e k hk => by cases e; cases hk)
      | runThere l f hl =>
          refine Or.inl fun j hj => ?_
          rw [List.mem_singleton.mp hj]
          rfl
      | _ => exact Or.inl (hno (by rintro f l ⟨⟩))
  | loop _ l b l' _ hi => cases hi <;> exact Or.inl (hno (by rintro f l ⟨⟩))
  | _ => exact Or.inl (hno (by rintro f l ⟨⟩))

/-- An instruction is no step of `Loop()` but `HandleRead` of the wakeup channel. -/
theorem exec_dispatching (h : Exec s t o i s₁ is) (l : LoopId) :
    (s₁.loops l).phase.dispatching = (s.loops l).phase.dispatching := by
  cases h with
  | loop i l₁ b l' is hi hl h =>
      by_cases e : l = l₁
      · subst e
        show (Function.update s.loops l l' l).phase.dispatching = _
        rw [Function.update_self]
        obtain ⟨he, rfl⟩ := EventLoop.step_eq_some.mp h
        cases hi with
        | handleRead =>
            rw [(EventLoop.enabled_handleRead.mp he).2]
            rfl
        | _ => rfl
      · show (Function.update s.loops l₁ l' l).phase.dispatching = _
        rw [Function.update_of_ne e]
  | _ => rfl

theorem exec_hasLoop (h : Exec s t o i s₁ is) (l : LoopId) : s₁.hasLoop l = s.hasLoop l := by
  cases h <;> rfl

/-- **Where user code stands.** -/
structure Frames (s : Process) : Prop where
  active : ∀ l, s.active l ≠ [] → (s.loops l).phase.dispatching = true
  gone : ∀ l, s.hasLoop l = false → s.stack (.loop l) = [] ∧ s.active l = []
  nested : ∀ l, Nested (!(s.loops l).phase.dispatching) (s.stack (.loop l))

/-- What user code hands over lies on user code. -/
theorem nested_call (h : s.Frames) {l : LoopId} (hu : s.userCode (.loop l) = true) :
    (∃ c, .callback (some c) ∈ s.stack (.loop l)) ∨
      (!(s.loops l).phase.dispatching) = true ∧ ∀ j ∈ s.stack (.loop l), j = .callback none := by
  have hn := h.nested l
  unfold userCode at hu
  split at hu
  · rename_i arg rest hst
    rw [hst] at hn ⊢
    cases arg with
    | some c => exact Or.inl ⟨c, List.mem_cons_self⟩
    | none =>
        rcases hn.1 rfl with ⟨c, hc⟩ | ⟨hb, hall⟩
        · exact Or.inl ⟨c, List.mem_cons_of_mem _ hc⟩
        · refine Or.inr ⟨hb, fun j hj => ?_⟩
          rcases List.mem_cons.mp hj with rfl | hj
          · rfl
          · exact hall j hj
  · cases hu
  · rename_i hst
    rw [hst]
    refine Or.inr ⟨?_, fun j hj => absurd hj List.not_mem_nil⟩
    obtain ⟨_, hp⟩ := Bool.and_eq_true_iff.mp hu
    split at hp
    · rename_i hph
      rw [hph]
      rfl
    · rename_i hph
      rw [hph]
      rfl
    · cases hp

/-- A functor of the user's that the loop calls is alone on the stack, and the loop is past what
    `Poll` reported. -/
theorem nested_next {l : LoopId} {b : EventLoop.Action ThreadId Functor}
    {l' : EventLoop ThreadId Functor} (h : (s.loops l).step b = some l') :
    Nested (!l'.phase.dispatching) (s.nextInstr l b) := by
  unfold nextInstr
  split
  · rename_i t
    split
    · rename_i f rest hph
      obtain ⟨_, rfl⟩ := EventLoop.step_eq_some.mp h
      refine ⟨fun _ => Or.inr ⟨?_, fun j hj => absurd hj List.not_mem_nil⟩, trivial⟩
      show (!((s.loops l).next t).phase.dispatching) = true
      rw [EventLoop.next_of_batch hph]
      rfl
    · trivial
  · trivial

/-- A call of the user's: what it hands over lies on user code. -/
theorem nested_called {bare : Bool} {v : UserCall} {rest : List Instr} (hc : Called s t v s₁ is)
    (hn : Nested bare rest) (h : (∃ c, .callback (some c) ∈ rest) ∨
      bare = true ∧ ∀ j ∈ rest, j = .callback none) : Nested bare (is ++ rest) := by
  have hasked := called_asked hc
  cases hc with
  | runInLoop l k => exact ⟨fun _ => h, hn⟩
  | _ =>
      refine nested_append (fun i hi => ?_) hn
      cases hasked i hi <;> rfl

/-- A loop whose thread has something to do is there. -/
theorem hasLoop_of_stack (h : s.Frames) {l : LoopId} (hst : s.stack (.loop l) = i :: rest) :
    s.hasLoop l = true := by
  by_contra hl
  rw [(h.gone l (Bool.eq_false_iff.mpr hl)).1] at hst
  cases hst

theorem hasLoop_of_userCode (h : s.Frames) {l : LoopId} (hu : s.userCode (.loop l) = true) :
    s.hasLoop l = true := by
  by_contra hl
  have hl := Bool.eq_false_iff.mpr hl
  unfold userCode at hu
  rw [(h.gone l hl).1] at hu
  simp only [hl, Bool.false_and] at hu
  cases hu

/-- A step of the loop `l` leaves the other loops as they are. -/
theorem frames_at (h : s.Frames) (l : LoopId) (hl : s.hasLoop l = true)
    (hhas : ∀ m, s'.hasLoop m = s.hasLoop m)
    (hstack : ∀ m, m ≠ l → s'.stack (.loop m) = s.stack (.loop m))
    (hother : ∀ m, m ≠ l → s'.active m = s.active m)
    (hdis : ∀ m, m ≠ l → (s'.loops m).phase.dispatching = (s.loops m).phase.dispatching)
    (hactive : s'.active l ≠ [] → (s'.loops l).phase.dispatching = true)
    (hnested : Nested (!(s'.loops l).phase.dispatching) (s'.stack (.loop l))) : s'.Frames := by
  refine ⟨fun m hm => ?_, fun m hm => ?_, fun m => ?_⟩
  · by_cases e : m = l
    · subst e
      exact hactive hm
    · rw [hdis m e]
      exact h.active m (hother m e ▸ hm)
  · rw [hhas] at hm
    have e : m ≠ l := by
      rintro rfl
      rw [hl] at hm
      cases hm
    obtain ⟨hg, hg'⟩ := h.gone m hm
    exact ⟨(hstack m e).trans hg, (hother m e).trans hg'⟩
  · by_cases e : m = l
    · subst e
      exact hnested
    · rw [hdis m e, hstack m e]
      exact h.nested m

/-- A thread goes on: what it does next stands as user code may. -/
theorem frames_thread (h : s.Frames) {xs : List Instr}
    (hstack : s'.stack = Function.update s.stack t xs) (hact : s'.active = s.active)
    (hhas : ∀ m, s'.hasLoop m = s.hasLoop m)
    (hdis : ∀ m, (s'.loops m).phase.dispatching = (s.loops m).phase.dispatching)
    (ht : ∀ l, t = .loop l →
      s.hasLoop l = true ∧ Nested (!(s.loops l).phase.dispatching) xs) : s'.Frames := by
  have hkeep : ∀ m, t ≠ .loop m → s'.stack (.loop m) = s.stack (.loop m) := fun m hne => by
    rw [hstack]
    exact Function.update_of_ne hne.symm _ _
  cases t with
  | loop l =>
      obtain ⟨hl, hn⟩ := ht l rfl
      refine frames_at h l hl hhas (fun m e => hkeep m fun e' => e (ThreadId.loop.inj e').symm)
        (fun m _ => congrFun hact m) (fun m _ => hdis m) (fun hm => ?_) ?_
      · rw [hdis]
        exact h.active l (hact ▸ hm)
      · rw [hdis, hstack, Function.update_self]
        exact hn
  | user n =>
      refine ⟨fun m hm => ?_, fun m hm => ?_, fun m => ?_⟩
      · rw [hdis]
        exact h.active m (hact ▸ hm)
      · rw [hkeep m nofun, hact]
        exact h.gone m (hhas m ▸ hm)
      · rw [hdis, hkeep m nofun]
        exact h.nested m

theorem frames_step (h : s.Frames) (hs : Step s a s') : s'.Frames := by
  let dispatches : EventLoop ThreadId Functor → Bool := fun loop => loop.phase.dispatching
  cases hs with
  | run t o i rest s₁ is hst he =>
      obtain ⟨hk₁, hk₂, _⟩ := exec_kept he
      have hstack : Function.update s₁.stack t (is ++ rest) =
          Function.update s.stack t (is ++ rest) := by rw [hk₁]
      refine frames_thread h hstack hk₂ (fun l => exec_hasLoop he l)
        (fun l => exec_dispatching he l) ?_
      rintro l rfl
      have hn := h.nested l
      rw [hst] at hn
      refine ⟨hasLoop_of_stack h hst, ?_⟩
      rcases exec_callsUser he with hno | ⟨hi, rfl⟩
      · exact nested_append hno hn.2
      · exact ⟨fun _ => hn.1 hi, hn.2⟩
  | user t v s₁ is hu hcall =>
      have hcalled := hcall
      obtain ⟨held, server, rfl, _⟩ := called_same hcall
      refine frames_thread h rfl rfl (fun _ => rfl) (fun _ => rfl) ?_
      rintro l rfl
      exact ⟨hasLoop_of_userCode h hu, nested_called hcalled (h.nested l) (nested_call h hu)⟩
  | ret t arg rest hst =>
      refine frames_thread h rfl rfl (fun _ => rfl) (fun _ => rfl) ?_
      rintro l rfl
      have hn := h.nested l
      rw [hst] at hn
      exact ⟨hasLoop_of_stack h hst, hn.2⟩
  | loop l b l' hst hact hb hl hs =>
      refine frames_at h l hl (fun _ => rfl)
        (fun m e => Function.update_of_ne (fun e' => e (ThreadId.loop.inj e')) _ _) (fun _ _ => rfl)
        (fun m e => congrArg dispatches (Function.update_of_ne e _ _)) (fun hm => absurd hact hm) ?_
      show Nested (!(Function.update s.loops l l' l).phase.dispatching)
        (Function.update s.stack (.loop l) (s.nextInstr l b) (.loop l))
      rw [Function.update_self, Function.update_self]
      exact nested_next hs
  | poll l events l' hst hev hnd hl hs =>
      refine frames_at h l hl (fun _ => rfl) (fun _ _ => rfl)
        (fun m e => Function.update_of_ne e _ _)
        (fun m e => congrArg dispatches (Function.update_of_ne e _ _)) (fun _ => ?_) ?_
      · show (Function.update s.loops l l' l).phase.dispatching = true
        rw [Function.update_self]
        obtain ⟨_, rfl⟩ := EventLoop.step_eq_some.mp hs
        rfl
      · show Nested _ (s.stack (.loop l))
        rw [hst]
        trivial
  | dispatch l ch rest hst hact =>
      have hne : s.active l ≠ [] := by
        rw [hact]
        exact List.cons_ne_nil _ _
      have hl : s.hasLoop l = true := by
        by_contra hl
        exact hne (h.gone l (Bool.eq_false_iff.mpr hl)).2
      refine frames_at h l hl (fun _ => rfl)
        (fun m e => Function.update_of_ne (fun e' => e (ThreadId.loop.inj e')) _ _)
        (fun m e => Function.update_of_ne e _ _) (fun _ _ => rfl) (fun _ => h.active l hne) ?_
      show Nested _ (Function.update s.stack (.loop l) [.handleEvent ch] (.loop l))
      rw [Function.update_self]
      exact ⟨nofun, trivial⟩
  | threadEnd l h0 hl hst hp =>
      refine ⟨h.active, fun m hm => ?_, h.nested⟩
      by_cases e : m = l
      · subst e
        refine ⟨hst, ?_⟩
        by_contra hne
        have hdis := h.active m hne
        rw [hp] at hdis
        cases hdis
      · refine h.gone m ?_
        have hm' : (decide (m ≤ s.numLoops) && !Function.update s.threadDone l true m) = false := hm
        rwa [Function.update_of_ne e] at hm'

/-! ## The server's life -/

/-- **`~TcpServer` is executed once the server's life is over.** -/
def Closing (s : Process) : Prop := ∀ t, ∀ i ∈ s.stack t, i.destroys = true → s.server.life ≠ .live

/-- What an instruction does to the server's life. -/
theorem exec_life (h : Exec s t o i s₁ is) :
    s₁.server.life = s.server.life ∨ i = .destroyAcceptor ∧ s₁.server.life = .dead := by
  cases h with
  | destroyAcceptor p q hp hq => exact Or.inr ⟨rfl, rfl⟩
  | _ => exact Or.inl rfl

/-- **A server's life goes on or ends.** -/
theorem live_of_live (h : Step s a s') (hl : s'.server.life = .live) : s.server.life = .live := by
  cases h with
  | run t o i rest s₁ is hst he =>
      change s₁.server.life = .live at hl
      rcases exec_life he with e | ⟨_, e⟩
      · rw [← e]
        exact hl
      · rw [e] at hl
        cases hl
  | user t v s₁ is hu hcall =>
      cases hcall with
      | destroyServer => cases hl
      | _ => exact hl
  | _ => exact hl

/-- A part of `~TcpServer` comes of a part of `~TcpServer`. -/
theorem destroys_follows {j : Instr} (h : Follows s t i j) (hj : j.destroys = true) :
    i.destroys = true := by
  cases h with
  | conn c op _ hp => cases hp <;> cases hj
  | runHere l f => cases f <;> cases hj
  | entries | thread | acceptor | join => rfl
  | _ => cases hj

theorem closing_step (h : s.Closing) (hs : Step s a s') : s'.Closing := by
  intro t i hi hd hl
  have hold := live_of_live hs hl
  rcases mem_stack_step hs hi with hi | hp
  · exact h t i hi hd hold
  · cases hp with
    | exec _ o j rest hst _ hf =>
        exact h t j (mem_stack hst) (destroys_follows hf hd) hold
    | call _ v _ hc =>
        cases hc with
        | destroyServer =>
            cases hs with
            | user _ _ s₂ is' hu hc' =>
                cases hc'
                cases hl
        | _ => cases hd
    | functor l b f rest hph => cases f <;> cases hd
    | event l ch hch => cases hd

section Runs

variable {name : List Char} {addr : InetAddress} {numLoops : Nat} {writeComplete : Bool}
  {tr : List (Process × Label)}

/-- **Where user code stands**, in every state a run reaches. -/
theorem frames_run (h : Run step (init name addr numLoops writeComplete) tr s) : s.Frames :=
  h.inv ⟨fun _ hl => absurd rfl hl, fun _ _ => ⟨rfl, rfl⟩, fun _ => show Nested _ [] from trivial⟩
    fun _ _ _ hf hs => frames_step hf (of_step hs)

theorem closing_run (h : Run step (init name addr numLoops writeComplete) tr s) : s.Closing :=
  h.inv (fun _ _ hi => absurd hi List.not_mem_nil) fun _ _ _ hcl hs => closing_step hcl (of_step hs)

/-- A server alive was alive before. -/
theorem live_run (h : Run step (init name addr numLoops writeComplete) tr s)
    (hlive : s.server.life = .live) : ∀ p ∈ tr, p.1.server.life = .live := by
  induction h with
  | start => exact fun p hp => absurd hp List.not_mem_nil
  | step tr s a s' h hs ih =>
      have hold := live_of_live (of_step hs) hlive
      intro p hp
      rcases List.mem_cons.mp hp with rfl | hp
      · exact hold
      · exact ih hold p hp

end Runs

end Process

end CuteMuduo
