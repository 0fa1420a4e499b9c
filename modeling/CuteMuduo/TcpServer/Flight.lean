/-
  File:      CuteMuduo/TcpServer/Flight.lean
  Subject:   ONE CONNECTION AMONG ALL THE THREADS: what a step of the program does to connection
             `c`, and what of `c`'s is under way.

  * `Seen` -- a step executes a function of `c`'s, or leaves `c` as it is (`seen_step`);
  * `trail` -- what `c` has given its loop's thread to do and is not done yet (`stack_other`,
    `exec_leaves`);
  * `InFlight` -- a functor or function is on a stack or in a task queue; `inFlight_step` says
    where it can come from (`Made`);
  * `flight` -- in order, what one thread has handed to `c`'s loop and the loop has not yet run:
    first in, first out (`flight_run`, `flight_other`).
-/
import CuteMuduo.TcpServer.Placement

namespace CuteMuduo

open Machine

namespace Process

variable {s s' s₁ : Process} {a : Label} {c : ConnId} {t u : ThreadId} {o : Outcome} {i : Instr}
  {is rest : List Instr} {f : Functor}

/-! ## What a step does to a connection -/

/-- **A step, as connection `c` sees it.** -/
inductive Seen (s : Process) (c : ConnId) (a : Label) (s' : Process) : Prop where
  /-- No function of `c`'s is executed; `Poll` may write the mask of its channel. -/
  | other (hno : ∀ t o op rest, a = .run t o → s.stack t ≠ .conn c op :: rest)
      (r : EventMask)
      (hctx : s'.ctx c = { s.ctx c with channel := (s.ctx c).channel.setRevents r })
  | run (t : ThreadId) (o : Outcome) (op : ConnOp) (rest is : List Instr) (ha : a = .run t o)
      (hst : s.stack t = .conn c op :: rest)
      (he : (s.ctx c).exec c t (s.isInLoopThread (s.conns c).loop t) op o =
        some (s'.ctx c, is))
      (hst' : s'.stack = Function.update s.stack t (is ++ rest)) (hloops : s'.loops = s.loops)

/-- An instruction that is no function of `c`'s leaves `c` as it is. -/
theorem exec_ctx (hs : Stored s) (hi : s.instrHome t i) (hc : c < s.created)
    (hne : ∀ op, i ≠ .conn c op) (h : Exec s t o i s₁ is) : s₁.ctx c = s.ctx c := by
  cases h with
  | conn d op k is h =>
      have hd : c ≠ d := fun e => hne op (by rw [e])
      exact ctx_setCtx_of_ne hd fun e => hd (hs.fd_inj c hc d hi.1 e)
  | create fd ho hlife hf hid => exact ctx_newConnection_of_lt hc
  | destroyAcceptor p q hp hq => exact (destroyAcceptor_spec hs hp hq).1 c hc
  | _ => rfl

/-- **Every step, as connection `c` sees it.** -/
theorem seen_step (hw : Wf s) (hc : c < s.created) (h : Step s a s') : Seen s c a s' := by
  have hsame : ∀ {s'' : Process}, s''.ctx c = s.ctx c →
      s''.ctx c =
        { s.ctx c with channel := (s.ctx c).channel.setRevents (s.ctx c).channel.revents } :=
    fun e => e
  cases h with
  | run t o i rest s₁ is hst he =>
      have hi : s.instrHome t i := hw.stack t i (mem_stack hst)
      by_cases hop : ∃ op, i = .conn c op
      · obtain ⟨op, rfl⟩ := hop
        cases he with
        | conn _ _ k _ h =>
            have hk := Ctx.exec_effect (hw.agrees c hc) h
            have hctx : (s.setCtx c k).ctx c = k := ctx_setCtx_self hk.same
            exact .run t o op rest is rfl hst (by rw [← hctx] at h; exact h) rfl rfl
        | quiet _ _ h => cases h
        | loop _ _ _ _ _ h => cases h
      · have hk : s₁.ctx c = s.ctx c :=
          exec_ctx hw.toStored hi hc (fun op e => hop ⟨op, e⟩) he
        refine .other (fun u o' op r ha hst' => hop ⟨op, ?_⟩) _ (hsame hk)
        cases ha
        rw [hst] at hst'
        exact (List.cons.inj hst').1
  | user t u s₁ is hu hcall =>
      obtain ⟨held, server, rfl, _⟩ := called_same hcall
      exact .other (fun _ _ _ _ ha => by cases ha) _ (hsame rfl)
  | poll l events l' hst hev hnd hl h =>
      obtain ⟨r, hr⟩ := ctx_setRevents s events c
      exact .other (fun _ _ _ _ ha => by cases ha) r hr
  | ret t arg rest hst => exact .other (fun _ _ _ _ ha => by cases ha) _ (hsame rfl)
  | loop l a l' hst hact ha hl h => exact .other (fun _ _ _ _ ha => by cases ha) _ (hsame rfl)
  | dispatch l ch rest hst hact => exact .other (fun _ _ _ _ ha => by cases ha) _ (hsame rfl)
  | threadEnd l h0 hl hst hp => exact .other (fun _ _ _ _ ha => by cases ha) _ (hsame rfl)

/-- **A thread executes a function of `c`'s.** -/
theorem seen_run {op : ConnOp} (hw : Wf s) (hst : s.stack t = .conn c op :: rest)
    (h : Step s (.run t o) s') : ∃ is, (s.ctx c).exec c t
      (s.isInLoopThread (s.conns c).loop t) op o = some (s'.ctx c, is) ∧
      s'.stack = Function.update s.stack t (is ++ rest) := by
  cases seen_step hw (hw.stack t _ (mem_stack hst)).1 h with
  | other hno => exact absurd hst (hno t o op rest rfl)
  | run u o' op' rest' is ha hst' he hstack =>
      cases ha
      rw [hst] at hst'
      cases hst'
      exact ⟨is, he, hstack⟩

/-! ## What is under way -/

end Process

/-- The functor that the instruction calls or hands over. -/
def Instr.carries : Instr → Option Functor
  | .conn c op => some (.conn c op)
  | .runInLoop _ f => some f
  | .queueInLoop _ f => some f
  | .removeConnectionInLoop c => some (.removeConnectionInLoop c)
  | _ => none

/-- The instruction hands `f` over. -/
def Instr.hands (f : Functor) : Instr → Prop
  | .runInLoop _ g => g = f
  | .queueInLoop _ g => g = f
  | _ => False

theorem Instr.carries_of_hands {i : Instr} {f : Functor} (h : i.hands f) : i.carries = some f := by
  cases i with
  | runInLoop l g => exact congrArg some h
  | queueInLoop l g => exact congrArg some h
  | _ => exact h.elim

theorem Functor.carries_instr (f : Functor) :
    f.instr.carries = some f ∨ f.instr = .callback none := by
  cases f with
  | user k => exact Or.inr rfl
  | _ => exact Or.inl rfl

namespace Process

variable {s s' s₁ : Process} {a : Label} {c : ConnId} {t u : ThreadId} {o : Outcome} {i : Instr}
  {is rest : List Instr} {f : Functor}

/-- **`f` is under way**: on a stack, called or handed over, or in a task queue. -/
def InFlight (s : Process) (f : Functor) : Prop :=
  (∃ t, ∃ i ∈ s.stack t, i.carries = some f) ∨ ∃ l, f ∈ (s.loops l).queue

/-- **Where something new under way comes from**: what an instruction of thread `t` that is to
    be executed next makes. -/
inductive Makes (s : Process) (t : ThreadId) : Instr → Functor → Prop where
  | conn (c : ConnId) (op : ConnOp) (j : Instr) (f : Functor)
      (hj : Ctx.Produced (s.ctx c) c t (s.isInLoopThread (s.conns c).loop t) op j)
      (hf : j.carries = some f) : Makes s t (.conn c op) f
  | handler (c : ConnId) (op : ConnOp) (hop : op.isHandler = true) :
      Makes s t (.handleEvent (.conn c)) (.conn c op)
  | create : Makes s t .acceptorHandleRead (.conn s.created .connectEstablished)
  | removeConnection (c : ConnId) : Makes s t (.removeConnection c) (.removeConnectionInLoop c)
  | remove (c : ConnId) : Makes s t (.removeConnectionInLoop c) (.conn c .connectDestroyed)
  | entry (c : ConnId) : Makes s t .destroyEntries (.conn c .connectDestroyed)

/-- What the user makes. -/
inductive UserMakes (s : Process) (t : ThreadId) : Functor → Prop where
  | send (c : ConnId) (msg : List UInt8) (h : s.mayUse t c = true) :
      UserMakes s t (.conn c (.send msg))
  | shutdown (c : ConnId) (h : s.mayUse t c = true) : UserMakes s t (.conn c .shutdown)
  | setHighWaterMark (c : ConnId) (mark : Nat) (h : s.mayUse t c = true) :
      UserMakes s t (.conn c (.setHighWaterMark mark))
  | retrieve (c : ConnId) (len : Nat) (h : s.argument t = some c) :
      UserMakes s t (.conn c (.retrieve len))
  | functor (k : Nat) : UserMakes s t (.user k)

/-- **Where something new under way comes from.** -/
inductive Made (s : Process) : Label → Functor → Prop where
  | run (t : ThreadId) (o : Outcome) (i : Instr) (rest : List Instr) (f : Functor)
      (hst : s.stack t = i :: rest) (h : Makes s t i f) : Made s (.run t o) f
  | user (t : ThreadId) (u : UserCall) (f : Functor) (h : UserMakes s t f) : Made s (.user t u) f

/-- What an instruction leaves to do carries what it handed over, or what it makes. -/
theorem follows_carries {j : Instr} (h : Follows s t i j) (hf : j.carries = some f) :
    i.hands f ∨ Makes s t i f := by
  cases h with
  | conn c op _ hp => exact Or.inr (.conn c op j f hp hf)
  | handler c op hop =>
      cases hf
      exact Or.inr (.handler c op hop)
  | runHere l g hl =>
      rcases Functor.carries_instr g with e | e
      · exact Or.inl (Option.some.inj (e.symm.trans hf))
      · rw [e] at hf
        cases hf
  | runThere l g hl => exact Or.inl (Option.some.inj hf)
  | removeConnection c =>
      cases hf
      exact Or.inr (.removeConnection c)
  | remove c =>
      cases hf
      exact Or.inr (.remove c)
  | create =>
      cases hf
      exact Or.inr .create
  | entry c =>
      cases hf
      exact Or.inr (.entry c)
  | _ => cases hf

/-- **What is under way after an instruction** was under way beside it, was handed over by it, or
    is made by it. -/
theorem inFlight_exec (hst : s.stack t = i :: rest) (h : Exec s t o i s₁ is)
    (hf : (s₁.setStack t (is ++ rest)).InFlight f) :
    (s.setStack t rest).InFlight f ∨ i.hands f ∨ Makes s t i f := by
  obtain ⟨hk, _⟩ := exec_kept h
  rcases hf with ⟨u, j, hj, hjf⟩ | ⟨l, hl⟩
  · change j ∈ Function.update s₁.stack t (is ++ rest) u at hj
    by_cases e : u = t
    · subst e
      rw [Function.update_self] at hj
      rcases List.mem_append.mp hj with hj | hj
      · exact Or.inr (follows_carries (exec_follows h j hj) hjf)
      · refine Or.inl (Or.inl ⟨u, j, ?_, hjf⟩)
        show j ∈ Function.update s.stack u rest u
        rw [Function.update_self]
        exact hj
    · rw [Function.update_of_ne e, hk] at hj
      refine Or.inl (Or.inl ⟨u, j, ?_, hjf⟩)
      show j ∈ Function.update s.stack t rest u
      rw [Function.update_of_ne e]
      exact hj
  · change f ∈ (s₁.loops l).queue at hl
    rcases exec_queue h l with hq | ⟨g, rfl, hq⟩
    · rw [hq] at hl
      exact Or.inl (Or.inr ⟨l, hl⟩)
    · rw [hq] at hl
      rcases List.mem_append.mp hl with hl | hl
      · exact Or.inl (Or.inr ⟨l, hl⟩)
      · exact Or.inr (Or.inl (List.mem_singleton.mp hl).symm)

/-- Beside the instruction that is executed next. -/
theorem InFlight.of_setStack (hst : s.stack t = i :: rest) (h : (s.setStack t rest).InFlight f) :
    s.InFlight f := by
  rcases h with ⟨u, j, hj, hjf⟩ | h
  · change j ∈ Function.update s.stack t rest u at hj
    by_cases e : u = t
    · subst e
      rw [Function.update_self] at hj
      exact Or.inl ⟨u, j, by rw [hst]; exact List.mem_cons_of_mem _ hj, hjf⟩
    · rw [Function.update_of_ne e] at hj
      exact Or.inl ⟨u, j, hj, hjf⟩
  · exact Or.inr h

/-- What is under way is the instruction that is executed next, or beside it. -/
theorem InFlight.setStack (hst : s.stack t = i :: rest) (h : s.InFlight f) :
    i.carries = some f ∨ (s.setStack t rest).InFlight f := by
  rcases h with ⟨u, j, hj, hjf⟩ | h
  · by_cases e : u = t
    · subst e
      rw [hst] at hj
      rcases List.mem_cons.mp hj with rfl | hj
      · exact Or.inl hjf
      · exact Or.inr (Or.inl ⟨u, j, by rw [stack_setStack_self]; exact hj, hjf⟩)
    · exact Or.inr (Or.inl ⟨u, j, by rw [stack_setStack_of_ne _ _ e]; exact hj, hjf⟩)
  · exact Or.inr (Or.inr h)

/-- Behind an instruction that leaves `is` to do. -/
theorem inFlight_run (hst' : s'.stack = Function.update s.stack t (is ++ rest))
    (hloops : s'.loops = s.loops) (h : s'.InFlight f) :
    (s.setStack t rest).InFlight f ∨ ∃ j ∈ is, j.carries = some f := by
  rcases h with ⟨u, j, hj, hjf⟩ | ⟨l, hl⟩
  · rw [hst'] at hj
    by_cases e : u = t
    · subst e
      rw [Function.update_self] at hj
      rcases List.mem_append.mp hj with hj | hj
      · exact Or.inr ⟨j, hj, hjf⟩
      · exact Or.inl (Or.inl ⟨u, j, by rw [stack_setStack_self]; exact hj, hjf⟩)
    · rw [Function.update_of_ne e] at hj
      exact Or.inl (Or.inl ⟨u, j, by rw [stack_setStack_of_ne _ _ e]; exact hj, hjf⟩)
  · rw [hloops] at hl
    exact Or.inl (Or.inr ⟨l, hl⟩)

theorem asked_carries {v : UserCall} {j : Instr} (h : Asked s t v j) (hf : j.carries = some f) :
    UserMakes s t f := by
  cases h with
  | send c msg hm =>
      cases hf
      exact .send c msg hm
  | shutdown c hm =>
      cases hf
      exact .shutdown c hm
  | setHighWaterMark c mark hm =>
      cases hf
      exact .setHighWaterMark c mark hm
  | retrieve c len harg hown =>
      cases hf
      exact .retrieve c len harg
  | queueInLoop l k | runInLoop l k =>
      cases hf
      exact .functor k
  | release | quit | destroyServer => cases hf

/-- The functor a loop calls next comes from its queue. -/
theorem of_nextInstr {l : LoopId} {b : EventLoop.Action ThreadId Functor} {j : Instr}
    (hj : j ∈ s.nextInstr l b) (hf : j.carries = some f) : f ∈ (s.loops l).queue := by
  unfold nextInstr at hj
  split at hj
  · split at hj
    · rename_i g fs hph
      rw [List.mem_singleton.mp hj] at hf
      have hg : g = f := by
        rcases Functor.carries_instr g with e | e
        · exact Option.some.inj (e.symm.trans hf)
        · rw [e] at hf
          cases hf
      rw [EventLoop.queue, hph, hg]
      exact List.mem_append_left _ List.mem_cons_self
    · exact absurd hj List.not_mem_nil
  · exact absurd hj List.not_mem_nil

/-- A step of a loop's machine that pushes nothing leaves nothing new in its queue. -/
theorem queue_control {l : LoopId} {b : EventLoop.Action ThreadId Functor}
    {l' : EventLoop ThreadId Functor} (h : (s.loops l).step b = some l')
    (hb : isControl b = true ∨ ∃ wake, b = .pollReturn wake) :
    ∀ g ∈ l'.queue, g ∈ (s.loops l).queue := by
  intro g hg
  refine (EventLoop.mem_queue_step h hg).resolve_right ?_
  rintro ⟨t, rfl | rfl⟩ <;> rcases hb with hb | ⟨wake, hb⟩ <;> cases hb

/-- **What waits in a task queue** waited there before, or is pushed by the step. -/
theorem queue_grows (h : Step s a s') {l : LoopId} (hf : f ∈ (s'.loops l).queue) :
    f ∈ (s.loops l).queue ∨ ∃ t rest, s.stack t = .queueInLoop l f :: rest := by
  have hcon : ∀ {m : LoopId} {b : EventLoop.Action ThreadId Functor}
      {m' : EventLoop ThreadId Functor}, (s.loops m).step b = some m' →
      (isControl b = true ∨ ∃ wake, b = .pollReturn wake) →
      f ∈ (Function.update s.loops m m' l).queue → f ∈ (s.loops l).queue := by
    intro m b m' hb hb' hm
    by_cases e : l = m
    · subst e
      rw [Function.update_self] at hm
      exact queue_control hb hb' f hm
    · rw [Function.update_of_ne e] at hm
      exact hm
  cases h with
  | run t o i rest s₁ is hst he =>
      rcases exec_queue he l with hq | ⟨g, rfl, hq⟩
      · exact Or.inl (hq ▸ hf)
      · rcases List.mem_append.mp (hq ▸ hf : f ∈ (s.loops l).queue ++ [g]) with hf | hf
        · exact Or.inl hf
        · rw [List.mem_singleton.mp hf]
          exact Or.inr ⟨t, rest, hst⟩
  | user t v s₁ is hu hcall =>
      obtain ⟨held, server, rfl, _⟩ := called_same hcall
      exact Or.inl hf
  | loop m b m' hst hact hb hhl h => exact Or.inl (hcon h (Or.inl hb) hf)
  | poll m events m' hst hev hnd hhl h => exact Or.inl (hcon h (Or.inr ⟨_, rfl⟩) hf)
  | ret t arg rest hst => exact Or.inl hf
  | dispatch m ch rest hst hact => exact Or.inl hf
  | threadEnd m h0 hhl hst hp => exact Or.inl hf

/-- **What waits to be handled** waited before, or is reported by `Poll`: it is registered. -/
theorem active_grows (h : Step s a s') {l : LoopId} {ch : Chan} (hch : ch ∈ s'.active l) :
    ch ∈ s.active l ∨ (∃ events, a = .poll l events) ∧
      ∃ e, (s.pollers l (s.chans ch).fd).epoll = some e ∧ e.2 = ch := by
  have hset : ∀ {m : LoopId} {xs : List Chan}, ch ∈ Function.update s.active m xs l →
      ch ∈ s.active l ∨ l = m ∧ ch ∈ xs := by
    intro m xs hm
    by_cases e : l = m
    · subst e
      rw [Function.update_self] at hm
      exact Or.inr ⟨rfl, hm⟩
    · rw [Function.update_of_ne e] at hm
      exact Or.inl hm
  cases h with
  | run t o i rest s₁ is hst he => exact Or.inl ((exec_kept he).2.1 ▸ hch)
  | user t v s₁ is hu hcall =>
      obtain ⟨held, server, rfl, _⟩ := called_same hcall
      exact Or.inl hch
  | poll m events m' hst hev hnd hhl h =>
      refine (hset hch).imp_right fun ⟨e, hx⟩ => ?_
      subst e
      obtain ⟨e, he, rfl⟩ := List.mem_map.mp hx
      obtain ⟨r, hr⟩ := of_mayReport (hev e he)
      exact ⟨⟨events, rfl⟩, (r, e.1), hr, rfl⟩
  | dispatch m c rest hst hact =>
      rcases hset hch with hm | ⟨rfl, hm⟩
      · exact Or.inl hm
      · exact Or.inl (by rw [hact]; exact List.mem_cons_of_mem _ hm)
  | _ => exact Or.inl hch

/-- **What is under way after a step was under way before it, or is made by it.** -/
theorem inFlight_step (h : Step s a s') (hf : s'.InFlight f) : s.InFlight f ∨ Made s a f := by
  rcases hf with ⟨u, j, hj, hjf⟩ | ⟨l, hl⟩
  · rcases mem_stack_step h hj with hj | hp
    · exact Or.inl (Or.inl ⟨u, j, hj, hjf⟩)
    · cases hp with
      | exec _ o i rest hst _ hfol =>
          rcases follows_carries hfol hjf with hh | hm
          · exact Or.inl (Or.inl ⟨u, i, mem_stack hst,
              Instr.carries_of_hands hh⟩)
          · exact Or.inr (.run u o i rest f hst hm)
      | call _ v _ ha => exact Or.inr (.user u v f (asked_carries ha hjf))
      | functor l b g rest hph =>
          have hg : g = f := by
            rcases Functor.carries_instr g with e | e
            · exact Option.some.inj (e.symm.trans hjf)
            · rw [e] at hjf
              cases hjf
          refine Or.inl (Or.inr ⟨l, ?_⟩)
          rw [EventLoop.queue, hph, hg]
          exact List.mem_append_left _ List.mem_cons_self
      | event l ch hch => cases hjf
  · rcases queue_grows h hl with hl | ⟨t, rest, hst⟩
    · exact Or.inl (Or.inr ⟨l, hl⟩)
    · exact Or.inl (Or.inl ⟨t, _, mem_stack hst, rfl⟩)

/-- **What waits in a task queue stays there**, until its loop calls it. -/
theorem queue_stays (h : Step s a s') {l : LoopId} (hf : f ∈ (s.loops l).queue) :
    f ∈ (s'.loops l).queue ∨ s'.stack (.loop l) = [f.instr] := by
  cases h with
  | run t o i rest s₁ is hst he =>
      left
      show f ∈ (s₁.loops l).queue
      rcases exec_queue he l with hq | ⟨g, _, hq⟩
      · rw [hq]
        exact hf
      · rw [hq]
        exact List.mem_append_left _ hf
  | user t v s₁ is hu hcall =>
      obtain ⟨held, server, rfl, _⟩ := called_same hcall
      exact Or.inl hf
  | loop m b m' hst hact hb hhl h =>
      by_cases e : l = m
      · subst e
        show f ∈ (Function.update s.loops l m' l).queue ∨
          Function.update s.stack (.loop l) (s.nextInstr l b) (.loop l) = [f.instr]
        rw [Function.update_self, Function.update_self]
        by_cases hm : EventLoop.movesFunctor b = true
        · cases b with
          | next t =>
              obtain ⟨g, fs, hph, hq⟩ := EventLoop.queue_next h
              rw [hq] at hf
              rcases List.mem_cons.mp hf with rfl | hf
              · right
                simp only [nextInstr, hph]
              · exact Or.inl hf
          | queueInLoop | runInLoop => cases hb
          | _ => cases hm
        · rw [EventLoop.queue_step (Bool.eq_false_iff.mpr hm) h]
          exact Or.inl hf
      · left
        show f ∈ (Function.update s.loops m m' l).queue
        rw [Function.update_of_ne e]
        exact hf
  | poll m events m' hst hev hnd hhl h =>
      left
      show f ∈ (Function.update s.loops m m' l).queue
      by_cases e : l = m
      · subst e
        rw [Function.update_self, EventLoop.queue_step rfl h]
        exact hf
      · rw [Function.update_of_ne e]
        exact hf
  | _ => exact Or.inl hf

/-- **What is under way stays under way**, until it is called. -/
theorem inFlight_stays (h : Step s a s') (hf : s.InFlight f) (hu : f.instr.carries = some f) :
    s'.InFlight f ∨ ∃ t o rest, a = .run t o ∧ s.stack t = f.instr :: rest := by
  rcases hf with ⟨u, j, hj, hjf⟩ | ⟨l, hl⟩
  · rcases stack_stays h hj with hj | ⟨rest, hst, ⟨o, rfl⟩ | rfl⟩
    · exact Or.inl (Or.inl ⟨u, j, hj, hjf⟩)
    · by_cases hex : j = f.instr
      · exact Or.inr ⟨u, o, rest, rfl, hex ▸ hst⟩
      · left
        cases h with
        | run _ _ i rest' s₁ is hst' he =>
            rw [hst] at hst'
            cases hst'
            have hput : ∀ {k : Instr}, k ∈ is → k.carries = some f →
                (s₁.setStack u (is ++ rest)).InFlight f := fun hk hkf =>
              Or.inl ⟨u, _, by rw [stack_setStack_self]; exact List.mem_append_left _ hk, hkf⟩
            cases j with
            | runInLoop l g =>
                cases hjf
                cases he with
                | quiet _ _ hq =>
                    cases hq with
                    | runHere => exact hput List.mem_cons_self hu
                    | runThere => exact hput List.mem_cons_self rfl
                | loop _ _ _ _ _ hi => cases hi
            | queueInLoop l g =>
                cases hjf
                rcases exec_queue he l with hq | ⟨k, hk, hq⟩
                · cases he with
                  | quiet _ _ hq' => cases hq'
                  | loop _ l' b l'' _ hi hhl hstep =>
                      cases hi
                      have hpush := EventLoop.queue_push hstep
                      change (Function.update s.loops l l'' l).queue = _ at hq
                      rw [Function.update_self, hpush] at hq
                      exact absurd (congrArg List.length hq) (by simp)
                · cases hk
                  refine Or.inr ⟨l, ?_⟩
                  show f ∈ (s₁.loops l).queue
                  rw [hq]
                  exact List.mem_append_right _ List.mem_cons_self
            | conn c op =>
                cases hjf
                exact absurd rfl hex
            | removeConnectionInLoop c =>
                cases hjf
                exact absurd rfl hex
            | _ => cases hjf
    · cases h with
      | ret _ arg rest' hst' =>
          rw [hst] at hst'
          cases hst'
          cases hjf
  · rcases queue_stays h hl with hl | hst
    · exact Or.inl (Or.inr ⟨l, hl⟩)
    · exact Or.inl (Or.inl ⟨.loop l, f.instr, mem_stack hst, hu⟩)

/-- **A thread with something to do** goes on with that. -/
theorem stack_busy (h : Step s a s') (hst : s.stack u = i :: rest)
    (hcb : ∀ arg, i ≠ .callback arg) (hno : ∀ o, a ≠ .run u o) : s'.stack u = i :: rest := by
  have hne : ∀ {t : ThreadId} {xs : List Instr}, t ≠ u →
      Function.update s.stack t xs u = i :: rest := fun hne => by
    rw [Function.update_of_ne (Ne.symm hne), hst]
  cases h with
  | run t o j rest' s₁ is hst' he =>
      show Function.update s₁.stack t _ u = _
      rw [(exec_kept he).1]
      exact hne fun e => hno o (by rw [e])
  | user t v s₁ is hu hcall =>
      obtain ⟨held, server, rfl, _⟩ := called_same hcall
      refine hne fun e => ?_
      subst e
      unfold userCode at hu
      rw [hst] at hu
      cases i with
      | callback arg => exact hcb arg rfl
      | _ => cases hu
  | ret t arg rest' hst' =>
      refine hne fun e => ?_
      subst e
      rw [hst] at hst'
      exact hcb arg (List.cons.inj hst').1
  | loop m b m' hst' hact hb hhl h =>
      refine hne fun e => ?_
      rw [e, hst] at hst'
      cases hst'
  | poll m events m' hst' hev hnd hhl h => exact hst
  | dispatch m ch rest' hst' hact =>
      refine hne fun e => ?_
      rw [e, hst] at hst'
      cases hst'
  | threadEnd m h0 hhl hst' hp => exact hst

/-! ## In order -/

end Process

section Select

variable {β : Type}

/-- What `g` selects of the functions of `c`'s: the one the functor is. -/
def Functor.select (g : ConnOp → Option β) (c : ConnId) : Functor → Option β
  | .conn d op => if d = c then g op else none
  | _ => none

/-- The one the instruction executes. -/
def Instr.executes (g : ConnOp → Option β) (c : ConnId) : Instr → Option β
  | .conn d op => if d = c then g op else none
  | _ => none

/-- The one the instruction hands over. -/
def Instr.handsOver (g : ConnOp → Option β) (c : ConnId) : Instr → Option β
  | .runInLoop _ f => f.select g c
  | .queueInLoop _ f => f.select g c
  | _ => none

variable {g : ConnOp → Option β} {c : ConnId}

@[simp] theorem Instr.executes_self (op : ConnOp) : (Instr.conn c op).executes g c = g op :=
  if_pos rfl

@[simp] theorem Functor.select_self (op : ConnOp) : (Functor.conn c op).select g c = g op :=
  if_pos rfl

theorem Functor.executes_instr (f : Functor) : f.instr.executes g c = f.select g c := by
  cases f <;> rfl

theorem Functor.handsOver_instr (f : Functor) : f.instr.handsOver g c = none := by
  cases f <;> rfl

theorem Functor.executes_releases (f : Functor) :
    f.releases.filterMap (Instr.executes g c) = [] := by
  unfold releases
  split <;> rfl

theorem Functor.handsOver_releases (f : Functor) :
    f.releases.filterMap (Instr.handsOver g c) = [] := by
  unfold releases
  split <;> rfl

theorem Functor.of_select {f : Functor} {x : β} (h : f.select g c = some x) :
    ∃ op, f = .conn c op ∧ g op = some x := by
  cases f with
  | conn d op =>
      obtain ⟨e, hx⟩ := Option.ite_none_right_eq_some.mp h
      exact ⟨op, by rw [e], hx⟩
  | _ => cases h

theorem Instr.of_executes {i : Instr} {x : β} (h : i.executes g c = some x) :
    ∃ op, i = .conn c op ∧ g op = some x := by
  cases i with
  | conn d op =>
      obtain ⟨e, hx⟩ := Option.ite_none_right_eq_some.mp h
      exact ⟨op, by rw [e], hx⟩
  | _ => cases h

theorem Instr.of_handsOver {i : Instr} {x : β} (h : i.handsOver g c = some x) :
    ∃ op, i.hands (.conn c op) ∧ g op = some x := by
  cases i with
  | runInLoop l f =>
      obtain ⟨op, rfl, hx⟩ := Functor.of_select h
      exact ⟨op, rfl, hx⟩
  | queueInLoop l f =>
      obtain ⟨op, rfl, hx⟩ := Functor.of_select h
      exact ⟨op, rfl, hx⟩
  | _ => cases h

end Select

namespace Process

variable {s s' s₁ : Process} {a : Label} {c : ConnId} {t u : ThreadId} {o : Outcome} {i : Instr}
  {is rest : List Instr} {f : Functor}

/-! ### The trail -/

section Own

variable {β : Type} {g : ConnOp → Option β}

/-- `g` selects functions that only a function of the connection's own can leave loop `l`'s thread
    to execute: those that are never handed over. -/
def SelectsOwn (g : ConnOp → Option β) (l : LoopId) : Prop :=
  ∀ op x, g op = some x → op.inner = true ∨ ∃ msg, op = .sendInLoop (.loop l) msg

theorem filterMap_executes_nil {xs : List Instr}
    (h : ∀ op x, Instr.conn c op ∈ xs → g op ≠ some x) :
    xs.filterMap (Instr.executes g c) = [] := by
  refine List.filterMap_eq_nil_iff.mpr fun i hi => ?_
  refine Option.eq_none_iff_forall_ne_some.mpr fun x hx => ?_
  obtain ⟨op, rfl, hop⟩ := Instr.of_executes hx
  exact h op x hi hop

theorem filterMap_handsOver_nil {xs : List Instr}
    (h : ∀ i ∈ xs, ∀ op x, i.hands (.conn c op) → g op ≠ some x) :
    xs.filterMap (Instr.handsOver g c) = [] := by
  refine List.filterMap_eq_nil_iff.mpr fun i hi => ?_
  refine Option.eq_none_iff_forall_ne_some.mpr fun x hx => ?_
  obtain ⟨op, hh, hop⟩ := Instr.of_handsOver hx
  exact h i hi op x hh hop

theorem filterMap_select_nil {fs : List Functor}
    (h : ∀ op x, Functor.conn c op ∈ fs → g op ≠ some x) :
    fs.filterMap (Functor.select g c) = [] := by
  refine List.filterMap_eq_nil_iff.mpr fun f hf => ?_
  refine Option.eq_none_iff_forall_ne_some.mpr fun x hx => ?_
  obtain ⟨op, rfl, hop⟩ := Functor.of_select hx
  exact h op x hf hop

/-- What a connection's step carries is the connection's. -/
theorem of_produced_carries {d : ConnId} {op op' : ConnOp} {k : Ctx} {own : Bool} {j : Instr}
    (h : Ctx.Produced k d t own op j) (hj : j.carries = some (.conn c op')) : c = d := by
  cases h <;> cases hj <;> rfl

/-- A functor is no function of the connection's own. -/
theorem inner_of_isFunctor {op : ConnOp} (h : op.isFunctor = true) : op.inner = false := by
  cases op <;> first | rfl | cases h

theorem inner_of_isHandler {op : ConnOp} (h : op.isHandler = true) : op.inner = false := by
  cases op <;> first | rfl | cases h

theorem isFunctor_of_isHandler {op : ConnOp} (h : op.isHandler = true) : op.isFunctor = false := by
  cases op <;> first | rfl | cases h

/-- They come from functions of `c`'s. -/
theorem makes_own (hg : SelectsOwn g (s.conns c).loop) {op : ConnOp} {x : β} (hx : g op = some x)
    (h : Makes s t i (.conn c op)) : ∃ op', i = .conn c op' := by
  have hop := hg op x hx
  cases h with
  | conn d op' j _ hj hf =>
      obtain rfl := of_produced_carries hj hf
      exact ⟨op', rfl⟩
  | handler _ _ hh =>
      rcases hop with hop | ⟨msg, rfl⟩
      · rw [inner_of_isHandler hh] at hop
        cases hop
      · cases hh
  | create => rcases hop with hop | ⟨msg, e⟩ <;> [cases hop; cases e]
  | remove => rcases hop with hop | ⟨msg, e⟩ <;> [cases hop; cases e]
  | entry => rcases hop with hop | ⟨msg, e⟩ <;> [cases hop; cases e]

/-- They are not handed over. -/
theorem not_functorHome_own (hg : SelectsOwn g (s.conns c).loop) {op : ConnOp} {x : β}
    (hx : g op = some x) {l : LoopId} : ¬ s.functorHome l (.conn c op) := by
  rintro ⟨_, hl, hfun, hno⟩
  rcases hg op x hx with hop | ⟨msg, rfl⟩
  · rw [inner_of_isFunctor hfun] at hop
    cases hop
  · rw [hl] at hno
    exact hno msg rfl

/-- An instruction that is not `c`'s leaves none of them to do. -/
theorem exec_own (hg : SelectsOwn g (s.conns c).loop) (hi : s.instrHome t i)
    (hne : ∀ op, i ≠ .conn c op) (h : Exec s t o i s₁ is) :
    is.filterMap (Instr.executes g c) = [] := by
  refine filterMap_executes_nil fun op x hj hx => ?_
  rcases follows_carries (exec_follows h _ hj) rfl with hh | hm
  · cases i with
    | runInLoop l f => exact not_functorHome_own hg hx (hh ▸ hi.1 : s.functorHome l (.conn c op))
    | queueInLoop l f => exact not_functorHome_own hg hx (hh ▸ hi.1 : s.functorHome l (.conn c op))
    | _ => exact hh.elim
  · obtain ⟨op', e⟩ := makes_own hg hx hm
    exact hne op' e

/-- A stack is put in place of another that has, of what `p` selects, the same. -/
theorem filterMap_setStack {γ : Type} {p : Instr → Option γ} {xs : List Instr}
    (hk : s₁.stack = s.stack) (hxs : xs.filterMap p = (s.stack t).filterMap p) (u : ThreadId) :
    ((s₁.setStack t xs).stack u).filterMap p = (s.stack u).filterMap p := by
  by_cases e : u = t
  · subst e
    rw [stack_setStack_self, hxs]
  · rw [stack_setStack_of_ne _ _ e, hk]

/-- **A step that executes no function of `c`'s** leaves them where they are. -/
theorem stack_other (hw : Wf s) (hg : SelectsOwn g (s.conns c).loop) (h : Step s a s')
    (hno : ∀ t o op rest, a = .run t o → s.stack t ≠ .conn c op :: rest) (u : ThreadId) :
    (s'.stack u).filterMap (Instr.executes g c) = (s.stack u).filterMap (Instr.executes g c) := by
  cases h with
  | run t o i rest s₁ is hst he =>
      have hi : s.instrHome t i := hw.stack t i (mem_stack hst)
      have hne : ∀ op, i ≠ .conn c op := fun op e => hno t o op rest rfl (e ▸ hst)
      refine filterMap_setStack (exec_kept he).1 ?_ u
      rw [hst, List.filterMap_append, exec_own hg hi hne he, List.nil_append]
      refine (List.filterMap_cons_none ?_).symm
      refine Option.eq_none_iff_forall_ne_some.mpr fun x hx => ?_
      obtain ⟨op, e, _⟩ := Instr.of_executes hx
      exact hne op e
  | user t v s₁ is hu hc =>
      obtain ⟨held, server, rfl, _⟩ := called_same hc
      refine filterMap_setStack rfl ?_ u
      rw [List.filterMap_append, filterMap_executes_nil fun op x hj hx => ?_, List.nil_append]
      have hm := asked_carries (called_asked hc _ hj) rfl
      rcases hg op x hx with hop | ⟨msg, rfl⟩
      · cases hm <;> cases hop
      · cases hm
  | ret t arg rest hst =>
      refine filterMap_setStack rfl ?_ u
      rw [hst]
      rfl
  | loop l b l' hst hact hb hl h =>
      refine filterMap_setStack rfl ?_ u
      rw [hst, filterMap_executes_nil fun op x hj hx => ?_]
      · rfl
      · exact not_functorHome_own hg hx (hw.queue l _ (of_nextInstr hj rfl))
  | poll l events l' hst hev hnd hl h => rfl
  | dispatch l ch rest hst hact =>
      refine filterMap_setStack rfl ?_ u
      rw [hst]
      rfl
  | threadEnd l h0 hl hst hp => rfl

end Own

/-- The function, if it is one of the connection's own. -/
def innerOp (op : ConnOp) : Option ConnOp := if op.inner then some op else none

/-- The function, if it is one of `c`'s own. -/
def innerOf (c : ConnId) : Instr → Option ConnOp := Instr.executes innerOp c

@[simp] theorem innerOf_self (op : ConnOp) : innerOf c (.conn c op) = innerOp op := if_pos rfl

/-- **What `c` has given its loop's thread to do**, the next first. -/
def trail (s : Process) (c : ConnId) : List ConnOp :=
  (s.stack (.loop (s.conns c).loop)).filterMap (innerOf c)

theorem selectsOwn_innerOp {l : LoopId} : SelectsOwn innerOp l := by
  intro op x h
  obtain ⟨hop, _⟩ := Option.ite_none_right_eq_some.mp h
  exact Or.inl hop

theorem mem_filterMap_innerOf {xs : List Instr} {op : ConnOp} (h : op ∈ xs.filterMap (innerOf c)) :
    Instr.conn c op ∈ xs ∧ op.inner = true := by
  obtain ⟨i, hi, h⟩ := List.mem_filterMap.mp h
  obtain ⟨op', rfl, hx⟩ := Instr.of_executes h
  obtain ⟨hop, e⟩ := Option.ite_none_right_eq_some.mp hx
  cases e
  exact ⟨hi, hop⟩

/-- What `op` leaves of `c`'s own to do, where it found `state`; `HandleWrite` may also leave
    `shutdownIfDisconnecting`. -/
def leaves (state : StateE) : ConnOp → List ConnOp
  | .connectEstablished | .destroySetState => [.connectionCallback]
  | .connectDestroyed =>
    if state = .kConnected then [.destroySetState, .channelRemove] else [.channelRemove]
  | .handleClose => [.connectionCallback, .closeCallback]
  | .shutdown => if state = .kConnected then [.shutdownSetState] else []
  | _ => []

theorem leadsTo_of_mem_leaves {state : StateE} {op op' : ConnOp} (h : op' ∈ leaves state op) :
    ConnOp.leadsTo state op op' = true := by
  cases op with
  | connectDestroyed =>
      simp only [leaves] at h
      split at h
      · rename_i hs
        rcases List.mem_cons.mp h with rfl | h
        · exact beq_iff_eq.mpr hs
        · rw [List.mem_singleton.mp h]
          rfl
      · rw [List.mem_singleton.mp h]
        rfl
  | shutdown =>
      simp only [leaves] at h
      split at h
      · rename_i hs
        rw [List.mem_singleton.mp h]
        exact beq_iff_eq.mpr hs
      · exact absurd h List.not_mem_nil
  | handleClose =>
      simp only [leaves] at h
      rcases List.mem_cons.mp h with rfl | h
      · rfl
      · rw [List.mem_singleton.mp h]
        rfl
  | connectEstablished =>
      simp only [leaves] at h
      rw [List.mem_singleton.mp h]
      rfl
  | destroySetState =>
      simp only [leaves] at h
      rw [List.mem_singleton.mp h]
      rfl
  | _ =>
      simp only [leaves] at h
      exact absurd h List.not_mem_nil

theorem innerOf_appendOutput {k k' : Ctx} {remaining : List UInt8}
    (h : k.appendOutput c remaining = some (k', is)) : is.filterMap (innerOf c) = [] := by
  obtain ⟨_, _, rfl | ⟨size, rfl⟩⟩ := Ctx.of_appendOutput h <;> rfl

theorem innerOf_queueWriteComplete {k : Ctx} :
    (k.queueWriteComplete c).filterMap (innerOf c) = [] := by
  unfold Ctx.queueWriteComplete
  split <;> rfl

/-- **What a step on connection `c` leaves of `c`'s own to do.** -/
theorem exec_leaves {k k' : Ctx} {own : Bool} {op : ConnOp}
    (h : k.exec c t own op o = some (k', is)) :
    is.filterMap (innerOf c) = leaves k.conn.state op ∨
      op = .handleWrite ∧ is.filterMap (innerOf c) = [.shutdownIfDisconnecting] := by
  have hself : ∀ op, op.inner = true → innerOf c (.conn c op) = some op := by
    intro op hop
    rw [innerOf_self, innerOp, if_pos hop]
  have hnot : ∀ op, op.inner = false → innerOf c (.conn c op) = none := by
    intro op hop
    rw [innerOf_self, innerOp, hop]
    rfl
  cases op with
  | sendInLoop u msg =>
      left
      cases o with
      | write r =>
          cases Ctx.of_sendInLoop h with
          | complete => exact innerOf_queueWriteComplete
          | rest _ _ _ _ _ _ _ h => exact innerOf_appendOutput h
          | buffered _ _ _ _ _ h => exact innerOf_appendOutput h
          | _ => rfl
      | _ => cases h
  | handleWrite =>
      cases o with
      | write r =>
          cases Ctx.of_handleWrite h with
          | drained =>
              refine Or.inr ⟨rfl, ?_⟩
              rw [List.filterMap_append, innerOf_queueWriteComplete, List.filterMap_cons,
                hself _ rfl]
              rfl
          | _ => exact Or.inl rfl
      | _ => cases h
  | handleRead =>
      left
      cases o with
      | read r =>
          cases Ctx.of_handleRead h with
          | message => rfl
          | _ =>
              rw [List.filterMap_cons, hnot _ rfl]
              rfl
      | _ => cases h
  | connectEstablished | destroySetState =>
      left
      obtain ⟨p, _, e⟩ := Option.map_eq_some_iff.mp h
      cases e
      rw [List.filterMap_cons, hself _ rfl]
      rfl
  | handleClose =>
      left
      obtain ⟨p, _, e⟩ := Option.map_eq_some_iff.mp h
      cases e
      rw [List.filterMap_cons, hself _ rfl, List.filterMap_cons, hself _ rfl]
      rfl
  | channelRemove | closeCallback =>
      left
      obtain ⟨p, _, e⟩ := Option.map_eq_some_iff.mp h
      cases e
      rfl
  | connectDestroyed =>
      left
      cases h
      unfold leaves
      split
      · rw [List.filterMap_cons, hself _ rfl, List.filterMap_cons, hself _ rfl]
        rfl
      · rw [List.filterMap_cons, hself _ rfl]
        rfl
  | shutdown =>
      left
      cases h
      unfold leaves
      split
      · rw [List.filterMap_cons, hself _ rfl]
        rfl
      · rfl
  | send msg =>
      left
      simp only [Ctx.exec, Ctx.send] at h
      split at h
      · cases h
        cases own
        · rfl
        · exact List.filterMap_cons_none (hnot _ rfl)
      · cases h
        rfl
  | shutdownIfDisconnecting =>
      left
      cases h
      split
      · exact List.filterMap_cons_none (hnot _ rfl)
      · rfl
  | writeComplete | highWaterMark _ =>
      left
      obtain ⟨rfl, rfl⟩ := Ctx.of_userCallback h
      rfl
  | _ =>
      left
      cases h
      rfl

/-! ### What one thread has handed over -/

section Flight

variable {β : Type} {g : ConnOp → Option β} {l : LoopId}

/-- **What `g` selects of what thread `t` has given `c`'s loop `l` to run**, the oldest first: the
    functor that runs, those that wait, the one that is being handed over. -/
def flight (s : Process) (g : ConnOp → Option β) (c : ConnId) (l : LoopId) (t : ThreadId) :
    List β :=
  (s.stack (.loop l)).filterMap (Instr.executes g c) ++
    (s.loops l).queue.filterMap (Functor.select g c) ++
    (s.stack t).filterMap (Instr.handsOver g c)

/-- `g` selects functors that only thread `t` hands over. -/
def SelectsOf (g : ConnOp → Option β) (t : ThreadId) : Prop :=
  ∀ op x, g op = some x → ∀ c u, functorFrom u (.conn c op) → u = t

theorem of_selectsOf (hg : SelectsOf g t) {op : ConnOp} {x : β} (h : g op = some x) :
    op = .connectEstablished ∨ op = .connectDestroyed ∨ ∃ msg, op = .sendInLoop t msg := by
  -- what any thread may hand over is not selected
  have hno : (∀ u c, functorFrom u (.conn c op)) → False := by
    intro hu
    have h₁ := hg op x h 0 (.loop 0) (hu _ _)
    have h₂ := hg op x h 0 (.loop 1) (hu _ _)
    cases h₁.trans h₂.symm
  cases op with
  | connectEstablished => exact Or.inl rfl
  | connectDestroyed => exact Or.inr (Or.inl rfl)
  | sendInLoop u msg => exact Or.inr (Or.inr ⟨msg, by rw [hg _ x h 0 u rfl]⟩)
  | _ => exact (hno fun _ _ => trivial).elim

theorem ne_some_of_isFunctor (hg : SelectsOf g t) {op : ConnOp} (h : op.isFunctor = false)
    (x : β) : g op ≠ some x := by
  intro hx
  rcases of_selectsOf hg hx with rfl | rfl | ⟨msg, rfl⟩ <;> cases h

/-- What may wait below other instructions hands nothing over. -/
theorem not_hands_of_settled {j : Instr} (h : j.settled = true) : ¬ j.hands f := by
  intro hh
  cases j <;> first | exact hh | cases h

theorem filterMap_handsOver_settled {xs : List Instr} (h : ∀ i ∈ xs, i.settled = true) :
    xs.filterMap (Instr.handsOver g c) = [] :=
  filterMap_handsOver_nil fun i hi _ _ hh => absurd hh (not_hands_of_settled (h i hi))

/-- What a function of `c`'s leaves its own thread to execute is not selected. -/
theorem produced_executes {op : ConnOp} {k : Ctx} {own : Bool} (hg : SelectsOf g t)
    (hown : own = true → u ≠ t) (hpr : ∀ j ∈ is, Ctx.Produced k c u own op j) :
    is.filterMap (Instr.executes g c) = [] := by
  refine filterMap_executes_nil fun op' x hj hx => ?_
  cases hpr _ hj with
  | sendHere msg _ ho => exact hown ho (hg _ _ hx c u rfl)
  | conn _ hop _ =>
      rcases of_selectsOf hg hx with rfl | rfl | ⟨msg, rfl⟩ <;> cases op <;> cases hop

/-- What a function of `c`'s hands over on another thread than `t` is not selected. -/
theorem produced_handsOver {op : ConnOp} {k : Ctx} {own : Bool} (hg : SelectsOf g t) (hu : u ≠ t)
    (hpr : ∀ j ∈ is, Ctx.Produced k c u own op j) : is.filterMap (Instr.handsOver g c) = [] := by
  refine filterMap_handsOver_nil fun j hj op' x hh hx => ?_
  have hsel := of_selectsOf hg hx
  cases hpr j hj with
  | sendInLoop msg =>
      cases hh
      exact hu (hg _ _ hx c u rfl)
  | writeComplete =>
      cases hh
      rcases hsel with e | e | ⟨msg, e⟩ <;> cases e
  | highWaterMark size =>
      cases hh
      rcases hsel with e | e | ⟨msg, e⟩ <;> cases e
  | shutdownInLoop =>
      cases hh
      rcases hsel with e | e | ⟨msg, e⟩ <;> cases e
  | _ => exact hh

/-- **A function of `c`'s is executed**: if it is selected, it was the oldest; what it hands over
    is now the youngest. -/
theorem flight_run (hw : Wf s) (hl : (s.conns c).loop = l) (ht : t ≠ .loop l)
    (hg : SelectsOf g t) {op : ConnOp} {k : Ctx} (hst : s.stack u = .conn c op :: rest)
    (he : (s.ctx c).exec c u (s.isInLoopThread l u) op o = some (k, is))
    (hst' : s'.stack = Function.update s.stack u (is ++ rest)) (hloops : s'.loops = s.loops) :
    ∃ F, s.flight g c l t = (g op).toList ++ F ∧
      s'.flight g c l t = F ++ is.filterMap (Instr.handsOver g c) := by
  have hi : op.anyThread = true ∨ u = .loop (s.conns c).loop :=
    (hw.stack u (.conn c op) (mem_stack hst)).2
  have hset := hw.settled_rest hst
  have hpr := Ctx.exec_produced he
  unfold flight
  rw [hst', hloops]
  by_cases hul : u = .loop l
  · subst hul
    -- the loop's own thread: it executes, and hands over nothing of `t`'s
    refine ⟨rest.filterMap (Instr.executes g c) ++
      (s.loops l).queue.filterMap (Functor.select g c) ++
      (s.stack t).filterMap (Instr.handsOver g c), ?_, ?_⟩
    · rw [hst, List.filterMap_cons, Instr.executes_self]
      cases g op <;> simp
    · rw [Function.update_self, Function.update_of_ne ht, List.filterMap_append,
        produced_executes hg (fun _ => Ne.symm ht) hpr, produced_handsOver hg (Ne.symm ht) hpr]
      simp
  · have hop : g op = none := by
      refine Option.eq_none_iff_forall_ne_some.mpr (ne_some_of_isFunctor hg ?_)
      rw [hl] at hi
      have hany := hi.resolve_right hul
      cases op <;> first | rfl | cases hany
    rw [Function.update_of_ne (Ne.symm hul), hop]
    by_cases hut : u = t
    · subst hut
      refine ⟨(s.stack (.loop l)).filterMap (Instr.executes g c) ++
        (s.loops l).queue.filterMap (Functor.select g c), ?_, ?_⟩
      · rw [hst, List.filterMap_cons]
        simp [Instr.handsOver, filterMap_handsOver_settled hset]
      · rw [Function.update_self, List.filterMap_append, filterMap_handsOver_settled hset]
        simp
    · refine ⟨_, (List.nil_append _).symm, ?_⟩
      rw [Function.update_of_ne (Ne.symm hut), produced_handsOver hg hut hpr, List.append_nil]

/-- Where neither the two stacks nor the queue change, in what is selected of them. -/
theorem flight_congr
    (hl : (s'.stack (.loop l)).filterMap (Instr.executes g c) =
      (s.stack (.loop l)).filterMap (Instr.executes g c))
    (hq : (s'.loops l).queue.filterMap (Functor.select g c) =
      (s.loops l).queue.filterMap (Functor.select g c))
    (ht : (s'.stack t).filterMap (Instr.handsOver g c) =
      (s.stack t).filterMap (Instr.handsOver g c)) :
    s'.flight g c l t = s.flight g c l t := by
  unfold flight
  rw [hl, hq, ht]

/-- An instruction that leaves to do, of what is selected, what it is itself. -/
theorem flight_keep (hst : s.stack u = i :: rest) (hk : s₁.stack = s.stack)
    (hq : (s₁.loops l).queue.filterMap (Functor.select g c) =
      (s.loops l).queue.filterMap (Functor.select g c))
    (h₁ : is.filterMap (Instr.executes g c) = (i.executes g c).toList)
    (h₂ : is.filterMap (Instr.handsOver g c) = (i.handsOver g c).toList) :
    (s₁.setStack u (is ++ rest)).flight g c l t = s.flight g c l t := by
  have hset : ∀ {γ : Type} (p : Instr → Option γ), is.filterMap p = (p i).toList →
      (is ++ rest).filterMap p = (s.stack u).filterMap p := by
    intro γ p hp
    rw [hst, List.filterMap_append, hp, List.filterMap_cons]
    cases p i <;> rfl
  exact flight_congr (filterMap_setStack hk (hset _ h₁) _) hq (filterMap_setStack hk (hset _ h₂) _)

/-- `ConnectDestroyed` of `c` is handed over. -/
theorem flight_destroy (hst : s.stack u = i :: rest) (hk : s₁.stack = s.stack)
    (hloops : s₁.loops = s.loops) (hset : ∀ j ∈ rest, j.settled = true) (ht : t ≠ .loop l)
    (hg : SelectsOf g t) (hu : u = .loop 0)
    (hi : i.handsOver g c = none) (hi' : i.executes g c = none)
    (h₁ : is.filterMap (Instr.executes g c) = [])
    (h₂ : is.filterMap (Instr.handsOver g c) = (g .connectDestroyed).toList) :
    (s₁.setStack u (is ++ rest)).flight g c l t = s.flight g c l t ∨
      ∃ x, g .connectDestroyed = some x ∧
        (s₁.setStack u (is ++ rest)).flight g c l t = s.flight g c l t ++ [x] := by
  cases hx : g .connectDestroyed with
  | none =>
      rw [hx] at h₂
      exact Or.inl (flight_keep hst hk (by rw [hloops]) (by rw [h₁, hi']; rfl) (by rw [h₂, hi]))
  | some x =>
      rw [hx] at h₂
      have hut : u = t := hg _ x hx c u hu
      subst hut
      refine Or.inr ⟨x, rfl, ?_⟩
      show (Function.update s₁.stack u (is ++ rest) (.loop l)).filterMap _ ++
        (s₁.loops l).queue.filterMap _ ++
        (Function.update s₁.stack u (is ++ rest) u).filterMap _ = _
      rw [Function.update_of_ne (Ne.symm ht), Function.update_self, List.filterMap_append, h₂,
        filterMap_handsOver_settled hset, hk, hloops]
      unfold flight
      rw [hst, List.filterMap_cons_none hi, filterMap_handsOver_settled hset]
      simp

/-- A functor that is selected is put into its loop's queue. -/
theorem flight_push {l' : EventLoop ThreadId Functor} {x : β} (ht : t ≠ .loop l)
    (hset : ∀ j ∈ rest, j.settled = true) (hst : s.stack t = .queueInLoop l f :: rest)
    (hx : f.select g c = some x) (h : (s.loops l).step (.queueInLoop t f) = some l') :
    Process.flight ({ s with loops := Function.update s.loops l l' }.setStack t
      ([Instr.queueWake l] ++ rest)) g c l t = s.flight g c l t := by
  show (Function.update s.stack t _ (.loop l)).filterMap _ ++
    (Function.update s.loops l l' l).queue.filterMap _ ++
    (Function.update s.stack t _ t).filterMap _ = _
  rw [Function.update_of_ne (Ne.symm ht), Function.update_self, Function.update_self,
    EventLoop.queue_push h]
  unfold flight
  rw [hst]
  simp only [List.filterMap_append, List.filterMap_cons, List.filterMap_nil, hx,
    Instr.handsOver, filterMap_handsOver_settled hset]
  simp

/-- An instruction that is a step of a loop's machine. -/
theorem flight_loopInstr {m : LoopId} {b : EventLoop.Action ThreadId Functor}
    {m' : EventLoop ThreadId Functor} (hw : Wf s) (hl : (s.conns c).loop = l) (ht : t ≠ .loop l)
    (hg : SelectsOf g t) (hst : s.stack u = i :: rest) (hil : LoopInstr u i m b is)
    (h : (s.loops m).step b = some m')
    (hq : ∀ n, (Function.update s.loops m m' n).queue = (s.loops n).queue ∨
      ∃ f, i = .queueInLoop n f ∧
        (Function.update s.loops m m' n).queue = (s.loops n).queue ++ [f]) :
    Process.flight ({ s with loops := Function.update s.loops m m' }.setStack u (is ++ rest))
      g c l t = s.flight g c l t := by
  have hi := hw.stack u i (mem_stack hst)
  have hset := hw.settled_rest hst
  by_cases hsel : ∃ f x, i = .queueInLoop m f ∧ f.select g c = some x
  · obtain ⟨f, x, rfl, hx⟩ := hsel
    obtain ⟨op, rfl, hop⟩ := Functor.of_select hx
    have hut : u = t := hg op x hop c u hi.2
    subst hut
    cases hil with
    | queueInLoop m f =>
        have hml : m = l := hi.1.2.1.symm.trans hl
        subst hml
        exact flight_push ht hset hst hx h
  · have hno : ∀ f, i = .queueInLoop m f → f.select g c = none := fun f e =>
      Option.eq_none_iff_forall_ne_some.mpr fun x hx => hsel ⟨f, x, e, hx⟩
    refine flight_keep hst rfl ?_ ?_ ?_
    · rcases hq l with e | ⟨f, rfl, e⟩
      · exact congrArg _ e
      · cases hil
        refine (congrArg _ e).trans ?_
        rw [List.filterMap_append, List.filterMap_cons_none (hno f rfl), List.filterMap_nil,
          List.append_nil]
    · cases hil <;> rfl
    · cases hil with
      | queueInLoop m f => exact (congrArg Option.toList (hno f rfl)).symm
      | _ => rfl

/-- **Any other instruction** moves what is selected on, in order; `ConnectDestroyed` may come. -/
theorem flight_exec (hw : Wf s) (hc : c < s.created) (hl : (s.conns c).loop = l)
    (ht : t ≠ .loop l) (hg : SelectsOf g t) (hst : s.stack u = i :: rest)
    (hne : ∀ op, i ≠ .conn c op) (h : Exec s u o i s₁ is) :
    (s₁.setStack u (is ++ rest)).flight g c l t = s.flight g c l t ∨
      ∃ x, g .connectDestroyed = some x ∧
        (s₁.setStack u (is ++ rest)).flight g c l t = s.flight g c l t ++ [x] := by
  have hi := hw.stack u i (mem_stack hst)
  have hset := hw.settled_rest hst
  have hfol := exec_follows h
  have hq := exec_queue h
  cases h with
  | conn d op k is h =>
      have hd : d ≠ c := fun e => hne op (by rw [e])
      have hpr := Ctx.exec_produced h
      refine Or.inl (flight_keep hst rfl rfl ?_ ?_)
      · rw [show (Instr.conn d op).executes g c = none from if_neg hd]
        refine filterMap_executes_nil fun op' x hj _ => ?_
        exact hd (of_produced_carries (hpr _ hj) rfl).symm
      · refine filterMap_handsOver_nil fun j hj op' x hh _ => ?_
        exact hd (of_produced_carries (hpr j hj) (Instr.carries_of_hands hh)).symm
  | quiet i is h =>
      cases h with
      | handlers d =>
          refine Or.inl (flight_keep hst rfl rfl ?_ ?_)
          · refine filterMap_executes_nil fun op x hj hx => ?_
            cases hfol _ hj with
            | handler _ _ hop => exact ne_some_of_isFunctor hg (isFunctor_of_isHandler hop) x hx
          · refine filterMap_handsOver_nil fun j hj op x hh _ => ?_
            cases hfol j hj
            exact hh
      | runHere m f hown =>
          have hsel : f.select g c = none := by
            refine Option.eq_none_iff_forall_ne_some.mpr fun x hx => ?_
            obtain ⟨op, rfl, hop⟩ := Functor.of_select hx
            -- `t` hands over to `c`'s loop, and is not its thread
            have h₁ := hg op x hop c u hi.2
            have h₂ := (isInLoopThread_iff (hw.threadId m)).mp hown
            rw [← hi.1.2.1, hl] at h₂
            exact ht (h₁.symm.trans h₂)
          refine Or.inl (flight_keep hst rfl rfl ?_ ?_)
          · rw [List.filterMap_cons_none ((Functor.executes_instr f).trans hsel),
              Functor.executes_releases]
            rfl
          · rw [List.filterMap_cons_none (Functor.handsOver_instr f), Functor.handsOver_releases]
            exact (congrArg Option.toList hsel).symm
      | _ => exact Or.inl (flight_keep hst rfl rfl rfl rfl)
  | loop i m b m' is hil hhl h => exact Or.inl (flight_loopInstr hw hl ht hg hst hil h hq)
  | create fd =>
      refine Or.inl (flight_keep hst rfl rfl rfl (filterMap_handsOver_nil fun j hj op x hh _ => ?_))
      rcases List.mem_cons.mp hj with rfl | hj
      · exact Nat.ne_of_gt hc (Functor.conn.inj hh).1
      · rw [List.mem_singleton.mp hj] at hh
        exact hh
  | remove d hlife =>
      by_cases hd : d = c
      · subst hd
        refine flight_destroy hst rfl rfl hset ht hg hi.2 rfl rfl rfl ?_
        simp only [List.filterMap_cons, Instr.handsOver, Functor.select_self, List.filterMap_nil]
        cases g .connectDestroyed <;> rfl
      · refine Or.inl (flight_keep hst rfl rfl rfl ?_)
        exact List.filterMap_cons_none (if_neg hd)
  | entry d ho he =>
      by_cases hd : d = c
      · subst hd
        refine flight_destroy hst rfl rfl hset ht hg hi rfl rfl rfl ?_
        simp only [List.filterMap_cons, Instr.handsOver, Functor.select_self, List.filterMap_nil]
        cases g .connectDestroyed <;> rfl
      · refine Or.inl (flight_keep hst rfl rfl rfl ?_)
        exact List.filterMap_cons_none (if_neg hd)
  | lastEntry =>
      refine Or.inl (flight_keep hst rfl rfl ?_ ?_)
      · refine filterMap_executes_nil fun op x hj _ => ?_
        cases hfol _ hj
      · refine filterMap_handsOver_nil fun j hj op x hh _ => ?_
        rcases List.mem_append.mp hj with hj | hj
        · obtain ⟨n, _, rfl⟩ := List.mem_map.mp hj
          exact hh
        · rw [List.mem_singleton.mp hj] at hh
          exact hh
  | destroyAcceptor p q hp hq => exact Or.inl (flight_keep hst rfl rfl rfl rfl)

/-- A loop goes on; it may call the functor that waits first. -/
theorem flight_control {m : LoopId} {b : EventLoop.Action ThreadId Functor}
    {m' : EventLoop ThreadId Functor} (hst : s.stack (.loop m) = []) (hb : isControl b = true)
    (h : (s.loops m).step b = some m') :
    Process.flight ({ s with loops := Function.update s.loops m m' }.setStack (.loop m)
      (s.nextInstr m b)) g c l t = s.flight g c l t := by
  have hnext : (s.nextInstr m b).filterMap (Instr.handsOver g c) = [] := by
    unfold nextInstr
    split
    · split
      · rw [List.filterMap_cons_none (Functor.handsOver_instr _)]
        rfl
      · rfl
    · rfl
  have hT : (Function.update s.stack (.loop m) (s.nextInstr m b) t).filterMap
      (Instr.handsOver g c) = (s.stack t).filterMap (Instr.handsOver g c) := by
    refine filterMap_setStack rfl ?_ t
    rw [hst, hnext]
    rfl
  show (Function.update s.stack (.loop m) (s.nextInstr m b) (.loop l)).filterMap _ ++
    (Function.update s.loops m m' l).queue.filterMap _ ++
    (Function.update s.stack (.loop m) (s.nextInstr m b) t).filterMap _ = _
  rw [hT]
  unfold flight
  congr 1
  by_cases e : m = l
  · subst e
    rw [Function.update_self, Function.update_self, hst]
    cases b with
    | next v =>
        obtain ⟨f, fs, hph, hq⟩ := EventLoop.queue_next h
        have hn : s.nextInstr m (.next v) = [f.instr] := by
          simp only [nextInstr, hph]
        rw [hn, hq, List.filterMap_cons, Functor.executes_instr, List.filterMap_cons]
        cases f.select g c <;> rfl
    | queueInLoop v f => cases hb
    | runInLoop v f => cases hb
    | _ =>
        rw [EventLoop.queue_step rfl h]
        rfl
  · rw [Function.update_of_ne (fun e' => e (ThreadId.loop.inj e').symm),
      Function.update_of_ne (Ne.symm e)]

/-- **Any other step** moves what is selected on, in order; `ConnectDestroyed` may come. -/
theorem flight_other (hw : Wf s) (hc : c < s.created) (hl : (s.conns c).loop = l)
    (ht : t ≠ .loop l) (hg : SelectsOf g t) (h : Step s a s')
    (hno : ∀ t o op rest, a = .run t o → s.stack t ≠ .conn c op :: rest) :
    s'.flight g c l t = s.flight g c l t ∨
      ∃ x, g .connectDestroyed = some x ∧ s'.flight g c l t = s.flight g c l t ++ [x] := by
  cases h with
  | run u o i rest s₁ is hst he =>
      exact flight_exec hw hc hl ht hg hst (fun op e => hno u o op rest rfl (e ▸ hst)) he
  | user u v s₁ is hu hcall =>
      have hcar : ∀ j ∈ is, ∀ op x, j.carries = some (.conn c op) → g op ≠ some x := by
        intro j hj op x hf
        refine ne_some_of_isFunctor hg ?_ x
        have := asked_carries (called_asked hcall j hj) hf
        cases this <;> rfl
      obtain ⟨held, server, rfl, _⟩ := called_same hcall
      refine Or.inl (flight_congr (filterMap_setStack rfl ?_ _) rfl (filterMap_setStack rfl ?_ _))
      · rw [List.filterMap_append, filterMap_executes_nil fun op x hj =>
          hcar _ hj op x rfl, List.nil_append]
      · rw [List.filterMap_append, filterMap_handsOver_nil fun j hj op x hh =>
          hcar j hj op x (Instr.carries_of_hands hh), List.nil_append]
  | ret u arg rest hst =>
      refine Or.inl (flight_congr (filterMap_setStack rfl ?_ _) rfl
        (filterMap_setStack rfl ?_ _)) <;> (rw [hst]; rfl)
  | loop m b m' hst hact hb hhl h => exact Or.inl (flight_control hst hb h)
  | poll m events m' hst hev hnd hhl h =>
      refine Or.inl (flight_congr rfl ?_ rfl)
      show (Function.update s.loops m m' l).queue.filterMap _ = _
      by_cases e : m = l
      · subst e
        rw [Function.update_self, EventLoop.queue_step rfl h]
      · rw [Function.update_of_ne (Ne.symm e)]
  | dispatch m ch rest hst hact =>
      refine Or.inl (flight_congr (filterMap_setStack rfl ?_ _) rfl
        (filterMap_setStack rfl ?_ _)) <;> (rw [hst]; rfl)
  | threadEnd m h0 hhl hst hp => exact Or.inl rfl

end Flight

end Process

end CuteMuduo