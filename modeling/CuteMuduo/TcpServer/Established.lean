/-
  File:      CuteMuduo/TcpServer/Established.lean
  Subject:   `ConnectEstablished` COMES FIRST AND ONCE. From `NewConnection` to the
             `ConnectEstablished` that follows, a connection is `kConnecting`, and nobody but the
             base loop's thread and the connection's own task queue knows of it; nothing is
             executed on it before `ConnectEstablished`, and that is executed once
             (`inv_run`).

  `ConnectEstablished` and `ConnectDestroyed` reach the loop the same way, so that they cannot
  overtake each other: on a sub loop by its task queue, first in, first out; on the base loop at
  once, before anything else the base thread does.
-/
import CuteMuduo.TcpServer.Flight

namespace CuteMuduo

open Machine

/-- The functor is about connection `c`. -/
def Functor.about (c : ConnId) : Functor → Prop
  | .conn d _ => d = c
  | .removeConnectionInLoop d => d = c
  | .user _ => False

/-- The instruction makes connection `c` known: to user code, to its handlers, to the server. -/
def Instr.exposes (c : ConnId) : Instr → Prop
  | .callback arg => arg = some c
  | .handleEvent ch => ch = .conn c
  | .removeConnection d => d = c
  | _ => False

namespace Process

variable {s s' s₁ : Process} {a : Label} {c : ConnId} {t u : ThreadId} {o : Outcome} {i : Instr}
  {is rest : List Instr} {f : Functor}

/-- **Nobody knows of the connection**, and nothing has happened on it. -/
structure Untouched (s : Process) (c : ConnId) : Prop where
  state : (s.ctx c).conn.state = .kConnecting
  index : (s.ctx c).channel.index = .kNew
  events : (s.ctx c).channel.events = kNoneEvent
  input : (s.ctx c).conn.inputBuffer.readable = []
  output : (s.ctx c).conn.outputBuffer.readable = []
  log : (s.ctx c).conn.log = []
  held : c ∉ s.held
  active : ∀ l, Chan.conn c ∉ s.active l
  exposed : ∀ t, ∀ i ∈ s.stack t, ¬ i.exposes c
  flight : ∀ f, s.InFlight f → f.about c →
    f = .conn c .connectEstablished ∨ f = .conn c .connectDestroyed

/-- `ConnectEstablished` and `ConnectDestroyed`. -/
def bounds : ConnOp → Option ConnOp
  | .connectEstablished => some .connectEstablished
  | .connectDestroyed => some .connectDestroyed
  | _ => none

theorem selectsOf_bounds : SelectsOf bounds (.loop 0) := by
  intro op x h c u hu
  cases op <;> first | exact hu | cases h

/-- **`ConnectEstablished` is what comes next** of what the base thread has handed over. -/
structure First (s : Process) (c : ConnId) : Prop where
  sub : (s.conns c).loop ≠ 0 → ∃ n, s.flight bounds c (s.conns c).loop (.loop 0) =
    .connectEstablished :: List.replicate n .connectDestroyed
  base : (s.conns c).loop = 0 → (∃ i rest, s.stack (.loop 0) = i :: rest ∧
    (i = .runInLoop 0 (.conn c .connectEstablished) ∨ i = .conn c .connectEstablished)) ∧
    .conn c .connectEstablished ∉ (s.loops 0).queue

/-- **Before and after `ConnectEstablished`.** -/
structure Established (s : Process) (c : ConnId) : Prop where
  before : (s.ctx c).conn.state = .kConnecting → s.Untouched c ∧ s.First c
  after : (s.ctx c).conn.state ≠ .kConnecting → ¬ s.InFlight (.conn c .connectEstablished)

/-! ## Where things can be -/

/-- Where a function of `c`'s that only the base thread hands over can be. -/
theorem inFlight_home (hw : Wf s) {op : ConnOp} (hop : op.anyThread = false)
    (hfrom : ∀ t, functorFrom t (.conn c op) → t = .loop 0) (h : s.InFlight (.conn c op)) :
    .conn c op ∈ s.stack (.loop (s.conns c).loop) ∨
      (∃ i ∈ s.stack (.loop 0), i.hands (.conn c op)) ∨
      .conn c op ∈ (s.loops (s.conns c).loop).queue := by
  rcases h with ⟨t, i, hi, hf⟩ | ⟨l, hl⟩
  · have hh := hw.stack t i hi
    cases i with
    | conn d op' =>
        cases hf
        rcases hh.2 with h | h
        · rw [hop] at h
          cases h
        · exact Or.inl (h ▸ hi)
    | runInLoop l g =>
        cases hf
        exact Or.inr (Or.inl ⟨.runInLoop l _, hfrom t hh.2 ▸ hi, rfl⟩)
    | queueInLoop l g =>
        cases hf
        exact Or.inr (Or.inl ⟨.queueInLoop l _, hfrom t hh.2 ▸ hi, rfl⟩)
    | _ => cases hf
  · have hh := hw.queue l _ hl
    exact Or.inr (Or.inr (hh.2.1 ▸ hl))

/-- What is in flight among `bounds` is in `flight`. -/
theorem mem_flight (hw : Wf s) {op : ConnOp} (hop : bounds op = some op)
    (h : s.InFlight (.conn c op)) :
    op ∈ s.flight bounds c (s.conns c).loop (.loop 0) := by
  have hany : op.anyThread = false := by cases op <;> first | rfl | cases hop
  have hfrom : ∀ t, functorFrom t (.conn c op) → t = .loop 0 :=
    fun t ht => selectsOf_bounds op op hop c t ht
  unfold flight
  rcases inFlight_home hw hany hfrom h with h | ⟨i, hi, hh⟩ | h
  · refine List.mem_append_left _ (List.mem_append_left _ (List.mem_filterMap.mpr ⟨_, h, ?_⟩))
    rw [Instr.executes_self, hop]
  · refine List.mem_append_right _ (List.mem_filterMap.mpr ⟨i, hi, ?_⟩)
    cases i with
    | runInLoop l g =>
        rw [show g = .conn c op from hh]
        exact (Functor.select_self op).trans hop
    | queueInLoop l g =>
        rw [show g = .conn c op from hh]
        exact (Functor.select_self op).trans hop
    | _ => exact hh.elim
  · refine List.mem_append_left _ (List.mem_append_right _ (List.mem_filterMap.mpr ⟨_, h, ?_⟩))
    rw [Functor.select_self, hop]

theorem lt_of_functorHome {l : LoopId} (h : s.functorHome l f) (hc : f.about c) :
    c < s.created := by
  cases f with
  | conn d op => exact hc ▸ h.1
  | removeConnectionInLoop d => exact hc ▸ h.1
  | user k => exact hc.elim

/-- What is under way is about connections there are. -/
theorem lt_of_inFlight (hw : Wf s) (h : s.InFlight f) (hc : f.about c) : c < s.created := by
  rcases h with ⟨t, i, hi, hf⟩ | ⟨l, hl⟩
  · have hh := hw.stack t i hi
    cases i with
    | conn d op =>
        cases hf
        exact hc ▸ hh.1
    | runInLoop l g =>
        cases hf
        exact lt_of_functorHome hh.1 hc
    | queueInLoop l g =>
        cases hf
        exact lt_of_functorHome hh.1 hc
    | removeConnectionInLoop d =>
        cases hf
        exact hc ▸ hh.1
    | _ => cases hf
  · exact lt_of_functorHome (hw.queue l f hl) hc

/-! ## What a step exposes -/

/-- Only a connection's own functions expose it. -/
theorem follows_exposes (hw : Wf s) (hi : s.instrHome t i) {j : Instr} (h : Follows s t i j)
    (hx : j.exposes c) : ∃ op, i = .conn c op := by
  cases h with
  | conn d op _ hp =>
      cases hp with
      | callback =>
          cases hx
          exact ⟨op, rfl⟩
      | removeConnection d' hop hd =>
          have hd' := (hw.close d hi.1).symm.trans hd
          cases hd'
          cases hx
          exact ⟨op, rfl⟩
      | _ => exact hx.elim
  | runHere l f hl =>
      cases f with
      | user k => cases hx
      | _ => exact hx.elim
  | _ => exact hx.elim

/-- User code has no pointer to the connection. -/
theorem Untouched.mayUse (h : s.Untouched c) : s.mayUse t c = false := by
  refine Bool.eq_false_iff.mpr fun hm => ?_
  rcases Bool.or_eq_true_iff.mp hm with hm | hm
  · exact h.held (List.contains_iff_mem.mp hm)
  · have harg : s.argument t = some c := eq_of_beq hm
    unfold argument at harg
    split at harg
    · rename_i arg rest hst
      exact h.exposed t (.callback arg) (mem_stack hst) harg
    · cases harg

theorem Untouched.argument (h : s.Untouched c) : s.argument t ≠ some c := by
  intro harg
  have hm : s.mayUse t c = true := by
    rw [Process.mayUse, harg, beq_self_eq_true, Bool.or_true]
  rw [h.mayUse] at hm
  cases hm

/-- What is made of an untouched connection. -/
theorem Untouched.made (h : s.Untouched c)
    (hno : ∀ t o op rest, a = .run t o → s.stack t ≠ .conn c op :: rest) (hc : f.about c)
    (hm : Made s a f) : f = .conn c .connectEstablished ∨ f = .conn c .connectDestroyed := by
  cases hm with
  | run t o i rest f hst hm =>
      have hmem : i ∈ s.stack t := mem_stack hst
      cases hm with
      | conn d op j f hj hf =>
          have hd : d = c := by
            cases hj <;> cases hf <;> exact hc
          exact absurd (hd ▸ hst) (hno t o op rest rfl)
      | handler d op hop =>
          exact absurd (congrArg Chan.conn hc) (h.exposed t _ hmem)
      | create =>
          cases hc
          exact Or.inl rfl
      | removeConnection d => exact absurd hc (h.exposed t _ hmem)
      | remove d =>
          cases hc
          exact Or.inr rfl
      | entry d =>
          cases hc
          exact Or.inr rfl
  | user t v f hm =>
      have huse : ∀ {d}, s.mayUse t d = true → d = c → False := by
        rintro d hd rfl
        rw [h.mayUse] at hd
        cases hd
      cases hm with
      | send d msg hd => exact (huse hd hc).elim
      | shutdown d hd => exact (huse hd hc).elim
      | setHighWaterMark d mark hd => exact (huse hd hc).elim
      | retrieve d len hd => exact absurd (hc ▸ hd) h.argument
      | functor k => exact hc.elim

/-- **A step that executes no function of the connection's leaves it untouched.** -/
theorem untouched_other (hw : Wf s) (hc : c < s.created) (h : s.Untouched c) (hs : Step s a s')
    (hno : ∀ t o op rest, a = .run t o → s.stack t ≠ .conn c op :: rest) {r : EventMask}
    (hctx : s'.ctx c = { s.ctx c with channel := (s.ctx c).channel.setRevents r }) :
    s'.Untouched c := by
  refine ⟨?_, ?_, ?_, ?_, ?_, ?_, ?_, ?_, ?_, fun f hf hab => ?_⟩
  · rw [hctx]
    exact h.state
  · rw [hctx]
    exact h.index
  · rw [hctx]
    exact h.events
  · rw [hctx]
    exact h.input
  · rw [hctx]
    exact h.output
  · rw [hctx]
    exact h.log
  · cases hs with
    | run t o i rest s₁ is hst he =>
        obtain ⟨_, _, hk, _⟩ := exec_kept he
        exact hk ▸ h.held
    | user t v s₁ is hu hcall =>
        cases hcall with
        | copy d hd =>
            intro hm
            rcases List.mem_cons.mp hm with rfl | hm
            · rw [h.mayUse] at hd
              cases hd
            · exact h.held hm
        | drop d => exact fun hm => h.held (List.mem_of_mem_erase hm)
        | _ => exact h.held
    | _ => exact h.held
  · intro l hl
    rcases active_grows hs hl with hl | ⟨_, e, he, hptr⟩
    · exact h.active l hl
    · -- nothing is registered for `c`
      have hhome := hw.epoll l _ e he
      rw [hptr] at hhome
      have hslot : s.pollers l (s.fd c) = Slot.empty := by
        rw [← hhome.2]
        exact (hw.agrees c hc).trans (Channel.slot_of_kNew _ h.index)
      rw [show s.pollers l (s.chans (.conn c)).fd = Slot.empty from hslot] at he
      cases he
  · intro u j hj hx
    rcases mem_stack_step hs hj with hj | hp
    · exact h.exposed u j hj hx
    · cases hp with
      | exec _ o i rest hst _ hfol =>
          have hi := hw.stack u i (mem_stack hst)
          obtain ⟨op, rfl⟩ := follows_exposes hw hi hfol hx
          exact hno u o op rest rfl hst
      | call _ v _ ha => cases ha <;> exact hx
      | functor l b f rest hph =>
          cases f with
          | user k => cases hx
          | _ => exact hx
      | event l ch hch =>
          rw [show ch = .conn c from hx] at hch
          exact h.active l hch
  · rcases inFlight_step hs hf with hf | hm
    · exact h.flight f hf hab
    · exact h.made hno hab hm

/-! ## Steps and runs -/

/-- A step that executes no function of the connection's keeps `ConnectEstablished` first. -/
theorem first_other (hw : Wf s) (hc : c < s.created) (h : s.First c) (hs : Step s a s')
    (hno : ∀ t o op rest, a = .run t o → s.stack t ≠ .conn c op :: rest) : s'.First c := by
  have hloop : (s'.conns c).loop = (s.conns c).loop := (wf_step hw hs).2.loop hc
  refine ⟨fun hl => ?_, fun hl => ?_⟩
  · rw [hloop] at hl ⊢
    obtain ⟨n, hn⟩ := h.sub hl
    have ht : ThreadId.loop 0 ≠ .loop (s.conns c).loop := fun e => hl (ThreadId.loop.inj e).symm
    rcases flight_other hw hc rfl ht selectsOf_bounds hs hno with e | ⟨x, hx, e⟩
    · exact ⟨n, e.trans hn⟩
    · cases hx
      refine ⟨n + 1, e.trans ?_⟩
      rw [hn, List.replicate_succ']
      rfl
  · rw [hloop] at hl
    obtain ⟨⟨i, rest, hst, hi⟩, hq⟩ := h.base hl
    have hcb : ∀ arg, i ≠ .callback arg := by
      rintro arg rfl
      rcases hi with e | e <;> cases e
    refine ⟨?_, fun hm => ?_⟩
    · by_cases hrun : ∃ o, a = .run (.loop 0) o
      · -- the base thread itself: it is about to call the functor
        obtain ⟨o, rfl⟩ := hrun
        rcases hi with rfl | rfl
        · cases hs with
          | run t o j rest' s₁ is hst' he =>
              rw [hst] at hst'
              cases hst'
              cases he with
              | quiet _ _ hqu =>
                  cases hqu with
                  | runHere l f hown =>
                      exact ⟨.conn c .connectEstablished, .release c :: rest,
                        stack_setStack_self _ _ _, Or.inr rfl⟩
                  | runThere l f hown =>
                      rw [(isInLoopThread_iff (hw.threadId 0)).mpr rfl] at hown
                      cases hown
              | loop _ _ _ _ _ hil => cases hil
        · exact absurd hst (hno _ o _ _ rfl)
      · exact ⟨i, rest, stack_busy hs hst hcb fun o e => hrun ⟨o, e⟩, hi⟩
    · rcases queue_grows hs hm with hm | ⟨t, rest', hst'⟩
      · exact hq hm
      · have hh := hw.stack t _ (mem_stack hst')
        rw [show t = .loop 0 from hh.2, hst] at hst'
        rcases hi with rfl | rfl <;> cases hst'

/-- **On a connection that is not yet established, only `ConnectEstablished` is executed**; it is
    then nowhere any more. -/
theorem first_run (hw : Wf s) (h : s.Untouched c) (hf : s.First c) {op : ConnOp} {k : Ctx}
    (hst : s.stack t = .conn c op :: rest)
    (he : (s.ctx c).exec c t (s.isInLoopThread (s.conns c).loop t) op o = some (k, is)) :
    op = .connectEstablished ∧ ∀ s', s'.stack = Function.update s.stack t (is ++ rest) →
      s'.loops = s.loops → (s'.conns c).loop = (s.conns c).loop → Wf s' →
      ¬ s'.InFlight (.conn c .connectEstablished) := by
  have hmem : Instr.conn c op ∈ s.stack t := mem_stack hst
  have hop : op = .connectEstablished ∨ op = .connectDestroyed := by
    rcases h.flight (.conn c op) (Or.inl ⟨t, _, hmem, rfl⟩) rfl with e | e
    · exact Or.inl (Functor.conn.inj e).2
    · exact Or.inr (Functor.conn.inj e).2
  have ht : t = .loop (s.conns c).loop := by
    rcases (hw.stack t _ hmem).2 with h | h
    · rcases hop with rfl | rfl <;> cases h
    · exact h
  by_cases hl : (s.conns c).loop = 0
  · obtain ⟨⟨i, rest', hst', hi⟩, hq⟩ := hf.base hl
    rw [ht, hl, hst'] at hst
    obtain ⟨rfl, rfl⟩ := List.cons.inj hst
    rcases hi with e | e
    · cases e
    · cases e
      refine ⟨rfl, fun s' hstk hloops hlp hw' hfl => ?_⟩
      obtain ⟨p, _, e⟩ := Option.map_eq_some_iff.mp he
      cases e
      have hset := hw.settled_rest hst'
      have hfun : ∀ t, functorFrom t (.conn c .connectEstablished) → t = .loop 0 := fun _ h => h
      rcases inFlight_home hw' rfl hfun hfl with hm | ⟨j, hj, hh⟩ | hm
      · rw [hlp, ← ht, hstk, Function.update_self] at hm
        rcases List.mem_cons.mp hm with hm | hm
        · cases hm
        · cases hset _ hm
      · rw [hstk, ht, hl, Function.update_self] at hj
        rcases List.mem_cons.mp hj with rfl | hj
        · exact hh
        · exact not_hands_of_settled (hset j hj) hh
      · rw [hlp, hloops, hl] at hm
        exact hq hm
  · obtain ⟨n, hn⟩ := hf.sub hl
    have ht0 : ThreadId.loop 0 ≠ .loop (s.conns c).loop := fun e => hl (ThreadId.loop.inj e).symm
    have hcase : op = .connectEstablished := by
      have hstk : (s.setStack t (is ++ rest)).stack = Function.update s.stack t (is ++ rest) := rfl
      obtain ⟨F, hF, _⟩ := flight_run hw rfl ht0 selectsOf_bounds hst he hstk rfl
      rcases hop with rfl | rfl
      · rfl
      · rw [hn] at hF
        cases (List.cons.inj hF).1
    subst hcase
    refine ⟨rfl, fun s' hstk hloops hlp hw' hfl => ?_⟩
    obtain ⟨F, hF, hF'⟩ := flight_run hw rfl ht0 selectsOf_bounds hst he hstk hloops
    obtain ⟨p, _, e⟩ := Option.map_eq_some_iff.mp he
    cases e
    have hm := mem_flight hw' rfl hfl
    rw [hn] at hF
    have hF : List.replicate n ConnOp.connectDestroyed = F := (List.cons.inj hF).2
    rw [hlp, hF', ← hF] at hm
    rcases List.mem_append.mp hm with hm | hm
    · cases List.eq_of_mem_replicate hm
    · exact absurd hm List.not_mem_nil

/-- **Every step**, for a connection there was. -/
theorem established_step (hw : Wf s) (hc : c < s.created) (h : s.Established c)
    (hs : Step s a s') : s'.Established c := by
  have hw' := wf_step hw hs
  cases seen_step hw hc hs with
  | other hno r hctx =>
      have hstate : (s'.ctx c).conn.state = (s.ctx c).conn.state := by rw [hctx]
      refine ⟨fun hk => ?_, fun hk hf => ?_⟩
      · obtain ⟨hun, hfirst⟩ := h.before (hstate ▸ hk)
        exact ⟨untouched_other hw hc hun hs hno hctx, first_other hw hc hfirst hs hno⟩
      · rcases inFlight_step hs hf with hf | hm
        · exact h.after (hstate ▸ hk) hf
        · cases hm with
          | run t o i rest f hst hm =>
              cases hm with
              | conn d op j _ hj hf =>
                  have hd := of_produced_carries hj hf
                  exact hno t o op rest rfl (hd ▸ hst)
              | handler _ _ hop => cases hop
              | create => exact Nat.lt_irrefl _ hc
          | user t v f hm => cases hm
  | run t o op rest is ha hst he hst' hloops =>
      have hstate := (Ctx.exec_effect (hw.agrees c hc) he).state
      by_cases hk : (s.ctx c).conn.state = .kConnecting
      · obtain ⟨hun, hfirst⟩ := h.before hk
        obtain ⟨rfl, hnot⟩ := first_run hw hun hfirst hst he
        refine ⟨fun hk' => ?_, fun _ => hnot s' hst' hloops (hw'.2.loop hc) hw'.1⟩
        rw [hstate] at hk'
        cases hk'
      · refine ⟨fun hk' => ?_, fun _ hf => ?_⟩
        · rw [hstate] at hk'
          exact absurd hk' (ConnOp.nextState_ne_kConnecting hk)
        · rcases inFlight_step hs hf with hf | hm
          · exact h.after hk hf
          · subst ha
            cases hm with
            | run t o i rest' f hst'' hm =>
                rw [hst] at hst''
                cases hst''
                cases hm with
                | conn d op j _ hj hf =>
                    cases hj <;> cases hf
                    rename_i hop _
                    cases op <;> cases hop

/-! ### A new connection -/

/-- Nothing is about a connection that is to come. -/
theorem not_about_created (hw : Wf s) (hf : s.InFlight f) : ¬ f.about s.created :=
  fun h => Nat.lt_irrefl _ (lt_of_inFlight hw hf h)

theorem not_exposes_created (hw : Wf s) (hi : i ∈ s.stack t) : ¬ i.exposes s.created := by
  intro hx
  have hh := hw.stack t i hi
  cases i with
  | callback arg => exact Nat.lt_irrefl _ (hh _ hx)
  | handleEvent ch =>
      obtain ⟨l, _, hch⟩ := hh
      rw [show ch = _ from hx] at hch
      exact Nat.lt_irrefl _ hch.1
  | removeConnection d => exact Nat.lt_irrefl _ ((show d = _ from hx) ▸ hh)
  | _ => exact hx

section Create

variable {fd : Nat}

/-- Behind `NewConnection`, nothing is under way about the new connection but its
    `ConnectEstablished`. -/
theorem inFlight_create (hw : Wf s) (hst : s.stack t = .acceptorHandleRead :: rest)
    (he : Exec s t o .acceptorHandleRead (s.newConnection fd).1 (s.newConnection fd).2)
    (hf : Process.InFlight ((s.newConnection fd).1.setStack t ((s.newConnection fd).2 ++ rest)) f)
    (hab : f.about s.created) : f = .conn s.created .connectEstablished := by
  rcases inFlight_exec hst he hf with hf | hh | hm
  · exact absurd hab (not_about_created hw (hf.of_setStack hst))
  · exact hh.elim
  · cases hm
    rfl

theorem untouched_create (hw : Wf s) (hst : s.stack t = .acceptorHandleRead :: rest)
    (he : Exec s t o .acceptorHandleRead (s.newConnection fd).1 (s.newConnection fd).2)
    (hf : s.freshFd fd = true) :
    Untouched ((s.newConnection fd).1.setStack t ((s.newConnection fd).2 ++ rest)) s.created := by
  have hctx := ctx_newConnection_self hw.toStored hf
  refine ⟨?_, ?_, ?_, ?_, ?_, ?_, fun hm => ?_, fun l hm => ?_, fun u j hj hx => ?_,
    fun f hf hab => Or.inl (inFlight_create hw hst he hf hab)⟩
  · exact congrArg (fun k => k.conn.state) hctx
  · exact congrArg (fun k => k.channel.index) hctx
  · exact congrArg (fun k => k.channel.events) hctx
  · exact (congrArg (fun k => k.conn.inputBuffer.readable) hctx).trans (Buffer.readable_create _)
  · exact (congrArg (fun k => k.conn.outputBuffer.readable) hctx).trans (Buffer.readable_create _)
  · exact congrArg (fun k => k.conn.log) hctx
  · exact Nat.lt_irrefl _ (hw.held _ hm)
  · exact Nat.lt_irrefl _ (hw.active l _ hm).1
  · change j ∈ Function.update s.stack t _ u at hj
    by_cases e : u = t
    · subst e
      rw [Function.update_self] at hj
      rcases List.mem_append.mp hj with hj | hj
      · rcases List.mem_cons.mp hj with rfl | hj
        · exact hx
        · rw [List.mem_singleton.mp hj] at hx
          exact hx
      · exact not_exposes_created hw (t := u) (by rw [hst]; exact List.mem_cons_of_mem _ hj) hx
    · rw [Function.update_of_ne e] at hj
      exact not_exposes_created hw hj hx

theorem first_create (hw : Wf s) (hst : s.stack (.loop 0) = .acceptorHandleRead :: rest)
    (hf : s.freshFd fd = true) :
    First ((s.newConnection fd).1.setStack (.loop 0) ((s.newConnection fd).2 ++ rest))
      s.created := by
  have hloop : (((s.newConnection fd).1.setStack (.loop 0) ((s.newConnection fd).2 ++ rest)).conns
      s.created).loop = (s.server.getNextLoop s.numLoops).1 :=
    congrArg (fun k => k.conn.loop) (ctx_newConnection_self hw.toStored hf)
  have hset := hw.settled_rest hst
  have hno : ∀ op, ¬ s.InFlight (.conn s.created op) :=
    fun op h => not_about_created hw h rfl
  refine ⟨fun hl => ⟨0, ?_⟩,
    fun hl => ⟨⟨_, .release s.created :: rest, ?_, Or.inl rfl⟩, fun hm => ?_⟩⟩
  · rw [hloop] at hl ⊢
    unfold flight
    rw [stack_setStack_of_ne _ _ fun e => hl (ThreadId.loop.inj e), stack_setStack_self,
      List.filterMap_append, filterMap_handsOver_settled hset,
      filterMap_executes_nil, filterMap_select_nil]
    · simp [newConnection, Instr.handsOver, bounds]
    · exact fun op x hq _ => hno op (Or.inr ⟨_, hq⟩)
    · exact fun op x hj _ => hno op (Or.inl ⟨_, _, hj, rfl⟩)
  · rw [hloop] at hl
    rw [stack_setStack_self]
    simp only [newConnection, hl]
    rfl
  · exact hno _ (Or.inr ⟨0, hm⟩)

end Create

/-- **The step that makes a connection.** -/
theorem established_create (hw : Wf s) (hs : Step s a s') (hc : s.created < s'.created) :
    s'.created = s.created + 1 ∧ s'.Established s.created ∧ s'.Untouched s.created := by
  cases hs with
  | run t o i rest s₁ is hst he =>
      have hi := hw.stack t i (mem_stack hst)
      cases he with
      | create fd ho hlife hf hid =>
          have ht : t = .loop 0 := hi
          subst ht
          have hun := untouched_create hw hst (.create fd ho hlife hf hid) hf
          exact ⟨rfl,
            ⟨fun _ => ⟨hun, first_create hw hst hf⟩, fun hne => absurd hun.state hne⟩, hun⟩
      | _ => exact absurd hc (Nat.lt_irrefl _)
  | user t v s₁ is hu hcall =>
      obtain ⟨held, server, rfl, _⟩ := called_same hcall
      exact absurd hc (Nat.lt_irrefl _)
  | _ => exact absurd hc (Nat.lt_irrefl _)

/-- **In every state a run reaches**, everything is in its place, and `ConnectEstablished` comes
    first on every connection. -/
structure Inv (s : Process) : Prop extends Wf s where
  established : ∀ c < s.created, s.Established c

/-- A connection nobody knows of has left nothing to do. -/
theorem Untouched.trail (h : s.Untouched c) : s.trail c = [] := by
  refine List.eq_nil_iff_forall_not_mem.mpr fun op hop => ?_
  obtain ⟨hm, hin⟩ := mem_filterMap_innerOf hop
  rcases h.flight (.conn c op) (Or.inl ⟨_, _, hm, rfl⟩) rfl with e | e <;>
    (cases (Functor.conn.inj e).2; cases hin)

/-- The function of `c`'s that the step executes. -/
def executed (s : Process) (c : ConnId) : Label → Option ConnOp
  | .run t _ => match s.stack t with
    | .conn d op :: _ => if d = c then some op else none
    | _ => none
  | _ => none

theorem executed_of_stack {op : ConnOp} (hst : s.stack t = .conn c op :: rest) :
    s.executed c (.run t o) = some op := by
  simp only [executed, hst, if_pos]

theorem of_executed {op : ConnOp} (h : s.executed c a = some op) :
    ∃ t o rest, a = .run t o ∧ s.stack t = .conn c op :: rest := by
  cases a with
  | run t o =>
      simp only [executed] at h
      split at h
      · rename_i d op' rest hst
        obtain ⟨e, e'⟩ := Option.ite_none_right_eq_some.mp h
        cases e
        cases e'
        exact ⟨t, o, rest, rfl, hst⟩
      · cases h
  | _ => cases h

theorem executed_eq_none (h : ∀ t o op rest, a = .run t o → s.stack t ≠ .conn c op :: rest) :
    s.executed c a = none := by
  cases a with
  | run t o =>
      simp only [executed]
      split
      · rename_i d op rest hst
        exact if_neg fun e : d = c => h t o op rest rfl (e ▸ hst)
      · rfl
  | _ => rfl

/-- Nothing is executed on a connection that is to come. -/
theorem executed_of_le (hw : Wf s) (hc : s.created ≤ c) : s.executed c a = none := by
  refine executed_eq_none fun t o op rest _ hst => ?_
  have hh := hw.stack t (.conn c op) (mem_stack hst)
  exact Nat.not_lt.mpr hc hh.1

/-- **A step, as an established connection and its trail see it.** -/
inductive Turn (s : Process) (c : ConnId) (a : Label) (s' : Process) : Prop where
  /-- No function of `c`'s is executed. -/
  | idle (hno : ∀ t o op rest, a = .run t o → s.stack t ≠ .conn c op :: rest) (r : EventMask)
      (hctx : s'.ctx c = { s.ctx c with channel := (s.ctx c).channel.setRevents r })
      (htr : s'.trail c = s.trail c)
  /-- `ConnectEstablished`, on a connection nobody knows of. -/
  | establish (o : Outcome) (rest : List Instr) (ha : a = .run (.loop (s.conns c).loop) o)
      (hst : s.stack (.loop (s.conns c).loop) = .conn c .connectEstablished :: rest)
      (hun : s.Untouched c) (hk : (s.ctx c).conn.state = .kConnecting)
      (he : (s.ctx c).exec c (.loop (s.conns c).loop) true .connectEstablished o =
        some (s'.ctx c, [.conn c .connectionCallback]))
      (htr' : s'.trail c = [.connectionCallback])
  /-- `c`'s loop's thread executes a function of `c`'s. -/
  | own (o : Outcome) (op : ConnOp) (rest is : List Instr) (T : List ConnOp)
      (ha : a = .run (.loop (s.conns c).loop) o)
      (hst : s.stack (.loop (s.conns c).loop) = .conn c op :: rest)
      (hop : op ≠ .connectEstablished) (hk : (s.ctx c).conn.state ≠ .kConnecting)
      (he : (s.ctx c).exec c (.loop (s.conns c).loop) true op o = some (s'.ctx c, is))
      (htr : s.trail c = (innerOp op).toList ++ T)
      (htr' : s'.trail c = leaves (s.ctx c).conn.state op ++ T ∨
        op = .handleWrite ∧ s'.trail c = .shutdownIfDisconnecting :: T)
      (hset : ∀ op' ∈ T, op'.settled = true)
  /-- Another thread does. -/
  | foreign (t : ThreadId) (o : Outcome) (op : ConnOp) (rest is : List Instr)
      (ha : a = .run t o) (ht : t ≠ .loop (s.conns c).loop)
      (hst : s.stack t = .conn c op :: rest) (hop : op.anyThread = true)
      (hk : (s.ctx c).conn.state ≠ .kConnecting)
      (he : (s.ctx c).exec c t false op o = some (s'.ctx c, is)) (htr : s'.trail c = s.trail c)

theorem not_mem_settled {op : ConnOp} {T : List ConnOp} (hset : ∀ op' ∈ T, op'.settled = true)
    (hop : op.settled = false) : op ∉ T := fun hm => by
  rw [hset _ hm] at hop
  cases hop

/-- What is executed at once comes next. -/
theorem eq_of_mem_trail {op op' : ConnOp} {T : List ConnOp} (hm : op' ∈ (innerOp op).toList ++ T)
    (hset : ∀ op' ∈ T, op'.settled = true) (hop : op'.settled = false) : op' = op := by
  rcases List.mem_append.mp hm with hm | hm
  · obtain ⟨_, e⟩ := Option.ite_none_right_eq_some.mp (Option.mem_toList.mp hm)
    exact (Option.some.inj e).symm
  · exact absurd hm (not_mem_settled hset hop)

/-- What is left to do after a step was left before it, or comes of the function executed. -/
theorem of_mem_trail {state : StateE} {op op' : ConnOp} {T xs : List ConnOp} (hm : op' ∈ xs)
    (h : xs = leaves state op ++ T ∨ op = .handleWrite ∧ xs = .shutdownIfDisconnecting :: T) :
    ConnOp.leadsTo state op op' = true ∨ op' ∈ T := by
  rcases h with rfl | ⟨rfl, rfl⟩
  · exact (List.mem_append.mp hm).imp_left leadsTo_of_mem_leaves
  · rcases List.mem_cons.mp hm with rfl | hm
    · exact Or.inl rfl
    · exact Or.inr hm

/-- What the function executed leaves to do is left to do. -/
theorem mem_trail_of_leaves {state : StateE} {op op' : ConnOp} {T xs : List ConnOp}
    (h : xs = leaves state op ++ T ∨ op = .handleWrite ∧ xs = .shutdownIfDisconnecting :: T)
    (hop : op ≠ .handleWrite) (hm : op' ∈ leaves state op) : op' ∈ xs := by
  rcases h with rfl | ⟨e, _⟩
  · exact List.mem_append_left _ hm
  · exact absurd e hop

/-- Where `ConnectDestroyed` finds `kConnected`, its store is left to do. -/
theorem destroySetState_mem {state : StateE} {T xs : List ConnOp}
    (h : xs = leaves state .connectDestroyed ++ T ∨
      ConnOp.connectDestroyed = .handleWrite ∧ xs = .shutdownIfDisconnecting :: T)
    (hs : state = .kConnected) : .destroySetState ∈ xs := by
  refine mem_trail_of_leaves h (by decide) ?_
  rw [hs]
  exact List.mem_cons_self

/-- **Every step, as a connection sees it.** -/
theorem turn_step (h : Inv s) (hc : c < s.created) (hs : Step s a s') : Turn s c a s' := by
  have hw := h.toWf
  have hl : (s'.conns c).loop = (s.conns c).loop := (wf_step hw hs).2.loop hc
  cases seen_step hw hc hs with
  | other hno r hctx =>
      refine .idle hno r hctx ?_
      unfold trail
      rw [hl]
      exact stack_other hw selectsOwn_innerOp hs hno _
  | run t o op rest is ha hst he hst' hloops =>
      have hi := hw.stack t _ (mem_stack hst)
      have hset := hw.settled t
      by_cases hk : (s.ctx c).conn.state = .kConnecting
      · obtain ⟨hun, hfirst⟩ := (h.established c hc).before hk
        obtain ⟨rfl, _⟩ := first_run hw hun hfirst hst he
        have ht : t = .loop (s.conns c).loop := hi.2.resolve_left Bool.false_ne_true
        rw [(isInLoopThread_iff (hw.threadId _)).mpr ht] at he
        subst ht
        obtain ⟨p, hp, e⟩ := Option.map_eq_some_iff.mp he
        have hrest : rest.filterMap (innerOf c) = [] := by
          have h := hun.trail
          rwa [Process.trail, hst, List.filterMap_cons_none (innerOf_self _)] at h
        cases (Prod.mk.inj e).2
        refine .establish o rest ha hst hun hk he ?_
        rw [Process.trail, hl, hst', Function.update_self, List.filterMap_append, hrest,
          List.filterMap_cons_some (innerOf_self _)]
        rfl
      · have hne : op ≠ .connectEstablished := by
          rintro rfl
          exact (h.established c hc).after hk
            (Or.inl ⟨t, _, mem_stack hst, rfl⟩)
        by_cases ht : t = .loop (s.conns c).loop
        · rw [(isInLoopThread_iff (hw.threadId _)).mpr ht] at he
          subst ht
          refine .own o op rest is (rest.filterMap (innerOf c)) ha hst hne hk he ?_ ?_
            fun op' hop' => ?_
          · rw [Process.trail, hst, List.filterMap_cons, innerOf_self]
            cases innerOp op <;> rfl
          · rw [Process.trail, hl, hst', Function.update_self, List.filterMap_append]
            rcases exec_leaves he with e | ⟨e, e'⟩
            · exact Or.inl (by rw [e])
            · exact Or.inr ⟨e, by rw [e']; rfl⟩
          · refine hset (.conn c op') ?_
            rw [hst]
            exact (mem_filterMap_innerOf hop').1
        · have hown : s.isInLoopThread (s.conns c).loop t = false :=
            Bool.eq_false_iff.mpr fun e => ht ((isInLoopThread_iff (hw.threadId _)).mp e)
          rw [hown] at he
          refine .foreign t o op rest is ha ht hst (hi.2.resolve_right ht) hk he ?_
          rw [Process.trail, hl, hst', Function.update_of_ne (Ne.symm ht)]
          rfl

/-- A connection there is was there before, or is made by the step. -/
theorem created_step (hw : Wf s) (hs : Step s a s') (hc : c < s'.created) :
    c < s.created ∨ s'.Established c ∧ s'.Untouched c := by
  by_cases hold : c < s.created
  · exact Or.inl hold
  · have hle := Nat.not_lt.mp hold
    obtain ⟨hcr, he⟩ := established_create hw hs (Nat.lt_of_le_of_lt hle hc)
    rw [hcr] at hc
    rw [Nat.le_antisymm (Nat.lt_succ_iff.mp hc) hle]
    exact Or.inr he

theorem inv_step (h : Inv s) (hs : Step s a s') : Inv s' := by
  refine ⟨(wf_step h.toWf hs).1, fun c hc => ?_⟩
  rcases created_step h.toWf hs hc with hold | hnew
  · exact established_step h.toWf hold (h.established c hold) hs
  · exact hnew.1

section Runs

variable {name : List Char} {addr : InetAddress} {numLoops : Nat} {writeComplete : Bool}
  {tr : List (Process × Label)}

theorem inv_init : Inv (init name addr numLoops writeComplete) :=
  ⟨wf_init, fun c hc => absurd hc (Nat.not_lt_zero c)⟩

theorem inv_run (h : Run step (init name addr numLoops writeComplete) tr s) : Inv s :=
  h.inv inv_init fun _ _ _ hi hs => inv_step hi (of_step hs)

/-- **An invariant of connection `c`**: what holds of a connection nobody knows of, and is kept by
    every step that meets `C`, holds in every state of a run whose steps meet `C`. -/
theorem conn_run {I : Process → Prop} {C : Process → Label → Prop} (c : ConnId)
    (hnew : ∀ s, Inv s → s.Untouched c → I s)
    (hstep : ∀ s a s', Inv s → c < s.created → I s → C s a → Step s a s' → I s')
    (h : Run step (init name addr numLoops writeComplete) tr s) (hC : ∀ p ∈ tr, C p.1 p.2)
    (hc : c < s.created) : I s := by
  refine h.invWith (J := Inv) (I := fun s => c < s.created → I s) (C := C) inv_init
    (fun _ _ _ hi hs => inv_step hi (of_step hs)) (fun hc => absurd hc (Nat.not_lt_zero c))
    (fun s a s' hi ih ha hs hc => ?_) hC hc
  rcases created_step hi.toWf (of_step hs) hc with hold | hnew'
  · exact hstep s a s' hi hold (ih hold) ha (of_step hs)
  · exact hnew s' (inv_step hi (of_step hs)) hnew'.2

end Runs

/-- A server without sub loops, started. -/
def oneLoop : Process := init ['s'] ⟨127, 0, 0, 1, 80⟩ 0 false

/-- Thread `t` executes its next `n` instructions. -/
def runs (t : ThreadId) (n : Nat) : List Label := List.replicate n (.run t .none)

/-- It accepts a connection, whose connection callback keeps a copy of the pointer. -/
def acceptRun : List Label :=
  [.loop 0 .enterLoop, .loop 0 .test, .poll 0 [(.acceptor, epollIn)], .dispatch 0,
    .run (.loop 0) .none, .run (.loop 0) (.accept (some 10)), .run (.loop 0) .none,
    .run (.loop 0) .none, .run (.loop 0) .none, .user (.loop 0) (.copy 0)]

/-- The callback returns, and the base loop is about to poll again. -/
def settleRun : List Label :=
  [.ret (.loop 0), .run (.loop 0) .none, .run (.loop 0) .none, .run (.loop 0) .none,
    .loop 0 .startFunctors, .loop 0 .swap, .loop 0 .finish, .loop 0 .test]

end Process

end CuteMuduo