/-
  File:      CuteMuduo/TcpServer/ServerEnd.lean
  Subject:   THE END OF THE SERVER: what is still executed on a `TcpServer` once `~TcpServer`, run
             outside the callbacks of its connections, has returned.

  * `no_use_after_end` -- nothing, in every run in which no `RemoveConnectionInLoop` waits in the
    base loop's queue when `~TcpServer` comes to its end, and behind it the base loop polls with
    no connection registered;
  * `used_after_end` -- a sub loop's `HandleClose` has queued one: the base loop runs it later.

  While `~TcpServer` runs, the base loop's thread does nothing else (`Destroying`); it joins the
  sub loops before it ends, so that behind it (`Over`) only the base loop is left.
-/
import CuteMuduo.TcpServer.Frames

namespace CuteMuduo

open Machine

namespace Instr

/-- The instruction is a member function of the server or of its acceptor. -/
def usesServer : Instr → Bool
  | .handleEvent .acceptor | .acceptorHandleRead | .acceptorEventEnd | .removeConnection _
  | .removeConnectionInLoop _ => true
  | _ => false

/-- The instruction uses the server, or hands over or calls one that does. -/
def serves : Instr → Bool
  | .conn _ .closeCallback | .runInLoop _ (.removeConnectionInLoop _)
  | .queueInLoop _ (.removeConnectionInLoop _) => true
  | i => i.usesServer

/-- The instruction handles an event of a connection. -/
def handles : Instr → Bool
  | .handleEvent (.conn _) => true
  | .conn _ op => op.isHandler
  | _ => false

/-- The parts of `~TcpServer` that lie below all others. -/
def outermost : Instr → Bool
  | .destroyEntries | .destroyAcceptor => true
  | _ => false

end Instr

theorem serves_of_usesServer {i : Instr} (h : i.usesServer = true) : i.serves = true := by
  unfold Instr.serves
  split <;> first | rfl | exact h

/-- **Below `destroyEntries` and `destroyAcceptor`** there is nothing of `~TcpServer`. -/
def Outermost : List Instr → Prop
  | [] => True
  | i :: rest => (i.outermost = true → ∀ j ∈ rest, j.destroys = false) ∧ Outermost rest

theorem outermost_append {xs ys : List Instr} (h : ∀ i ∈ xs, i.outermost = false)
    (hy : Outermost ys) : Outermost (xs ++ ys) := by
  induction xs with
  | nil => exact hy
  | cons i xs ih =>
      refine ⟨fun hi => ?_, ih fun j hj => h j (List.mem_cons_of_mem _ hj)⟩
      rw [h i List.mem_cons_self] at hi
      cases hi

namespace Process

variable {s s' s₁ : Process} {a : Label} {t : ThreadId} {o : Outcome} {i j : Instr}
  {is rest : List Instr}

/-! ## What leads to the server -/

/-- Only `HandleClose` leads to the server from outside. -/
theorem serves_follows (hi : s.instrHome t i) (hno : ∀ c, i ≠ .conn c .handleClose)
    (h : Follows s t i j) (hs : i.serves = false) : j.serves = false := by
  cases h with
  | conn c op _ hp =>
      cases hp with
      | removeConnection d hop =>
          subst hop
          cases hs
      | conn op' hop =>
          cases op' with
          | closeCallback =>
              cases op <;> first | (cases hop; done) | exact absurd rfl (hno c)
          | _ => rfl
      | _ => rfl
  | handler c op hop => cases op <;> first | rfl | cases hop
  | runHere l f =>
      cases f with
      | conn c op =>
          have hf : op.isFunctor = true := hi.1.2.2.1
          cases op <;> first | rfl | cases hf
      | removeConnectionInLoop c => cases hs
      | user k => rfl
  | runThere l f =>
      cases f with
      | removeConnectionInLoop c => cases hs
      | _ => rfl
  | accept | accepted | removeConnection | remove | create | created => cases hs
  | _ => rfl

/-- Only the loop leads to handlers. -/
theorem handles_follows (hi : s.instrHome t i) (h : Follows s t i j) (hh : i.handles = false) :
    j.handles = false := by
  cases h with
  | conn c op _ hp =>
      cases hp with
      | conn op' hop => cases op <;> cases op' <;> first | rfl | (cases hop; done) | cases hh
      | _ => rfl
  | handler => cases hh
  | runHere l f =>
      cases f with
      | conn c op =>
          have hf : op.isFunctor = true := hi.1.2.2.1
          cases op <;> first | rfl | cases hf
      | _ => rfl
  | _ => rfl

/-- What user code asks for does not use the server, and handles nothing. -/
theorem asked_calm {v : UserCall} (h : Asked s t v j) : j.serves = false ∧ j.handles = false := by
  cases h <;> exact ⟨rfl, rfl⟩

/-- What lies below the others comes of what lies below the others. -/
theorem outermost_follows (h : Follows s t i j) (hj : j.outermost = true) :
    i = .destroyEntries := by
  cases h with
  | conn c op _ hp => cases hp <;> cases hj
  | runHere l f => cases f <;> cases hj
  | entries | acceptor => rfl
  | _ => cases hj

/-! ## The acceptor -/

/-- The acceptor's channel and its registration agree, until `~Acceptor`. -/
def AcceptorAgrees (s : Process) : Prop :=
  s.pollers 0 (s.chans .acceptor).fd = (s.chans .acceptor).slot .acceptor

/-- What the kernel holds of the acceptor. -/
def acceptorEpoll (s : Process) : Option (EventMask × Chan) :=
  (s.pollers 0 (s.chans .acceptor).fd).epoll

/-- Only `~Acceptor` touches the acceptor's registration. -/
theorem exec_acceptor (hw : Wf s) (hi : s.instrHome t i) (h : Exec s t o i s₁ is)
    (hne : i ≠ .destroyAcceptor) : s₁.chans .acceptor = s.chans .acceptor ∧
      s₁.pollers 0 (s.chans .acceptor).fd = s.pollers 0 (s.chans .acceptor).fd := by
  cases h with
  | conn c op k is h =>
      have hch : Chan.acceptor ≠ .conn c := nofun
      refine ⟨Function.update_of_ne hch k.channel s.chans, ?_⟩
      show Function.update s.pollers (s.conns c).loop _ 0 _ = _
      by_cases hl : (0 : LoopId) = (s.conns c).loop
      · rw [← hl, Function.update_self, Function.update_of_ne]
        exact Nat.ne_of_lt (Nat.lt_of_lt_of_le hw.acceptorFd (hw.fd_ge c hi.1))
      · rw [Function.update_of_ne hl]
  | create fd ho hlife hf hid =>
      have hch : Chan.acceptor ≠ .conn s.created := nofun
      exact ⟨Function.update_of_ne hch (Channel.create fd) s.chans, rfl⟩
  | destroyAcceptor p q hp hq => exact absurd rfl hne
  | _ => exact ⟨rfl, rfl⟩

/-- Any step but `~Acceptor` keeps the acceptor's registration. -/
theorem step_acceptor (hw : Wf s) (hs : Step s a s')
    (hne : ∀ t o rest, a = .run t o → s.stack t ≠ .destroyAcceptor :: rest) :
    ∃ r, s'.chans .acceptor = (s.chans .acceptor).setRevents r ∧
      s'.pollers 0 (s.chans .acceptor).fd = s.pollers 0 (s.chans .acceptor).fd := by
  cases hs with
  | run t o i rest s₁ is hst he =>
      obtain ⟨h₁, h₂⟩ := exec_acceptor hw (hw.stack t i (mem_stack hst)) he
        fun e => hne t o rest rfl (e ▸ hst)
      exact ⟨(s.chans .acceptor).revents, h₁, h₂⟩
  | user t v s₁ is hu hcall =>
      obtain ⟨held, server, rfl, _⟩ := called_same hcall
      exact ⟨(s.chans .acceptor).revents, rfl, rfl⟩
  | poll l events l' hst hev hnd hl hs =>
      obtain ⟨r, hr⟩ := setRevents_eq s.chans events .acceptor
      exact ⟨r, hr, rfl⟩
  | _ => exact ⟨(s.chans .acceptor).revents, rfl, rfl⟩

/-- **`~Acceptor` leaves nothing** of the acceptor in the poller. -/
theorem acceptor_drop (hag : s.AcceptorAgrees) {p q : Slot Chan × Channel}
    (hp : (s.chans .acceptor).disableAll (s.pollers 0 (s.chans .acceptor).fd) .acceptor = some p)
    (hq : p.2.remove p.1 .acceptor = some q) :
    ((s.dropAcceptor q).chans .acceptor).fd = (s.chans .acceptor).fd ∧
      ((s.dropAcceptor q).chans .acceptor).index = .kNew ∧
      (s.dropAcceptor q).pollers 0 (s.chans .acceptor).fd = Slot.empty := by
  rw [chans_dropAcceptor_self, pollers_dropAcceptor_self]
  rw [hag, Channel.disableAll, Channel.updateChannel_slot] at hp
  cases hp
  rw [Channel.remove, Channel.removeChannel_slot] at hq
  cases hq
  exact ⟨rfl, rfl, rfl⟩

theorem acceptorEpoll_drop (hag : s.AcceptorAgrees) {p q : Slot Chan × Channel}
    (hp : (s.chans .acceptor).disableAll (s.pollers 0 (s.chans .acceptor).fd) .acceptor = some p)
    (hq : p.2.remove p.1 .acceptor = some q) : (s.dropAcceptor q).acceptorEpoll = none := by
  obtain ⟨hfd, _, hslot⟩ := acceptor_drop hag hp hq
  unfold acceptorEpoll
  rw [hfd, hslot]
  rfl

/-! ## Before and after the end -/

/-- **While `~TcpServer` runs**: the base loop's thread does nothing else, and the sub loops not
    joined yet are still to be joined. -/
structure Destroying (s : Process) : Prop where
  calm : ∀ i ∈ s.stack (.loop 0), i.serves = false ∧ i.handles = false
  active : s.active 0 = []
  joins : .destroyEntries ∈ s.stack (.loop 0) ∨ .destroyAcceptor ∈ s.stack (.loop 0) ∧
    ∀ l, 0 < l → l ≤ s.numLoops → .destroyThread l ∈ s.stack (.loop 0) ∨
      .join l ∈ s.stack (.loop 0) ∨ s.threadDone l = true

/-- **Once `~TcpServer` has returned**: the sub loops are gone, and nothing is left that uses the
    server. -/
structure Over (s : Process) : Prop where
  stack : ∀ i ∈ s.stack (.loop 0), i.serves = false ∧ i.handles = false ∧ i.destroys = false
  queue : ∀ c, .removeConnectionInLoop c ∉ (s.loops 0).queue
  active : ∀ ch ∈ s.active 0, ∃ l, ch = .wakeup l
  acceptor : s.acceptorEpoll = none
  threads : ∀ l, 0 < l → l ≤ s.numLoops → s.threadDone l = true

/-- **The server and its end.** -/
structure ServerEnd (s : Process) : Prop where
  users : ∀ u, ∀ i ∈ s.stack (.user u), i.serves = false
  outermost : Outermost (s.stack (.loop 0))
  acceptor : s.server.life ≠ .dead → s.AcceptorAgrees
  destroying : s.server.life = .destroying → s.Destroying
  ended : s.server.life = .dead → s.Over

/-- `~TcpServer` is called outside the callbacks of the server's connections. -/
def DestroyedOutside (s : Process) (a : Label) : Prop :=
  a = .user (.loop 0) .destroyServer → ∀ c, .callback (some c) ∉ s.stack (.loop 0)

/-- No `RemoveConnectionInLoop` waits in the base loop's queue when `~TcpServer` comes to its
    end. -/
def EndsDrained (s : Process) (a : Label) : Prop :=
  ∀ o rest, a = .run (.loop 0) o → s.stack (.loop 0) = .destroyAcceptor :: rest →
    ∀ c, .removeConnectionInLoop c ∉ (s.loops 0).queue

/-- Behind `~TcpServer`, the base loop polls with no connection registered. -/
def PollsNone (s : Process) (a : Label) : Prop :=
  ∀ events, a = .poll 0 events → s.server.life = .dead →
    ∀ c < s.created, (s.pollers 0 (s.fd c)).epoll = none

/-- What has returned has returned. -/
theorem threadDone_step (hs : Step s a s') {l : LoopId} (h : s.threadDone l = true) :
    s'.threadDone l = true := by
  cases hs with
  | run t o i rest s₁ is hst he => exact (congrFun (exec_kept he).2.2.2 l).trans h
  | user t v s₁ is hu hcall =>
      obtain ⟨held, server, rfl, _⟩ := called_same hcall
      exact h
  | threadEnd m h0 hl hst hp =>
      show Function.update s.threadDone m true l = true
      by_cases e : l = m
      · rw [e, Function.update_self]
      · rw [Function.update_of_ne e, h]
  | _ => exact h

/-- A user's thread does not use the server. -/
theorem users_step (hw : Wf s) (h : ∀ u, ∀ i ∈ s.stack (.user u), i.serves = false)
    (hs : Step s a s') (u : Nat) (hj : j ∈ s'.stack (.user u)) : j.serves = false := by
  rcases mem_stack_step hs hj with hj | hp
  · exact h u j hj
  · cases hp with
    | exec _ o i rest hst _ hfol =>
        have hmem : i ∈ s.stack (.user u) := mem_stack hst
        have hi := hw.stack _ i hmem
        refine serves_follows hi (fun c e => ?_) hfol (h u i hmem)
        subst e
        exact hi.2.elim nofun nofun
    | call _ v _ ha => exact (asked_calm ha).1

theorem outermost_step (hcl : s.Closing) (h : Outermost (s.stack (.loop 0)))
    (hs : Step s a s') : Outermost (s'.stack (.loop 0)) := by
  have hsub : ∀ {t : ThreadId} {xs : List Instr}, (t = .loop 0 → Outermost xs) →
      Outermost (Function.update s.stack t xs (.loop 0)) := by
    intro t xs hx
    by_cases e : t = .loop 0
    · subst e
      rw [Function.update_self]
      exact hx rfl
    · rw [Function.update_of_ne (Ne.symm e)]
      exact h
  cases hs with
  | run t o i rest s₁ is hst he =>
      show Outermost (Function.update s₁.stack t (is ++ rest) (.loop 0))
      rw [exec_stack he]
      refine hsub fun e => ?_
      subst e
      rw [hst] at h
      by_cases hi : i = .destroyEntries
      · subst hi
        cases he with
        | quiet _ _ hq => cases hq
        | loop _ l b l' _ hl => cases hl
        | entry c ho hc => exact ⟨nofun, nofun, fun _ => h.1 rfl, h.2⟩
        | lastEntry ho hn =>
            rw [List.append_assoc]
            refine outermost_append (fun k hk => ?_) ⟨fun _ => h.1 rfl, h.2⟩
            obtain ⟨n, _, rfl⟩ := List.mem_map.mp hk
            rfl
      · exact outermost_append (fun k hk => Bool.eq_false_iff.mpr fun ho =>
          hi (outermost_follows (exec_follows he k hk) ho)) h.2
  | user t v s₁ is hu hcall =>
      have hasked := called_asked hcall
      have hk : s₁.stack = s.stack := by cases hcall <;> rfl
      show Outermost (Function.update s₁.stack t (is ++ s.stack t) (.loop 0))
      rw [hk]
      refine hsub fun e => ?_
      subst e
      cases hcall with
      | destroyServer ht hlive =>
          exact ⟨fun _ k hk => Bool.eq_false_iff.mpr fun hd => hcl _ k hk hd hlive, h⟩
      | _ => exact outermost_append (fun k hk => by cases hasked k hk <;> rfl) h
  | ret t arg rest hst =>
      refine hsub fun e => ?_
      subst e
      rw [hst] at h
      exact h.2
  | loop l b l' hst hact hb hl hs =>
      refine hsub fun _ => ?_
      unfold nextInstr
      split
      · split
        · rename_i f fs hph
          exact ⟨fun hf => (by cases f <;> cases hf), trivial⟩
        · trivial
      · trivial
  | dispatch l ch rest hst hact => exact hsub fun _ => ⟨nofun, trivial⟩
  | poll l events l' hst hev hnd hl hs => exact h
  | threadEnd l h0 hl hst hp => exact h

/-- What a step does to the server's life. -/
theorem life_step (hs : Step s a s') : s'.server.life = s.server.life ∨
    (a = .user (.loop 0) .destroyServer ∧ s.server.life = .live ∧ s'.server.life = .destroying) ∨
    ∃ t o rest, a = .run t o ∧ s.stack t = .destroyAcceptor :: rest ∧ s'.server.life = .dead := by
  cases hs with
  | run t o i rest s₁ is hst he =>
      rcases exec_life he with e | ⟨rfl, e⟩
      · exact Or.inl e
      · exact Or.inr (Or.inr ⟨t, o, rest, rfl, hst, e⟩)
  | user t v s₁ is hu hcall =>
      cases hcall with
      | destroyServer ht hlive => exact Or.inr (Or.inl ⟨by rw [ht], hlive, rfl⟩)
      | _ => exact Or.inl rfl
  | _ => exact Or.inl rfl

/-- `~TcpServer` ends with the destruction of the acceptor. -/
theorem dead_of_destroyAcceptor (hst : s.stack t = .destroyAcceptor :: rest)
    (hs : Step s (.run t o) s') : s'.server.life = .dead := by
  cases hs with
  | run _ _ i rest' s₁ is hst' he =>
      rw [hst] at hst'
      cases hst'
      cases he with
      | quiet _ _ hq => cases hq
      | loop _ l b l' _ hi => cases hi
      | destroyAcceptor p q hp hq => rfl

theorem numLoops_step (hs : Step s a s') : s'.numLoops = s.numLoops := by
  cases hs with
  | run t o i rest s₁ is hst he => cases he <;> rfl
  | user t v s₁ is hu hcall => cases hcall <;> rfl
  | _ => rfl

theorem Destroying.busy (h : s.Destroying) : s.stack (.loop 0) ≠ [] := by
  intro e
  rcases h.joins with hm | ⟨hm, _⟩ <;> (rw [e] at hm; exact absurd hm List.not_mem_nil)

/-- **The base loop's thread, in `~TcpServer`**, executes what is on its stack, and user code. -/
theorem destroying_pushed (h : s.Destroying) (hs : Step s a s') (hj : Pushed s a (.loop 0) j) :
    (∃ o i rest, a = .run (.loop 0) o ∧ s.stack (.loop 0) = i :: rest ∧ Follows s (.loop 0) i j) ∨
      ∃ v, a = .user (.loop 0) v ∧ Asked s (.loop 0) v j := by
  have hbusy := h.busy
  cases hj with
  | exec _ o i rest hst _ hfol => exact Or.inl ⟨o, i, rest, rfl, hst, hfol⟩
  | call _ v _ ha => exact Or.inr ⟨v, rfl, ha⟩
  | functor l b f rest hph =>
      cases hs with
      | loop _ _ l' hst => exact absurd hst hbusy
  | event l ch hch =>
      cases hs with
      | dispatch _ _ rest hst => exact absurd hst hbusy

/-- A part of `~TcpServer` stays on the stack until it is executed. -/
theorem destroys_stays (hs : Step s a s') (hd : i.destroys = true) (hi : i ∈ s.stack (.loop 0)) :
    i ∈ s'.stack (.loop 0) ∨ ∃ o rest s₁ is, a = .run (.loop 0) o ∧
      s.stack (.loop 0) = i :: rest ∧ Exec s (.loop 0) o i s₁ is ∧
      s'.stack (.loop 0) = is ++ rest := by
  rcases stack_stays hs hi with hi | ⟨rest, hst, ⟨o, rfl⟩ | rfl⟩
  · exact Or.inl hi
  · right
    cases hs with
    | run _ _ i' rest' s₁ is hst' he =>
        rw [hst] at hst'
        cases hst'
        exact ⟨o, rest, s₁, is, rfl, hst, he, stack_setStack_self _ _ _⟩
  · cases hs with
    | ret _ arg rest' hst' =>
        rw [hst] at hst'
        cases hst'
        cases hd

/-- While the loop's thread is busy, nothing more of what `Poll` reported is handled. -/
theorem active_busy {l : LoopId} (hs : Step s a s') (hbusy : s.stack (.loop l) ≠ []) :
    s'.active l = s.active l := by
  have hset : ∀ {m : LoopId} {xs : List Chan}, s.stack (.loop m) = [] →
      Function.update s.active m xs l = s.active l := by
    intro m xs hst
    refine Function.update_of_ne ?_ _ _
    rintro rfl
    exact hbusy hst
  cases hs with
  | run t o i rest s₁ is hst he => exact congrFun (exec_kept he).2.1 l
  | user t v s₁ is hu hcall =>
      obtain ⟨held, server, rfl, _⟩ := called_same hcall
      rfl
  | poll m events l' hst hev hnd hl hs => exact hset hst
  | dispatch m ch rest hst hact => exact hset hst
  | _ => rfl

/-- **`~TcpServer` goes on.** -/
theorem destroying_step (hw : Wf s) (h : s.Destroying) (hs : Step s a s')
    (hend : ∀ t o rest, a = .run t o → s.stack t ≠ .destroyAcceptor :: rest) :
    s'.Destroying := by
  refine ⟨fun k hk => ?_, (active_busy hs h.busy).trans h.active, ?_⟩
  · rcases mem_stack_step hs hk with hk | hp
    · exact h.calm k hk
    · rcases destroying_pushed h hs hp with ⟨o, i, rest, rfl, hst, hfol⟩ | ⟨v, rfl, ha⟩
      · have hmem : i ∈ s.stack (.loop 0) := mem_stack hst
        obtain ⟨hsv, hhd⟩ := h.calm i hmem
        have hi := hw.stack _ i hmem
        refine ⟨serves_follows hi (fun c e => ?_) hfol hsv, handles_follows hi hfol hhd⟩
        rw [e] at hhd
        cases hhd
      · exact asked_calm ha
  · rw [numLoops_step hs]
    rcases h.joins with hm | ⟨hm, hall⟩
    · rcases destroys_stays hs rfl hm with hm | ⟨o, rest, s₁, is, rfl, hst, he, hst'⟩
      · exact Or.inl hm
      · rw [hst']
        cases he with
        | quiet _ _ hq => cases hq
        | loop _ l b l' _ hl => cases hl
        | entry c ho hc => exact Or.inl (List.mem_append_left _ (by simp))
        | lastEntry ho hn =>
            refine Or.inr ⟨List.mem_append_left _ (by simp), fun l h0 hl => Or.inl ?_⟩
            refine List.mem_append_left _ (List.mem_append_left _ ?_)
            refine List.mem_map.mpr ⟨l - 1, ?_, ?_⟩
            · exact List.mem_range.mpr (by omega)
            · rw [Nat.sub_add_cancel h0]
    · right
      refine ⟨?_, fun l h0 hl => ?_⟩
      · rcases destroys_stays hs rfl hm with hm | ⟨o, rest, _, _, e, hst, _⟩
        · exact hm
        · exact absurd hst (hend _ o rest e)
      · rcases hall l h0 hl with hm | hm | hd
        · rcases destroys_stays hs rfl hm with hm | ⟨o, rest, s₁, is, rfl, hst, he, hst'⟩
          · exact Or.inl hm
          · cases he with
            | quiet _ _ hq =>
                cases hq with
                | destroyThread =>
                    rw [hst']
                    exact Or.inr (Or.inl (List.mem_cons_of_mem _ List.mem_cons_self))
                | threadGone _ hd => exact Or.inr (Or.inr (threadDone_step hs hd))
            | loop _ l b l' _ hl => cases hl
        · rcases destroys_stays hs rfl hm with hm | ⟨o, rest, s₁, is, rfl, hst, he, hst'⟩
          · exact Or.inr (Or.inl hm)
          · cases he with
            | quiet _ _ hq =>
                cases hq with
                | joined _ hd => exact Or.inr (Or.inr (threadDone_step hs hd))
            | loop _ l b l' _ hl => cases hl
        · exact Or.inr (Or.inr (threadDone_step hs hd))

/-- **`~TcpServer` begins**, with nothing below it but functors of the user's. -/
theorem destroying_begin (hf : s.Frames) (hs : Step s (.user (.loop 0) .destroyServer) s')
    (hout : ∀ c, .callback (some c) ∉ s.stack (.loop 0)) : s'.Destroying := by
  cases hs with
  | user _ _ s₁ is hu hcall =>
      cases hcall with
      | destroyServer ht hlive =>
          obtain ⟨hdis, hbare⟩ := (nested_call hf hu).resolve_left fun ⟨c, hc⟩ => hout c hc
          have hact : s.active 0 = [] := by
            by_contra hne
            rw [hf.active 0 hne] at hdis
            cases hdis
          refine ⟨fun k hk => ?_, hact, Or.inl ?_⟩
          · rw [stack_setStack_self] at hk
            rcases List.mem_cons.mp hk with rfl | hk
            · exact ⟨rfl, rfl⟩
            · rw [hbare k hk]
              exact ⟨rfl, rfl⟩
          · rw [stack_setStack_self]
            exact List.mem_cons_self

/-- **`~TcpServer` ends**: with the queue drained, nothing is left that uses the server. -/
theorem over_begin (hag : s.AcceptorAgrees) (hout : Outermost (s.stack (.loop 0)))
    (h : s.Destroying) (hst : s.stack (.loop 0) = .destroyAcceptor :: rest)
    (hdrained : ∀ c, .removeConnectionInLoop c ∉ (s.loops 0).queue)
    (hs : Step s (.run (.loop 0) o) s') : s'.Over := by
  have hrest : ∀ j ∈ rest, j.destroys = false := by
    rw [hst] at hout
    exact hout.1 rfl
  have hgone : ∀ j, j ∈ s.stack (.loop 0) → j.destroys = true → j = .destroyAcceptor := by
    intro j hj hd
    rw [hst] at hj
    refine (List.mem_cons.mp hj).resolve_right fun hj => ?_
    rw [hrest j hj] at hd
    cases hd
  cases hs with
  | run _ _ i rest' s₁ is hst' he =>
      rw [hst] at hst'
      cases hst'
      cases he with
      | quiet _ _ hq => cases hq
      | loop _ l b l' _ hl => cases hl
      | destroyAcceptor p q hp hq =>
          refine ⟨fun j hj => ?_, hdrained, fun ch hch => ?_, acceptorEpoll_drop hag hp hq,
            fun l h0 hl => ?_⟩
          · rw [stack_setStack_self] at hj
            obtain ⟨hsv, hhd⟩ := h.calm j (by rw [hst]; exact List.mem_cons_of_mem _ hj)
            exact ⟨hsv, hhd, hrest j hj⟩
          · have hact : s.active 0 = [] := h.active
            change ch ∈ s.active 0 at hch
            rw [hact] at hch
            exact absurd hch List.not_mem_nil
          · rcases h.joins with hm | ⟨_, hall⟩
            · cases hgone _ hm rfl
            · rcases hall l h0 hl with hm | hm | hd
              · cases hgone _ hm rfl
              · cases hgone _ hm rfl
              · exact hd

/-- A sub loop's thread has nothing to do any more. -/
theorem Over.idle (h : s.Over) (hf : s.Frames) {l : LoopId} (h0 : 0 < l) :
    s.stack (.loop l) = [] := by
  refine (hf.gone l ?_).1
  unfold hasLoop
  by_cases hl : l ≤ s.numLoops
  · rw [h.threads l h0 hl, Bool.not_true, Bool.and_false]
  · rw [decide_eq_false hl, Bool.false_and]

/-- What comes onto the base loop's stack behind the end does not use the server. -/
theorem over_pushed {i : Instr} (hw : Wf s) (hlife : s.server.life = .dead) (h : s.Over)
    (hp : Pushed s a (.loop 0) i) :
    i.serves = false ∧ i.handles = false ∧ i.destroys = false := by
  cases hp with
  | exec _ o j rest hst _ hfol =>
      have hmem : j ∈ s.stack (.loop 0) := mem_stack hst
      obtain ⟨hsv, hhd, hds⟩ := h.stack j hmem
      have hj := hw.stack _ j hmem
      refine ⟨serves_follows hj (fun c e => ?_) hfol hsv, handles_follows hj hfol hhd,
        Bool.eq_false_iff.mpr fun hd => ?_⟩
      · rw [e] at hhd
        cases hhd
      · rw [destroys_follows hfol hd] at hds
        cases hds
  | call _ v _ ha =>
      refine ⟨(asked_calm ha).1, (asked_calm ha).2, ?_⟩
      cases ha with
      | destroyServer ht hlive =>
          rw [hlife] at hlive
          cases hlive
      | _ => rfl
  | functor l b f rest hph =>
      have hfq : f ∈ (s.loops 0).queue := by
        rw [EventLoop.queue, hph]
        exact List.mem_append_left _ List.mem_cons_self
      cases f with
      | conn c op =>
          have hop : op.isFunctor = true := (hw.queue 0 _ hfq).2.2.1
          cases op <;> first | exact ⟨rfl, rfl, rfl⟩ | cases hop
      | removeConnectionInLoop c => exact absurd hfq (h.queue c)
      | user k => exact ⟨rfl, rfl, rfl⟩
  | event l ch hch =>
      obtain ⟨m, rfl⟩ := h.active ch hch
      exact ⟨rfl, rfl, rfl⟩

/-- Nobody hands over a `RemoveConnectionInLoop` behind the end. -/
theorem over_queue {c : ConnId} (hf : s.Frames)
    (hu : ∀ u, ∀ i ∈ s.stack (.user u), i.serves = false) (h : s.Over) (hs : Step s a s') :
    .removeConnectionInLoop c ∉ (s'.loops 0).queue := by
  intro hc
  rcases queue_grows hs hc with hc | ⟨t, rest, hst⟩
  · exact h.queue c hc
  · have hmem : Instr.queueInLoop 0 (.removeConnectionInLoop c) ∈ s.stack t := mem_stack hst
    have hsv : (Instr.queueInLoop 0 (.removeConnectionInLoop c)).serves = false := by
      cases t with
      | user u => exact hu u _ hmem
      | loop l =>
          rcases Nat.eq_zero_or_pos l with rfl | h0
          · exact (h.stack _ hmem).1
          · rw [h.idle hf h0] at hst
            cases hst
    cases hsv

/-- **After the end**, nothing that uses the server comes up. -/
theorem over_step (hw : Wf s) (hf : s.Frames) (hu : ∀ u, ∀ i ∈ s.stack (.user u), i.serves = false)
    (hlife : s.server.life = .dead) (h : s.Over) (hC : PollsNone s a) (hs : Step s a s') :
    s'.Over := by
  have hne : ∀ t o rest, a = .run t o → s.stack t ≠ .destroyAcceptor :: rest := by
    intro t o rest _ hst
    have hmem : Instr.destroyAcceptor ∈ s.stack t := mem_stack hst
    have ht : t = .loop 0 := hw.stack t _ hmem
    have := (h.stack _ (ht ▸ hmem)).2.2
    cases this
  refine ⟨fun j hj => ?_, fun c => over_queue hf hu h hs, fun ch hch => ?_, ?_, fun l h0 hl => ?_⟩
  · exact (mem_stack_step hs hj).elim (h.stack j) (over_pushed hw hlife h)
  · rcases active_grows hs hch with hch | ⟨⟨events, rfl⟩, e, he, hptr⟩
    · exact h.active ch hch
    · cases ch with
      | wakeup l => exact ⟨l, rfl⟩
      | acceptor =>
          have hnone : (s.pollers 0 (s.chans .acceptor).fd).epoll = none := h.acceptor
          rw [hnone] at he
          cases he
      | conn c =>
          have hhome := hw.epoll 0 _ e he
          rw [hptr] at hhome
          rw [hC events rfl hlife c hhome.1] at he
          cases he
  · obtain ⟨r, hch, hslot⟩ := step_acceptor hw hs hne
    show (s'.pollers 0 (s'.chans .acceptor).fd).epoll = none
    rw [hch]
    exact (congrArg Slot.epoll hslot).trans h.acceptor
  · rw [numLoops_step hs] at hl
    exact threadDone_step hs (h.threads l h0 hl)

/-- **The server and its end**, step by step. -/
theorem serverEnd_step (hw : Wf s) (hf : s.Frames) (hcl : s.Closing) (h : s.ServerEnd)
    (hout : DestroyedOutside s a) (hdrained : EndsDrained s a) (hpolls : PollsNone s a)
    (hs : Step s a s') : s'.ServerEnd := by
  have hhome : ∀ {t rest}, s.stack t = .destroyAcceptor :: rest → t = .loop 0 := fun {t _} hst =>
    hw.stack t .destroyAcceptor (mem_stack hst)
  -- where `~Acceptor` is executed, the server is being destroyed
  have hdes : ∀ {rest}, s.stack (.loop 0) = .destroyAcceptor :: rest →
      s.server.life = .destroying := by
    intro rest hst
    have hmem : Instr.destroyAcceptor ∈ s.stack (.loop 0) := mem_stack hst
    cases hl : s.server.life with
    | live => exact absurd hl (hcl _ _ hmem rfl)
    | destroying => rfl
    | dead =>
        have := ((h.ended hl).stack _ hmem).2.2
        cases this
  refine ⟨fun u i hi => users_step hw h.users hs u hi, outermost_step hcl h.outermost hs,
    ?_, ?_, ?_⟩
  · intro hl
    have hne : ∀ t o rest, a = .run t o → s.stack t ≠ .destroyAcceptor :: rest := by
      rintro t o rest rfl hst
      exact hl (dead_of_destroyAcceptor hst hs)
    have hold : s.server.life ≠ .dead := by
      rcases life_step hs with e | ⟨_, e, _⟩ | ⟨t, o, rest, ha, hst, _⟩
      · exact e ▸ hl
      · rw [e]
        nofun
      · exact absurd hst (hne t o rest ha)
    obtain ⟨r, hch, hslot⟩ := step_acceptor hw hs hne
    unfold AcceptorAgrees
    rw [hch]
    exact hslot.trans (h.acceptor hold)
  · intro hl
    rcases life_step hs with e | ⟨rfl, _, _⟩ | ⟨t, o, rest, ha, hst, e⟩
    · refine destroying_step hw (h.destroying (e ▸ hl)) hs ?_
      rintro t o rest rfl hst
      rw [dead_of_destroyAcceptor hst hs] at hl
      cases hl
    · exact destroying_begin hf hs (hout rfl)
    · rw [e] at hl
      cases hl
  · intro hl
    rcases life_step hs with e | ⟨_, _, e⟩ | ⟨t, o, rest, rfl, hst, _⟩
    · have hold : s.server.life = .dead := e ▸ hl
      exact over_step hw hf h.users hold (h.ended hold) hpolls hs
    · rw [e] at hl
      cases hl
    · cases hhome hst
      have hd := hdes hst
      exact over_begin (h.acceptor (by rw [hd]; nofun)) h.outermost (h.destroying hd) hst
        (hdrained o rest rfl hst) hs

/-- **With sub loops, no connection is the base loop's.** -/
def OffBase (s : Process) : Prop := 0 < s.numLoops → ∀ c < s.created, (s.conns c).loop ≠ 0

theorem offBase_step (hw : Wf s) (h : s.OffBase) (hs : Step s a s') : s'.OffBase := by
  intro h0 c hc
  rw [numLoops_step hs] at h0
  by_cases hold : c < s.created
  · rw [(wf_step hw hs).2.loop hold]
    exact h h0 c hold
  · cases hs with
    | run t o i rest s₁ is hst he =>
        cases he with
        | create fd ho hlife hf hid =>
            have e : c = s.created := Nat.le_antisymm (Nat.lt_succ_iff.mp hc) (Nat.not_lt.mp hold)
            have hconn : ((s.newConnection fd).1.conns c).loop =
                (s.server.getNextLoop s.numLoops).1 := by
              rw [e]
              exact congrArg (fun k => k.conn.loop) (ctx_newConnection_self hw.toStored hf)
            show ((s.newConnection fd).1.conns c).loop ≠ 0
            rw [hconn, TcpServer.getNextLoop, if_neg (Nat.ne_of_gt h0)]
            exact Nat.succ_ne_zero _
        | _ => exact absurd hc hold
    | user t v s₁ is hu hcall =>
        obtain ⟨held, server, rfl, _⟩ := called_same hcall
        exact absurd hc hold
    | _ => exact absurd hc hold

/-- With sub loops, the base loop always polls with no connection registered. -/
theorem OffBase.pollsNone (h : s.OffBase) (hw : Wf s) (h0 : 0 < s.numLoops) : PollsNone s a := by
  intro _ _ _ c hc
  rw [hw.free 0 (s.fd c) (hw.fd_ge c hc) fun d hd hl => absurd hl (h h0 d hd)]
  rfl

section Runs

variable {name : List Char} {addr : InetAddress} {numLoops : Nat} {writeComplete : Bool}
  {tr : List (Process × Label)}

theorem serverEnd_init : (init name addr numLoops writeComplete).ServerEnd := by
  refine ⟨fun _ _ hi => absurd hi List.not_mem_nil, trivial, fun _ => ?_, nofun, nofun⟩
  simp [AcceptorAgrees, init, listening, Channel.create]

/-- **The server and its end**, in every run that ends it the way it should. -/
theorem serverEnd_run (h : Run step (init name addr numLoops writeComplete) tr s)
    (hout : ∀ p ∈ tr, DestroyedOutside p.1 p.2) (hdrained : ∀ p ∈ tr, EndsDrained p.1 p.2)
    (hpolls : numLoops = 0 → ∀ p ∈ tr, PollsNone p.1 p.2) :
    s.numLoops = numLoops ∧ s.OffBase ∧ s.ServerEnd := by
  induction h with
  | start => exact ⟨rfl, fun _ c hc => absurd hc (Nat.not_lt_zero c), serverEnd_init⟩
  | step tr s a s' h hs ih =>
      obtain ⟨hn, hoff, hend⟩ := ih (fun p hp => hout p (List.mem_cons_of_mem _ hp))
        (fun p hp => hdrained p (List.mem_cons_of_mem _ hp))
        fun e p hp => hpolls e p (List.mem_cons_of_mem _ hp)
      have hw := wf_run h
      have hs := of_step hs
      have hpoll : PollsNone s a := by
        rcases Nat.eq_zero_or_pos numLoops with e | h0
        · exact hpolls e (s, a) List.mem_cons_self
        · exact hoff.pollsNone hw (hn ▸ h0)
      exact ⟨(numLoops_step hs).trans hn, offBase_step hw hoff hs,
        serverEnd_step hw (frames_run h) (closing_run h) hend (hout (s, a) List.mem_cons_self)
          (hdrained (s, a) List.mem_cons_self) hpoll hs⟩

/-- **Nothing uses the server after its end.** In every run in which `~TcpServer` is called outside
    the callbacks of the server's connections, comes to its end with no `RemoveConnectionInLoop` in
    the base loop's queue, and (without sub loops) leaves no connection the base loop could still
    poll: once `~TcpServer` has returned, no thread executes a member function of the server or of
    its acceptor. -/
theorem no_use_after_end (h : Run step (init name addr numLoops writeComplete) tr s)
    (hout : ∀ p ∈ tr, DestroyedOutside p.1 p.2) (hdrained : ∀ p ∈ tr, EndsDrained p.1 p.2)
    (hpolls : numLoops = 0 → ∀ p ∈ tr, PollsNone p.1 p.2) (hd : s.server.life = .dead)
    (hst : s.stack t = i :: rest) : i.usesServer = false := by
  have hend := (serverEnd_run h hout hdrained hpolls).2.2
  have hmem : i ∈ s.stack t := mem_stack hst
  have hsv : i.serves = false := by
    cases t with
    | user u => exact hend.users u i hmem
    | loop l =>
        rcases Nat.eq_zero_or_pos l with rfl | h0
        · exact ((hend.ended hd).stack i hmem).1
        · rw [(hend.ended hd).idle (frames_run h) h0] at hst
          cases hst
  exact Bool.eq_false_iff.mpr fun hu => by
    rw [serves_of_usesServer hu] at hsv
    cases hsv

/-- A server with one sub loop, started. -/
def twoLoops : Process := init ['s'] ⟨127, 0, 0, 1, 80⟩ 1 false

/-- The sub loop's connection hangs up; the base loop runs `RemoveConnectionInLoop`, and behind it,
    in the same batch, a functor of the user's destroys the server. The base loop goes on. -/
def endRun : List Label := List.flatten
  [[.loop 0 .enterLoop, .loop 0 .test, .poll 0 [(.acceptor, epollIn)], .dispatch 0],
    runs (.loop 0) 1, [.run (.loop 0) (.accept (some 10))], runs (.loop 0) 5,
    [.loop 0 .startFunctors, .loop 0 .swap, .loop 0 .finish, .loop 0 .test,
      .loop 1 .enterLoop, .loop 1 .test, .poll 1 [(.wakeup 1, epollIn)], .dispatch 1],
    runs (.loop 1) 1, [.loop 1 .startFunctors, .loop 1 .swap, .loop 1 (.next (.loop 1))],
    runs (.loop 1) 2, [.ret (.loop 1), .loop 1 .ret, .loop 1 .finish, .loop 1 .test,
      .poll 1 [(.conn 0, epollHup)], .dispatch 1], runs (.loop 1) 3, [.ret (.loop 1)],
    runs (.loop 1) 6, [.user (.user 0) (.queueInLoop 0 0)], runs (.user 0) 2,
    [.poll 0 [(.wakeup 0, epollIn)], .dispatch 0], runs (.loop 0) 1,
    [.loop 0 .startFunctors, .loop 0 .swap, .loop 0 (.next (.loop 0))], runs (.loop 0) 3,
    [.loop 0 .ret, .loop 0 (.next (.loop 0)), .user (.loop 0) .destroyServer,
      .run (.loop 0) (.entry none)], runs (.loop 0) 3,
    [.loop 1 .startFunctors, .loop 1 .swap, .loop 1 (.next (.loop 1))], runs (.loop 1) 2,
    [.loop 1 .ret, .loop 1 .finish, .loop 1 .test, .threadEnd 1], runs (.loop 0) 2,
    [.ret (.loop 0), .loop 0 .ret, .loop 0 .finish, .loop 0 .test,
      .user (.user 0) (.queueInLoop 0 0)], runs (.user 0) 2,
    [.poll 0 [(.wakeup 0, epollIn)], .dispatch 0]]

theorem no_use_after_end_drained : ∃ s i, Machine.exec step twoLoops endRun = some s ∧
    s.server.life = .dead ∧ s.stack (.loop 0) = [i] ∧
    (∃ p ∈ execTrace step twoLoops endRun [],
      (p.1.stack (.loop 0)).head? = some (.removeConnectionInLoop 0)) ∧
    i.usesServer = false := by
  have h : ((Machine.exec step twoLoops endRun).any fun s => decide (s.server.life = .dead ∧
      s.stack (.loop 0) = [.handleEvent (.wakeup 0)])) = true := by decide +kernel
  have hrem : ((execTrace step twoLoops endRun []).any fun p => decide
      ((p.1.stack (.loop 0)).head? = some (.removeConnectionInLoop 0))) = true := by decide +kernel
  have hC : ((execTrace step twoLoops endRun []).all fun p => match p.2 with
      | .user _ .destroyServer => decide (p.1.stack (.loop 0) = [.callback none])
      | .run _ _ => decide ((p.1.stack (.loop 0)).head? = some .destroyAcceptor →
          (p.1.loops 0).queue = [])
      | _ => true) = true := by decide +kernel
  have hC := fun p hp => List.all_eq_true.mp hC p hp
  obtain ⟨s, hs, hb⟩ := (Option.any_eq_true _ _).mp h
  obtain ⟨hd, hst⟩ := of_decide_eq_true hb
  obtain ⟨p, hp, hex⟩ := List.any_eq_true.mp hrem
  refine ⟨s, _, hs, hd, hst, ⟨p, hp, of_decide_eq_true hex⟩,
    no_use_after_end (exec_run .start hs) ?_ ?_ (fun e => absurd e (by decide)) hd hst⟩
  · rintro ⟨s₁, a⟩ hp rfl c hc
    rw [of_decide_eq_true (hC _ hp)] at hc
    cases List.mem_singleton.mp hc
  · rintro ⟨s₁, a⟩ hp o rest rfl hst c hc
    rw [of_decide_eq_true (hC _ hp) (List.head?_eq_some_iff.mpr ⟨rest, hst⟩)] at hc
    exact absurd hc List.not_mem_nil

/-- The sub loop's connection hangs up; before the base loop runs `RemoveConnectionInLoop`, a
    functor of the user's destroys the server there. -/
def lateRun : List Label := List.flatten
  [[.user (.user 0) (.queueInLoop 0 0)], runs (.user 0) 2, [.loop 0 .enterLoop, .loop 0 .test,
      .poll 0 [(.acceptor, epollIn), (.wakeup 0, epollIn)], .dispatch 0], runs (.loop 0) 1,
    [.run (.loop 0) (.accept (some 10))], runs (.loop 0) 5, [.dispatch 0], runs (.loop 0) 1,
    [.loop 0 .startFunctors, .loop 0 .swap, .loop 0 (.next (.loop 0)),
      .loop 1 .enterLoop, .loop 1 .test, .poll 1 [(.wakeup 1, epollIn)], .dispatch 1],
    runs (.loop 1) 1, [.loop 1 .startFunctors, .loop 1 .swap, .loop 1 (.next (.loop 1))],
    runs (.loop 1) 2, [.ret (.loop 1), .loop 1 .ret, .loop 1 .finish, .loop 1 .test,
      .poll 1 [(.conn 0, epollHup)], .dispatch 1], runs (.loop 1) 3, [.ret (.loop 1)],
    runs (.loop 1) 4, [.user (.loop 0) .destroyServer, .run (.loop 0) (.entry (some 0))],
    runs (.loop 0) 4, [.run (.loop 0) (.entry none)], runs (.loop 0) 3, runs (.loop 1) 2,
    [.loop 1 .startFunctors, .loop 1 .swap, .loop 1 (.next (.loop 1))], runs (.loop 1) 2,
    [.loop 1 .ret, .loop 1 .finish, .loop 1 .test, .threadEnd 1], runs (.loop 0) 2,
    [.ret (.loop 0), .loop 0 .ret, .loop 0 .finish, .loop 0 .test,
      .poll 0 [(.wakeup 0, epollIn)], .dispatch 0], runs (.loop 0) 1,
    [.loop 0 .startFunctors, .loop 0 .swap, .loop 0 (.next (.loop 0))]]

/-- **`RemoveConnectionInLoop` executed on a server that is gone.** -/
theorem used_after_end : ¬ ∀ (tr : List (Process × Label)) (s : Process), Run step twoLoops tr s →
    (∀ p ∈ tr, DestroyedOutside p.1 p.2) → s.server.life = .dead →
      ∀ t i rest, s.stack t = i :: rest → i.usesServer = false := by
  intro hall
  have h : ((Machine.exec step twoLoops lateRun).any fun s => decide (s.server.life = .dead ∧
      s.stack (.loop 0) = [.removeConnectionInLoop 0])) = true := by decide +kernel
  have hC : ((execTrace step twoLoops lateRun []).all fun p => match p.2 with
      | .user _ .destroyServer => decide (p.1.stack (.loop 0) = [.callback none])
      | _ => true) = true := by decide +kernel
  obtain ⟨s, hs, hb⟩ := (Option.any_eq_true _ _).mp h
  obtain ⟨hd, hst⟩ := of_decide_eq_true hb
  have hused := hall _ s (exec_run .start hs) ?_ hd _ _ _ hst
  · cases hused
  · rintro ⟨s₁, a⟩ hp rfl c hc
    rw [of_decide_eq_true (List.all_eq_true.mp hC _ hp)] at hc
    cases List.mem_singleton.mp hc

end Runs

end Process

end CuteMuduo
