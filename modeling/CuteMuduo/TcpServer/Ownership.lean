/-
  File:      CuteMuduo/TcpServer/Ownership.lean
  Subject:   WHO OWNS A CONNECTION: the `TcpConnectionPtr`s to it outside the connection itself
             (`OwnedOutside`), and the one in its own `close_callback_`.

  * `owned_of_custody` -- until `ConnectDestroyed` has returned there is one outside, as long as
    the connection's loop is there: its entry, or what leads from there to `ConnectDestroyed`
    (`Custody`);
  * `functors_owned` -- a functor that captures `this` alone is executed on an owned connection, if
    it is executed before `ConnectDestroyed` has returned, in the same batch, or while somebody
    still has a pointer in hand (`InTime`);
  * `functor_unowned` -- where a `SendInLoop` comes in a later batch;
  * `not_destroyed` -- no connection is ever destroyed: its `close_callback_` owns it;
  * `reclaimed_iff` -- so that the open fds are those of the entries of `connections_` as long as
    no entry has been taken, and never again (`leaked`).
-/
import CuteMuduo.TcpServer.Registry

namespace CuteMuduo

open Machine

namespace Process

variable {s s' s₁ : Process} {a : Label} {c : ConnId} {t : ThreadId} {o : Outcome} {i : Instr}
  {is rest : List Instr} {f : Functor}

/-! ## Owners -/

/-- Somebody has a `TcpConnectionPtr` in hand: user code keeps one, or it is a local of a function
    under way or the argument of a callback. -/
inductive InHand (s : Process) (c : ConnId) : Prop where
  | held (h : c ∈ s.held)
  | pointer (t : ThreadId) (h : .release c ∈ s.stack t)
  | argument (t : ThreadId) (h : .callback (some c) ∈ s.stack t)

/-- **A `TcpConnectionPtr` outside the connection**: an entry of `connections_`, the capture of a
    functor that a loop holds or that is being handed over, or one in hand. -/
inductive OwnedOutside (s : Process) (c : ConnId) : Prop where
  | entry (e : List Char × Option ConnId) (he : e ∈ s.server.connections) (hc : e.2 = some c)
  | functor (l : LoopId) (f : Functor) (hl : s.hasLoop l = true) (hf : f ∈ (s.loops l).holds)
      (hc : f.captures = some c)
  | parameter (t : ThreadId) (i : Instr) (hi : i ∈ s.stack t) (f : Functor) (hf : i.hands f)
      (hc : f.captures = some c)
  | inHand (h : s.InHand c)

end Process

/-! ## What is executed with a pointer in hand -/

/-- The functor, or what is left of one, that is executed with a pointer to this connection in
    its capture. -/
def Instr.guarded : Instr → Option ConnId
  | .conn c .connectEstablished | .conn c .connectDestroyed | .conn c .destroySetState
  | .conn c .channelRemove | .conn c .connectionCallback | .removeConnectionInLoop c => some c
  | _ => none

/-- **Below what is guarded** there is the pointer, or it is captured in the batch `fs`. -/
def Covered (fs : List Functor) : List Instr → Prop
  | [] => True
  | i :: rest => (∀ c, i.guarded = some c →
      .release c ∈ rest ∨ ∃ f ∈ fs, f.captures = some c) ∧ Covered fs rest

theorem covered_append {fs : List Functor} {xs ys : List Instr}
    (h : ∀ i ∈ xs, ∀ c, i.guarded = some c → .release c ∈ ys ∨ ∃ f ∈ fs, f.captures = some c)
    (hy : Covered fs ys) : Covered fs (xs ++ ys) := by
  induction xs with
  | nil => exact hy
  | cons i xs ih =>
      refine ⟨fun c hc => ?_, ih fun j hj => h j (List.mem_cons_of_mem _ hj)⟩
      exact (h i List.mem_cons_self c hc).imp_left (List.mem_append_right _)

theorem covered_mem {fs : List Functor} {xs : List Instr} (h : Covered fs xs) {i : Instr}
    (hi : i ∈ xs) {c : ConnId} (hc : i.guarded = some c) :
    .release c ∈ xs ∨ ∃ f ∈ fs, f.captures = some c := by
  induction xs with
  | nil => exact absurd hi List.not_mem_nil
  | cons j xs ih =>
      rcases List.mem_cons.mp hi with rfl | hi
      · exact (h.1 c hc).imp_left (List.mem_cons_of_mem _)
      · exact (ih h.2 hi).imp_left (List.mem_cons_of_mem _)

/-- A functor is called with what it captured. -/
theorem Functor.captures_of_guarded {f : Functor} {c : ConnId} (h : f.instr.guarded = some c)
    (hf : ∀ d op, f = .conn d op → op.isFunctor = true) : f.captures = some c := by
  cases f with
  | conn d op =>
      have hop := hf d op rfl
      cases op <;> first | exact h | (cases h; done) | cases hop
  | removeConnectionInLoop d => exact h
  | user k => cases h

namespace Process

variable {s s' s₁ : Process} {a : Label} {c : ConnId} {t : ThreadId} {o : Outcome} {i : Instr}
  {is rest : List Instr} {f : Functor}

/-- The batch the thread is in. -/
def batchOf (s : Process) : ThreadId → List Functor
  | .loop l => (s.loops l).functors
  | .user _ => []

/-- **Where owners are**: what is left of a batch is held by it, and what is guarded is covered.
    The base loop is there. -/
structure Guarded (s : Process) : Prop where
  base : s.hasLoop 0 = true
  batch : ∀ l, ∀ f ∈ (s.loops l).phase.rest, f ∈ (s.loops l).functors
  covered : ∀ t, Covered (s.batchOf t) (s.stack t)

/-- What an instruction leaves to do is guarded by what guards the instruction, or brings its
    own pointer. -/
theorem exec_covered {fs : List Functor} (hi : s.instrHome t i) (h : Exec s t o i s₁ is)
    (hc : Covered fs (i :: rest)) : Covered fs (is ++ rest) := by
  have hfol := exec_follows h
  -- the guard of `i` guards what it leaves
  have hsame : (∀ j ∈ is, ∀ c, j.guarded = some c → i.guarded = some c) →
      Covered fs (is ++ rest) := fun hg =>
    covered_append (fun j hj c hjc => hc.1 c (hg j hj c hjc)) hc.2
  cases h with
  | conn c op k is he =>
      by_cases hop : op = .handleClose
      · subst hop
        obtain ⟨p, _, e⟩ := Option.map_eq_some_iff.mp he
        cases e
        refine ⟨fun d hd => Or.inl ?_, nofun, nofun, hc.2⟩
        cases hd
        exact List.mem_cons_of_mem _ List.mem_cons_self
      · refine hsame fun j hj d hd => ?_
        cases hfol j hj with
        | conn _ _ _ hp =>
            cases hp with
            | conn op' hl =>
                cases op' <;> first
                  | (cases hd; done)
                  | (cases op <;> first | exact hd | exact absurd rfl hop | cases hl)
            | _ => cases hd
  | quiet _ _ hq =>
      cases hq with
      | runHere l f hl =>
          refine ⟨fun c hg => Or.inl ?_, covered_append (fun j hj c hg => ?_) hc.2⟩
          · have hcap := Functor.captures_of_guarded hg fun d op e => by
              subst e
              exact hi.1.2.2.1
            exact List.mem_append_left _ (by simp [Functor.releases, hcap])
          · unfold Functor.releases at hj
            split at hj
            · rw [List.mem_singleton.mp hj] at hg
              cases hg
            · exact absurd hj List.not_mem_nil
      | handlers c =>
          refine hsame fun j hj d hd => ?_
          cases hfol j hj with
          | handler _ op hop => cases op <;> first | (cases hd; done) | cases hop
      | runThere l f hl =>
          refine hsame fun j hj d hd => ?_
          rw [List.mem_singleton.mp hj] at hd
          cases hd
      | _ => exact hsame fun j hj d hd => by cases hfol j hj <;> cases hd
  | loop _ l b l' _ hl => cases hl <;> exact hsame fun j hj d hd => by cases hfol j hj <;> cases hd
  | _ => exact hsame fun j hj d hd => by cases hfol j hj <;> cases hd

/-- No instruction ends a batch. -/
theorem exec_functors (h : Exec s t o i s₁ is) (l : LoopId) :
    (s₁.loops l).functors = (s.loops l).functors := by
  cases h with
  | loop _ m b m' _ hi hl hb =>
      show (Function.update s.loops m m' l).functors = _
      by_cases e : l = m
      · subst e
        rw [Function.update_self]
        obtain ⟨_, rfl⟩ := EventLoop.step_eq_some.mp hb
        cases hi <;> rfl
      · rw [Function.update_of_ne e]
  | _ => rfl

theorem exec_batchOf (h : Exec s t o i s₁ is) (u : ThreadId) : s₁.batchOf u = s.batchOf u := by
  cases u with
  | loop l => exact exec_functors h l
  | user u => rfl

/-- The functor a loop calls is covered by its batch. -/
theorem nextInstr_covered {l : LoopId} {b : EventLoop.Action ThreadId Functor}
    {l' : EventLoop ThreadId Functor} (hw : Wf s)
    (hbatch : ∀ f ∈ (s.loops l).phase.rest, f ∈ (s.loops l).functors)
    (h : (s.loops l).step b = some l') : Covered l'.functors (s.nextInstr l b) := by
  unfold nextInstr
  split
  · rename_i u
    split
    · rename_i f fs hph
      obtain ⟨_, rfl⟩ := EventLoop.step_eq_some.mp h
      refine ⟨fun c hc => Or.inr ⟨f, ?_, ?_⟩, trivial⟩
      · show f ∈ ((s.loops l).next u).functors
        rw [EventLoop.next_of_batch hph]
        exact hbatch f (by rw [hph]; exact List.mem_cons_self)
      · refine Functor.captures_of_guarded hc fun d op e => ?_
        have hq : f ∈ (s.loops l).queue := by
          rw [EventLoop.queue, hph]
          exact List.mem_append_left _ List.mem_cons_self
        have hh := hw.queue l f hq
        rw [e] at hh
        exact hh.2.2.1
    · trivial
  · trivial

/-- The base loop's thread ends with the process. -/
theorem base_step (h : s.hasLoop 0 = true) (hs : Step s a s') : s'.hasLoop 0 = true := by
  cases hs with
  | run t o i rest s₁ is hst he =>
      show s₁.hasLoop 0 = true
      rw [exec_hasLoop he]
      exact h
  | user t v s₁ is hu hcall =>
      obtain ⟨held, server, rfl, _⟩ := called_same hcall
      exact h
  | threadEnd l h0 hl hst hp =>
      show (decide (0 ≤ s.numLoops) && !Function.update s.threadDone l true 0) = true
      rw [Function.update_of_ne (Nat.ne_of_lt h0)]
      exact h
  | _ => exact h

theorem guarded_step (hw : Wf s) (h : s.Guarded) (hs : Step s a s') : s'.Guarded := by
  refine ⟨base_step h.base hs, fun l => ?_, fun u => ?_⟩
  · rcases loops_step hs l with e | ⟨b, hb⟩
    · rw [e]
      exact h.batch l
    · exact EventLoop.batch_step hb (h.batch l)
  · have hset : ∀ {t : ThreadId} {xs : List Instr}, (u = t → Covered (s.batchOf u) xs) →
        Covered (s.batchOf u) (Function.update s.stack t xs u) := by
      intro t xs hx
      by_cases e : u = t
      · subst e
        rw [Function.update_self]
        exact hx rfl
      · rw [Function.update_of_ne e]
        exact h.covered u
    have hloop : ∀ (l : LoopId) (l' : EventLoop ThreadId Functor) (xs : List Instr),
        Covered l'.functors xs →
        Covered (batchOf { s with loops := Function.update s.loops l l' } u)
          (Function.update s.stack (.loop l) xs u) := by
      intro l l' xs hx
      cases u with
      | loop m =>
          show Covered (Function.update s.loops l l' m).functors _
          by_cases e : m = l
          · subst e
            rw [Function.update_self, Function.update_self]
            exact hx
          · rw [Function.update_of_ne e, Function.update_of_ne fun e' => e (ThreadId.loop.inj e')]
            exact h.covered (.loop m)
      | user m =>
          have hne : ThreadId.user m ≠ .loop l := nofun
          rw [Function.update_of_ne hne]
          exact h.covered (.user m)
    cases hs with
    | run t o i rest s₁ is hst he =>
        show Covered (s₁.batchOf u) (Function.update s₁.stack t (is ++ rest) u)
        rw [exec_batchOf he, exec_stack he]
        refine hset fun e => ?_
        subst e
        have hcov := h.covered u
        rw [hst] at hcov
        exact exec_covered (hw.stack u i (mem_stack hst)) he hcov
    | user t v s₁ is hu hcall =>
        have hasked := called_asked hcall
        obtain ⟨held, server, rfl, _⟩ := called_same hcall
        refine hset fun e => ?_
        subst e
        refine covered_append (fun j hj c hc => ?_) (h.covered u)
        cases hasked j hj <;> cases hc
    | ret t arg rest hst =>
        refine hset fun e => ?_
        subst e
        have hcov := h.covered u
        rw [hst] at hcov
        exact hcov.2
    | loop l b l' hst hact hb hl hs => exact hloop l l' _ (nextInstr_covered hw (h.batch l) hs)
    | poll l events l' hst hev hnd hl hs =>
        have hnil : Function.update s.stack (.loop l) [] = s.stack := by
          rw [← hst, Function.update_eq_self]
        have hcov := hloop l l' [] trivial
        rw [hnil] at hcov
        exact hcov
    | dispatch l ch rest hst hact => exact hset fun _ => ⟨nofun, trivial⟩
    | threadEnd l h0 hl hst hp => exact h.covered u

/-! ## Until `ConnectDestroyed` has returned -/

/-- **In whose custody the connection is**: it has an entry, or what takes the entry away is on
    its way to `ConnectDestroyed`, or `ConnectDestroyed` is under way, or has returned. -/
inductive Custody (s : Process) (c : ConnId) : Prop where
  | entry (e : List Char × Option ConnId) (he : e ∈ s.server.connections) (hc : e.2 = some c)
  | removing (h : s.InFlight (.removeConnectionInLoop c))
  | destroying (h : s.InFlight (.conn c .connectDestroyed))
  | under (t : ThreadId) (h : .conn c .channelRemove ∈ s.stack t)
  | returned (h : .destroyed ∈ (s.conns c).log)

/-- The step takes `c`'s entry out of `connections_`. -/
def TakesEntry (c : ConnId) (s : Process) (a : Label) : Prop :=
  ∃ t o rest, a = .run t o ∧ (s.stack t = .removeConnectionInLoop c :: rest ∨
    s.stack t = .destroyEntries :: rest ∧ o = .entry (some c))

/-- **An entry stays**, or hands the connection on to `ConnectDestroyed`. -/
theorem entry_step {name : List Char} {addr : InetAddress} (hw : Wf s)
    (hnum : Numbered name addr s) (hc : c < s.created) {e : List Char × Option ConnId}
    (he : e ∈ s.server.connections) (hec : e.2 = some c) (hs : Step s a s') :
    e ∈ s'.server.connections ∨ TakesEntry c s a ∧ s'.InFlight (.conn c .connectDestroyed) := by
  have hname := (hw.entries e he c hec).2
  cases hs with
  | run t o i rest s₁ is hst hex =>
      have hput : ∀ {k : Instr}, k ∈ is → k.carries = some (.conn c .connectDestroyed) →
          InFlight (s₁.setStack t (is ++ rest)) (.conn c .connectDestroyed) := fun hk hkf =>
        Or.inl ⟨t, _, by rw [stack_setStack_self]; exact List.mem_append_left _ hk, hkf⟩
      cases hex with
      | create fd ho hlife hf hid =>
          left
          refine List.mem_cons_of_mem _ (List.mem_filter.mpr ⟨he, decide_eq_true ?_⟩)
          rw [hname]
          exact hnum.fresh hid hc
      | remove d hlife =>
          by_cases hd : d = c
          · subst hd
            exact Or.inr ⟨⟨t, o, rest, rfl, Or.inl hst⟩, hput List.mem_cons_self rfl⟩
          · left
            have hi := hw.stack t _ (mem_stack hst)
            refine List.mem_filter.mpr ⟨he, decide_eq_true fun e => hd ?_⟩
            exact (hnum.inj hc hi.1 (hname.symm.trans e)).symm
      | entry d ho hd =>
          by_cases hdc : d = c
          · subst hdc
            exact Or.inr ⟨⟨t, o, rest, rfl, Or.inr ⟨hst, ho⟩⟩, hput List.mem_cons_self rfl⟩
          · left
            refine List.mem_map.mpr ⟨e, he, if_neg fun hed => hdc ?_⟩
            exact Option.some.inj (hed.symm.trans hec)
      | lastEntry ho hn =>
          rw [hn e he] at hec
          cases hec
      | _ => exact Or.inl he
  | user t v s₁ is hu hcall =>
      obtain ⟨held, server, rfl, hcon⟩ := called_same hcall
      exact Or.inl (hcon ▸ he)
  | _ => exact Or.inl he

/-- The history goes on. -/
theorem log_step (hw : Wf s) (hc : c < s.created) (hs : Step s a s') {e : ConnEvent}
    (h : e ∈ (s.conns c).log) : e ∈ (s'.conns c).log := by
  cases seen_step hw hc hs with
  | other hno r hctx =>
      rw [show s'.conns c = s.conns c from congrArg Ctx.conn hctx]
      exact h
  | run t o op rest is ha hst he => exact (Ctx.exec_effect (hw.agrees c hc) he).log_subset h

/-- **Custody is handed on.** -/
theorem custody_step {name : List Char} {addr : InetAddress} (hw : Wf s)
    (hnum : Numbered name addr s) (hc : c < s.created) (h : s.Custody c) (hs : Step s a s') :
    s'.Custody c := by
  cases h with
  | entry e he hec =>
      rcases entry_step hw hnum hc he hec hs with he | ⟨_, hf⟩
      · exact .entry e he hec
      · exact .destroying hf
  | removing hf =>
      rcases inFlight_stays hs hf rfl with hf | ⟨t, o, rest, rfl, hst⟩
      · exact .removing hf
      · cases hs with
        | run _ _ i rest' s₁ is hst' he =>
            rw [hst] at hst'
            cases hst'
            cases he with
            | quiet _ _ hq => cases hq
            | loop _ l b l' _ hl => cases hl
            | remove _ hlife =>
                refine .destroying (Or.inl
                  ⟨t, .queueInLoop (s.conns c).loop (.conn c .connectDestroyed), ?_, rfl⟩)
                rw [stack_setStack_self]
                exact List.mem_cons_self
  | destroying hf =>
      rcases inFlight_stays hs hf rfl with hf | ⟨t, o, rest, rfl, hst⟩
      · exact .destroying hf
      · obtain ⟨is, he, hst'⟩ := seen_run hw hst hs
        refine .under t ?_
        rw [hst', Function.update_self]
        refine List.mem_append_left _ ?_
        have his : (if (s.ctx c).conn.state = .kConnected then
            [Instr.conn c .destroySetState, .conn c .channelRemove]
            else [.conn c .channelRemove]) = is := congrArg Prod.snd (Option.some.inj he)
        rw [← his]
        split
        · exact List.mem_cons_of_mem _ List.mem_cons_self
        · exact List.mem_cons_self
  | under t hm =>
      rcases stack_stays hs hm with hm | ⟨rest, hst, ⟨o, rfl⟩ | rfl⟩
      · exact .under t hm
      · obtain ⟨is, he, _⟩ := seen_run hw hst hs
        have hlog := (Ctx.exec_channelRemove (hw.agrees c hc) he).2.2.2
        refine .returned ?_
        rw [show (s'.conns c).log = _ from hlog]
        exact List.mem_append_right _ List.mem_cons_self
      · cases hs with
        | ret _ arg rest' hst' =>
            rw [hst] at hst'
            cases hst'
  | returned hm => exact .returned (log_step hw hc hs hm)

/-- What is executed with a pointer in its capture is owned. -/
theorem owned_of_guarded (hf : s.Frames) (hg : s.Guarded) (hi : i ∈ s.stack t)
    (hc : i.guarded = some c) : s.OwnedOutside c := by
  rcases covered_mem (hg.covered t) hi hc with hr | ⟨f, hm, hcap⟩
  · exact .inHand (.pointer t hr)
  · cases t with
    | loop l =>
        refine .functor l f ?_ (List.mem_append_left _ hm) hcap
        by_contra hl
        rw [(hf.gone l (Bool.eq_false_iff.mpr hl)).1] at hi
        exact absurd hi List.not_mem_nil
    | user u => exact absurd hm List.not_mem_nil

/-- A functor that waits and captures a pointer owns the connection. -/
theorem owned_of_queue (hg : s.Guarded) {l : LoopId} (hl : s.hasLoop l = true)
    (hf : f ∈ (s.loops l).queue) (hc : f.captures = some c) : s.OwnedOutside c := by
  refine .functor l f hl ?_ hc
  rcases List.mem_append.mp hf with hf | hf
  · exact List.mem_append_left _ (hg.batch l f hf)
  · exact List.mem_append_right _ hf

/-- A functor under way that captures a pointer owns the connection. -/
theorem owned_of_inFlight (hw : Wf s) (hf : s.Frames) (hg : s.Guarded) (h : s.InFlight f)
    (hcap : f.captures = some c) (hgu : f.instr.guarded = some c)
    (hl : ∀ l, s.functorHome l f → s.hasLoop l = true) : s.OwnedOutside c := by
  rcases h with ⟨t, i, hi, hif⟩ | ⟨l, hq⟩
  · cases i with
    | conn d op =>
        cases hif
        exact owned_of_guarded hf hg hi hgu
    | removeConnectionInLoop d =>
        cases hif
        exact owned_of_guarded hf hg hi hgu
    | runInLoop l g =>
        cases hif
        exact .parameter t _ hi f rfl hcap
    | queueInLoop l g =>
        cases hif
        exact .parameter t _ hi f rfl hcap
    | _ => cases hif
  · exact owned_of_queue hg (hl l (hw.queue l f hq)) hq hcap

/-- **A connection in custody is owned**, until `ConnectDestroyed` has returned, as long as its
    loop is there. -/
theorem owned_of_custody (hw : Wf s) (hf : s.Frames) (hg : s.Guarded) (h : s.Custody c)
    (hl : s.hasLoop (s.conns c).loop = true) (hd : .destroyed ∉ (s.conns c).log) :
    s.OwnedOutside c := by
  cases h with
  | entry e he hec => exact .entry e he hec
  | removing h => exact owned_of_inFlight hw hf hg h rfl rfl fun l hh => hh.2 ▸ hg.base
  | destroying h => exact owned_of_inFlight hw hf hg h rfl rfl fun l hh => hh.2.1 ▸ hl
  | under t h => exact owned_of_guarded hf hg h rfl
  | returned h => exact absurd h hd

/-- A connection begins with an entry. -/
theorem entry_create (hs : Step s a s') (hc : c < s'.created) :
    c < s.created ∨ ∃ e ∈ s'.server.connections, e.2 = some c := by
  by_cases hold : c < s.created
  · exact Or.inl hold
  · right
    cases hs with
    | run t o i rest s₁ is hst he =>
        cases he with
        | create fd ho hlife hf hid =>
            have e : c = s.created := Nat.le_antisymm (Nat.lt_succ_iff.mp hc) (Nat.not_lt.mp hold)
            exact ⟨(s.server.connName, some s.created), List.mem_cons_self, e ▸ rfl⟩
        | _ => exact absurd hc hold
    | user t v s₁ is hu hcall =>
        obtain ⟨held, server, rfl, _⟩ := called_same hcall
        exact absurd hc hold
    | _ => exact absurd hc hold

/-! ## The functors -/

end Process

/-- A functor that captures `this` alone, and uses this connection. -/
def Instr.bare : Instr → Option ConnId
  | .conn c (.sendInLoop _ _) | .conn c .shutdownInLoop | .conn c .writeComplete
  | .conn c (.highWaterMark _) => some c
  | _ => none

namespace Process

variable {s s' : Process} {a : Label} {c : ConnId} {t : ThreadId} {o : Outcome} {i : Instr}
  {rest : List Instr}

/-- **A functor that captures `this` alone comes in time**: `ConnectDestroyed` has not returned, or
    is of the same batch, or somebody still has a pointer in hand. -/
def InTime (s : Process) (a : Label) : Prop :=
  ∀ t o i rest c, a = .run t o → s.stack t = i :: rest → i.bare = some c →
    .destroyed ∉ (s.conns c).log ∨ (∃ f ∈ s.batchOf t, f.captures = some c) ∨ s.InHand c

/-- The thread that executes a functor is its connection's loop's. -/
theorem home_of_bare (hw : Wf s) (hst : s.stack t = i :: rest) (hb : i.bare = some c) :
    c < s.created ∧ t = .loop (s.conns c).loop := by
  have hi := hw.stack t i (mem_stack hst)
  cases i with
  | conn d op =>
      cases op <;> first
        | (cases hb; exact ⟨hi.1, hi.2.resolve_left nofun⟩)
        | cases hb
  | _ => cases hb

section Runs

variable {name : List Char} {addr : InetAddress} {numLoops : Nat} {writeComplete : Bool}
  {tr : List (Process × Label)}

theorem custody_run (h : Run step (init name addr numLoops writeComplete) tr s) :
    s.Guarded ∧ ∀ c < s.created, s.Custody c := by
  induction h with
  | start =>
      exact ⟨⟨rfl, fun _ f hf => absurd hf List.not_mem_nil, fun _ => trivial⟩,
        fun c hc => absurd hc (Nat.not_lt_zero c)⟩
  | step tr s a s' h hs ih =>
      have hw := wf_run h
      have hs := of_step hs
      refine ⟨guarded_step hw ih.1 hs, fun c hc => ?_⟩
      rcases entry_create hs hc with hold | ⟨e, he, hec⟩
      · exact custody_step hw (numbered_run h) hold (ih.2 c hold) hs
      · exact .entry e he hec

/-- **Queued work owns what it uses.** In every run in which every functor that captures `this`
    alone comes in time: whenever a loop executes a functor that uses a connection, or what is left
    of one, there is a `TcpConnectionPtr` to it outside the connection itself. -/
theorem functors_owned (h : Run step (init name addr numLoops writeComplete) tr s)
    (hC : ∀ p ∈ tr, InTime p.1 p.2) {s₁ : Process} (hp : (s₁, .run t o) ∈ tr)
    (hst : s₁.stack t = i :: rest) (huse : i.guarded = some c ∨ i.bare = some c) :
    s₁.OwnedOutside c := by
  obtain ⟨tr₁, _, _, h₁, _⟩ := h.split hp
  have hw := wf_run h₁
  have hf := frames_run h₁
  obtain ⟨hg, hcus⟩ := custody_run h₁
  rcases huse with hgu | hb
  · exact owned_of_guarded hf hg (mem_stack hst) hgu
  · obtain ⟨hc, rfl⟩ := home_of_bare hw hst hb
    have hl := hasLoop_of_stack hf hst
    rcases hC _ hp _ o i rest c rfl hst hb with hd | ⟨f, hm, hcap⟩ | hin
    · exact owned_of_custody hw hf hg (hcus c hc) hl hd
    · exact .functor _ f hl (List.mem_append_left _ hm) hcap
    · exact .inHand hin

/-- Another thread's `Send`, and the thread's pointer is dropped before the loop runs
    `SendInLoop`. -/
def sendDropRun : List Label := List.flatten
  [acceptRun, settleRun, [.user (.user 0) (.send 0 [1])], runs (.user 0) 5,
    [.user (.user 0) (.drop 0), .poll 0 [(.wakeup 0, epollIn)], .dispatch 0], runs (.loop 0) 1,
    [.loop 0 .startFunctors, .loop 0 .swap, .loop 0 (.next (.loop 0))]]

theorem functors_owned_send : ∃ s, Machine.exec step oneLoop sendDropRun = some s ∧ s.held = [] ∧
    s.stack (.loop 0) = [.conn 0 (.sendInLoop (.user 0) [1])] ∧ s.OwnedOutside 0 := by
  have h : ((Machine.exec step oneLoop sendDropRun).any fun s => decide ((s.held = [] ∧
      s.stack (.loop 0) = [.conn 0 (.sendInLoop (.user 0) [1])]) ∧
      s.created ≤ 1 ∧ .destroyed ∉ (s.conns 0).log) &&
        (step s (.run (.loop 0) (.write (.wrote 1)))).isSome) = true := by decide +kernel
  have hC : ((execTrace step oneLoop sendDropRun []).all fun p =>
      decide (p.1.created ≤ 1 ∧ .destroyed ∉ (p.1.conns 0).log)) = true := by decide +kernel
  obtain ⟨s, hs, hb⟩ := (Option.any_eq_true _ _).mp h
  obtain ⟨hb, hsome⟩ := Bool.and_eq_true_iff.mp hb
  obtain ⟨⟨hheld, hst⟩, hs₀⟩ := of_decide_eq_true hb
  obtain ⟨s', hs'⟩ := Option.isSome_iff_exists.mp hsome
  have hrun := exec_run .start hs
  have hin : ∀ s₁ a, Wf s₁ → s₁.created ≤ 1 ∧ .destroyed ∉ (s₁.conns 0).log → InTime s₁ a := by
    intro s₁ a hw ⟨hcr, hd⟩ t o i rest c _ hst hb
    have hc : c = 0 := Nat.lt_one_iff.mp (Nat.lt_of_lt_of_le (home_of_bare hw hst hb).1 hcr)
    exact Or.inl (hc ▸ hd)
  refine ⟨s, hs, hheld, hst, functors_owned (.step _ _ _ _ hrun hs') (fun p hp => ?_)
    List.mem_cons_self hst (Or.inr rfl)⟩
  rcases List.mem_cons.mp hp with rfl | hp
  · exact hin _ _ (wf_run hrun) hs₀
  · obtain ⟨tr₁, _, _, h₁, _⟩ := hrun.split hp
    exact hin _ _ (wf_run h₁) (of_decide_eq_true (List.all_eq_true.mp hC p hp))

/-- Another thread's `Send` has found `kConnected` when the peer hangs up; it queues its
    `SendInLoop` behind the batch of `ConnectDestroyed`, and drops its pointer. -/
def lateSendRun : List Label := List.flatten
  [acceptRun, settleRun, [.user (.user 0) (.send 0 [1])], runs (.user 0) 1,
    [.poll 0 [(.conn 0, epollHup)], .dispatch 0], runs (.loop 0) 3, [.ret (.loop 0)],
    runs (.loop 0) 8, [.loop 0 .startFunctors, .loop 0 .swap], runs (.user 0) 4,
    [.user (.user 0) (.drop 0), .loop 0 (.next (.loop 0))], runs (.loop 0) 2,
    [.loop 0 .ret, .loop 0 .finish, .loop 0 .test, .poll 0 [(.wakeup 0, epollIn)], .dispatch 0],
    runs (.loop 0) 1, [.loop 0 .startFunctors, .loop 0 .swap, .loop 0 (.next (.loop 0))]]

/-- **`SendInLoop` executed on a connection that only its own callback owns.** -/
theorem functor_unowned : ¬ ∀ (tr : List (Process × Label)) (s s₁ : Process) (t : ThreadId)
    (o : Outcome) (i : Instr) (rest : List Instr) (c : ConnId), Run step oneLoop tr s →
    (s₁, .run t o) ∈ tr → s₁.stack t = i :: rest → i.guarded = some c ∨ i.bare = some c →
      s₁.OwnedOutside c := by
  intro hall
  have h : ((Machine.exec step oneLoop lateSendRun).any fun s => decide (s.numLoops = 0 ∧
      s.held = [] ∧ s.server.connections = [] ∧ (s.loops 0).holds.all (·.captures = none) ∧
      s.stack (.loop 0) = [.conn 0 (.sendInLoop (.user 0) [1])] ∧ s.stack (.user 0) = []) &&
        (step s (.run (.loop 0) (.write (.wrote 1)))).isSome) = true := by decide +kernel
  obtain ⟨s, hs, hb⟩ := (Option.any_eq_true _ _).mp h
  obtain ⟨hb, hsome⟩ := Bool.and_eq_true_iff.mp hb
  obtain ⟨hn, hheld, hcon, hholds, hst, hst'⟩ := of_decide_eq_true hb
  obtain ⟨s', hs'⟩ := Option.isSome_iff_exists.mp hsome
  have hstack : ∀ t, ∀ j ∈ s.stack t, j = .conn 0 (.sendInLoop (.user 0) [1]) := by
    intro t j hj
    by_cases e : t = .loop 0
    · rw [e, hst] at hj
      exact List.mem_singleton.mp hj
    · by_cases e' : t = .user 0
      · rw [e', hst'] at hj
        exact absurd hj List.not_mem_nil
      · rw [stack_oneLoop hs (by decide) e e'] at hj
        exact absurd hj List.not_mem_nil
  cases hall _ s' s _ _ _ _ 0 (.step _ _ _ _ (exec_run .start hs) hs') List.mem_cons_self hst
    (Or.inr rfl) with
  | entry e he hc =>
      rw [hcon] at he
      exact absurd he List.not_mem_nil
  | functor l f hl hf hc =>
      have hl0 : l ≤ s.numLoops := of_decide_eq_true (Bool.and_eq_true_iff.mp hl).1
      rw [hn] at hl0
      rw [Nat.le_zero.mp hl0] at hf
      rw [of_decide_eq_true (List.all_eq_true.mp hholds f hf)] at hc
      cases hc
  | parameter t j hj f hf hc =>
      rw [hstack t j hj] at hf
      exact hf
  | inHand hin =>
      cases hin with
      | held hm =>
          rw [hheld] at hm
          exact absurd hm List.not_mem_nil
      | pointer t hj => cases hstack t _ hj
      | argument t hj => cases hstack t _ hj

end Runs

/-! ## Destruction -/

/-- A strong owner, where the connections `gone` are destroyed: a pointer outside, or the one in
    the `close_callback_` of a connection that is not. -/
def Owned (gone : ConnId → Prop) (s : Process) (c : ConnId) : Prop :=
  s.OwnedOutside c ∨ ∃ d < s.created, ¬ gone d ∧ (s.conns d).closeCallback = some c

/-- **The connections a run has destroyed**: those that have been without a strong owner. -/
def Destroyed : List (Process × Label) → Process → ConnId → Prop
  | [], s, c => c < s.created ∧ ¬ Owned (fun _ => False) s c
  | (s₁, _) :: tr, s, c => Destroyed tr s₁ c ∨ c < s.created ∧ ¬ Owned (Destroyed tr s₁) s c

/-- **What is removed is destroyed**, and the open fds are those of the entries. -/
structure Reclaimed (tr : List (Process × Label)) (s : Process) : Prop where
  destroyed : ∀ c < s.created, c ∈ s.removed → .destroyed ∈ (s.conns c).log → Destroyed tr s c
  fds : ∀ fd, (∃ c < s.created, ¬ Destroyed tr s c ∧ s.fd c = fd) ↔
    ∃ e ∈ s.server.connections, ∃ c, e.2 = some c ∧ s.fd c = fd

/-- **Nothing is going on**, and user code keeps no pointer. -/
structure Quiescent (s : Process) : Prop where
  stack : ∀ t, s.stack t = []
  active : ∀ l, s.active l = []
  functors : ∀ l, s.hasLoop l = true → (s.loops l).holds = []
  held : s.held = []

/-- What takes an entry leaves none. -/
theorem noEntry_of_takes (hw : Wf s) (h : TakesEntry c s a) (hs : Step s a s') :
    c < s.created ∧ ∀ e ∈ s'.server.connections, e.2 ≠ some c := by
  obtain ⟨t, o, rest, rfl, hst⟩ := h
  cases hs with
  | run _ _ i rest' s₁ is hst' he =>
      rcases hst with hst | ⟨hst, rfl⟩
      · rw [hst] at hst'
        cases hst'
        have hi := hw.stack t (.removeConnectionInLoop c) (mem_stack hst)
        cases he with
        | quiet _ _ hq => cases hq
        | loop _ l b l' _ hl => cases hl
        | remove _ hlife =>
            refine ⟨hi.1, fun e hm hec => ?_⟩
            obtain ⟨hm, hne⟩ := List.mem_filter.mp hm
            exact of_decide_eq_true hne (hw.entries e hm c hec).2
      · rw [hst] at hst'
        cases hst'
        cases he with
        | quiet _ _ hq => cases hq
        | loop _ l b l' _ hl => cases hl
        | lastEntry ho => cases ho
        | entry d ho hd =>
            cases ho
            obtain ⟨e₀, he₀, hec₀⟩ := hd
            refine ⟨(hw.entries e₀ he₀ c hec₀).1, fun e hm hec => ?_⟩
            obtain ⟨e', _, rfl⟩ := List.mem_map.mp hm
            by_cases hd : e'.2 = some c
            · rw [if_pos hd] at hec
              cases hec
            · rw [if_neg hd] at hec
              exact hd hec

/-- An entry once taken does not come back. -/
theorem noEntry_step (hc : c < s.created) (h : ∀ e ∈ s.server.connections, e.2 ≠ some c)
    (hs : Step s a s') : ∀ e ∈ s'.server.connections, e.2 ≠ some c := by
  cases hs with
  | run t o i rest s₁ is hst he =>
      cases he with
      | create fd ho hlife hf hid =>
          intro e hm hec
          rcases List.mem_cons.mp hm with rfl | hm
          · exact Nat.ne_of_lt hc (Option.some.inj hec).symm
          · exact h e (List.mem_of_mem_filter hm) hec
      | remove d hlife => exact fun e hm => h e (List.mem_of_mem_filter hm)
      | entry d ho hd =>
          intro e hm hec
          obtain ⟨e', hm', rfl⟩ := List.mem_map.mp hm
          split at hec
          · cases hec
          · exact h e' hm' hec
      | lastEntry ho hn => exact fun e hm => absurd hm List.not_mem_nil
      | _ => exact h
  | user t v s₁ is hu hcall =>
      obtain ⟨held, server, rfl, hcon⟩ := called_same hcall
      exact fun e hm => h e (hcon ▸ hm)
  | _ => exact h

/-- `RemoveConnectionInLoop` takes an entry. -/
theorem removed_step (hs : Step s a s') (h : ∀ c, ¬ TakesEntry c s a) : s'.removed = s.removed := by
  cases hs with
  | run t o i rest s₁ is hst he =>
      cases he with
      | remove d hlife => exact absurd ⟨t, o, rest, rfl, Or.inl hst⟩ (h d)
      | _ => rfl
  | user t v s₁ is hu hcall => cases hcall <;> rfl
  | _ => rfl

section Runs

variable {name : List Char} {addr : InetAddress} {numLoops : Nat} {writeComplete : Bool}
  {tr : List (Process × Label)}

/-- **No connection is ever destroyed**: its own `close_callback_` owns it. -/
theorem not_destroyed (h : Run step (init name addr numLoops writeComplete) tr s) (c : ConnId) :
    ¬ Destroyed tr s c := by
  induction h with
  | start => exact fun hd => absurd hd.1 (Nat.not_lt_zero c)
  | step tr s a s' h hs ih =>
      rintro (hd | ⟨hc, hd⟩)
      · exact ih hd
      · exact hd (Or.inr ⟨c, hc, ih, (wf_step (wf_run h) (of_step hs)).1.close c hc⟩)

/-- As long as no entry is taken, every connection has one. -/
theorem entries_run (h : Run step (init name addr numLoops writeComplete) tr s)
    (hno : ∀ p ∈ tr, ∀ c, ¬ TakesEntry c p.1 p.2) :
    s.removed = [] ∧ ∀ c < s.created, ∃ e ∈ s.server.connections, e.2 = some c := by
  induction h with
  | start => exact ⟨rfl, fun c hc => absurd hc (Nat.not_lt_zero c)⟩
  | step tr s a s' h hs ih =>
      obtain ⟨hrem, hent⟩ := ih fun p hp => hno p (List.mem_cons_of_mem _ hp)
      have hs := of_step hs
      have hna := hno (s, a) List.mem_cons_self
      refine ⟨(removed_step hs hna).trans hrem, fun c hc => ?_⟩
      rcases entry_create hs hc with hold | hnew
      · obtain ⟨e, he, hec⟩ := hent c hold
        rcases entry_step (wf_run h) (numbered_run h) hold he hec hs with he | ⟨ht, _⟩
        · exact ⟨e, he, hec⟩
        · exact absurd ht (hna c)
      · exact hnew

/-- **Open fds and entries.** In every state a run reaches, quiescent or not: what has been removed
    is destroyed, and the open fds are those of the entries of `connections_`, exactly as long as
    no entry has been taken out. -/
theorem reclaimed_iff (h : Run step (init name addr numLoops writeComplete) tr s) :
    Reclaimed tr s ↔ ∀ p ∈ tr, ∀ c, ¬ TakesEntry c p.1 p.2 := by
  have hw := wf_run h
  constructor
  · intro hr p hp c ht
    obtain ⟨tr₁, tr₂, s₂, h₁, hs, h₂, rfl⟩ := h.split hp
    have hw₁ := wf_run h₁
    obtain ⟨hc₁, hno₁⟩ := noEntry_of_takes hw₁ ht (of_step hs)
    have hgone : Wf s ∧ c < s.created ∧ ∀ e ∈ s.server.connections, e.2 ≠ some c := by
      obtain ⟨hw₂, hg⟩ := wf_step hw₁ (of_step hs)
      refine h₂.inv (I := fun s => Wf s ∧ c < s.created ∧
        ∀ e ∈ s.server.connections, e.2 ≠ some c)
        ⟨hw₂, Nat.lt_of_lt_of_le hc₁ hg.created, hno₁⟩ ?_
      rintro s₃ b s₄ ⟨hw₃, hc₃, hno₃⟩ hs₃
      obtain ⟨hw₄, hg₄⟩ := wf_step hw₃ (of_step hs₃)
      exact ⟨hw₄, Nat.lt_of_lt_of_le hc₃ hg₄.created, noEntry_step hc₃ hno₃ (of_step hs₃)⟩
    obtain ⟨_, hc, hno⟩ := hgone
    obtain ⟨e, he, d, hed, hfd⟩ := (hr.fds (s.fd c)).mp ⟨c, hc, not_destroyed h c, rfl⟩
    have hdc := hw.fd_inj d (hw.entries e he d hed).1 c hc hfd
    exact hno e he (hdc ▸ hed)
  · intro hno
    obtain ⟨hrem, hent⟩ := entries_run h hno
    refine ⟨fun c _ hm => ?_, fun fd => ⟨?_, ?_⟩⟩
    · rw [hrem] at hm
      exact absurd hm List.not_mem_nil
    · rintro ⟨c, hc, _, hfd⟩
      obtain ⟨e, he, hec⟩ := hent c hc
      exact ⟨e, he, c, hec, hfd⟩
    · rintro ⟨e, he, c, hec, hfd⟩
      exact ⟨c, (hw.entries e he c hec).1, not_destroyed h c, hfd⟩

/-- What may take an entry out of `connections_`. -/
def takesEntries : Instr → Bool
  | .removeConnectionInLoop _ | .destroyEntries => true
  | _ => false

/-- The connection is up, and nothing else has happened. -/
theorem reclaimed_accept : ∃ tr s, Run step oneLoop tr s ∧ s.created = 1 ∧ Reclaimed tr s := by
  have h : ((Machine.exec step oneLoop (acceptRun ++ settleRun)).any fun s =>
      decide (s.created = 1)) = true := by decide +kernel
  have hC : ((execTrace step oneLoop (acceptRun ++ settleRun) []).all fun p =>
      (p.1.stack p.2.thread).all fun i => !takesEntries i) = true := by decide +kernel
  obtain ⟨s, hs, hb⟩ := (Option.any_eq_true _ _).mp h
  have hrun := exec_run .start hs
  refine ⟨_, s, hrun, of_decide_eq_true hb, (reclaimed_iff hrun).mpr ?_⟩
  rintro ⟨s₁, a⟩ hp c ⟨t, o, rest, rfl, hst⟩
  have hno : ∀ i ∈ s₁.stack t, (!takesEntries i) = true :=
    List.all_eq_true.mp (List.all_eq_true.mp hC _ hp)
  rcases hst with hst | ⟨hst, _⟩
  · have hst : s₁.stack t = .removeConnectionInLoop c :: rest := hst
    cases hno (.removeConnectionInLoop c) (mem_stack hst)
  · have hst : s₁.stack t = .destroyEntries :: rest := hst
    cases hno .destroyEntries (mem_stack hst)

/-- The peer hangs up, `ConnectDestroyed` runs, and user code drops the pointer it keeps. -/
def reclaimRun : List Label := List.flatten
  [peerClosesRun, runs (.loop 0) 1, [.loop 0 .ret, .loop 0 .finish, .loop 0 .test,
    .user (.user 0) (.drop 0)]]

/-- **A connection that is removed and not destroyed**, with nothing going on: its fd stays open. -/
theorem leaked : ¬ ∀ (tr : List (Process × Label)) (s : Process), Run step oneLoop tr s →
    s.Quiescent → Reclaimed tr s := by
  intro hall
  have h : ((Machine.exec step oneLoop reclaimRun).any fun s => decide (s.numLoops = 0 ∧
      0 < s.created ∧ 0 ∈ s.removed ∧ .destroyed ∈ (s.conns 0).log ∧ s.active 0 = [] ∧
      (s.loops 0).holds = [] ∧ s.held = [] ∧ s.stack (.loop 0) = [] ∧
      s.stack (.user 0) = [])) = true := by decide +kernel
  obtain ⟨s, hs, hb⟩ := (Option.any_eq_true _ _).mp h
  obtain ⟨hn, hc, hrem, hdes, hact, hholds, hheld, hst, hst'⟩ := of_decide_eq_true hb
  have hrun := exec_run .start hs
  have hgone : ∀ l, l ≠ 0 → s.hasLoop l = false := by
    intro l hl
    unfold hasLoop
    rw [hn, decide_eq_false fun h => hl (Nat.le_zero.mp h), Bool.false_and]
  refine not_destroyed hrun 0 ((hall _ s hrun ⟨fun t => ?_, fun l => ?_, fun l hl => ?_,
    hheld⟩).destroyed 0 hc hrem hdes)
  · by_cases e : t = .loop 0
    · rw [e, hst]
    · by_cases e' : t = .user 0
      · rw [e', hst']
      · exact stack_oneLoop hs (by decide) e e'
  · by_cases e : l = 0
    · rw [e, hact]
    · exact ((frames_run hrun).gone l (hgone l e)).2
  · by_cases e : l = 0
    · rw [e, hholds]
    · rw [hgone l e] at hl
      cases hl

end Runs

end Process

end CuteMuduo
