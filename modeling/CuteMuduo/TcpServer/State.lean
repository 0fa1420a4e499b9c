/-
  File:      CuteMuduo/TcpServer/State.lean
  Subject:   THE STATE OF A CONNECTION, `state_`, over every run of the program: it goes forward,
             `kConnecting < kConnected < kDisconnecting < kDisconnected`, if and only if no
             `Shutdown` stores `kDisconnecting` over `kDisconnected` (`state_forward`).

  `Shutdown` loads and stores; where it runs on the loop's own thread nothing comes between the
  two (`stores_step`). On another thread `HandleClose` or `ConnectDestroyed` may (`state_back`).
-/
import CuteMuduo.TcpServer.Established

namespace CuteMuduo

open Machine

/-- The order of the states. -/
def StateE.rank : StateE → Nat
  | .kConnecting => 0
  | .kConnected => 1
  | .kDisconnecting => 2
  | .kDisconnected => 3

theorem StateE.rank_le (state : StateE) : state.rank ≤ 3 := by cases state <;> decide

/-- **A function of an established connection's goes forward**, unless `Shutdown` finds
    `kDisconnected`. -/
theorem StateE.rank_nextState {op : ConnOp} {state : StateE}
    (hest : op = .connectEstablished → state = .kConnecting)
    (hsh : op = .shutdownSetState → state ≠ .kDisconnected) :
    state.rank ≤ (op.nextState state).rank := by
  cases op with
  | connectEstablished =>
      rw [hest rfl]
      exact Nat.zero_le _
  | destroySetState => exact state.rank_le
  | handleClose => exact state.rank_le
  | shutdownSetState =>
      cases state with
      | kDisconnected => exact absurd rfl (hsh rfl)
      | _ => decide
  | _ => exact Nat.le_refl _

namespace Process

variable {s s' : Process} {a : Label} {c : ConnId} {t : ThreadId}

/-! ## Loads and stores -/

/-- `Shutdown` is called on the thread of the connection's loop. -/
def ShutdownHere (c : ConnId) (s : Process) (a : Label) : Prop :=
  s.executed c a = some .shutdownSetState → ∃ o, a = .run (.loop (s.conns c).loop) o

/-- **Where a store of `Shutdown` or `ConnectDestroyed` comes next, its load's `kConnected` still
    holds.** -/
def Stores (s : Process) (c : ConnId) : Prop :=
  .shutdownSetState ∈ s.trail c ∨ .destroySetState ∈ s.trail c →
    (s.ctx c).conn.state = .kConnected

theorem stores_of_untouched (h : s.Untouched c) : s.Stores c := by
  intro hm
  rw [h.trail] at hm
  exact hm.elim (absurd · List.not_mem_nil) (absurd · List.not_mem_nil)

/-- Another thread executes no store of `Shutdown`. -/
theorem ne_of_shutdownHere {o : Outcome} {op : ConnOp} {rest : List Instr}
    (hS : ShutdownHere c s a) (ha : a = .run t o) (ht : t ≠ .loop (s.conns c).loop)
    (hst : s.stack t = .conn c op :: rest) : op ≠ .shutdownSetState := by
  rintro rfl
  obtain ⟨o', e⟩ := hS (ha ▸ executed_of_stack hst)
  rw [ha] at e
  cases e
  exact ht rfl

theorem stores_step (hi : Inv s) (hc : c < s.created) (h : s.Stores c) (hS : ShutdownHere c s a)
    (hs : Step s a s') : s'.Stores c := by
  have hag := hi.agrees c hc
  intro hm
  cases turn_step hi hc hs with
  | idle hno r hctx htr =>
      rw [hctx]
      exact h (htr ▸ hm)
  | establish o rest ha hst hun hk he htr' => exact (Ctx.exec_effect hag he).state
  | own o op rest is T ha hst hop hk he htr htr' hset =>
      have hld : (op = .shutdown ∨ op = .connectDestroyed) ∧
          (s.ctx c).conn.state = .kConnected := by
        rcases hm with hm | hm <;> rcases of_mem_trail hm htr' with hl | hm
        · exact (ConnOp.of_leadsTo_shutdownSetState hl).imp_left Or.inl
        · exact absurd hm (not_mem_settled hset rfl)
        · exact (ConnOp.of_leadsTo_destroySetState hl).imp_left Or.inr
        · exact absurd hm (not_mem_settled hset rfl)
      rw [(Ctx.exec_effect hag he).state, hld.2]
      rcases hld.1 with rfl | rfl <;> rfl
  | foreign t o op rest is ha ht hst hany hk he htr =>
      have hne := ne_of_shutdownHere hS ha ht hst
      rw [(Ctx.exec_effect hag he).state, ConnOp.nextState_of_anyThread hany hne]
      exact h (htr ▸ hm)

/-! ## Forward -/

/-- **`Shutdown` does not store over `kDisconnected`.** -/
def ShutdownOpen (c : ConnId) (s : Process) (a : Label) : Prop :=
  s.executed c a = some .shutdownSetState → (s.conns c).state ≠ .kDisconnected

/-- `c`'s state in `s'` is not behind that in `s`. -/
def Forward (c : ConnId) (s' s : Process) : Prop :=
  c < s.created → (s.conns c).state.rank ≤ (s'.conns c).state.rank

theorem Forward.trans {s₁ s₂ s₃ : Process} (h : Forward c s₃ s₂) (h' : Forward c s₂ s₁)
    (hc : s₁.created ≤ s₂.created) : Forward c s₃ s₁ :=
  fun hlt => Nat.le_trans (h' hlt) (h (Nat.lt_of_lt_of_le hlt hc))

/-- What a step does to the state: what the function it executes does. -/
theorem state_step (hi : Inv s) (hc : c < s.created) (hs : Step s a s') :
    (s.executed c a = none ∧ (s'.conns c).state = (s.conns c).state) ∨
      ∃ op, s.executed c a = some op ∧ (s'.conns c).state = op.nextState (s.conns c).state ∧
        (op = .connectEstablished ↔ (s.conns c).state = .kConnecting) := by
  have hag := hi.agrees c hc
  cases turn_step hi hc hs with
  | idle hno r hctx htr =>
      exact Or.inl ⟨executed_eq_none hno, congrArg (fun k => k.conn.state) hctx⟩
  | establish o rest ha hst hun hk he htr' =>
      exact Or.inr ⟨_, ha ▸ executed_of_stack hst, (Ctx.exec_effect hag he).state,
        iff_of_true rfl hk⟩
  | own o op rest is T ha hst hop hk he htr htr' hset =>
      exact Or.inr ⟨op, ha ▸ executed_of_stack hst, (Ctx.exec_effect hag he).state,
        iff_of_false hop hk⟩
  | foreign t o op rest is ha ht hst hany hk he htr =>
      exact Or.inr ⟨op, ha ▸ executed_of_stack hst, (Ctx.exec_effect hag he).state,
        iff_of_false (ConnOp.ne_of_anyThread hany rfl) hk⟩

/-- **One step goes forward if and only if it stores nothing over `kDisconnected`.** -/
theorem forward_step (hi : Inv s) (hs : Step s a s') : Forward c s' s ↔ ShutdownOpen c s a := by
  refine ⟨fun h hsh hd => ?_, fun hC hc => ?_⟩
  · have hc : c < s.created := by
      by_contra hle
      rw [executed_of_le hi.toWf (Nat.le_of_not_lt hle)] at hsh
      cases hsh
    have hle := h hc
    rcases state_step hi hc hs with ⟨hno, _⟩ | ⟨op, hex, hstate, _⟩
    · rw [hno] at hsh
      cases hsh
    · rw [hsh] at hex
      cases hex
      rw [hstate, hd] at hle
      exact absurd hle (by decide)
  · rcases state_step hi hc hs with ⟨_, hstate⟩ | ⟨op, hex, hstate, hest⟩
    · exact Nat.le_of_eq (congrArg _ hstate.symm)
    · rw [hstate]
      exact StateE.rank_nextState hest.mp fun e => hC (e ▸ hex)

section Runs

variable {name : List Char} {addr : InetAddress} {numLoops : Nat} {writeComplete : Bool}
  {tr : List (Process × Label)}

/-- The connections there are stay. -/
theorem created_le (h : Run step (init name addr numLoops writeComplete) tr s) :
    ∀ p ∈ tr, p.1.created ≤ s.created := by
  induction h with
  | start => exact fun p hp => absurd hp List.not_mem_nil
  | step tr s a s' h hs ih =>
      have hle := (wf_step (inv_run h).toWf (of_step hs)).2.created
      intro p hp
      rcases List.mem_cons.mp hp with rfl | hp
      · exact hle
      · exact Nat.le_trans (ih p hp) hle

/-- **A connection's state goes forward, from every state of a run to every later one, if and only
    if no `Shutdown` of the run stores `kDisconnecting` over `kDisconnected`.** -/
theorem state_forward (h : Run step (init name addr numLoops writeComplete) tr s) (c : ConnId) :
    (s :: tr.map Prod.fst).Pairwise (Forward c) ↔ ∀ p ∈ tr, ShutdownOpen c p.1 p.2 := by
  induction h with
  | start => exact iff_of_true (List.pairwise_singleton _ _) fun p hp => absurd hp List.not_mem_nil
  | step tr s a s' h hs ih =>
      have hstep : Forward c s' s ↔ ShutdownOpen c s a := forward_step (inv_run h) (of_step hs)
      rw [List.map_cons, List.pairwise_cons, ih]
      refine Iff.trans ⟨fun hp => ⟨hstep.mp (hp.1 s List.mem_cons_self), hp.2⟩,
        fun hp => ⟨?_, hp.2⟩⟩ List.forall_mem_cons.symm
      intro s₁ hs₁
      rcases List.mem_cons.mp hs₁ with rfl | hs₁
      · exact hstep.mpr hp.1
      · obtain ⟨p, hp', rfl⟩ := List.mem_map.mp hs₁
        have hold := (List.pairwise_cons.mp (ih.mpr hp.2)).1 p.1 (List.mem_map_of_mem hp')
        exact (hstep.mpr hp.1).trans hold (created_le h p hp')

/-- Another thread's `Shutdown` is through; then the peer hangs up, and `HandleClose` runs. -/
def shutDownRun : List Label := List.flatten
  [acceptRun, settleRun, [.user (.user 0) (.shutdown 0)], runs (.user 0) 6,
    [.poll 0 [(.conn 0, epollHup), (.wakeup 0, epollIn)], .dispatch 0], runs (.loop 0) 2]

theorem state_forward_hangUp : ∃ s, Machine.exec step oneLoop shutDownRun = some s ∧
    (s.conns 0).state = .kDisconnected ∧
    (∃ p ∈ execTrace step oneLoop shutDownRun [], p.1.executed 0 p.2 = some .shutdownSetState) ∧
    (s :: (execTrace step oneLoop shutDownRun []).map Prod.fst).Pairwise (Forward 0) := by
  have h : ((Machine.exec step oneLoop shutDownRun).any fun s =>
      decide ((s.conns 0).state = .kDisconnected)) = true := by decide +kernel
  have hsh : ((execTrace step oneLoop shutDownRun []).any fun p =>
      decide (p.1.executed 0 p.2 = some .shutdownSetState)) = true := by decide +kernel
  have hC : ((execTrace step oneLoop shutDownRun []).all fun p =>
      decide (p.1.executed 0 p.2 = some .shutdownSetState →
        (p.1.conns 0).state = .kConnected)) = true := by decide +kernel
  obtain ⟨s, hs, hb⟩ := (Option.any_eq_true _ _).mp h
  obtain ⟨p, hp, hex⟩ := List.any_eq_true.mp hsh
  refine ⟨s, hs, of_decide_eq_true hb, ⟨p, hp, of_decide_eq_true hex⟩,
    (state_forward (exec_run .start hs) 0).mpr fun q hq hst hd => ?_⟩
  rw [of_decide_eq_true (List.all_eq_true.mp hC q hq) hst] at hd
  cases hd

/-- Another thread's `Shutdown` loads `kConnected`; the peer hangs up, and `HandleClose` stores
    `kDisconnected`; then `Shutdown` stores. -/
def backRun : List Label :=
  acceptRun ++ settleRun ++ [.user (.user 0) (.shutdown 0), .run (.user 0) .none,
    .poll 0 [(.conn 0, epollHup)], .dispatch 0, .run (.loop 0) .none, .run (.loop 0) .none,
    .run (.user 0) .none]

/-- **From `kDisconnected` back to `kDisconnecting`.** -/
theorem state_back : ¬ ∀ (tr : List (Process × Label)) (s : Process), Run step oneLoop tr s →
    ∀ c, (s :: tr.map Prod.fst).Pairwise (Forward c) := by
  intro hall
  have h : ((Machine.exec step oneLoop backRun).any fun s =>
      decide ((s.conns 0).state = .kDisconnecting)) = true := by decide +kernel
  have hC : ((execTrace step oneLoop backRun []).any fun p =>
      decide (0 < p.1.created ∧ (p.1.conns 0).state = .kDisconnected)) = true := by decide +kernel
  obtain ⟨s, hs, hb⟩ := (Option.any_eq_true _ _).mp h
  obtain ⟨p, hp, hb'⟩ := List.any_eq_true.mp hC
  obtain ⟨hc, hd⟩ := of_decide_eq_true hb'
  have hle := (List.pairwise_cons.mp (hall _ s (exec_run .start hs) 0)).1 p.1
    (List.mem_map_of_mem hp) hc
  rw [hd, of_decide_eq_true hb] at hle
  exact absurd hle (by decide)

end Runs

end Process

end CuteMuduo
