/-
  File:      CuteMuduo/TcpServer/Confinement.lean
  Subject:   ONE LOOP PER THREAD: what belongs to a loop is touched by that loop's thread alone,
             in every step of every run (`confinement`).

  There are no locks on connections, channels and pollers, nor on the server's registry. That
  none are needed rests on where functions are executed (`Placed`), and on what each of them may
  change.
-/
import CuteMuduo.TcpServer.Established

namespace CuteMuduo

open Machine

namespace Process

variable {s s' s₁ : Process} {a : Label} {c : ConnId} {t : ThreadId} {o : Outcome} {i : Instr}
  {is : List Instr}

/-- The thread that takes the step. -/
def Label.thread : Label → ThreadId
  | .run t _ | .user t _ | .ret t => t
  | .loop l _ | .poll l _ | .dispatch l | .threadEnd l => .loop l

/-- **What the step does is done by the thread it belongs to.** -/
structure Confined (s : Process) (a : Label) (s' : Process) : Prop where
  /-- A connection's functions, but for `Send`, `Shutdown` and the setters. -/
  executed : ∀ c op, s.executed c a = some op → op.anyThread = false →
    a.thread = .loop (s.conns c).loop
  /-- `NewConnection` and `RemoveConnectionInLoop`. -/
  server : ∀ t o i rest, a = .run t o → s.stack t = i :: rest →
    i = .acceptorHandleRead ∨ (∃ c, i = .removeConnectionInLoop c) → t = .loop 0
  buffers : ∀ c < s.created, (s'.conns c).inputBuffer ≠ (s.conns c).inputBuffer ∨
    (s'.conns c).outputBuffer ≠ (s.conns c).outputBuffer → a.thread = .loop (s.conns c).loop
  channel : ∀ c < s.created, (s'.chans (.conn c)).events ≠ (s.chans (.conn c)).events ∨
    (s'.chans (.conn c)).index ≠ (s.chans (.conn c)).index → a.thread = .loop (s.conns c).loop
  poller : ∀ l, s'.pollers l ≠ s.pollers l → a.thread = .loop l
  registry : s'.server.connections ≠ s.server.connections ∨
    s'.server.nextConnId ≠ s.server.nextConnId ∨ s'.server.next ≠ s.server.next →
    a.thread = .loop 0
  loop : ∀ c < s.created, (s'.conns c).loop = (s.conns c).loop

theorem executed_thread (hw : Wf s) {op : ConnOp} (h : s.executed c a = some op)
    (hop : op.anyThread = false) : a.thread = .loop (s.conns c).loop := by
  obtain ⟨t, o, rest, rfl, hst⟩ := of_executed h
  have hh := (hw.stack t (.conn c op) (mem_stack hst)).2
  rw [hop] at hh
  exact hh.resolve_left Bool.false_ne_true

/-- The stack of another thread stays as it is. -/
theorem stack_thread (hs : Step s a s') (ht : a.thread ≠ t) : s'.stack t = s.stack t := by
  cases hs with
  | run u o i rest s₁ is hst he =>
      exact (stack_setStack_of_ne _ _ (Ne.symm ht)).trans (congrFun (exec_stack he) t)
  | user u v s₁ is hu hcall =>
      obtain ⟨held, server, rfl, _⟩ := called_same hcall
      exact stack_setStack_of_ne _ _ (Ne.symm ht)
  | ret u arg rest hst => exact stack_setStack_of_ne _ _ (Ne.symm ht)
  | loop l b l' hst hact hb hl hs => exact stack_setStack_of_ne _ _ (Ne.symm ht)
  | dispatch l ch rest hst hact => exact stack_setStack_of_ne _ _ (Ne.symm ht)
  | _ => rfl

/-- A thread that takes no step of a run keeps its stack. -/
theorem stack_exec {as : List Label} (h : Machine.exec step s as = some s')
    (ht : ∀ a ∈ as, Label.thread a ≠ t) : s'.stack t = s.stack t := by
  induction as generalizing s with
  | nil => rw [← Option.some.inj h]
  | cons a as ih =>
      obtain ⟨s₁, hs, h⟩ := Option.bind_eq_some_iff.mp h
      rw [ih h fun b hb => ht b (List.mem_cons_of_mem _ hb),
        stack_thread (of_step hs) (ht a List.mem_cons_self)]

/-- The threads that take no step of a run have nothing to do behind it. -/
theorem stack_oneLoop {as : List Label} (h : Machine.exec step oneLoop as = some s)
    (hall : (as.all fun a => decide (a.thread = .loop 0 ∨ a.thread = .user 0)) = true)
    (ht : t ≠ .loop 0) (ht' : t ≠ .user 0) : s.stack t = [] := by
  refine (stack_exec h fun a ha e => ?_).trans rfl
  rcases of_decide_eq_true (List.all_eq_true.mp hall a ha) with e' | e'
  · exact ht (e.symm.trans e')
  · exact ht' (e.symm.trans e')

/-- A function any thread may execute leaves the poller alone. -/
theorem pollers_setCtx {k : Ctx} {own : Bool} {op : ConnOp} (hag : (s.ctx c).Agrees c)
    (hop : op.anyThread = true) (h : (s.ctx c).exec c t own op o = some (k, is)) :
    (s.setCtx c k).pollers = s.pollers := by
  have hch : k.channel = (s.ctx c).channel :=
    Ctx.exec_channel h (Ctx.touchesChannel_of_anyThread hop)
  have hslot : k.slot = s.pollers (s.conns c).loop (s.chans (.conn c)).fd := by
    have hk : k.slot = k.channel.slot (.conn c) := (Ctx.exec_effect hag h).agrees
    rw [hk, hch]
    exact hag.symm
  show Function.update s.pollers (s.conns c).loop
    (Function.update (s.pollers (s.conns c).loop) (s.chans (.conn c)).fd k.slot) = s.pollers
  rw [hslot, Function.update_eq_self, Function.update_eq_self]

theorem poller_exec (hw : Wf s) (hi : s.instrHome t i) (h : Exec s t o i s₁ is) (l : LoopId)
    (hne : s₁.pollers l ≠ s.pollers l) : t = .loop l := by
  cases h with
  | conn c op k is h =>
      rcases hi.2 with hop | ht
      · rw [pollers_setCtx (hw.agrees c hi.1) hop h] at hne
        exact absurd rfl hne
      · by_cases hl : l = (s.conns c).loop
        · rw [hl, ht]
        · refine absurd ?_ hne
          exact Function.update_of_ne hl _ _
  | destroyAcceptor p q hp hq =>
      by_cases hl : l = 0
      · rw [hl]
        exact hi
      · refine absurd ?_ hne
        exact Function.update_of_ne hl _ _
  | _ => exact absurd rfl hne

theorem registry_exec (hi : s.instrHome t i) (h : Exec s t o i s₁ is)
    (hne : s₁.server.connections ≠ s.server.connections ∨
      s₁.server.nextConnId ≠ s.server.nextConnId ∨ s₁.server.next ≠ s.server.next) :
    t = .loop 0 := by
  have hsame : s₁.server = s.server → t = .loop 0 := by
    intro e
    rw [e] at hne
    exact absurd hne (by simp)
  cases h with
  | create => exact hi
  | remove c => exact hi.2
  | entry c => exact hi
  | lastEntry => exact hi
  | destroyAcceptor => exact hi
  | _ => exact hsame rfl

/-- **Every step is confined.** -/
theorem confined_step (hi : Inv s) (hs : Step s a s') : Confined s a s' := by
  have hw := hi.toWf
  refine ⟨fun c op h hop => executed_thread hw h hop, ?_, fun c hc hne => ?_, fun c hc hne => ?_,
    fun l hne => ?_, fun hne => ?_, fun c hc => (wf_step hw hs).2.loop hc⟩
  · intro t o i rest _ hst h
    have hh := hw.stack t i (mem_stack hst)
    rcases h with rfl | ⟨c, rfl⟩
    · exact hh
    · exact hh.2
  · -- both buffers belong to functions of the loop's thread
    cases seen_step hw hc hs with
    | other hno r hctx =>
        have hconn : s'.conns c = s.conns c := congrArg Ctx.conn hctx
        rw [hconn] at hne
        exact absurd hne (by simp)
    | run t o op rest is ha hst he hst' hloops =>
        refine executed_thread hw (ha ▸ executed_of_stack hst) (Bool.eq_false_iff.mpr fun hop => ?_)
        rcases hne with hne | hne
        · exact hne (Ctx.exec_input he (by rintro rfl; cases hop) (by rintro len rfl; cases hop))
        · exact hne (Ctx.exec_output he (by rintro u msg rfl; cases hop) (by rintro rfl; cases hop))
  · cases seen_step hw hc hs with
    | other hno r hctx =>
        have hch : s'.chans (.conn c) = (s.chans (.conn c)).setRevents r :=
          congrArg Ctx.channel hctx
        rw [hch] at hne
        exact absurd hne (by simp [Channel.setRevents])
    | run t o op rest is ha hst he hst' hloops =>
        refine executed_thread hw (ha ▸ executed_of_stack hst) (Bool.eq_false_iff.mpr fun hop => ?_)
        have hch : s'.chans (.conn c) = s.chans (.conn c) :=
          Ctx.exec_channel he (Ctx.touchesChannel_of_anyThread hop)
        rw [hch] at hne
        exact absurd hne (by simp)
  · cases hs with
    | run t o i rest s₁ is hst he =>
        exact poller_exec hw (hw.stack t i (mem_stack hst)) he l hne
    | user t u s₁ is hu hcall =>
        obtain ⟨held, server, rfl, _⟩ := called_same hcall
        exact absurd rfl hne
    | _ => exact absurd rfl hne
  · cases hs with
    | run t o i rest s₁ is hst he =>
        exact registry_exec (hw.stack t i (mem_stack hst)) he hne
    | user t u s₁ is hu hcall =>
        cases hcall <;> exact absurd hne (by simp [setStack])
    | _ => exact absurd hne (by simp [setStack])

section Runs

variable {name : List Char} {addr : InetAddress} {numLoops : Nat} {writeComplete : Bool}
  {tr : List (Process × Label)}

/-- **One loop per thread.** In every step of every run, a connection's functions are executed by
    the thread of its loop, `NewConnection` and `RemoveConnectionInLoop` by the base loop's
    thread; and what changes of a connection's buffers and channel, of a loop's poller and of the
    server's registry is changed by the thread it belongs to. A connection's loop never changes. -/
theorem confinement (h : Run step (init name addr numLoops writeComplete) tr s)
    (hs : step s a = some s') : Confined s a s' := confined_step (inv_run h) (of_step hs)

/-- The connection callback calls `Send`, which goes on with `SendInLoop`. -/
def sendHereRun : List Label :=
  acceptRun ++ [.user (.loop 0) (.send 0 [1, 2]), .run (.loop 0) .none]

theorem confinement_sendHere : ∃ s s', Machine.exec step oneLoop sendHereRun = some s ∧
    s.executed 0 (.run (.loop 0) (.write (.wrote 1))) = some (.sendInLoop (.loop 0) [1, 2]) ∧
    step s (.run (.loop 0) (.write (.wrote 1))) = some s' ∧
    Confined s (.run (.loop 0) (.write (.wrote 1))) s' := by
  have h : ((Machine.exec step oneLoop sendHereRun).any fun s =>
      decide (s.executed 0 (.run (.loop 0) (.write (.wrote 1))) =
        some (.sendInLoop (.loop 0) [1, 2])) &&
      (step s (.run (.loop 0) (.write (.wrote 1)))).isSome) = true := by decide +kernel
  obtain ⟨s, hs, hb⟩ := (Option.any_eq_true _ _).mp h
  obtain ⟨hex, hb⟩ := Bool.and_eq_true_iff.mp hb
  obtain ⟨s', hs'⟩ := Option.isSome_iff_exists.mp hb
  exact ⟨s, s', hs, of_decide_eq_true hex, hs', confinement (exec_run .start hs) hs'⟩

end Runs

end Process

end CuteMuduo
