/-
  File:      CuteMuduo/TcpServer/Shutdown.lean
  Subject:   GRACEFUL SHUTDOWN, over every run of the program in which the connection is neither
             closed by its peer nor destroyed: what is accepted reaches the kernel before the FIN,
             the FIN is sent once, and nothing is written behind it (`graceful_shutdown`).

  This is so as long as a `ShutdownInLoop` that finds no write interest is the last that is under
  way (`FinAlone`): the missing interest only says that `output_buffer_` is empty. Where a message
  still waits in the task queue, the FIN overtakes it (`queued_at_fin`). And it is so as long as
  the logger does not leave `EPIPE` or `ECONNRESET` in the `errno` that `SendInLoop` reads again
  behind it (`FaultUnset`): the rest of the message would be dropped.
-/
import Mathlib.Data.List.TakeWhile
import CuteMuduo.TcpServer.Confinement
import CuteMuduo.TcpServer.Interest
import CuteMuduo.TcpServer.Notify

namespace CuteMuduo

open Machine

namespace ConnOp

/-- The end of the connection: the peer's, or the server's. -/
def ends : ConnOp → Bool
  | .handleClose | .connectDestroyed | .destroySetState | .channelRemove => true
  | _ => false

/-- What still writes, or comes to `ShutdownInLoop`. -/
def outstanding : ConnOp → Bool
  | .sendInLoop _ _ | .shutdownSetState | .shutdownInLoop | .shutdownIfDisconnecting => true
  | _ => false

/-- A function that does not end the connection leaves it open. -/
theorem nextState_open {op : ConnOp} {state : StateE} (hends : op.ends = false)
    (h : state ≠ .kDisconnected) : op.nextState state ≠ .kDisconnected := by
  cases op <;> first | exact h | (cases hends; done) | nofun

/-- And closing, once it is. -/
theorem nextState_closing {op : ConnOp} (hends : op.ends = false)
    (hest : op ≠ .connectEstablished) : op.nextState .kDisconnecting = .kDisconnecting := by
  cases op <;> first | rfl | (cases hends; done) | exact absurd rfl hest

end ConnOp

/-- `write` does not fail with `EPIPE` or `ECONNRESET`. -/
def Outcome.noFault : Outcome → Prop
  | .write (.failed err _) => err ≠ .ePipe ∧ err ≠ .eConnReset
  | _ => True

instance : DecidablePred Outcome.noFault
  | .write (.failed err _) => inferInstanceAs (Decidable (err ≠ .ePipe ∧ err ≠ .eConnReset))
  | .write (.wrote _) | .none | .read _ | .accept _ | .entry _ => .isTrue trivial

/-! ## The history -/

/-- The message for which `SendInLoop` runs. -/
def ConnEvent.sent : ConnEvent → List UInt8
  | .sendInLoop _ msg _ => msg
  | _ => []

/-- The messages for which `SendInLoop` has run, one after the other. -/
def sentMessages (log : List ConnEvent) : List UInt8 := log.flatMap ConnEvent.sent

/-- No message is refused or dropped. -/
def AllKept (log : List ConnEvent) : Prop :=
  ∀ sender msg outcome, .sendInLoop sender msg outcome ∈ log → outcome.kept = true

theorem AllKept.keptMessages {log : List ConnEvent} (h : AllKept log) :
    keptMessages log = sentMessages log := by
  refine List.flatMap_congr fun e he => ?_
  cases e with
  | sendInLoop sender msg outcome => exact if_pos (h sender msg outcome he)
  | _ => rfl

/-- **The FIN is sent once, and nothing is written behind it.** -/
def FinLast (log : List ConnEvent) : Prop :=
  ∀ e ∈ (since .shutdownWrite log).tail, e ≠ .shutdownWrite ∧ ∀ bytes, e ≠ .write bytes

theorem finLast_of_not_mem {log : List ConnEvent} (h : .shutdownWrite ∉ log) : FinLast log := by
  intro e he
  have hnil : since .shutdownWrite log = [] := by
    have h := since_append_of_not_mem [] h
    rwa [List.append_nil] at h
  rw [hnil] at he
  exact absurd he List.not_mem_nil

theorem finLast_fin {log : List ConnEvent} (h : .shutdownWrite ∉ log) :
    FinLast (log ++ [.shutdownWrite]) := by
  intro e he
  rw [since_append_of_not_mem _ h] at he
  exact absurd he List.not_mem_nil

theorem finLast_append {log es : List ConnEvent} (h : FinLast log) (hm : .shutdownWrite ∈ log)
    (hes : ∀ e ∈ es, e ≠ .shutdownWrite ∧ ∀ bytes, e ≠ .write bytes) : FinLast (log ++ es) := by
  intro e he
  have hne : since .shutdownWrite log ≠ [] := by
    intro hnil
    have hall := List.dropWhile_eq_nil_iff.mp hnil _ hm
    exact absurd rfl (of_decide_eq_true hall)
  rw [since_append_of_mem es hm, List.tail_append_of_ne_nil hne] at he
  exact (List.mem_append.mp he).elim (h e) (hes e)

namespace Ctx

variable {k k' : Ctx} {c : ConnId} {t : ThreadId} {own : Bool} {op : ConnOp} {o : Outcome}
  {is : List Instr}

/-- A `SendInLoop` on an open connection, with a `write` that does not break, keeps its message. -/
theorem sendInLoop_kept {sender : ThreadId} {msg : List UInt8} {r : WriteResult}
    (hk : AllKept k.conn.log) (hopen : k.conn.state ≠ .kDisconnected)
    (hf : Outcome.noFault (.write r)) (h : k.sendInLoop c sender msg r = some (k', is)) :
    AllKept k'.conn.log := by
  have hdirect : (SendOutcome.direct r).kept = true := by
    cases r with
    | wrote n => rfl
    | failed err errAfterLog =>
        obtain ⟨h₁, h₂⟩ := hf
        cases err <;> first | rfl | exact absurd rfl h₁ | exact absurd rfl h₂
  have hadd : ∀ {es : List ConnEvent}, AllKept es → AllKept (k.conn.log ++ es) := by
    intro es hes u m outcome hm
    exact (List.mem_append.mp hm).elim (hk u m outcome) (hes u m outcome)
  have hwritten : ∀ bytes, AllKept [.write bytes, .sendInLoop sender msg (.direct r)] := by
    intro bytes u m outcome hm
    rcases List.mem_cons.mp hm with e | hm
    · cases e
    · cases List.mem_singleton.mp hm
      exact hdirect
  have hbuffered : AllKept [.sendInLoop sender msg .buffered] := by
    intro u m outcome hm
    cases List.mem_singleton.mp hm
    rfl
  cases of_sendInLoop h with
  | refused hs => exact absurd hs hopen
  | complete => exact hadd (hwritten _)
  | dropped => exact hadd (hwritten _)
  | rest _ _ _ _ _ _ _ h =>
      rw [(of_appendOutput h).1]
      exact hadd (hwritten _)
  | empty => exact hadd hbuffered
  | buffered _ _ _ _ _ h =>
      rw [(of_appendOutput h).1]
      exact hadd hbuffered

/-- **Every function keeps every message**, on an open connection. -/
theorem exec_kept (ha : k.Agrees c) (hk : AllKept k.conn.log)
    (hopen : k.conn.state ≠ .kDisconnected) (hf : o.noFault)
    (h : k.exec c t own op o = some (k', is)) : AllKept k'.conn.log := by
  by_cases hs : ∃ u msg, op = .sendInLoop u msg
  · obtain ⟨u, msg, rfl⟩ := hs
    cases o with
    | write r => exact sendInLoop_kept hk hopen hf h
    | _ => cases h
  · intro u msg outcome hm
    rcases (exec_effect ha h).mem_log hm with hm | hcb
    · exact hk u msg outcome hm
    · exact absurd (ConnEvent.of_causedBy_sendInLoop hcb) hs

/-- A function that is not outstanding, behind the FIN: no write interest, no new FIN, no `write`,
    and nothing outstanding. -/
theorem exec_behind (ha : k.Agrees c) (hs : k.conn.state = .kDisconnecting)
    (hw : k.channel.isWriting = false) (hest : op ≠ .connectEstablished) (hends : op.ends = false)
    (hout : op.outstanding = false) (h : k.exec c t own op o = some (k', is)) :
    k'.channel = k.channel ∧
    (∃ es, k'.conn.log = k.conn.log ++ es ∧
      ∀ e ∈ es, e ≠ .shutdownWrite ∧ ∀ bytes, e ≠ .write bytes) ∧
    ∀ j ∈ is, ∀ op', op'.outstanding = true → j.carries ≠ some (.conn c op') := by
  by_cases hhw : op = .handleWrite
  · -- no interest: it does nothing
    subst hhw
    cases o with
    | write r =>
        obtain ⟨rfl, rfl⟩ := handleWrite_idle hw h
        exact ⟨rfl, ⟨[], (List.append_nil _).symm, fun e he => absurd he List.not_mem_nil⟩,
          fun j hj => absurd hj List.not_mem_nil⟩
    | _ => cases h
  · refine ⟨exec_channel h ?_, ?_, fun j hj op' hop' hc => ?_⟩
    · cases op <;> first
        | rfl
        | (cases hends; done)
        | (cases hout; done)
        | exact absurd rfl hest
        | exact absurd rfl hhw
    · obtain ⟨es, hlog, hes⟩ := (exec_effect ha h).log
      refine ⟨es, hlog, fun e he => ⟨?_, fun bytes => ?_⟩⟩
      · rintro rfl
        rw [ConnEvent.of_causedBy_shutdownWrite (hes _ he)] at hout
        cases hout
      · rintro rfl
        obtain ⟨u, msg, rfl⟩ := (ConnEvent.of_causedBy_write (hes _ he)).resolve_left hhw
        cases hout
    · cases exec_produced h j hj with
      | sendInLoop msg _ _ hs' => rw [hs] at hs'; cases hs'
      | sendHere msg _ _ hs' => rw [hs] at hs'; cases hs'
      | shutdownInLoop e =>
          subst e
          cases hout
      | conn op'' hop =>
          cases hc
          rw [hs] at hop
          cases op <;> cases op' <;> first
            | (cases hop; done)
            | (cases hop'; done)
            | (cases hout; done)
            | exact absurd rfl hhw
      | _ => cases hc <;> cases hop'

end Ctx

namespace Process

variable {s s' : Process} {a : Label} {c : ConnId} {t : ThreadId}

/-! ## The FIN -/

/-- **Neither the peer nor the server ends the connection**, and no `write` on it breaks. -/
structure Undisturbed (c : ConnId) (s : Process) (a : Label) : Prop where
  stays : ∀ op, s.executed c a = some op → op.ends = false
  noFault : ∀ op, s.executed c a = some op → a.outcome.noFault

theorem undisturbed_of_executed (hends : (s.executed c a).all (fun op => !op.ends) = true)
    (hf : a.outcome.noFault) : Undisturbed c s a := by
  refine ⟨fun op hop => ?_, fun _ _ => hf⟩
  rw [hop] at hends
  exact (Bool.not_eq_true' _).mp hends

/-- **The connection's `SendInLoop` does not set `fault_error`.** -/
def FaultUnset (c : ConnId) (s : Process) (a : Label) : Prop :=
  ∀ u msg, s.executed c a = some (.sendInLoop u msg) → a.outcome.faultError = false

/-- Its messages are kept, as `write` has not broken. -/
theorem keepsSent_of_undisturbed (hU : Undisturbed c s a) (hE : FaultUnset c s a) :
    KeepsSent c s a := by
  rintro u msg t r hex rfl
  refine ⟨rfl, rfl, ?_⟩
  have hf : r.faultError = false := hE u msg hex
  rw [hf]
  cases r with
  | wrote n => rfl
  | failed err errAfterLog =>
      obtain ⟨h₁, h₂⟩ := hU.noFault _ hex
      cases err <;> first | rfl | exact absurd rfl h₁ | exact absurd rfl h₂

/-- The step calls `ShutdownWrite`. -/
def CallsShutdownWrite (c : ConnId) (s : Process) (a : Label) : Prop :=
  s.executed c a = some .shutdownInLoop ∧ (s.chans (.conn c)).isWriting = false

/-- **A `ShutdownInLoop` that finds no write interest is the last**: beside it, no `SendInLoop` of
    an accepted message is under way, and nothing that comes to another `ShutdownInLoop`. -/
def FinAlone (c : ConnId) (s : Process) (a : Label) : Prop :=
  ∀ t o rest, a = .run t o → s.stack t = .conn c .shutdownInLoop :: rest →
    (s.chans (.conn c)).isWriting = false →
    ∀ op, op.outstanding = true → ¬ (s.setStack t rest).InFlight (.conn c op)

/-- **Everything accepted has reached the kernel.** -/
structure Drained (s : Process) (c : ConnId) : Prop where
  empty : (s.conns c).outputBuffer.readable = []
  queued : ∀ l u msg, .conn c (.sendInLoop u msg) ∉ (s.loops l).queue
  sent : ∀ t, executedBy t (s.conns c).log = acceptedBy t (s.conns c).log
  delivered : kernelBytes (s.conns c).log = sentMessages (s.conns c).log

/-- Behind the FIN. -/
structure Fin (s : Process) (c : ConnId) : Prop where
  state : (s.ctx c).conn.state = .kDisconnecting
  interest : (s.ctx c).channel.isWriting = false
  alone : ∀ op, op.outstanding = true → ¬ s.InFlight (.conn c op)
  last : FinLast (s.ctx c).conn.log

/-- **A connection that is up, or shut down gracefully.** -/
structure Graceful (s : Process) (c : ConnId) : Prop where
  inOrder : s.InOrder c
  stays : (s.ctx c).conn.state ≠ .kDisconnected
  tracks : (s.ctx c).conn.state ≠ .kConnecting → (s.ctx c).Tracks
  kept : AllKept (s.ctx c).conn.log
  closing : s.InFlight (.conn c .shutdownInLoop) → (s.ctx c).conn.state = .kDisconnecting
  fin : .shutdownWrite ∈ (s.ctx c).conn.log → s.Fin c

theorem graceful_of_untouched (h : s.Untouched c) : s.Graceful c := by
  refine ⟨inOrder_of_untouched h, ?_, fun hk => absurd h.state hk, ?_, fun hf => ?_, fun hm => ?_⟩
  · rw [h.state]
    nofun
  · rw [h.log]
    exact fun _ _ _ hm => absurd hm List.not_mem_nil
  · rcases h.flight _ hf rfl with e | e <;> cases e
  · rw [h.log] at hm
    exact absurd hm List.not_mem_nil

/-- What is outstanding comes from functions of the connection's. -/
theorem outstanding_other (hno : ∀ t o op rest, a = .run t o → s.stack t ≠ .conn c op :: rest)
    (hs : Step s a s') {op : ConnOp} (hop : op.outstanding = true)
    (hf : s'.InFlight (.conn c op)) : s.InFlight (.conn c op) := by
  refine (inFlight_step hs hf).resolve_right fun hm => ?_
  cases hm with
  | run t o i rest f hst hm =>
      cases hm with
      | conn d op' j _ hj hjf =>
          obtain rfl := of_produced_carries hj hjf
          exact hno t o op' rest rfl hst
      | handler _ _ hh => cases op <;> first | (cases hh; done) | cases hop
      | create => cases hop
      | remove => cases hop
      | entry => cases hop
  | user t v f hm => cases hm <;> cases hop

/-- **`ConnectEstablished`.** -/
theorem graceful_establish (hag : (s.ctx c).Agrees c) (hun : s.Untouched c)
    {o : Outcome} {rest is : List Instr} {own : Bool}
    (he : (s.ctx c).exec c t own .connectEstablished o = some (s'.ctx c, is))
    (hst' : s'.stack = Function.update s.stack t (is ++ rest)) (hloops : s'.loops = s.loops)
    (hst : s.stack t = .conn c .connectEstablished :: rest) (hin : s'.InOrder c) :
    s'.Graceful c := by
  have hstate : (s'.ctx c).conn.state = .kConnected := (Ctx.exec_effect hag he).state
  have hlog : (s'.ctx c).conn.log = [] := by
    obtain ⟨p, _, e⟩ := Option.map_eq_some_iff.mp he
    have hl : (s'.ctx c).conn.log = (s.ctx c).conn.log :=
      (congrArg (fun k => k.conn.log) (Prod.mk.inj e).1).symm
    rw [hl, hun.log]
  refine ⟨hin, by rw [hstate]; nofun, fun _ => ?_, ?_, fun hf => ?_, fun hm => ?_⟩
  · exact Ctx.tracks_connectEstablished hag hun.index hun.events hun.output he
  · rw [hlog]
    exact fun _ _ _ hm => absurd hm List.not_mem_nil
  · rcases inFlight_run hst' hloops hf with hf | ⟨j, hj, hc⟩
    · rcases hun.flight _ (hf.of_setStack hst) rfl with e | e <;> cases e
    · cases Ctx.exec_produced he j hj with
      | shutdownInLoop e => cases e
      | conn op hop =>
          cases hc
          cases hop
      | _ => cases hc
  · rw [hlog] at hm
    exact absurd hm List.not_mem_nil

section Own

variable {o : Outcome} {op : ConnOp} {rest is : List Instr} {own : Bool}

/-- A function of the connection's, behind the FIN. -/
theorem fin_behind (hag : (s.ctx c).Agrees c) (h : s.Fin c)
    (hm : .shutdownWrite ∈ (s.ctx c).conn.log) (hst : s.stack t = .conn c op :: rest)
    (hest : op ≠ .connectEstablished) (hends : op.ends = false)
    (he : (s.ctx c).exec c t own op o = some (s'.ctx c, is))
    (hst' : s'.stack = Function.update s.stack t (is ++ rest)) (hloops : s'.loops = s.loops) :
    s'.Fin c := by
  have hout : op.outstanding = false := Bool.eq_false_iff.mpr fun hop =>
    h.alone op hop (Or.inl ⟨t, _, mem_stack hst, rfl⟩)
  obtain ⟨hch, ⟨es, hlog, hes⟩, hleft⟩ :=
    Ctx.exec_behind hag h.state h.interest hest hends hout he
  refine ⟨?_, hch ▸ h.interest, fun op' hop' hf => ?_, ?_⟩
  · rw [(Ctx.exec_effect hag he).state, h.state]
    exact ConnOp.nextState_closing hends hest
  · rcases inFlight_run hst' hloops hf with hf | ⟨j, hj, hcar⟩
    · exact h.alone op' hop' (hf.of_setStack hst)
    · exact hleft j hj op' hop' hcar
  · rw [hlog]
    exact finLast_append h.last hm hes

/-- **`ShutdownInLoop` sends the FIN.** -/
theorem fin_sent (h : s.Graceful c) (hC : FinAlone c s (.run t o))
    (hst : s.stack t = .conn c .shutdownInLoop :: rest) (hm : .shutdownWrite ∉ (s.ctx c).conn.log)
    (he : (s.ctx c).exec c t own .shutdownInLoop o = some (s'.ctx c, is))
    (hst' : s'.stack = Function.update s.stack t (is ++ rest)) (hloops : s'.loops = s.loops)
    (hm' : .shutdownWrite ∈ (s'.ctx c).conn.log) : s'.Fin c := by
  have hflight : s.InFlight (.conn c .shutdownInLoop) :=
    Or.inl ⟨t, _, mem_stack hst, rfl⟩
  obtain ⟨hk, rfl⟩ := Prod.mk.inj (Option.some.inj he)
  by_cases hw : (s.ctx c).channel.isWriting = true
  · rw [← hk, if_pos hw] at hm'
    exact absurd hm' hm
  · have hw : (s.ctx c).channel.isWriting = false := Bool.eq_false_iff.mpr hw
    rw [if_neg (by rw [hw]; nofun)] at hk
    refine ⟨?_, ?_, fun op hop hf => ?_, ?_⟩
    · rw [← hk]
      exact h.closing hflight
    · rw [← hk]
      exact hw
    · rcases inFlight_run hst' hloops hf with hf | ⟨j, hj, _⟩
      · exact hC t o rest rfl hst hw op hop hf
      · exact absurd hj List.not_mem_nil
    · rw [← hk]
      exact finLast_fin hm

/-- **A function of an established connection's.** -/
theorem graceful_run (hag : (s.ctx c).Agrees c) (h : s.Graceful c) (hU : Undisturbed c s (.run t o))
    (hC : FinAlone c s (.run t o)) (hst : s.stack t = .conn c op :: rest)
    (hest : op ≠ .connectEstablished) (hk : (s.ctx c).conn.state ≠ .kConnecting)
    (he : (s.ctx c).exec c t own op o = some (s'.ctx c, is))
    (hst' : s'.stack = Function.update s.stack t (is ++ rest)) (hloops : s'.loops = s.loops)
    (hin : s'.InOrder c) : s'.Graceful c := by
  have hends : op.ends = false := hU.stays op (executed_of_stack hst)
  have heff := Ctx.exec_effect hag he
  have hne : ∀ {op'}, op'.ends = true → op ≠ op' := by
    rintro op' hop' rfl
    rw [hends] at hop'
    cases hop'
  have htracks : (s'.ctx c).Tracks :=
    Ctx.exec_tracks hag (h.tracks hk) hest (hne rfl) (hne rfl) (hne rfl) he
  have hf : o.noFault := hU.noFault op (executed_of_stack hst)
  refine ⟨hin, ?_, fun _ => htracks, Ctx.exec_kept hag h.kept h.stays hf he, fun hf => ?_,
    fun hm' => ?_⟩
  · rw [heff.state]
    exact ConnOp.nextState_open hends h.stays
  · -- `Shutdown` has stored, or `HandleWrite` finds what it stored
    rw [heff.state]
    rcases inFlight_run hst' hloops hf with hf | ⟨j, hj, hcar⟩
    · rw [h.closing (hf.of_setStack hst)]
      exact ConnOp.nextState_closing hends hest
    · cases Ctx.exec_produced he j hj with
      | shutdownInLoop e =>
          subst e
          rfl
      | conn op' hop =>
          cases hcar
          cases op <;> first
            | exact (eq_of_beq hop : (s.ctx c).conn.state = _)
            | cases hop
      | _ => cases hcar
  · by_cases hm : .shutdownWrite ∈ (s.ctx c).conn.log
    · exact fin_behind hag (h.fin hm) hm hst hest hends he hst' hloops
    · obtain rfl := ConnEvent.of_causedBy_shutdownWrite ((heff.mem_log hm').resolve_left hm)
      exact fin_sent h hC hst hm he hst' hloops hm'

end Own

/-- **Every step.** -/
theorem graceful_step (hi : Inv s) (hc : c < s.created) (h : s.Graceful c)
    (hU : Undisturbed c s a) (hC : FinAlone c s a) (hE : FaultUnset c s a) (hs : Step s a s') :
    s'.Graceful c := by
  have hw := hi.toWf
  have hag := hi.agrees c hc
  have hin : s'.InOrder c := inOrder_step hw hc h.inOrder (keepsSent_of_undisturbed hU hE) hs
  cases seen_step hw hc hs with
  | other hno r hctx =>
      refine ⟨hin, ?_, ?_, ?_, fun hf => ?_, ?_⟩
      · rw [hctx]
        exact h.stays
      · rw [hctx]
        exact fun hk => ⟨(h.tracks hk).index, (h.tracks hk).events⟩
      · rw [hctx]
        exact h.kept
      · rw [hctx]
        exact h.closing (outstanding_other hno hs rfl hf)
      · intro hm
        rw [hctx] at hm
        have hfin := h.fin hm
        refine ⟨?_, ?_, fun op hop hf => hfin.alone op hop (outstanding_other hno hs hop hf), ?_⟩
        · rw [hctx]
          exact hfin.state
        · rw [hctx]
          exact hfin.interest
        · rw [hctx]
          exact hfin.last
  | run t o op rest is ha hst he hst' hloops =>
      subst ha
      by_cases hk : (s.ctx c).conn.state = .kConnecting
      · obtain ⟨hun, hfirst⟩ := (hi.established c hc).before hk
        obtain ⟨rfl, _⟩ := first_run hw hun hfirst hst he
        exact graceful_establish hag hun he hst' hloops hst hin
      · have hest : op ≠ .connectEstablished := by
          rintro rfl
          exact (hi.established c hc).after hk
            (Or.inl ⟨t, _, mem_stack hst, rfl⟩)
        exact graceful_run hag h hU hC hst hest hk he hst' hloops hin

/-- **When `ShutdownWrite` is called**, everything accepted has reached the kernel. -/
theorem drained_of_graceful (h : s.Graceful c) (hC : FinAlone c s a)
    (hcall : CallsShutdownWrite c s a) : s.Drained c := by
  obtain ⟨hex, hw⟩ := hcall
  obtain ⟨t, o, rest, rfl, hst⟩ := of_executed hex
  have hno : ∀ u msg, ¬ s.InFlight (.conn c (.sendInLoop u msg)) := by
    intro u msg hf
    rcases hf.setStack hst with e | hf
    · cases e
    · exact hC t o rest rfl hst hw _ rfl hf
  have hstate : (s.ctx c).conn.state = .kDisconnecting :=
    h.closing (Or.inl ⟨t, _, mem_stack hst, rfl⟩)
  have htracks : (s.ctx c).Tracks := h.tracks (by rw [hstate]; nofun)
  have hempty : (s.conns c).outputBuffer.readable = [] := by
    by_contra hne
    have hw' : (s.ctx c).channel.isWriting = true := htracks.isWriting.mpr hne
    rw [show (s.ctx c).channel.isWriting = false from hw] at hw'
    cases hw'
  refine ⟨hempty, fun l u msg hm => hno u msg (Or.inr ⟨l, hm⟩), fun t => ?_, ?_⟩
  · rw [h.inOrder.order t, waiting_nil hno, List.append_nil]
  · have hstream : kernelBytes (s.conns c).log ++ (s.conns c).outputBuffer.readable =
      keptMessages (s.conns c).log := h.inOrder.stream
    rw [hempty, List.append_nil] at hstream
    exact hstream.trans h.kept.keptMessages

section Runs

variable {name : List Char} {addr : InetAddress} {numLoops : Nat} {writeComplete : Bool}
  {tr : List (Process × Label)}

/-- **Graceful shutdown.** In every run in which the connection is not disturbed, in which a
    `ShutdownInLoop` that finds no write interest is the last under way, and in which no
    `SendInLoop` of the connection's sets `fault_error`: when `ShutdownWrite` is called,
    `output_buffer_` is empty, no accepted message waits in a task queue, and all that was
    accepted has reached the kernel; it is called at most once; and no `write` is attempted
    behind it. -/
theorem graceful_shutdown (h : Run step (init name addr numLoops writeComplete) tr s) (c : ConnId)
    (hc : c < s.created) (hU : ∀ p ∈ tr, Undisturbed c p.1 p.2)
    (hC : ∀ p ∈ tr, FinAlone c p.1 p.2 ∧ FaultUnset c p.1 p.2) :
    FinLast (s.conns c).log ∧
      ∀ p ∈ tr, CallsShutdownWrite c p.1 p.2 → p.1.Drained c := by
  have hrun : ∀ tr s, Run step (init name addr numLoops writeComplete) tr s →
      (∀ p ∈ tr, Undisturbed c p.1 p.2 ∧ FinAlone c p.1 p.2 ∧ FaultUnset c p.1 p.2) →
      c < s.created → s.Graceful c :=
    fun tr s h hC hc => conn_run (I := (Graceful · c))
      (C := fun s a => Undisturbed c s a ∧ FinAlone c s a ∧ FaultUnset c s a) c
      (fun _ _ => graceful_of_untouched)
      (fun _ _ _ hi hc h ha hs => graceful_step hi hc h ha.1 ha.2.1 ha.2.2 hs) h hC hc
  obtain ⟨hmem, hg⟩ := Run.all_of_forall (I := fun s => c < s.created → s.Graceful c)
    (C := fun s a => Undisturbed c s a ∧ FinAlone c s a ∧ FaultUnset c s a) hrun h
    fun p hp => ⟨hU p hp, hC p hp⟩
  refine ⟨?_, fun p hp hcall => ?_⟩
  · by_cases hm : .shutdownWrite ∈ (s.conns c).log
    · exact ((hg hc).fin hm).last
    · exact finLast_of_not_mem hm
  · have hcp : c < p.1.created := by
      by_contra hle
      obtain ⟨tr₁, _, _, h₁, _⟩ := h.split hp
      have hex := hcall.1
      rw [executed_of_le (inv_run h₁).toWf (Nat.le_of_not_lt hle)] at hex
      cases hex
    exact drained_of_graceful (hmem p hp hcp) (hC p hp).1 hcall

/-- Another thread sends two bytes and shuts down. `SendInLoop` writes one of them, so that
    `ShutdownInLoop` leaves the FIN to `HandleWrite`, which writes the other. -/
def drainRun : List Label := List.flatten
  [acceptRun, settleRun, [.user (.user 0) (.send 0 [1, 2])], runs (.user 0) 5,
    [.user (.user 0) (.shutdown 0)], runs (.user 0) 5,
    [.poll 0 [(.wakeup 0, epollIn)], .dispatch 0], runs (.loop 0) 1,
    [.loop 0 .startFunctors, .loop 0 .swap, .loop 0 (.next (.loop 0)),
      .run (.loop 0) (.write (.wrote 1)), .loop 0 .ret, .loop 0 (.next (.loop 0))],
    runs (.loop 0) 1, [.loop 0 .ret, .loop 0 .finish, .loop 0 .test,
      .poll 0 [(.conn 0, epollOut)], .dispatch 0], runs (.loop 0) 1,
    [.run (.loop 0) (.write (.wrote 1))], runs (.loop 0) 1]

theorem graceful_shutdown_drain : ∃ s s', Machine.exec step oneLoop drainRun = some s ∧
    step s (.run (.loop 0) .none) = some s' ∧ CallsShutdownWrite 0 s (.run (.loop 0) .none) ∧
    kernelBytes (s.conns 0).log = [1, 2] ∧ FinLast (s'.conns 0).log ∧
    ∀ p ∈ (s, .run (.loop 0) .none) :: execTrace step oneLoop drainRun [],
      CallsShutdownWrite 0 p.1 p.2 → p.1.Drained 0 := by
  have h : ((Machine.exec step oneLoop drainRun).any fun s =>
      decide ((s.chans (.conn 0)).isWriting = false ∧ (s.conns 0).loop = 0 ∧
        kernelBytes (s.conns 0).log = [1, 2] ∧ (s.loops 0).queue = [] ∧
        s.stack (.loop 0) = [.conn 0 .shutdownInLoop] ∧
        s.stack (.user 0) = [.release 0]) &&
      (step s (.run (.loop 0) .none)).any fun s' => decide (0 < s'.created)) = true := by
    decide +kernel
  have hC : ((execTrace step oneLoop drainRun []).all fun p =>
      decide ((p.1.executed 0 p.2).all (fun op => !op.ends) = true ∧
        (p.1.executed 0 p.2 = some .shutdownInLoop →
          (p.1.chans (.conn 0)).isWriting = true))) = true := by
    decide +kernel
  have hlab : ∀ a ∈ drainRun, a.outcome.noFault ∧ a.outcome.faultError = false := by decide
  obtain ⟨s, hs, hb⟩ := (Option.any_eq_true _ _).mp h
  obtain ⟨hb, hb'⟩ := Bool.and_eq_true_iff.mp hb
  obtain ⟨hw, hl, hbytes, hq, hst, hst'⟩ := of_decide_eq_true hb
  obtain ⟨s', hs', hc⟩ := (Option.any_eq_true _ _).mp hb'
  have hrun := exec_run .start hs
  have hstack : ∀ t, ∀ j ∈ (s.setStack (.loop 0) []).stack t, j = .release 0 := by
    intro t j hj
    by_cases e : t = .loop 0
    · rw [e, stack_setStack_self] at hj
      exact absurd hj List.not_mem_nil
    · rw [stack_setStack_of_ne _ _ e] at hj
      by_cases e' : t = .user 0
      · rw [e', hst'] at hj
        exact List.mem_singleton.mp hj
      · rw [stack_oneLoop hs (by decide) e e'] at hj
        exact absurd hj List.not_mem_nil
  have hex : s.executed 0 (.run (.loop 0) .none) = some .shutdownInLoop := executed_of_stack hst
  have halone : FinAlone 0 s (.run (.loop 0) .none) := by
    intro t o rest e hst₁ _ op hop hf
    cases e
    rw [hst] at hst₁
    cases hst₁
    rcases hf with ⟨u, j, hj, hjf⟩ | ⟨l, hm⟩
    · rw [hstack u j hj] at hjf
      cases hjf
    · have hm : .conn 0 op ∈ (s.loops l).queue := hm
      have hhome : (s.conns 0).loop = l := ((inv_run hrun).queue l _ hm).2.1
      rw [← hhome, hl, hq] at hm
      exact absurd hm List.not_mem_nil
  have hU : ∀ p ∈ (s, .run (.loop 0) .none) :: execTrace step oneLoop drainRun [],
      Undisturbed 0 p.1 p.2 ∧ FinAlone 0 p.1 p.2 ∧ FaultUnset 0 p.1 p.2 := by
    intro p hp
    rcases List.mem_cons.mp hp with rfl | hp
    · refine ⟨undisturbed_of_executed ?_ trivial, halone, fun _ _ _ => rfl⟩
      rw [hex]
      rfl
    · obtain ⟨hf, hset⟩ := hlab _ ((label_mem_execTrace _ hp).resolve_left List.not_mem_nil)
      obtain ⟨hends, hwr⟩ := of_decide_eq_true (List.all_eq_true.mp hC p hp)
      refine ⟨undisturbed_of_executed hends hf, fun t o rest e hst₁ hw₁ => ?_, fun _ _ _ => hset⟩
      rw [hwr (e ▸ executed_of_stack hst₁)] at hw₁
      cases hw₁
  obtain ⟨hlast, hdr⟩ := graceful_shutdown (.step _ _ _ _ hrun hs') 0 (of_decide_eq_true hc)
    (fun p hp => (hU p hp).1) fun p hp => (hU p hp).2
  exact ⟨s, s', hs, hs', ⟨hex, hw⟩, hbytes, hlast, hdr⟩

/-- The user sends from another thread, and shuts down on the loop's own: `ShutdownInLoop` runs at
    once, before the `SendInLoop` that waits in the task queue. -/
def finRun : List Label := List.flatten
  [acceptRun, [.user (.user 0) (.send 0 [1, 2])], runs (.user 0) 4,
    [.user (.loop 0) (.shutdown 0)], runs (.loop 0) 3]

/-- **The FIN overtakes a message.** -/
theorem queued_at_fin : ¬ ∀ (tr : List (Process × Label)) (s : Process), Run step oneLoop tr s →
    ∀ c < s.created, (∀ p ∈ tr, Undisturbed c p.1 p.2) →
      FinLast (s.conns c).log ∧ ∀ p ∈ tr, CallsShutdownWrite c p.1 p.2 → p.1.Drained c := by
  intro hall
  have h : ((Machine.exec step oneLoop finRun).any fun s =>
      decide (s.executed 0 (.run (.loop 0) .none) = some .shutdownInLoop ∧
        (s.chans (.conn 0)).isWriting = false ∧
        .conn 0 (.sendInLoop (.user 0) [1, 2]) ∈ (s.loops 0).queue) &&
      (step s (.run (.loop 0) .none)).any fun s' => decide (0 < s'.created)) = true := by
    decide +kernel
  have hC : ((execTrace step oneLoop finRun []).all fun p =>
      (p.1.executed 0 p.2).all fun op => !op.ends) = true := by
    decide +kernel
  have hlab : ∀ a ∈ finRun, a.outcome.noFault := by decide
  obtain ⟨s, hs, hb⟩ := (Option.any_eq_true _ _).mp h
  obtain ⟨hb, hb'⟩ := Bool.and_eq_true_iff.mp hb
  obtain ⟨hex, hw, hq⟩ := of_decide_eq_true hb
  obtain ⟨s', hs', hc⟩ := (Option.any_eq_true _ _).mp hb'
  have hU : ∀ p ∈ (s, .run (.loop 0) .none) :: execTrace step oneLoop finRun [],
      Undisturbed 0 p.1 p.2 := by
    intro p hp
    rcases List.mem_cons.mp hp with rfl | hp
    · refine undisturbed_of_executed ?_ trivial
      rw [hex]
      rfl
    · exact undisturbed_of_executed (List.all_eq_true.mp hC p hp)
        (hlab _ ((label_mem_execTrace _ hp).resolve_left List.not_mem_nil))
  have hdr := (hall _ s' (.step _ _ _ _ (exec_run .start hs) hs') 0 (of_decide_eq_true hc) hU).2
  exact (hdr _ List.mem_cons_self ⟨hex, hw⟩).queued 0 _ _ hq

end Runs

end Process

end CuteMuduo
