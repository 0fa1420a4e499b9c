/-
  File:      CuteMuduo/TcpServer/Notify.lean
  Subject:   THE NOTIFICATIONS a connection queues for the user (tcp_connection.cpp), over every run
             of the program: `write_complete_callback_` and `high_water_mark_callback_`.

  Both are queued from the middle of `SendInLoop` or `HandleWrite`. What a step queues is read off
  the connection in front of it and behind it, exactly (`exec_queued`):

  * a write-complete functor where the direct `write` takes the whole message, or where
    `HandleWrite` empties `output_buffer_` (`completes`); no byte is then left that is not with the
    kernel, and no message kept goes without one (`writeComplete_exact`);
  * a high-water functor where the content of `output_buffer_` comes up to the mark from below
    (`crosses`), with the new size; there is no second one before `HandleWrite` has taken it below
    the mark again (`highWater_exact`).
-/
import CuteMuduo.TcpServer.Stream

namespace CuteMuduo

open Machine

/-- The functor the instruction hands to `QueueInLoop`. -/
def Instr.queued : Instr → Option Functor
  | .queueInLoop _ f => some f
  | _ => none

/-- `fault_error` is set. -/
def Outcome.faultError : Outcome → Bool
  | .write r => r.faultError
  | _ => false

/-- Neither refused nor dropped. -/
def SendOutcome.survives : SendOutcome → Bool
  | .refused => false
  | .direct r => !r.faultError
  | .buffered => true

/-- A notification of connection `c`'s. -/
def Functor.isNotice (c : ConnId) : Functor → Bool
  | .conn d .writeComplete => d == c
  | .conn d (.highWaterMark _) => d == c
  | _ => false

/-- The number a high-water functor of connection `c`'s carries. -/
def Functor.highWaterSize (c : ConnId) : Functor → Option Nat
  | .conn d (.highWaterMark size) => if d = c then some size else none
  | _ => none

namespace Ctx

variable {k k' : Ctx} {c : ConnId} {t : ThreadId} {own : Bool} {op : ConnOp} {o : Outcome}
  {is : List Instr}

/-- **The sending is complete** behind the step: the direct `write` has taken the whole message, or
    `HandleWrite` has taken `output_buffer_` from non-empty to empty. -/
def completes (k k' : Ctx) : ConnOp → Outcome → Bool
  | .sendInLoop _ msg, o =>
    k.conn.state != .kDisconnected && k.writesDirectly && o == .write (.wrote msg.length)
  | .handleWrite, _ =>
    k.conn.outputBuffer.readable != [] && k'.conn.outputBuffer.readable == []
  | _, _ => false

/-- **The backlog comes up to the mark**: `output_buffer_` held less in front of the step, and does
    not behind it. -/
def crosses (k k' : Ctx) : Bool :=
  decide (k.conn.outputBuffer.readableBytes < k.conn.highWaterMark ∧
    k.conn.highWaterMark ≤ k'.conn.outputBuffer.readableBytes)

/-- The notifications due behind a step. -/
def notices (k k' : Ctx) (c : ConnId) (op : ConnOp) (o : Outcome) : List Functor :=
  (if k.conn.writeCompleteCallback && k.completes k' op o then [.conn c .writeComplete] else []) ++
  (if k.conn.highWaterMarkCallback && k.crosses k' then
    [.conn c (.highWaterMark k'.conn.outputBuffer.readableBytes)] else [])

/-- What is due, and when. -/
theorem of_mem_notices {f : Functor} (h : f ∈ k.notices k' c op o) :
    f = .conn c .writeComplete ∧ k.completes k' op o = true ∨
      f = .conn c (.highWaterMark k'.conn.outputBuffer.readableBytes) ∧ k.crosses k' = true := by
  rcases List.mem_append.mp h with h | h
  · obtain ⟨hb, hf⟩ := List.mem_ite_nil_right.mp h
    exact Or.inl ⟨List.mem_singleton.mp hf, (Bool.and_eq_true_iff.mp hb).2⟩
  · obtain ⟨hb, hf⟩ := List.mem_ite_nil_right.mp h
    exact Or.inr ⟨List.mem_singleton.mp hf, (Bool.and_eq_true_iff.mp hb).2⟩

/-! ## What a step queues -/

/-- No crossing where the backlog has not grown. -/
theorem crosses_of_le (h : k'.conn.outputBuffer.readableBytes ≤ k.conn.outputBuffer.readableBytes) :
    k.crosses k' = false := by
  refine decide_eq_false fun hc => ?_
  omega

/-- Nothing is due where nothing is completed and the backlog has not grown. -/
theorem notices_nil (hc : k.completes k' op o = false)
    (h : k'.conn.outputBuffer.readableBytes ≤ k.conn.outputBuffer.readableBytes) :
    [] = k.notices k' c op o := by
  rw [notices, hc, crosses_of_le h, Bool.and_false, Bool.and_false]
  rfl

/-- Where the sending is complete, and the backlog has not grown, the write-complete functor is
    due. -/
theorem notices_complete (hc : k.completes k' op o = true)
    (h : k'.conn.outputBuffer.readableBytes ≤ k.conn.outputBuffer.readableBytes) :
    (if k.conn.writeCompleteCallback then [Functor.conn c .writeComplete] else []) =
      k.notices k' c op o := by
  rw [notices, hc, crosses_of_le h, Bool.and_true, Bool.and_false]
  exact (List.append_nil _).symm

theorem queued_queueWriteComplete : (k.queueWriteComplete c).filterMap Instr.queued =
    if k.conn.writeCompleteCallback then [.conn c .writeComplete] else [] := by
  unfold queueWriteComplete
  split <;> rfl

/-- **`appendOutput`** queues a high-water functor where the backlog comes up to the mark. -/
theorem queued_appendOutput {remaining : List UInt8}
    (h : k.appendOutput c remaining = some (k', is)) : is.filterMap Instr.queued =
      if k.conn.highWaterMarkCallback && k.crosses k' then
        [.conn c (.highWaterMark k'.conn.outputBuffer.readableBytes)] else [] := by
  have hlen : k'.conn.outputBuffer.readableBytes =
      k.conn.outputBuffer.readableBytes + remaining.length := by
    rw [(of_appendOutput h).1]
    show (k.conn.outputBuffer.append remaining).readableBytes = _
    rw [← Buffer.length_readable, Buffer.readable_append, List.length_append,
      Buffer.length_readable]
  have his : is = if k.conn.highWaterMark ≤ k.conn.outputBuffer.readableBytes + remaining.length ∧
      k.conn.outputBuffer.readableBytes < k.conn.highWaterMark ∧
        k.conn.highWaterMarkCallback = true then
      [.queueInLoop k.conn.loop
        (.conn c (.highWaterMark (k.conn.outputBuffer.readableBytes + remaining.length)))]
    else [] := by
    simp only [appendOutput] at h
    split at h
    · cases h
      rfl
    · obtain ⟨p, _, e⟩ := Option.map_eq_some_iff.mp h
      cases e
      rfl
  rw [his, crosses, hlen]
  by_cases hc : k.conn.highWaterMark ≤ k.conn.outputBuffer.readableBytes + remaining.length ∧
      k.conn.outputBuffer.readableBytes < k.conn.highWaterMark ∧
        k.conn.highWaterMarkCallback = true
  · rw [if_pos hc, hc.2.2, decide_eq_true ⟨hc.2.1, hc.1⟩]
    rfl
  · rw [if_neg hc, if_neg fun hb => hc ?_]
    · rfl
    · obtain ⟨hcb, hcr⟩ := Bool.and_eq_true_iff.mp hb
      obtain ⟨hlt, hle⟩ := of_decide_eq_true hcr
      exact ⟨hle, hlt, hcb⟩

/-- The direct `write` has taken the whole message. -/
theorem completes_direct {sender : ThreadId} {msg : List UInt8} {r : WriteResult}
    (hs : k.conn.state ≠ .kDisconnected) (hd : k.writesDirectly = true)
    (hn : r.nwrote ≤ msg.length) (hr : r.succeeded = true) (he : msg.drop r.nwrote = []) :
    k.completes k' (.sendInLoop sender msg) (.write r) = true := by
  cases r with
  | wrote n =>
      have hle : msg.length ≤ n := List.drop_eq_nil_iff.mp he
      have hn : n = msg.length := Nat.le_antisymm hn hle
      rw [completes, hd, hn, bne_iff_ne.mpr hs, beq_self_eq_true]
      rfl
  | failed _ _ => cases hr

theorem queued_sendInLoop {sender : ThreadId} {msg : List UInt8} {r : WriteResult}
    (h : k.sendInLoop c sender msg r = some (k', is)) : is.filterMap Instr.queued =
      k.notices k' c (.sendInLoop sender msg) (.write r) := by
  have hdirect : k.writesDirectly = false →
      k.completes k' (.sendInLoop sender msg) (.write r) = false := by
    intro hd
    rw [completes, hd, Bool.and_false, Bool.false_and]
  have hresult : r ≠ .wrote msg.length →
      k.completes k' (.sendInLoop sender msg) (.write r) = false := by
    intro hr
    rw [completes, beq_eq_false_iff_ne.mpr fun e => hr (Outcome.write.inj e), Bool.and_false]
  cases of_sendInLoop h with
  | refused hs =>
      refine notices_nil ?_ (Nat.le_refl _)
      rw [completes, hs]
      rfl
  | complete hs hd hn hr he =>
      rw [queued_queueWriteComplete]
      exact notices_complete (completes_direct hs hd hn hr he) (Nat.le_refl _)
  | dropped hs hd hn hr he =>
      refine notices_nil (hresult ?_) (Nat.le_refl _)
      rintro rfl
      cases hr
  | rest hs hd hn hr he k' is h =>
      have hne : r ≠ .wrote msg.length := by
        rintro rfl
        exact he (List.drop_of_length_le (Nat.le_refl _))
      rw [queued_appendOutput h, notices, hresult hne, Bool.and_false]
      rfl
  | empty hs hd he => exact notices_nil (hdirect hd) (Nat.le_refl _)
  | buffered hs hd he k' is h =>
      rw [queued_appendOutput h, notices, hdirect hd, Bool.and_false]
      rfl

theorem queued_handleWrite {r : WriteResult} (h : k.handleWrite c r = some (k', is)) :
    is.filterMap Instr.queued = k.notices k' c .handleWrite (.write r) := by
  have hsame : k'.conn.outputBuffer.readable = k.conn.outputBuffer.readable →
      k.completes k' .handleWrite (.write r) = false := by
    intro e
    rw [completes, e]
    cases k.conn.outputBuffer.readable <;> rfl
  have hle : ∀ n, (k.conn.outputBuffer.writeFd n).readableBytes ≤
      k.conn.outputBuffer.readableBytes := by
    intro n
    rw [← Buffer.length_readable, ← Buffer.length_readable, Buffer.readable_writeFd,
      List.length_drop]
    exact Nat.sub_le _ _
  cases of_handleWrite h with
  | idle => exact notices_nil (hsame rfl) (Nat.le_refl _)
  | failed => exact notices_nil (hsame rfl) (Nat.le_refl _)
  | short hw hr hn he =>
      refine notices_nil (Bool.eq_false_iff.mpr fun hc => ?_) (hle r.nwrote)
      obtain ⟨hfull, hempty⟩ := Bool.and_eq_true_iff.mp hc
      have hempty : (k.conn.outputBuffer.writeFd r.nwrote).readable = [] := eq_of_beq hempty
      refine he ⟨Nat.pos_of_ne_zero fun h0 => ?_, (Buffer.readableBytes_eq_zero _).mpr hempty⟩
      rw [h0, Buffer.readable_writeFd, List.drop_zero] at hempty
      exact bne_iff_ne.mp hfull hempty
  | drained hw hr hn h0 he p hp =>
      have hfull : k.conn.outputBuffer.readable ≠ [] := fun e => by
        rw [← Buffer.readableBytes_eq_zero] at e
        omega
      have hempty : (k.conn.outputBuffer.writeFd r.nwrote).readable = [] :=
        (Buffer.readableBytes_eq_zero _).mp he
      rw [List.filterMap_append, queued_queueWriteComplete]
      refine (List.append_nil _).trans (notices_complete ?_ (hle r.nwrote))
      refine Bool.and_eq_true_iff.mpr ⟨bne_iff_ne.mpr hfull, ?_⟩
      exact beq_iff_eq.mpr hempty

/-- **`SendInLoop` of a message it keeps** is complete, or leaves a backlog. -/
theorem completes_or_backlog {sender : ThreadId} {msg : List UInt8} {r : WriteResult}
    (h : k.sendInLoop c sender msg r = some (k', is)) (hmsg : msg ≠ [])
    (hs : k.conn.state ≠ .kDisconnected) (hf : (k.writesDirectly && r.faultError) = false) :
    k.completes k' (.sendInLoop sender msg) (.write r) = true ∨
      k'.conn.outputBuffer.readable ≠ [] := by
  have happend : ∀ {es : List ConnEvent} {remaining : List UInt8}, remaining ≠ [] →
      (k.record es).appendOutput c remaining = some (k', is) →
      k'.conn.outputBuffer.readable ≠ [] := by
    intro es remaining hne h e
    rw [(of_appendOutput h).1] at e
    replace e : (k.conn.outputBuffer.append remaining).readable = [] := e
    rw [Buffer.readable_append] at e
    exact hne (List.append_eq_nil_iff.mp e).2
  cases of_sendInLoop h with
  | refused hs' => exact absurd hs' hs
  | complete hs hd hn hr he => exact Or.inl (completes_direct hs hd hn hr he)
  | dropped hs hd hn hr he =>
      rw [hd, Bool.true_and] at hf
      rcases he with he | he
      · rw [he] at hf
        cases hf
      · exact absurd he hmsg
  | rest hs hd hn hr he k' is h => exact Or.inr (happend he h)
  | empty hs hd he => exact absurd he hmsg
  | buffered hs hd he k' is h => exact Or.inr (happend he h)

/-- What is complete leaves no backlog. -/
theorem empty_of_completes (h : k.exec c t own op o = some (k', is))
    (hc : k.completes k' op o = true) : k'.conn.outputBuffer.readable = [] := by
  cases op with
  | sendInLoop u msg =>
      obtain ⟨hsd, hr⟩ := Bool.and_eq_true_iff.mp hc
      obtain ⟨hs, hd⟩ := Bool.and_eq_true_iff.mp hsd
      have hempty : k.conn.outputBuffer.readable = [] :=
        (Buffer.readableBytes_eq_zero _).mp (eq_of_beq (Bool.and_eq_true_iff.mp hd).2)
      cases eq_of_beq hr
      cases of_sendInLoop h with
      | rest _ _ _ _ he => exact absurd (List.drop_of_length_le (Nat.le_refl _)) he
      | buffered _ hd' =>
          rw [hd'] at hd
          cases hd
      | _ => exact hempty
  | handleWrite => exact eq_of_beq (Bool.and_eq_true_iff.mp hc).2
  | _ => cases hc

/-- `SendInLoop` puts what it does not write behind what is there. -/
theorem sendInLoop_output {sender : ThreadId} {msg : List UInt8} {r : WriteResult}
    (h : k.sendInLoop c sender msg r = some (k', is)) :
    k.conn.outputBuffer.readable <+: k'.conn.outputBuffer.readable := by
  have happend : ∀ {remaining : List UInt8}, k'.conn.outputBuffer =
      k.conn.outputBuffer.append remaining →
      k.conn.outputBuffer.readable <+: k'.conn.outputBuffer.readable := by
    intro remaining e
    rw [e, Buffer.readable_append]
    exact List.prefix_append _ _
  cases of_sendInLoop h with
  | rest _ _ _ _ _ _ _ h => exact happend (congrArg (·.outputBuffer) (of_appendOutput h).1)
  | buffered _ _ _ _ _ h => exact happend (congrArg (·.outputBuffer) (of_appendOutput h).1)
  | _ => exact List.prefix_refl _

/-- **Only `HandleWrite` takes anything out of `output_buffer_`.** -/
theorem output_grows (h : k.exec c t own op o = some (k', is)) (hw : op ≠ .handleWrite) :
    k.conn.outputBuffer.readable <+: k'.conn.outputBuffer.readable := by
  by_cases hs : ∃ u msg, op = .sendInLoop u msg
  · obtain ⟨u, msg, rfl⟩ := hs
    cases o with
    | write r => exact sendInLoop_output h
    | _ => cases h
  · have he := exec_output h (fun u msg e => hs ⟨u, msg, e⟩) hw
    exact he ▸ List.prefix_refl _

/-- Where a backlog is emptied, the sending is complete. -/
theorem completes_of_emptied (h : k.exec c t own op o = some (k', is))
    (hfull : k.conn.outputBuffer.readable ≠ []) (hempty : k'.conn.outputBuffer.readable = []) :
    k.completes k' op o = true := by
  by_cases hw : op = .handleWrite
  · subst hw
    exact Bool.and_eq_true_iff.mpr ⟨bne_iff_ne.mpr hfull, beq_iff_eq.mpr hempty⟩
  · have hpre := output_grows h hw
    rw [hempty] at hpre
    exact absurd (List.prefix_nil.mp hpre) hfull

/-- Where the backlog shrinks, it is by `HandleWrite`. -/
theorem handleWrite_of_shrunk (h : k.exec c t own op o = some (k', is))
    (hlt : k'.conn.outputBuffer.readableBytes < k.conn.outputBuffer.readableBytes) :
    op = .handleWrite := by
  by_contra hw
  have hle := (output_grows h hw).length_le
  rw [Buffer.length_readable, Buffer.length_readable] at hle
  omega

/-- The other functions queue nothing. -/
theorem queued_other (h : k.exec c t own op o = some (k', is))
    (hs : ∀ u msg, op ≠ .sendInLoop u msg) (hw : op ≠ .handleWrite) :
    is.filterMap Instr.queued = [] := by
  cases op with
  | sendInLoop u msg => exact absurd rfl (hs u msg)
  | handleWrite => exact absurd rfl hw
  | handleRead =>
      cases o with
      | read r => cases of_handleRead h <;> rfl
      | _ => cases h
  | send msg =>
      simp only [exec, send] at h
      split at h
      · cases h
        cases own <;> rfl
      · cases h
        rfl
  | connectEstablished | destroySetState | channelRemove | closeCallback | handleClose =>
      obtain ⟨p, _, e⟩ := Option.map_eq_some_iff.mp h
      cases e
      rfl
  | connectDestroyed | shutdownIfDisconnecting | shutdown =>
      cases h
      split <;> rfl
  | writeComplete | highWaterMark _ =>
      obtain ⟨rfl, rfl⟩ := of_userCallback h
      rfl
  | _ =>
      cases h
      rfl

/-- **What a step on a connection queues** is what is due, exactly. -/
theorem exec_queued (h : k.exec c t own op o = some (k', is)) :
    is.filterMap Instr.queued = k.notices k' c op o := by
  by_cases hs : ∃ u msg, op = .sendInLoop u msg
  · obtain ⟨u, msg, rfl⟩ := hs
    cases o with
    | write r => exact queued_sendInLoop h
    | _ => cases h
  by_cases hw : op = .handleWrite
  · subst hw
    cases o with
    | write r => exact queued_handleWrite h
    | _ => cases h
  · have hs' : ∀ u msg, op ≠ .sendInLoop u msg := fun u msg e => hs ⟨u, msg, e⟩
    have hc : k.completes k' op o = false := by
      cases op <;> first | rfl | exact absurd rfl (hs' _ _) | exact absurd rfl hw
    rw [queued_other h hs' hw]
    refine notices_nil hc (Nat.le_of_eq ?_)
    rw [exec_output h hs' hw]

end Ctx

namespace Process

variable {s s' : Process} {a : Label} {c : ConnId} {t : ThreadId} {op : ConnOp} {o : Outcome}
  {i : Instr} {is rest : List Instr} {f : Functor}

/-- What the environment answers in the step. -/
def Label.outcome : Label → Outcome
  | .run _ o => o
  | _ => .none

/-- **The functors the step hands to `QueueInLoop`.** -/
def queued (s : Process) : Label → List Functor
  | .run t o => match s.stack t with
    | i :: _ => (((s.exec t i o).map Prod.snd).getD []).filterMap Instr.queued
    | [] => []
  | .user t u => (((s.call t u).map Prod.snd).getD []).filterMap Instr.queued
  | _ => []

/-! ## Only the connection itself queues its notifications -/

/-- No notification goes through `RunInLoop`. -/
def Direct (s : Process) : Prop :=
  ∀ t l f, .runInLoop l f ∈ s.stack t → ∀ c, f.isNotice c = false

theorem follows_direct {l : LoopId} (h : Follows s t i (.runInLoop l f)) (c : ConnId) :
    f.isNotice c = false := by
  generalize hj : Instr.runInLoop l f = j at h
  cases h with
  | conn d op j h => cases h <;> cases hj <;> rfl
  | runHere l' g hl => cases g <;> cases hj
  | _ => cases hj <;> rfl

theorem direct_step (h : Direct s) (hs : Step s a s') : Direct s' := by
  intro u l f hm c
  rcases mem_stack_step hs hm with hm | hp
  · exact h u l f hm c
  · generalize hj : Instr.runInLoop l f = j at hp
    cases hp with
    | exec t o i rest hst j hf => exact follows_direct (hj ▸ hf) c
    | call t u j ha =>
        cases ha with
        | runInLoop l k =>
            cases hj
            rfl
        | _ => cases hj
    | functor l a g rest hph => cases g <;> cases hj
    | event l ch hch => cases hj

/-- What an instruction other than a function of `c`'s hands over is no notification of `c`'s. -/
theorem follows_queued {l : LoopId} (hd : Direct s) (hi : i ∈ s.stack t)
    (hne : ∀ op, i ≠ .conn c op) (h : Follows s t i (.queueInLoop l f)) : f.isNotice c = false := by
  generalize hj : Instr.queueInLoop l f = j at h
  cases h with
  | conn d op j h =>
      have hdc : (d == c) = false := beq_eq_false_iff_ne.mpr fun e => hne op (by rw [e])
      cases h <;> cases hj <;> exact hdc
  | runHere l' g hl => cases g <;> cases hj
  | runThere l' g hl =>
      cases hj
      exact hd t l f hi c
  | _ => cases hj <;> rfl

/-- **A step that executes no function of `c`'s queues no notification of `c`'s.** -/
theorem queued_foreign (hd : Direct s) (hno : s.executed c a = none) (hf : f ∈ s.queued a) :
    f.isNotice c = false := by
  cases a with
  | run t o =>
      simp only [queued] at hf
      split at hf
      · rename_i i rest hst
        obtain ⟨j, hj, hjf⟩ := List.mem_filterMap.mp hf
        cases he : s.exec t i o with
        | none =>
            rw [he] at hj
            exact absurd hj List.not_mem_nil
        | some p =>
            rw [he] at hj
            cases j with
            | queueInLoop l g =>
                cases hjf
                refine follows_queued hd (mem_stack hst) (fun op e => ?_)
                  (exec_follows (of_exec he) _ hj)
                rw [e] at hst
                rw [executed_of_stack hst] at hno
                cases hno
            | _ => cases hjf
      · exact absurd hf List.not_mem_nil
  | user t u =>
      obtain ⟨j, hj, hjf⟩ := List.mem_filterMap.mp hf
      cases he : s.call t u with
      | none =>
          rw [he] at hj
          exact absurd hj List.not_mem_nil
      | some p =>
          rw [he] at hj
          cases j with
          | queueInLoop l g =>
              cases hjf
              cases called_asked (of_call he) _ hj
              rfl
          | _ => cases hjf
  | _ => exact absurd hf List.not_mem_nil

/-- The notifications of `c`'s that are due behind the step. -/
def due (s : Process) (c : ConnId) (a : Label) (s' : Process) : List Functor :=
  match s.executed c a with
  | some op => (s.ctx c).notices (s'.ctx c) c op a.outcome
  | none => []

/-- What is due is a notification. -/
theorem isNotice_notices {k k' : Ctx} (hf : f ∈ k.notices k' c op o) : f.isNotice c = true := by
  rcases Ctx.of_mem_notices hf with ⟨rfl, _⟩ | ⟨rfl, _⟩
  · exact beq_self_eq_true c
  · exact beq_self_eq_true c

theorem created_of_executed (hw : Wf s) (h : s.executed c a = some op) : c < s.created := by
  obtain ⟨t, o, rest, _, hst⟩ := of_executed h
  exact (hw.stack t _ (mem_stack hst)).1

/-- A step that executes a function of `c`'s, on the connection; and what it queues. -/
theorem exec_of_executed (hw : Wf s) (hs : s.step a = some s') (hex : s.executed c a = some op) :
    ∃ t is, (s.ctx c).exec c t (s.isInLoopThread (s.conns c).loop t) op a.outcome =
      some (s'.ctx c, is) ∧ s.queued a = is.filterMap Instr.queued := by
  obtain ⟨t, o, rest, rfl, hst⟩ := of_executed hex
  obtain ⟨is, he, _⟩ := seen_run hw hst (of_step hs)
  have hexec : (s.exec t (.conn c op) o).map Prod.snd = some is := by
    simp only [exec, Option.map_map]
    rw [he]
    rfl
  refine ⟨t, is, he, ?_⟩
  simp only [queued, hst, hexec, Option.getD_some]

/-- A step that executes no function of `c`'s leaves the connection as it is. -/
theorem conns_of_not_executed (hw : Wf s) (hs : s.step a = some s') (hc : c < s.created)
    (hex : s.executed c a = none) : s'.conns c = s.conns c := by
  cases seen_step hw hc (of_step hs) with
  | other hno r hctx => exact congrArg Ctx.conn hctx
  | run t o op rest is ha hst =>
      rw [ha, executed_of_stack hst] at hex
      cases hex

/-- **The notifications of `c`'s a step queues are those due**, exactly. -/
theorem queued_step (hw : Wf s) (hd : Direct s) (hs : s.step a = some s') (c : ConnId) :
    (s.queued a).filter (Functor.isNotice c) = s.due c a s' := by
  cases hex : s.executed c a with
  | none =>
      rw [due, hex]
      refine List.filter_eq_nil_iff.mpr fun f hf => ?_
      rw [queued_foreign hd hex hf]
      exact Bool.false_ne_true
  | some op =>
      obtain ⟨t, is, he, hq⟩ := exec_of_executed hw hs hex
      rw [hq, Ctx.exec_queued he, due, hex]
      exact List.filter_eq_self.mpr fun f hf => isNotice_notices hf

/-! ## Write-complete notifications -/

/-- **The sending on connection `c` is complete** behind the step. -/
def completed (s : Process) (c : ConnId) (a : Label) (s' : Process) : Bool :=
  match s.executed c a with
  | some op => (s.ctx c).completes (s'.ctx c) op a.outcome
  | none => false

/-- **The step is a `SendInLoop` that accepts a non-empty message**: the connection is not
    `kDisconnected`, and the message is not dropped. -/
def accepts (s : Process) (c : ConnId) (a : Label) : Bool :=
  match s.executed c a with
  | some (.sendInLoop _ msg) => msg != [] && (s.conns c).state != .kDisconnected &&
      !((s.ctx c).writesDirectly && a.outcome.faultError)
  | _ => false

theorem of_completed (h : s.completed c a s' = true) : ∃ op, s.executed c a = some op ∧
    (s.ctx c).completes (s'.ctx c) op a.outcome = true := by
  unfold completed at h
  cases hex : s.executed c a with
  | none =>
      rw [hex] at h
      cases h
  | some op =>
      rw [hex] at h
      exact ⟨op, rfl, h⟩

theorem completed_of_executed (hex : s.executed c a = some op) :
    s.completed c a s' = (s.ctx c).completes (s'.ctx c) op a.outcome := by
  rw [completed, hex]

theorem created_of_accepts (hw : Wf s) (h : s.accepts c a = true) : c < s.created := by
  unfold accepts at h
  split at h
  · rename_i u msg hex
    exact created_of_executed hw hex
  · cases h

/-- A non-empty message accepted is sent whole, or leaves a backlog. -/
theorem completed_or_backlog (hw : Wf s) (hs : s.step a = some s') (h : s.accepts c a = true) :
    s.completed c a s' = true ∨ (s'.conns c).outputBuffer.readable ≠ [] := by
  unfold accepts at h
  split at h
  · rename_i u msg hex
    obtain ⟨hms, hf⟩ := Bool.and_eq_true_iff.mp h
    obtain ⟨hmsg, hstate⟩ := Bool.and_eq_true_iff.mp hms
    obtain ⟨t, is, he, _⟩ := exec_of_executed hw hs hex
    rw [completed_of_executed hex]
    cases ho : a.outcome with
    | write r =>
        rw [ho] at he hf
        exact Ctx.completes_or_backlog he (bne_iff_ne.mp hmsg) (bne_iff_ne.mp hstate)
          (Bool.not_eq_true' _ ▸ hf)
    | _ =>
        rw [ho] at he
        cases he
  · cases h

/-- Where a backlog is emptied, the sending is complete. -/
theorem completed_of_emptied (hw : Wf s) (hs : s.step a = some s') (hc : c < s.created)
    (hfull : (s.conns c).outputBuffer.readable ≠ [])
    (hempty : (s'.conns c).outputBuffer.readable = []) : s.completed c a s' = true := by
  cases hex : s.executed c a with
  | none =>
      rw [conns_of_not_executed hw hs hc hex] at hempty
      exact absurd hempty hfull
  | some op =>
      obtain ⟨t, is, he, _⟩ := exec_of_executed hw hs hex
      rw [completed_of_executed hex]
      exact Ctx.completes_of_emptied he hfull hempty

/-- **One write-complete functor where the sending is complete, none elsewhere.** -/
theorem count_queued (hw : Wf s) (hd : Direct s) (hs : s.step a = some s')
    (hwc : c < s.created → (s.conns c).writeCompleteCallback = true) :
    (s.queued a).count (.conn c .writeComplete) = if s.completed c a s' then 1 else 0 := by
  have hn : Functor.isNotice c (.conn c .writeComplete) = true := beq_self_eq_true c
  rw [← List.count_filter hn, queued_step hw hd hs c, due, completed]
  cases hex : s.executed c a with
  | none => rfl
  | some op =>
      have hwc' : (s.ctx c).conn.writeCompleteCallback = true := hwc (created_of_executed hw hex)
      simp only [Ctx.notices, hwc', Bool.true_and, List.count_append]
      have hhigh : ∀ b : Bool, List.count (Functor.conn c .writeComplete)
          (if b then [Functor.conn c
            (.highWaterMark (s'.ctx c).conn.outputBuffer.readableBytes)] else []) = 0 := by
        intro b
        refine List.count_eq_zero.mpr fun hm => ?_
        cases List.mem_singleton.mp (List.mem_ite_nil_right.mp hm).2
      rw [hhigh, Nat.add_zero]
      split
      · exact List.count_singleton_self
      · rfl

/-- What is complete leaves no backlog. -/
theorem empty_of_completed (hw : Wf s) (hs : s.step a = some s') (h : s.completed c a s' = true) :
    (s'.conns c).outputBuffer.readable = [] := by
  obtain ⟨op, hex, hc⟩ := of_completed h
  obtain ⟨t, is, he, _⟩ := exec_of_executed hw hs hex
  exact Ctx.empty_of_completes he hc

/-- **The stream of what survives**, in every state. -/
theorem survives_run {name : List Char} {addr : InetAddress} {numLoops : Nat} {writeComplete : Bool}
    {tr : List (Process × Label)} (h : Run step (init name addr numLoops writeComplete) tr s)
    (hc : c < s.created) : (s.ctx c).StreamBy SendOutcome.survives := by
  refine conn_run (I := fun s => (s.ctx c).StreamBy SendOutcome.survives) (C := fun _ _ => True) c
    (fun s _ hun => ?_) (fun s a s' hi hc hk _ hs => ?_) h (fun _ _ => trivial) hc
  · have hlog : (s.conns c).log = [] := hun.log
    show kernelBytes (s.conns c).log ++ (s.conns c).outputBuffer.readable = keptBy _ (s.conns c).log
    rw [hlog]
    exact hun.output
  · cases seen_step hi.toWf hc hs with
    | other hno r hctx =>
        rw [hctx]
        exact hk
    | run t o op rest is ha hst he hst' hloops =>
        exact Ctx.exec_stream (hi.agrees c hc) hk (fun _ _ _ _ _ => ⟨rfl, rfl, rfl⟩) he

/-! ## High-water notifications -/

/-- A high-water functor of `c`'s is a notification of `c`'s. -/
theorem isNotice_of_highWaterSize {n : Nat} (h : f.highWaterSize c = some n) :
    f.isNotice c = true := by
  unfold Functor.highWaterSize at h
  split at h
  · split at h
    · rename_i d size e
      exact beq_iff_eq.mpr e
    · cases h
  · cases h

/-- The high-water functors among the notifications. -/
theorem highWater_notices {k k' : Ctx} (hcb : k.conn.highWaterMarkCallback = true) :
    (k.notices k' c op o).filterMap (Functor.highWaterSize c) =
      if k.crosses k' then [k'.conn.outputBuffer.readableBytes] else [] := by
  have hcomp : ∀ b : Bool, (if b then [Functor.conn c .writeComplete] else []).filterMap
      (Functor.highWaterSize c) = [] := by
    intro b
    cases b <;> rfl
  have hsize : ∀ n, (Functor.conn c (.highWaterMark n)).highWaterSize c = some n := fun n =>
    if_pos rfl
  rw [Ctx.notices, List.filterMap_append, hcomp, List.nil_append, hcb, Bool.true_and]
  split
  · rw [List.filterMap_cons, hsize, List.filterMap_nil]
  · rfl

/-- **One high-water functor where the backlog comes up to the mark, none elsewhere.** -/
theorem highWater_queued (hw : Wf s) (hd : Direct s) (hs : s.step a = some s')
    (hc : c < s.created) (hcb : (s.conns c).highWaterMarkCallback = true) :
    (s.queued a).filterMap (Functor.highWaterSize c) =
      if (s.ctx c).crosses (s'.ctx c) then [(s'.conns c).outputBuffer.readableBytes] else [] := by
  have hfilter : (s.queued a).filterMap (Functor.highWaterSize c) =
      (s.due c a s').filterMap (Functor.highWaterSize c) := by
    rw [← queued_step hw hd hs c, List.filterMap_filter]
    refine List.filterMap_congr fun f _ => ?_
    cases hf : f.highWaterSize c with
    | none => exact (ite_self _).symm
    | some n => rw [if_pos (isNotice_of_highWaterSize hf)]
  rw [hfilter, due]
  cases hex : s.executed c a with
  | none =>
      have hconn : s'.conns c = s.conns c := conns_of_not_executed hw hs hc hex
      have hle : (s'.ctx c).conn.outputBuffer.readableBytes ≤
          (s.ctx c).conn.outputBuffer.readableBytes :=
        Nat.le_of_eq (congrArg (·.outputBuffer.readableBytes) hconn)
      rw [Ctx.crosses_of_le hle]
      rfl
  | some op => exact highWater_notices hcb

/-- Where a high-water functor is queued, the backlog comes up to the mark. -/
theorem crosses_of_queued (hw : Wf s) (hd : Direct s) (hs : s.step a = some s')
    (h : (s.queued a).filterMap (Functor.highWaterSize c) ≠ []) :
    c < s.created ∧ (s.ctx c).crosses (s'.ctx c) = true := by
  obtain ⟨n, hn⟩ := List.exists_mem_of_ne_nil _ h
  obtain ⟨f, hf, hfn⟩ := List.mem_filterMap.mp hn
  have hdue : f ∈ s.due c a s' := by
    rw [← queued_step hw hd hs c]
    exact List.mem_filter.mpr ⟨hf, isNotice_of_highWaterSize hfn⟩
  unfold due at hdue
  cases hex : s.executed c a with
  | none =>
      rw [hex] at hdue
      exact absurd hdue List.not_mem_nil
  | some op =>
      rw [hex] at hdue
      refine ⟨created_of_executed hw hex, ?_⟩
      rcases Ctx.of_mem_notices hdue with ⟨rfl, _⟩ | ⟨_, hcross⟩
      · cases hfn
      · exact hcross

/-- The backlog shrinks in a step that executes `HandleWrite`. -/
theorem executed_of_shrunk (hw : Wf s) (hs : s.step a = some s') (hc : c < s.created)
    (hlt : (s'.conns c).outputBuffer.readableBytes < (s.conns c).outputBuffer.readableBytes) :
    s.executed c a = some .handleWrite := by
  cases hex : s.executed c a with
  | none =>
      rw [conns_of_not_executed hw hs hc hex] at hlt
      exact absurd hlt (Nat.lt_irrefl _)
  | some op =>
      obtain ⟨t, is, he, _⟩ := exec_of_executed hw hs hex
      rw [Ctx.handleWrite_of_shrunk he hlt]

section Runs

variable {name : List Char} {addr : InetAddress} {numLoops : Nat} {writeComplete : Bool}
  {tr : List (Process × Label)}

theorem direct_run (h : Run step (init name addr numLoops writeComplete) tr s) : Direct s :=
  h.inv (fun _ _ _ hm => absurd hm List.not_mem_nil) fun _ _ _ hd hs => direct_step hd (of_step hs)

/-- What no step changes of a connection, no run changes. -/
theorem sameConn_run {s₁ : Process} {tr₁ tr₂ : List (Process × Label)}
    (h₁ : Run step (init name addr numLoops writeComplete) tr₁ s₁) (h₂ : Run step s₁ tr₂ s)
    (hc : c < s₁.created) : c < s.created ∧
      (s.conns c).writeCompleteCallback = (s₁.conns c).writeCompleteCallback := by
  induction h₂ with
  | start => exact ⟨hc, rfl⟩
  | step tr₂ s a s' h₂ hs ih =>
      obtain ⟨hc', hwc⟩ := ih
      have hg := (wf_step (wf_run (h₁.trans h₂)) (of_step hs)).2
      exact ⟨Nat.lt_of_lt_of_le hc' hg.created, (hg.same c hc').writeComplete.trans hwc⟩

/-- The count at a step of a run at whose end the callback is set. -/
theorem count_run {s₁ s₂ : Process} {tr₁ tr₂ : List (Process × Label)}
    (h₁ : Run step (init name addr numLoops writeComplete) tr₁ s₁) (hs : s₁.step a = some s₂)
    (h₂ : Run step s₂ tr₂ s) (hwc : (s.conns c).writeCompleteCallback = true) :
    (s₁.queued a).count (.conn c .writeComplete) = if s₁.completed c a s₂ then 1 else 0 := by
  refine count_queued (wf_run h₁) (direct_run h₁) hs fun hc => ?_
  have h₂' : Run step s₁ (tr₂ ++ [(s₁, a)]) s := (Run.step _ _ _ _ .start hs).trans h₂
  exact (sameConn_run h₁ h₂' hc).2.symm.trans hwc

theorem mem_queued_iff {s₁ s₂ : Process} (h : (s₁.queued a).count (.conn c .writeComplete) =
    if s₁.completed c a s₂ then 1 else 0) :
    .conn c .writeComplete ∈ s₁.queued a ↔ s₁.completed c a s₂ = true := by
  rw [← List.count_pos_iff, h]
  cases s₁.completed c a s₂ <;> decide

/-- **Write-complete notifications are exact.** For every connection with a
    `write_complete_callback_`, in every run. At every step: one write-complete functor is queued
    where the direct `write` has taken the whole message or `HandleWrite` has emptied
    `output_buffer_`, and none elsewhere; and where one is queued, every byte of every message
    that was neither refused nor dropped is with the kernel. And where `SendInLoop` has accepted a
    non-empty message, and the backlog is empty again later on, one has been queued by that step or
    by one in between. Dropped and accepted are by the `errno` that `SendInLoop` tests: it is
    `write`'s as far as the logger has left it (`sendError_iff`). -/
theorem writeComplete_exact (h : Run step (init name addr numLoops writeComplete) tr s)
    (hwc : (s.conns c).writeCompleteCallback = true) :
    (∀ p ∈ tr, ∃ s', p.1.step p.2 = some s' ∧
      (p.1.queued p.2).count (.conn c .writeComplete) = (if p.1.completed c p.2 s' then 1 else 0) ∧
      (.conn c .writeComplete ∈ p.1.queued p.2 → kernelBytes (s'.conns c).log =
        keptBy SendOutcome.survives (s'.conns c).log)) ∧
    ∀ tr₁ p tr₂, tr = tr₂ ++ p :: tr₁ → p.1.accepts c p.2 = true →
      (s.conns c).outputBuffer.readable = [] →
      ∃ q ∈ tr₂ ++ [p], .conn c .writeComplete ∈ q.1.queued q.2 := by
  refine ⟨fun p hp => ?_, fun tr₁ p tr₂ e hacc hempty => ?_⟩
  · obtain ⟨tr₁, tr₂, s', h₁, hs, h₂, _⟩ := h.split hp
    have hw := wf_run h₁
    have hcount := count_run h₁ hs h₂ hwc
    refine ⟨s', hs, hcount, fun hm => ?_⟩
    have hcomp : p.1.completed c p.2 s' = true := (mem_queued_iff hcount).mp hm
    obtain ⟨op, hex, _⟩ := of_completed hcomp
    have hc' := Nat.lt_of_lt_of_le (created_of_executed hw hex) (wf_step hw (of_step hs)).2.created
    have hstream := survives_run (.step _ _ _ _ h₁ hs) hc'
    have hout : (s'.ctx c).conn.outputBuffer.readable = [] := empty_of_completed hw hs hcomp
    unfold Ctx.StreamBy at hstream
    rw [hout, List.append_nil] at hstream
    exact hstream
  · obtain ⟨s₂, h₁, hs, h₂⟩ := h.split_append e
    have hcount := count_run h₁ hs h₂ hwc
    rcases completed_or_backlog (wf_run h₁) hs hacc with hcomp | hfull
    · exact ⟨p, List.mem_append_right _ List.mem_cons_self, (mem_queued_iff hcount).mpr hcomp⟩
    · -- the backlog is emptied by a step in between
      obtain ⟨q, hq, hfull', _, hs₃, hempty'⟩ :=
        h₂.exists_lost (P := fun s => (s.conns c).outputBuffer.readable ≠ []) hfull
          (not_not_intro hempty)
      obtain ⟨tr₃, tr₄, s₃, h₃, hs₄, h₄, _⟩ := h₂.split hq
      cases Option.some.inj (hs₃.symm.trans hs₄)
      have hq₁ := (Run.step _ _ _ _ h₁ hs).trans h₃
      have hcq := count_run hq₁ hs₃ h₄ hwc
      have hc' : c < q.1.created := (sameConn_run h₁ ((Run.step _ _ _ _ .start hs).trans h₃)
        (created_of_accepts (wf_run h₁) hacc)).1
      refine ⟨q, List.mem_append_left _ hq, (mem_queued_iff hcq).mpr ?_⟩
      exact completed_of_emptied (wf_run hq₁) hs₃ hc' hfull' (not_not.mp hempty')

/-- A server with a `write_complete_callback_`. -/
def notified : Process := init ['s'] ⟨127, 0, 0, 1, 80⟩ 0 true

/-- It accepts a connection, whose connection callback sets a mark of two bytes and sends three. -/
def markRun : List Label :=
  acceptRun ++ [.user (.loop 0) (.setHighWaterMark 0 2)] ++ runs (.loop 0) 2 ++
    [.user (.loop 0) (.send 0 [1, 2, 3])] ++ runs (.loop 0) 1

/-- `SendInLoop`, with a `write` that takes one byte. -/
def sendOne : Label := .run (.loop 0) (.write (.wrote 1))

/-- The high-water callback returns, and `HandleWrite` writes the rest. -/
def restRun : List Label :=
  runs (.loop 0) 3 ++ [.ret (.loop 0)] ++ runs (.loop 0) 3 ++
    [.loop 0 .startFunctors, .loop 0 .swap, .loop 0 (.next (.loop 0)), .run (.loop 0) .none,
      .ret (.loop 0), .loop 0 .ret, .loop 0 .finish, .loop 0 .test,
      .poll 0 [(.conn 0, epollOut)], .dispatch 0, .run (.loop 0) .none,
      .run (.loop 0) (.write (.wrote 2))]

/-- The write-complete callback sends two bytes. -/
def againRun : List Label :=
  restRun ++ runs (.loop 0) 3 ++ [.loop 0 .startFunctors, .loop 0 .swap,
    .loop 0 (.next (.loop 0)), .run (.loop 0) .none, .user (.loop 0) (.send 0 [4, 5])] ++
      runs (.loop 0) 1

/-- `SendInLoop`, with a `write` that takes nothing. -/
def sendNone : Label := .run (.loop 0) (.write (.wrote 0))

/-- Three bytes are accepted, one and then two of them written: a notification is queued. -/
theorem writeComplete_exact_rest : ∃ s₁ s₂ s₃, Machine.exec step notified markRun = some s₁ ∧
    s₁.accepts 0 sendOne = true ∧ step s₁ sendOne = some s₂ ∧
    Machine.exec step s₂ restRun = some s₃ ∧
    ∃ q ∈ execTrace step s₂ restRun [] ++ [(s₁, sendOne)],
      .conn 0 .writeComplete ∈ q.1.queued q.2 := by
  have h : ((Machine.exec step notified markRun).any fun s₁ => s₁.accepts 0 sendOne &&
      (step s₁ sendOne).any fun s₂ => (Machine.exec step s₂ restRun).any fun s₃ =>
        decide ((s₃.conns 0).writeCompleteCallback = true ∧
          (s₃.conns 0).outputBuffer.readable = [])) = true := by decide +kernel
  obtain ⟨s₁, h₁, h⟩ := (Option.any_eq_true _ _).mp h
  obtain ⟨hacc, h⟩ := Bool.and_eq_true_iff.mp h
  obtain ⟨s₂, hs, h⟩ := (Option.any_eq_true _ _).mp h
  obtain ⟨s₃, h₂, h⟩ := (Option.any_eq_true _ _).mp h
  obtain ⟨hwc, hempty⟩ := of_decide_eq_true h
  have hrun := (Run.step _ _ _ _ (exec_run .start h₁) hs).trans (exec_run .start h₂)
  exact ⟨s₁, s₂, s₃, h₁, hacc, hs, h₂, (writeComplete_exact hrun hwc).2 _ _ _ rfl hacc hempty⟩

/-- **High-water notifications are the upward crossings.** For every connection with a
    `high_water_mark_callback_`, in every run: a step queues one high-water functor where
    `output_buffer_` holds less than the mark in front of it and does not behind it, with the
    number of bytes it then holds, and none elsewhere; and between two steps that queue one for the
    same mark there is a `HandleWrite` that takes the backlog below it. -/
theorem highWater_exact (h : Run step (init name addr numLoops writeComplete) tr s) :
    (∀ p ∈ tr, c < p.1.created → (p.1.conns c).highWaterMarkCallback = true →
      ∃ s', p.1.step p.2 = some s' ∧ (p.1.queued p.2).filterMap (Functor.highWaterSize c) =
        if (p.1.conns c).outputBuffer.readableBytes < (p.1.conns c).highWaterMark ∧
            (p.1.conns c).highWaterMark ≤ (s'.conns c).outputBuffer.readableBytes then
          [(s'.conns c).outputBuffer.readableBytes] else []) ∧
    ∀ tr₁ p tr₂ q tr₃, tr = tr₃ ++ q :: (tr₂ ++ p :: tr₁) →
      (p.1.queued p.2).filterMap (Functor.highWaterSize c) ≠ [] →
      (q.1.queued q.2).filterMap (Functor.highWaterSize c) ≠ [] →
      (q.1.conns c).highWaterMark = (p.1.conns c).highWaterMark →
      ∃ r ∈ tr₂, r.1.executed c r.2 = some .handleWrite ∧
        (p.1.conns c).highWaterMark ≤ (r.1.conns c).outputBuffer.readableBytes ∧
        ∃ s', r.1.step r.2 = some s' ∧
          (s'.conns c).outputBuffer.readableBytes < (p.1.conns c).highWaterMark := by
  refine ⟨fun p hp hc hcb => ?_, fun tr₁ p tr₂ q tr₃ e hp hq hmark => ?_⟩
  · obtain ⟨tr₁, tr₂, s', h₁, hs, h₂, _⟩ := h.split hp
    refine ⟨s', hs, ?_⟩
    rw [highWater_queued (wf_run h₁) (direct_run h₁) hs hc hcb]
    exact if_congr decide_eq_true_iff rfl rfl
  · obtain ⟨s₃, h₃, hs₃, _⟩ := h.split_append e
    obtain ⟨s₂, h₁, hs₂, h₂⟩ := h₃.split_append rfl
    obtain ⟨hc, hup⟩ := crosses_of_queued (wf_run h₁) (direct_run h₁) hs₂ hp
    obtain ⟨_, hdown⟩ := crosses_of_queued (wf_run h₃) (direct_run h₃) hs₃ hq
    have hup : (p.1.conns c).highWaterMark ≤ (s₂.conns c).outputBuffer.readableBytes :=
      (of_decide_eq_true hup).2
    have hdown : (q.1.conns c).outputBuffer.readableBytes < (q.1.conns c).highWaterMark :=
      (of_decide_eq_true hdown).1
    rw [hmark] at hdown
    -- from the first crossing to the second, the backlog is lost below the mark
    obtain ⟨r, hr, hle, s', hs', hlt⟩ := h₂.exists_lost
      (P := fun s => (p.1.conns c).highWaterMark ≤ (s.conns c).outputBuffer.readableBytes) hup
      (Nat.not_le.mpr hdown)
    obtain ⟨tr₄, tr₅, _, h₄, _, _, _⟩ := h₂.split hr
    have hr₁ := (Run.step _ _ _ _ h₁ hs₂).trans h₄
    have hc' : c < r.1.created := (sameConn_run h₁ ((Run.step _ _ _ _ .start hs₂).trans h₄) hc).1
    have hlt := Nat.not_le.mp hlt
    refine ⟨r, hr, ?_, hle, s', hs', hlt⟩
    exact executed_of_shrunk (wf_run hr₁) hs' hc' (Nat.lt_of_lt_of_le hlt hle)

/-- The backlog comes up to the mark of two bytes, is written, and comes up to it again. -/
theorem highWater_exact_again : ∃ s₁ s₂ s₃ s₄, Machine.exec step notified markRun = some s₁ ∧
    step s₁ sendOne = some s₂ ∧ Machine.exec step s₂ againRun = some s₃ ∧
    step s₃ sendNone = some s₄ ∧
    (s₁.queued sendOne).filterMap (Functor.highWaterSize 0) =
      [(s₂.conns 0).outputBuffer.readableBytes] ∧
    ∃ r ∈ execTrace step s₂ againRun [], r.1.executed 0 r.2 = some .handleWrite ∧
      2 ≤ (r.1.conns 0).outputBuffer.readableBytes ∧
      ∃ s', r.1.step r.2 = some s' ∧ (s'.conns 0).outputBuffer.readableBytes < 2 := by
  have h : ((Machine.exec step notified markRun).any fun s₁ =>
      (step s₁ sendOne).any fun s₂ => (Machine.exec step s₂ againRun).any fun s₃ =>
        (step s₃ sendNone).isSome && decide ((0 < s₁.created ∧
          (s₁.conns 0).highWaterMarkCallback = true ∧
          (s₁.conns 0).outputBuffer.readableBytes < (s₁.conns 0).highWaterMark ∧
          (s₁.conns 0).highWaterMark ≤ (s₂.conns 0).outputBuffer.readableBytes) ∧
          (s₁.queued sendOne).filterMap (Functor.highWaterSize 0) ≠ [] ∧
          (s₃.queued sendNone).filterMap (Functor.highWaterSize 0) ≠ [] ∧
          (s₁.conns 0).highWaterMark = 2 ∧ (s₃.conns 0).highWaterMark = 2)) = true := by
    decide +kernel
  obtain ⟨s₁, h₁, h⟩ := (Option.any_eq_true _ _).mp h
  obtain ⟨s₂, hs₁, h⟩ := (Option.any_eq_true _ _).mp h
  obtain ⟨s₃, h₂, h⟩ := (Option.any_eq_true _ _).mp h
  obtain ⟨hs₂, h⟩ := Bool.and_eq_true_iff.mp h
  obtain ⟨s₄, hs₂⟩ := Option.isSome_iff_exists.mp hs₂
  obtain ⟨⟨hc, hcb, hcross⟩, hp, hq, hm₁, hm₃⟩ := of_decide_eq_true h
  have hrun := Run.step _ _ _ _
    ((Run.step _ _ _ _ (exec_run .start h₁) hs₁).trans (exec_run .start h₂)) hs₂
  have hexact := highWater_exact (c := 0) hrun
  obtain ⟨s', hs', hup⟩ := hexact.1 (s₁, sendOne)
    (List.mem_cons_of_mem _ (List.mem_append_right _ List.mem_cons_self)) hc hcb
  cases Option.some.inj (hs₁.symm.trans hs')
  rw [if_pos hcross] at hup
  obtain ⟨r, hr, hdown⟩ := hexact.2 _ (s₁, sendOne) _ (s₃, sendNone) [] rfl hp hq
    (hm₃.trans hm₁.symm)
  rw [hm₁] at hdown
  exact ⟨s₁, s₂, s₃, s₄, h₁, hs₁, h₂, hs₂, hup, r, hr, hdown⟩

end Runs

end Process

end CuteMuduo
