/-
  File:      CuteMuduo/TcpServer/Stream.lean
  Subject:   THE OUTGOING STREAM of a connection, over every run of the program: what the kernel
             has taken, followed by what `output_buffer_` still holds, is the concatenation of
             the messages kept (`stream_integrity`).

  A message is kept unless its `SendInLoop` is refused (`kDisconnected`) or its direct `write`
  fails with `EPIPE` or `ECONNRESET`. The messages stand in the order in which `SendInLoop` runs
  for them, and that order keeps each thread's own order of `Send`s: what a thread has handed over
  and the loop has not yet run is in flight, first in, first out.
-/
import CuteMuduo.TcpServer.Established

namespace CuteMuduo

open Machine

/-! ## The history of a connection -/

/-- The message is neither refused nor dropped. -/
def SendOutcome.kept : SendOutcome → Bool
  | .refused => false
  | .direct (.failed .ePipe _) => false
  | .direct (.failed .eConnReset _) => false
  | _ => true

namespace ConnEvent

/-- What the kernel takes. -/
def taken : ConnEvent → List UInt8
  | .write bytes => bytes
  | _ => []

/-- The message that is kept, where `keep` says how a `SendInLoop` goes that keeps it. -/
def keptBy (keep : SendOutcome → Bool) : ConnEvent → List UInt8
  | .sendInLoop _ msg outcome => if keep outcome then msg else []
  | _ => []

/-- The message of thread `t`'s that is accepted. -/
def acceptedOf (t : ThreadId) : ConnEvent → Option (List UInt8)
  | .accepted sender msg => if sender = t then some msg else none
  | _ => none

/-- The message of thread `t`'s for which `SendInLoop` runs. -/
def executedOf (t : ThreadId) : ConnEvent → Option (List UInt8)
  | .sendInLoop sender msg _ => if sender = t then some msg else none
  | _ => none

end ConnEvent

/-- What the kernel has taken. -/
def kernelBytes (log : List ConnEvent) : List UInt8 := log.flatMap ConnEvent.taken

/-- The messages kept in the sense of `keep`, one after the other. -/
def keptBy (keep : SendOutcome → Bool) (log : List ConnEvent) : List UInt8 :=
  log.flatMap (ConnEvent.keptBy keep)

/-- The messages kept, one after the other. -/
def keptMessages (log : List ConnEvent) : List UInt8 := keptBy SendOutcome.kept log

/-- The messages thread `t` has got accepted. -/
def acceptedBy (t : ThreadId) (log : List ConnEvent) : List (List UInt8) :=
  log.filterMap (ConnEvent.acceptedOf t)

/-- Those of them for which `SendInLoop` has run. -/
def executedBy (t : ThreadId) (log : List ConnEvent) : List (List UInt8) :=
  log.filterMap (ConnEvent.executedOf t)

/-- `errno` is still what `write` set it to when `SendInLoop` tests it a second time. -/
def Outcome.errnoKept : Outcome → Prop
  | .write (.failed err errAfterLog) => errAfterLog = err
  | _ => True

def Process.Label.errnoKept : Process.Label → Prop
  | .run _ o => o.errnoKept
  | _ => True

section Append

variable (xs ys : List ConnEvent) (e : ConnEvent) (t : ThreadId)

@[simp] theorem kernelBytes_append :
    kernelBytes (xs ++ ys) = kernelBytes xs ++ kernelBytes ys := List.flatMap_append

@[simp] theorem kernelBytes_cons : kernelBytes (e :: xs) = e.taken ++ kernelBytes xs :=
  List.flatMap_cons

@[simp] theorem kernelBytes_nil : kernelBytes [] = [] := rfl

@[simp] theorem keptBy_append (keep : SendOutcome → Bool) :
    keptBy keep (xs ++ ys) = keptBy keep xs ++ keptBy keep ys := List.flatMap_append

@[simp] theorem keptBy_cons (keep : SendOutcome → Bool) :
    keptBy keep (e :: xs) = e.keptBy keep ++ keptBy keep xs := List.flatMap_cons

@[simp] theorem keptBy_nil (keep : SendOutcome → Bool) : keptBy keep [] = [] := rfl

@[simp] theorem acceptedBy_append :
    acceptedBy t (xs ++ ys) = acceptedBy t xs ++ acceptedBy t ys := List.filterMap_append

@[simp] theorem executedBy_append :
    executedBy t (xs ++ ys) = executedBy t xs ++ executedBy t ys := List.filterMap_append

end Append

namespace Ctx

variable {k k' : Ctx} {c : ConnId} {t : ThreadId} {own : Bool} {op : ConnOp} {o : Outcome}
  {is : List Instr}

/-! ## The bytes -/

/-- **The kernel and the buffer hold the messages kept**, in the sense of `keep`. -/
def StreamBy (keep : SendOutcome → Bool) (k : Ctx) : Prop :=
  kernelBytes k.conn.log ++ k.conn.outputBuffer.readable = keptBy keep k.conn.log

/-- **`keep` says what `SendInLoop` does**, where `write` answers `r`: it refuses, it buffers, and
    what it has written directly it keeps unless `fault_error` is set. -/
structure Keeps (keep : SendOutcome → Bool) (r : WriteResult) : Prop where
  refused : keep .refused = false
  buffered : keep .buffered = true
  direct : keep (.direct r) = !r.faultError

/-- With `errno` as `write` has left it, that is what `SendOutcome.kept` says. -/
theorem keeps_of_errnoKept {r : WriteResult} (he : Outcome.errnoKept (.write r)) :
    Keeps SendOutcome.kept r := by
  refine ⟨rfl, rfl, ?_⟩
  cases r with
  | wrote n => rfl
  | failed err errAfterLog =>
      have he : errAfterLog = err := he
      subst he
      cases errAfterLog <;> rfl

variable {keep : SendOutcome → Bool}

/-- **`SendInLoop`**: a message kept goes to the kernel and the buffer, whole and behind what is
    there; any other leaves no byte. -/
theorem stream_sendInLoop {sender : ThreadId} {msg : List UInt8} {r : WriteResult}
    (hk : k.StreamBy keep) (hkeep : Keeps keep r)
    (h : k.sendInLoop c sender msg r = some (k', is)) : k'.StreamBy keep := by
  have hempty : k.writesDirectly = true → k.conn.outputBuffer.readable = [] := fun hd =>
    (Buffer.readableBytes_eq_zero _).mp (eq_of_beq (Bool.and_eq_true_iff.mp hd).2)
  unfold StreamBy at hk ⊢
  cases of_sendInLoop h with
  | refused hs =>
      simpa [record, ConnEvent.taken, ConnEvent.keptBy, hkeep.refused] using hk
  | complete hs hd hn hr hrest =>
      have hf : r.faultError = false := by
        cases r with
        | wrote n => rfl
        | failed _ _ => cases hr
      have htake : msg.take r.nwrote = msg := by
        have h := List.take_append_drop r.nwrote msg
        rwa [hrest, List.append_nil] at h
      rw [hempty hd, List.append_nil] at hk
      simp [record, ConnEvent.taken, ConnEvent.keptBy, hkeep.direct, hf, hempty hd, htake, hk]
  | dropped hs hd hn hr hrest =>
      have hn : r.nwrote = 0 := by
        cases r with
        | wrote n => cases hr
        | failed _ _ => rfl
      have hmsg : (if keep (.direct r) then msg else []) = [] := by
        rcases hrest with hf | rfl
        · rw [hkeep.direct, hf]
          rfl
        · split <;> rfl
      rw [hempty hd, List.append_nil] at hk
      simp [record, ConnEvent.taken, ConnEvent.keptBy, hempty hd, hn, hmsg, hk]
  | rest hs hd hn hr hrest k' is h =>
      obtain ⟨hc, _, _⟩ := of_appendOutput h
      rw [hempty hd, List.append_nil] at hk
      rw [hc]
      simp [record, ConnEvent.taken, ConnEvent.keptBy, hkeep.direct, hr, hempty hd, hk]
  | empty hs hd hmsg => simpa [record, ConnEvent.taken, ConnEvent.keptBy, hmsg] using hk
  | buffered hs hd hmsg k' is h =>
      obtain ⟨hc, _, _⟩ := of_appendOutput h
      rw [hc]
      simp [record, ConnEvent.taken, ConnEvent.keptBy, hkeep.buffered, ← hk]

/-- **`HandleWrite`**: what the kernel takes leaves the buffer. -/
theorem stream_handleWrite {r : WriteResult} (hk : k.StreamBy keep)
    (h : k.handleWrite c r = some (k', is)) : k'.StreamBy keep := by
  have hmove : ∀ n, kernelBytes (k.conn.log ++ [.write (k.conn.outputBuffer.readable.take n)]) ++
      (k.conn.outputBuffer.writeFd n).readable =
      keptBy keep (k.conn.log ++ [.write (k.conn.outputBuffer.readable.take n)]) := by
    intro n
    rw [Buffer.readable_writeFd, kernelBytes_append, keptBy_append, List.append_assoc]
    have htd : kernelBytes [.write (k.conn.outputBuffer.readable.take n)] ++
        k.conn.outputBuffer.readable.drop n = k.conn.outputBuffer.readable := by
      simp [ConnEvent.taken]
    rw [htd]
    exact hk.trans (List.append_nil _).symm
  cases of_handleWrite h with
  | idle => exact hk
  | failed => simpa [StreamBy, record, ConnEvent.taken, ConnEvent.keptBy] using hk
  | short => exact hmove r.nwrote
  | drained => exact hmove r.nwrote

/-- **Every step on a connection** keeps the stream. -/
theorem exec_stream (ha : k.Agrees c) (hk : k.StreamBy keep)
    (hkeep : ∀ u msg r, op = .sendInLoop u msg → o = .write r → Keeps keep r)
    (h : k.exec c t own op o = some (k', is)) : k'.StreamBy keep := by
  by_cases hs : ∃ u msg, op = .sendInLoop u msg
  · obtain ⟨u, msg, rfl⟩ := hs
    cases o with
    | write r => exact stream_sendInLoop hk (hkeep u msg r rfl rfl) h
    | _ => cases h
  by_cases hw : op = .handleWrite
  · subst hw
    cases o with
    | write r => exact stream_handleWrite hk h
    | _ => cases h
  · obtain ⟨es, hlog, hes⟩ := (exec_effect ha h).log
    have hout := exec_output h (fun u msg e => hs ⟨u, msg, e⟩) hw
    -- the events it adds are of other functions
    have hno : kernelBytes es = [] ∧ keptBy keep es = [] := by
      constructor
      · refine List.flatMap_eq_nil_iff.mpr fun e he => ?_
        cases e with
        | write bytes =>
            rcases ConnEvent.of_causedBy_write (hes _ he) with e | e
            · exact absurd e hw
            · exact absurd e hs
        | _ => rfl
      · refine List.flatMap_eq_nil_iff.mpr fun e he => ?_
        cases e with
        | sendInLoop u msg outcome =>
            exact absurd (ConnEvent.of_causedBy_sendInLoop (hes _ he)) hs
        | _ => rfl
    unfold StreamBy
    rw [hlog, hout, kernelBytes_append, keptBy_append, hno.1, hno.2, List.append_nil,
      List.append_nil]
    exact hk

/-- **How a `SendInLoop` went**: it was refused with `kDisconnected` and with no other state, and
    what it wrote directly is what `write` answered. -/
structure Sent (k : Ctx) (op : ConnOp) (o : Outcome) (sender : ThreadId) (msg : List UInt8)
    (outcome : SendOutcome) : Prop where
  executed : op = .sendInLoop sender msg
  refused : outcome = .refused ↔ k.conn.state = .kDisconnected
  direct : ∀ r, outcome = .direct r → o = .write r

/-- `SendInLoop` writes down how it goes. -/
theorem sent_sendInLoop {sender u : ThreadId} {msg m : List UInt8} {r : WriteResult}
    {outcome : SendOutcome} {es : List ConnEvent} (h : k.sendInLoop c sender msg r = some (k', is))
    (hlog : k'.conn.log = k.conn.log ++ es) (hm : .sendInLoop u m outcome ∈ es) :
    k.Sent (.sendInLoop sender msg) (.write r) u m outcome := by
  have hmem : ∀ {xs : List ConnEvent}, k'.conn.log = k.conn.log ++ xs →
      .sendInLoop u m outcome ∈ xs := by
    intro xs hxs
    rwa [List.append_cancel_left (hlog.symm.trans hxs)] at hm
  have hdirect : k.conn.state ≠ .kDisconnected → k'.conn.log =
      k.conn.log ++ [.write (msg.take r.nwrote), .sendInLoop sender msg (.direct r)] →
      k.Sent (.sendInLoop sender msg) (.write r) u m outcome := by
    intro hs hl
    rcases List.mem_cons.mp (hmem hl) with e | hm
    · cases e
    · cases List.mem_singleton.mp hm
      exact ⟨rfl, iff_of_false SendOutcome.noConfusion hs,
        fun _ e => congrArg _ (SendOutcome.direct.inj e)⟩
  have hbuffered : k.conn.state ≠ .kDisconnected →
      k'.conn.log = k.conn.log ++ [.sendInLoop sender msg .buffered] →
      k.Sent (.sendInLoop sender msg) (.write r) u m outcome := by
    intro hs hl
    cases List.mem_singleton.mp (hmem hl)
    exact ⟨rfl, iff_of_false SendOutcome.noConfusion hs, fun _ e => SendOutcome.noConfusion e⟩
  cases of_sendInLoop h with
  | refused hs =>
      cases List.mem_singleton.mp (hmem rfl)
      exact ⟨rfl, iff_of_true rfl hs, fun _ e => SendOutcome.noConfusion e⟩
  | complete hs => exact hdirect hs rfl
  | dropped hs => exact hdirect hs rfl
  | rest hs _ _ _ _ _ _ h =>
      refine hdirect hs ?_
      rw [(of_appendOutput h).1]
      rfl
  | empty hs => exact hbuffered hs rfl
  | buffered hs _ _ _ _ h =>
      refine hbuffered hs ?_
      rw [(of_appendOutput h).1]
      rfl

/-- **The history grows by what the step does**, and tells how a `SendInLoop` went. -/
theorem exec_sent (ha : k.Agrees c) (h : k.exec c t own op o = some (k', is)) :
    ∃ es, k'.conn.log = k.conn.log ++ es ∧
      ∀ sender msg outcome, .sendInLoop sender msg outcome ∈ es →
        k.Sent op o sender msg outcome := by
  obtain ⟨es, hlog, hes⟩ := (exec_effect ha h).log
  refine ⟨es, hlog, fun sender msg outcome hm => ?_⟩
  obtain ⟨v, m, rfl⟩ := ConnEvent.of_causedBy_sendInLoop (hes _ hm)
  cases o with
  | write r => exact sent_sendInLoop h hlog hm
  | _ => cases h

/-! ## The order -/

/-- The message of thread `t`'s that the function sends. -/
def messageOf (t : ThreadId) : ConnOp → Option (List UInt8)
  | .sendInLoop sender msg => if sender = t then some msg else none
  | _ => none

theorem of_messageOf {u : ThreadId} {msg : List UInt8} (h : messageOf u op = some msg) :
    op = .sendInLoop u msg := by
  cases op with
  | sendInLoop v m =>
      obtain ⟨e, h⟩ := Option.ite_none_right_eq_some.mp h
      cases h
      rw [e]
  | _ => cases h

/-- **`SendInLoop` runs for a message**, and no other step does. -/
theorem exec_executed (ha : k.Agrees c) (u : ThreadId) (h : k.exec c t own op o = some (k', is)) :
    executedBy u k'.conn.log = executedBy u k.conn.log ++ (messageOf u op).toList := by
  by_cases hs : ∃ v msg, op = .sendInLoop v msg
  · obtain ⟨v, msg, rfl⟩ := hs
    have hone : ∀ outcome, executedBy u [ConnEvent.sendInLoop v msg outcome] =
        (messageOf u (.sendInLoop v msg)).toList := by
      intro outcome
      simp only [executedBy, List.filterMap_cons, ConnEvent.executedOf, messageOf]
      split <;> simp_all
    have hwrite : ∀ bytes outcome, executedBy u [ConnEvent.write bytes, .sendInLoop v msg outcome] =
        (messageOf u (.sendInLoop v msg)).toList := fun bytes outcome => hone outcome
    cases o with
    | write r =>
        cases of_sendInLoop h with
        | refused => exact (executedBy_append ..).trans (congrArg _ (hone _))
        | complete => exact (executedBy_append ..).trans (congrArg _ (hwrite _ _))
        | dropped => exact (executedBy_append ..).trans (congrArg _ (hwrite _ _))
        | rest _ _ _ _ _ _ _ h =>
            rw [(of_appendOutput h).1]
            exact (executedBy_append ..).trans (congrArg _ (hwrite _ _))
        | empty => exact (executedBy_append ..).trans (congrArg _ (hone _))
        | buffered _ _ _ _ _ h =>
            rw [(of_appendOutput h).1]
            exact (executedBy_append ..).trans (congrArg _ (hone _))
    | _ => cases h
  · obtain ⟨es, hlog, hes⟩ := (exec_effect ha h).log
    have hno : executedBy u es = [] := by
      refine List.filterMap_eq_nil_iff.mpr fun e he => ?_
      cases e with
      | sendInLoop v msg outcome => exact absurd (ConnEvent.of_causedBy_sendInLoop (hes _ he)) hs
      | _ => rfl
    have hop : messageOf u op = none := by
      cases op <;> first | rfl | exact absurd ⟨_, _, rfl⟩ hs
    rw [hlog, executedBy_append, hno, hop]
    rfl

/-- **An accepted message** is what the step leaves to do: at once, or handed over. -/
theorem exec_accepted (ha : k.Agrees c) (u : ThreadId) (h : k.exec c t own op o = some (k', is)) :
    acceptedBy u k'.conn.log = acceptedBy u k.conn.log ++
      (is.filterMap (Instr.executes (messageOf u) c) ++
        is.filterMap (Instr.handsOver (messageOf u) c)) := by
  by_cases hs : ∃ msg, op = .send msg
  · obtain ⟨msg, rfl⟩ := hs
    simp only [exec, send] at h
    split at h
    · cases h
      simp only [record, acceptedBy_append]
      congr 1
      cases own <;> by_cases e : t = u <;>
        simp [acceptedBy, ConnEvent.acceptedOf, Instr.executes, Instr.handsOver, Functor.select,
          messageOf, e]
    · cases h
      exact (List.append_nil _).symm
  · obtain ⟨es, hlog, hes⟩ := (exec_effect ha h).log
    have hno : acceptedBy u es = [] := by
      refine List.filterMap_eq_nil_iff.mpr fun e he => ?_
      cases e with
      | accepted v msg =>
          have := hes _ he
          cases op <;> first | (cases this; done) | exact absurd ⟨_, rfl⟩ hs
      | _ => rfl
    have hpr : ∀ j ∈ is, ∀ v msg, j.carries ≠ some (.conn c (.sendInLoop v msg)) := by
      intro j hj v msg hf
      cases exec_produced h j hj with
      | sendInLoop m hop => exact hs ⟨m, hop⟩
      | sendHere m hop => exact hs ⟨m, hop⟩
      | conn op' hop =>
          cases hf
          cases op <;> cases hop
      | _ => cases hf
    have h₁ : is.filterMap (Instr.executes (messageOf u) c) = [] := by
      refine Process.filterMap_executes_nil fun op' x hj hop => ?_
      rw [of_messageOf hop] at hj
      exact hpr _ hj u x rfl
    have h₂ : is.filterMap (Instr.handsOver (messageOf u) c) = [] := by
      refine Process.filterMap_handsOver_nil fun j hj op' x hh hop => ?_
      rw [of_messageOf hop] at hh
      exact hpr _ hj u x (Instr.carries_of_hands hh)
    rw [hlog, acceptedBy_append, hno, h₁, h₂]
    rfl

end Ctx

namespace Process

variable {s s' : Process} {a : Label} {c : ConnId} {t u : ThreadId}

theorem selectsOf_messageOf : SelectsOf (Ctx.messageOf t) t := by
  intro op msg h c u hu
  rw [Ctx.of_messageOf h] at hu
  exact hu

theorem selectsOwn_messageOf {l : LoopId} : SelectsOwn (Ctx.messageOf (.loop l)) l :=
  fun _ msg h => Or.inr ⟨msg, Ctx.of_messageOf h⟩

/-- Of the messages a thread has got accepted, those for which `SendInLoop` has not yet run. -/
def waiting (s : Process) (c : ConnId) (t : ThreadId) : List (List UInt8) :=
  if t = .loop (s.conns c).loop then (s.stack t).filterMap (Instr.executes (Ctx.messageOf t) c)
  else s.flight (Ctx.messageOf t) c (s.conns c).loop t

/-- What `write` answers `c`'s `SendInLoop` is kept or dropped as `SendOutcome.kept` says. -/
def KeepsSent (c : ConnId) (s : Process) (a : Label) : Prop :=
  ∀ u msg t r, s.executed c a = some (.sendInLoop u msg) → a = .run t (.write r) →
    Ctx.Keeps SendOutcome.kept r

theorem keepsSent_of_errnoKept (h : a.errnoKept) : KeepsSent c s a := by
  rintro u msg t r _ rfl
  exact Ctx.keeps_of_errnoKept h

/-- **What the history says of the `SendInLoop` a step executes** is how it goes: refused, with
    `kDisconnected` and with no other state; written directly, with what `write` answers. -/
def SendRecorded (c : ConnId) (s : Process) (a : Label) (s' : Process) : Prop :=
  ∃ es, (s'.conns c).log = (s.conns c).log ++ es ∧
    ∀ sender msg outcome, .sendInLoop sender msg outcome ∈ es →
      s.executed c a = some (.sendInLoop sender msg) ∧
      (outcome = .refused ↔ (s.conns c).state = .kDisconnected) ∧
      ∀ r, outcome = .direct r → ∃ t, a = .run t (.write r)

theorem sendRecorded_step (hw : Wf s) (hc : c < s.created) (hs : Step s a s') :
    SendRecorded c s a s' := by
  cases seen_step hw hc hs with
  | other hno r hctx =>
      have hlog : (s'.conns c).log = (s.conns c).log := congrArg (fun k => k.conn.log) hctx
      exact ⟨[], hlog.trans (List.append_nil _).symm, fun _ _ _ hm => absurd hm List.not_mem_nil⟩
  | run t o op rest is ha hst he hst' hloops =>
      subst ha
      obtain ⟨es, hlog, hes⟩ := Ctx.exec_sent (hw.agrees c hc) he
      refine ⟨es, hlog, fun sender msg outcome hm => ?_⟩
      have hsent := hes sender msg outcome hm
      refine ⟨?_, hsent.refused, fun r hr => ⟨t, congrArg _ (hsent.direct r hr)⟩⟩
      rw [executed_of_stack hst, hsent.executed]

/-- **The connection's stream is in order.** -/
structure InOrder (s : Process) (c : ConnId) : Prop where
  stream : (s.ctx c).StreamBy SendOutcome.kept
  order : ∀ t, acceptedBy t (s.conns c).log = executedBy t (s.conns c).log ++ s.waiting c t

/-- Messages below other instructions: there are none. -/
theorem executes_settled {xs : List Instr} (h : ∀ i ∈ xs, i.settled = true) :
    xs.filterMap (Instr.executes (Ctx.messageOf t) c) = [] := by
  refine filterMap_executes_nil fun op x hi hop => ?_
  rw [Ctx.of_messageOf hop] at hi
  cases h _ hi

/-- A step that executes no function of the connection's. -/
theorem waiting_other (hw : Wf s) (hc : c < s.created) (hs : Step s a s')
    (hno : ∀ t o op rest, a = .run t o → s.stack t ≠ .conn c op :: rest) (t : ThreadId) :
    s'.waiting c t = s.waiting c t := by
  unfold waiting
  rw [(wf_step hw hs).2.loop hc]
  split
  · rename_i e
    subst e
    exact stack_other hw selectsOwn_messageOf hs hno _
  · rename_i ht
    rcases flight_other hw hc rfl ht selectsOf_messageOf hs hno with e | ⟨x, hx, _⟩
    · exact e
    · cases hx

theorem inOrder_step (hw : Wf s) (hc : c < s.created) (h : s.InOrder c) (ha : KeepsSent c s a)
    (hs : Step s a s') : s'.InOrder c := by
  cases seen_step hw hc hs with
  | other hno r hctx =>
      have hconn : s'.conns c = s.conns c := congrArg Ctx.conn hctx
      refine ⟨?_, fun t => ?_⟩
      · rw [hctx]
        exact h.stream
      · rw [waiting_other hw hc hs hno, hconn]
        exact h.order t
  | run u o op rest is ha' hst he hst' hloops =>
      subst ha'
      have hag := hw.agrees c hc
      have hset := hw.settled_rest hst
      have hstream : (s'.ctx c).StreamBy SendOutcome.kept := by
        refine Ctx.exec_stream hag h.stream (fun v msg r hop ho => ?_) he
        subst hop ho
        exact ha v msg u r (executed_of_stack hst) rfl
      refine ⟨hstream, fun t => ?_⟩
      have hacc : acceptedBy t (s'.conns c).log = acceptedBy t (s.conns c).log ++ _ :=
        Ctx.exec_accepted hag t he
      have hexe : executedBy t (s'.conns c).log = executedBy t (s.conns c).log ++ _ :=
        Ctx.exec_executed hag t he
      rw [hacc, hexe, h.order t, List.append_assoc, List.append_assoc]
      congr 1
      unfold waiting
      rw [(wf_step hw hs).2.loop hc]
      split
      · -- the loop's own messages: at once, on its own stack
        rename_i e
        subst e
        by_cases hu : u = .loop (s.conns c).loop
        · subst hu
          have hov : is.filterMap (Instr.handsOver
              (Ctx.messageOf (.loop (s.conns c).loop)) c) = [] := by
            refine filterMap_handsOver_nil fun j hj op' x hh hx => ?_
            cases Ctx.of_messageOf hx
            have hhome := (wf_step hw hs).1.stack (.loop (s.conns c).loop) j (by
              rw [hst', Function.update_self]
              exact List.mem_append_left _ hj)
            have hl := (wf_step hw hs).2.loop hc
            cases j with
            | runInLoop l f =>
                cases hh
                exact hhome.1.2.2.2 x (by rw [← hhome.1.2.1, hl])
            | queueInLoop l f =>
                cases hh
                exact hhome.1.2.2.2 x (by rw [← hhome.1.2.1, hl])
            | _ => exact hh
          rw [hst', Function.update_self, hst, List.filterMap_append, hov,
            executes_settled hset, List.filterMap_cons, executes_settled hset,
            Instr.executes_self]
          cases Ctx.messageOf (.loop (s.conns c).loop) op <;> simp
        · have hpr := Ctx.exec_produced he
          have h₁ := produced_executes (c := c) (selectsOf_messageOf (t := .loop (s.conns c).loop))
            (fun _ => hu) hpr
          have h₂ := produced_handsOver (c := c) (selectsOf_messageOf (t := .loop (s.conns c).loop))
            hu hpr
          have hop : Ctx.messageOf (.loop (s.conns c).loop) op = none := by
            have hsel := selectsOf_messageOf (t := .loop (s.conns c).loop)
            refine Option.eq_none_iff_forall_ne_some.mpr (ne_some_of_isFunctor hsel ?_)
            have hany := (hw.stack u (.conn c op) (mem_stack hst)).2.resolve_right hu
            cases op <;> first | rfl | cases hany
          rw [hst', Function.update_of_ne (Ne.symm hu), h₁, h₂, hop]
          simp
      · rename_i ht
        obtain ⟨F, hF, hF'⟩ := flight_run hw rfl ht selectsOf_messageOf hst he hst' hloops
        rw [hF, hF']
        have h₁ : is.filterMap (Instr.executes (Ctx.messageOf t) c) = [] := by
          refine produced_executes selectsOf_messageOf (fun hown => ?_) (Ctx.exec_produced he)
          rw [(isInLoopThread_iff (hw.threadId _)).mp hown]
          exact Ne.symm ht
        rw [h₁, List.nil_append, List.append_assoc]

/-- Nothing waits where no `SendInLoop` is under way. -/
theorem waiting_nil (h : ∀ u msg, ¬ s.InFlight (.conn c (.sendInLoop u msg))) (t : ThreadId) :
    s.waiting c t = [] := by
  have hno : ∀ op x, Ctx.messageOf t op = some x → ¬ s.InFlight (.conn c op) := by
    intro op x hx hf
    rw [Ctx.of_messageOf hx] at hf
    exact h _ _ hf
  have hex : ∀ u, (s.stack u).filterMap (Instr.executes (Ctx.messageOf t) c) = [] := fun u =>
    filterMap_executes_nil fun op x hj hx => hno op x hx (Or.inl ⟨u, _, hj, rfl⟩)
  unfold waiting
  split
  · exact hex t
  · unfold flight
    rw [hex, filterMap_select_nil fun op x hf hx => hno op x hx (Or.inr ⟨_, hf⟩),
      filterMap_handsOver_nil fun j hj op x hh hx =>
        hno op x hx (Or.inl ⟨t, j, hj, Instr.carries_of_hands hh⟩)]
    rfl

/-- A connection nobody knows of. -/
theorem inOrder_of_untouched (h : s.Untouched c) : s.InOrder c := by
  have hlog : (s.conns c).log = [] := h.log
  refine ⟨?_, fun t => ?_⟩
  · show kernelBytes (s.conns c).log ++ _ = keptMessages (s.conns c).log
    rw [hlog]
    exact h.output
  · rw [hlog, waiting_nil fun u msg hf => ?_]
    · rfl
    · rcases h.flight _ hf rfl with e | e <;> cases e

section Runs

variable {name : List Char} {addr : InetAddress} {numLoops : Nat} {writeComplete : Bool}

/-- **Outgoing stream integrity.** In every state of every run, for every connection: what the
    kernel has taken, followed by the content of `output_buffer_`, is the messages kept, in the
    order in which `SendInLoop` has run for them; of each thread's messages, `SendInLoop` has
    run for the first ones, in the order of their `Send`s; and the history tells of every one of
    these how it went, so that a message is refused with `kDisconnected` only. -/
theorem stream_integrity {tr : List (Process × Label)}
    (h : Run step (init name addr numLoops writeComplete) tr s)
    (herrno : ∀ p ∈ tr, p.2.errnoKept) (c : ConnId) (hc : c < s.created) :
    kernelBytes (s.conns c).log ++ (s.conns c).outputBuffer.readable =
      keptMessages (s.conns c).log ∧
    (∀ t, executedBy t (s.conns c).log <+: acceptedBy t (s.conns c).log) ∧
    ∀ p ∈ tr, c < p.1.created → ∀ s', step p.1 p.2 = some s' → SendRecorded c p.1 p.2 s' := by
  have hin : s.InOrder c := conn_run (I := (InOrder · c)) c
    (fun _ _ hun => inOrder_of_untouched hun)
    (fun _ _ _ hi hc hin ha hs => inOrder_step hi.toWf hc hin (keepsSent_of_errnoKept ha) hs)
    h herrno hc
  refine ⟨hin.stream, fun t => ?_, fun p hp hcp s' hs => ?_⟩
  · rw [hin.order t]
    exact List.prefix_append _ _
  · obtain ⟨_, _, _, h₁, _⟩ := h.split hp
    exact sendRecorded_step (inv_run h₁).toWf hcp (of_step hs)

/-- Two threads send, two bytes and one. `SendInLoop` writes the first byte, so that the other
    message goes to `output_buffer_`; `HandleWrite` writes the second. -/
def sendRun : List Label := List.flatten
  [acceptRun, [.user (.user 0) (.send 0 [1, 2])], runs (.user 0) 4,
    [.user (.user 1) (.send 0 [3])], runs (.user 1) 4, [.ret (.loop 0)], runs (.loop 0) 3,
    [.loop 0 .startFunctors, .loop 0 .swap, .loop 0 (.next (.loop 0)),
      .run (.loop 0) (.write (.wrote 1)), .loop 0 .ret, .loop 0 (.next (.loop 0)),
      .run (.loop 0) (.write (.wrote 0)), .loop 0 .ret, .loop 0 .finish, .loop 0 .test,
      .poll 0 [(.conn 0, epollOut)], .dispatch 0], runs (.loop 0) 1,
    [.run (.loop 0) (.write (.wrote 1))]]

theorem stream_integrity_send : ∃ s, Machine.exec step oneLoop sendRun = some s ∧
    (kernelBytes (s.conns 0).log = [1, 2] ∧ (s.conns 0).outputBuffer.readable = [3] ∧
      executedBy (.user 0) (s.conns 0).log = [[1, 2]] ∧
      executedBy (.user 1) (s.conns 0).log = [[3]]) ∧
    kernelBytes (s.conns 0).log ++ (s.conns 0).outputBuffer.readable =
      keptMessages (s.conns 0).log ∧
    (∀ t, executedBy t (s.conns 0).log <+: acceptedBy t (s.conns 0).log) ∧
    ∀ p ∈ execTrace step oneLoop sendRun [], 0 < p.1.created → ∀ s', step p.1 p.2 = some s' →
      SendRecorded 0 p.1 p.2 s' := by
  have h : ((Machine.exec step oneLoop sendRun).any fun s =>
      decide (0 < s.created ∧ kernelBytes (s.conns 0).log = [1, 2] ∧
        (s.conns 0).outputBuffer.readable = [3] ∧
        executedBy (.user 0) (s.conns 0).log = [[1, 2]] ∧
        executedBy (.user 1) (s.conns 0).log = [[3]])) = true := by decide +kernel
  obtain ⟨s, hs, hb⟩ := (Option.any_eq_true _ _).mp h
  obtain ⟨hc, hbytes⟩ := of_decide_eq_true hb
  have herrno : ∀ a ∈ sendRun, a.errnoKept := by
    simp [sendRun, acceptRun, runs, Label.errnoKept, Outcome.errnoKept]
  refine ⟨s, hs, hbytes, stream_integrity (exec_run .start hs) (fun p hp => ?_) 0 hc⟩
  exact herrno _ ((label_mem_execTrace _ hp).resolve_left List.not_mem_nil)

end Runs

end Process

end CuteMuduo
