/-
  File:      CuteMuduo/TcpServer/Input.lean
  Subject:   THE INCOMING STREAM of a connection, over every run of the program: `input_buffer_`
             is a queue into which `HandleRead` puts what `readv` delivers and from which the
             callbacks take (`input_integrity`).

  The trace of a run says what was delivered and what was taken (`received`); the buffer holds
  what is in between.
-/
import CuteMuduo.Lib.Fifo
import CuteMuduo.TcpServer.Established

namespace CuteMuduo

open Machine

/-- The content `message_callback_` is called with. -/
def ConnEvent.content : ConnEvent → Option (List UInt8)
  | .message content => some content
  | _ => none

/-- The calls of `message_callback_`. -/
def messages (log : List ConnEvent) : List (List UInt8) := log.filterMap ConnEvent.content

namespace Buffer

/-- **`readv` is always offered 65536 bytes or more**, so that it returns none only at the end of
    the stream. -/
theorem kExtraBuf_le_readCapacity (b : Buffer) : kExtraBuf ≤ b.readCapacity := by
  unfold readCapacity
  split
  · exact Nat.le_add_left _ _
  · rename_i h
    exact Nat.le_of_not_lt h

end Buffer

namespace Ctx

variable {k k' : Ctx} {c : ConnId} {t : ThreadId} {own : Bool} {op : ConnOp} {o : Outcome}
  {is : List Instr}

/-- Only `HandleRead` calls `message_callback_`. -/
theorem exec_messages (ha : k.Agrees c) (h : k.exec c t own op o = some (k', is))
    (hr : op ≠ .handleRead) : messages k'.conn.log = messages k.conn.log := by
  obtain ⟨es, hlog, hes⟩ := (exec_effect ha h).log
  have hno : es.filterMap ConnEvent.content = [] := by
    refine List.filterMap_eq_nil_iff.mpr fun e he => ?_
    have hcb := hes e he
    cases e with
    | message content => exact absurd (ConnEvent.of_causedBy_message hcb) hr
    | _ => rfl
  rw [messages, hlog, List.filterMap_append, hno, List.append_nil, messages]

end Ctx

namespace Process

variable {s s' : Process} {a : Label} {c : ConnId} {t : ThreadId}

/-! ## What the trace says -/

/-- The bytes `readv` returns, where the step is a `HandleRead` of `c`'s. -/
def delivered (c : ConnId) (s : Process) (a : Label) : List UInt8 :=
  match s.executed c a, a with
  | some .handleRead, .run _ (.read (.data bytes)) => bytes
  | _, _ => []

/-- How many bytes a callback takes out of `input_buffer_`. -/
def taken (c : ConnId) (s : Process) (a : Label) : Nat :=
  match s.executed c a with
  | some (.retrieve len) => len
  | _ => 0

/-- **The input of connection `c`**: delivered bytes go in, those the callbacks take go out. -/
def received (c : ConnId) : List (Process × Label) → Fifo UInt8
  | [] => .empty
  | (s, a) :: tr => ((received c tr).push (s.delivered c a)).pop (s.taken c a)

/-- What lies in the queue behind each delivery. -/
def offered (c : ConnId) : List (Process × Label) → List (List UInt8)
  | [] => []
  | (s, a) :: tr => offered c tr ++
    if s.delivered c a = [] then [] else [(received c tr).content ++ s.delivered c a]

/-- The step is neither a `HandleRead` of `c`'s nor takes bytes from its buffer. -/
theorem received_other (tr : List (Process × Label)) (h₁ : s.executed c a ≠ some .handleRead)
    (h₂ : ∀ len, s.executed c a ≠ some (.retrieve len)) :
    (received c ((s, a) :: tr)).content = (received c tr).content ∧
      offered c ((s, a) :: tr) = offered c tr := by
  have hd : s.delivered c a = [] := by
    unfold delivered
    split
    · rename_i e
      exact absurd e h₁
    · rfl
  have ht : s.taken c a = 0 := by
    unfold taken
    split
    · rename_i e
      exact absurd e (h₂ _)
    · rfl
  rw [received, offered, hd, ht]
  exact ⟨List.append_nil _, List.append_nil _⟩

/-! ## The invariant -/

/-- **The buffer holds what is in between**, and `message_callback_` has seen it behind each
    delivery. -/
structure Intake (c : ConnId) (tr : List (Process × Label)) (s : Process) : Prop where
  content : (received c tr).content = (s.conns c).inputBuffer.readable
  messages : messages (s.conns c).log = offered c tr

/-- `HandleRead` puts what `readv` delivers behind what is buffered, and reports all of it. -/
theorem intake_read {tr : List (Process × Label)} {own : Bool} {o : Outcome}
    {is rest : List Instr} (h : Intake c tr s) (hst : s.stack t = .conn c .handleRead :: rest)
    (he : (s.ctx c).exec c t own .handleRead o = some (s'.ctx c, is)) :
    Intake c ((s, .run t o) :: tr) s' := by
  have hex : s.executed c (.run t o) = some .handleRead := executed_of_stack hst
  have ht : s.taken c (.run t o) = 0 := by rw [taken, hex]
  cases o with
  | read r =>
      have hstep := Ctx.of_handleRead he
      generalize hk : s'.ctx c = k' at hstep
      have hconn : s'.conns c = k'.conn := congrArg Ctx.conn hk
      cases hstep with
      | message bytes hn hcap =>
          have hd : s.delivered c (.run t (.read (.data bytes))) = bytes := by
            unfold delivered
            rw [hex]
          refine ⟨?_, ?_⟩
          · rw [received, hd, ht, hconn]
            show (received c tr).content ++ bytes = Buffer.readable (Buffer.readFd _ bytes)
            rw [Buffer.readable_readFd, h.content]
            rfl
          · rw [offered, hd, if_neg (List.length_pos_iff.mp hn), hconn, ← h.messages, h.content]
            show List.filterMap _ (_ ++ [_]) = _
            rw [List.filterMap_append, ← Buffer.readable_readFd]
            rfl
      | eof =>
          have hd : s.delivered c (.run t (.read (.data []))) = [] := by
            unfold delivered
            rw [hex]
          refine ⟨?_, ?_⟩
          · rw [received, hd, ht, hconn]
            show (received c tr).content ++ [] = Buffer.readable (Buffer.readFd _ [])
            rw [Buffer.readable_readFd, h.content]
            rfl
          · rw [offered, hd, if_pos rfl, List.append_nil, hconn]
            exact h.messages
      | failed err =>
          have hd : s.delivered c (.run t (.read (.failed err))) = [] := by
            unfold delivered
            rw [hex]
          refine ⟨?_, ?_⟩
          · rw [received, hd, ht, hconn]
            exact (List.append_nil _).trans h.content
          · rw [offered, hd, if_pos rfl, List.append_nil, hconn]
            exact h.messages
  | _ => cases he

/-- A callback takes from the front. -/
theorem intake_retrieve {tr : List (Process × Label)} {own : Bool} {len : Nat} {o : Outcome}
    {is rest : List Instr} (hag : (s.ctx c).Agrees c) (h : Intake c tr s)
    (hst : s.stack t = .conn c (.retrieve len) :: rest)
    (he : (s.ctx c).exec c t own (.retrieve len) o = some (s'.ctx c, is)) :
    Intake c ((s, .run t o) :: tr) s' := by
  have hex : s.executed c (.run t o) = some (.retrieve len) := executed_of_stack hst
  have hd : s.delivered c (.run t o) = [] := by
    unfold delivered
    rw [hex]
  have ht : s.taken c (.run t o) = len := by rw [taken, hex]
  have hbuf : (s'.conns c).inputBuffer = (s.conns c).inputBuffer.retrieve len :=
    congrArg (fun k => k.conn.inputBuffer) (Prod.mk.inj (Option.some.inj he)).1.symm
  refine ⟨?_, ?_⟩
  · rw [received, hd, ht, hbuf, Buffer.readable_retrieve, ← h.content]
    exact congrArg (List.drop len) (List.append_nil _)
  · rw [offered, hd, if_pos rfl, List.append_nil]
    exact (Ctx.exec_messages hag he nofun).trans h.messages

/-- A function executed on the connection. -/
theorem intake_run {tr : List (Process × Label)} {own : Bool} {op : ConnOp} {o : Outcome}
    {is rest : List Instr} (hag : (s.ctx c).Agrees c) (h : Intake c tr s)
    (hst : s.stack t = .conn c op :: rest)
    (he : (s.ctx c).exec c t own op o = some (s'.ctx c, is)) :
    Intake c ((s, .run t o) :: tr) s' := by
  by_cases hr : op = .handleRead
  · subst hr
    exact intake_read h hst he
  by_cases hret : ∃ len, op = .retrieve len
  · obtain ⟨len, rfl⟩ := hret
    exact intake_retrieve hag h hst he
  · have hex : s.executed c (.run t o) = some op := executed_of_stack hst
    have hret : ∀ len, op ≠ .retrieve len := fun len e => hret ⟨len, e⟩
    obtain ⟨h₁, h₂⟩ := received_other (c := c) (s := s) (a := .run t o) tr
      (by rw [hex]; exact fun e => hr (Option.some.inj e))
      (by rw [hex]; exact fun len e => hret len (Option.some.inj e))
    refine ⟨?_, ?_⟩
    · rw [h₁, h.content]
      exact congrArg Buffer.readable (Ctx.exec_input he hr hret).symm
    · rw [h₂]
      exact (Ctx.exec_messages hag he hr).trans h.messages

theorem intake_step {tr : List (Process × Label)} (hi : Inv s) (hc : c < s.created)
    (h : Intake c tr s) (hs : Step s a s') : Intake c ((s, a) :: tr) s' := by
  have hag := hi.agrees c hc
  cases turn_step hi hc hs with
  | idle hno r hctx htr =>
      have hex := executed_eq_none hno
      obtain ⟨h₁, h₂⟩ := received_other (c := c) (s := s) (a := a) tr (by rw [hex]; nofun)
        (by rw [hex]; nofun)
      have hconn : s'.conns c = s.conns c := congrArg Ctx.conn hctx
      exact ⟨by rw [h₁, hconn, h.content], by rw [h₂, hconn, h.messages]⟩
  | establish o rest ha hst hun hk he => exact ha ▸ intake_run hag h hst he
  | own o op rest is T ha hst hop hk he => exact ha ▸ intake_run hag h hst he
  | foreign t o op rest is ha ht hst hop hk he => exact ha ▸ intake_run hag h hst he

section Runs

variable {name : List Char} {addr : InetAddress} {numLoops : Nat} {writeComplete : Bool}
  {tr : List (Process × Label)}

/-- Nothing is received on a connection that is to come. -/
theorem received_of_le (h : Run step (init name addr numLoops writeComplete) tr s)
    (hc : s.created ≤ c) : (received c tr).content = [] ∧ offered c tr = [] := by
  induction h with
  | start => exact ⟨rfl, rfl⟩
  | step tr s a s' h hs ih =>
      have hw := (inv_run h).toWf
      have hle : s.created ≤ c := Nat.le_trans (wf_step hw (of_step hs)).2.created hc
      have hex : s.executed c a = none := executed_of_le hw hle
      obtain ⟨h₁, h₂⟩ := received_other (c := c) (s := s) (a := a) tr (by rw [hex]; nofun)
        (by rw [hex]; nofun)
      rw [h₁, h₂]
      exact ih hle

theorem intake_of_run (h : Run step (init name addr numLoops writeComplete) tr s)
    (hc : c < s.created) : Intake c tr s := by
  induction h with
  | start => exact absurd hc (Nat.not_lt_zero c)
  | step tr s a s' h hs ih =>
      have hi := inv_run h
      by_cases hold : c < s.created
      · exact intake_step hi hold (ih hold) (of_step hs)
      · have hle := Nat.le_of_not_lt hold
        have hun := ((created_step hi.toWf (of_step hs) hc).resolve_left hold).2
        have hex : s.executed c a = none := executed_of_le hi.toWf hle
        obtain ⟨h₁, h₂⟩ := received_other (c := c) (s := s) (a := a) tr (by rw [hex]; nofun)
          (by rw [hex]; nofun)
        obtain ⟨h₃, h₄⟩ := received_of_le h hle
        refine ⟨?_, ?_⟩
        · rw [h₁, h₃]
          exact hun.input.symm
        · rw [h₂, h₄, show (s'.conns c).log = [] from hun.log]
          rfl

/-- What went in is what was delivered, in order. -/
theorem pushed_received :
    (received c tr).pushed = tr.reverse.flatMap fun p => p.1.delivered c p.2 := by
  induction tr with
  | nil => rfl
  | cons p tr ih =>
      rw [List.reverse_cons, List.flatMap_append, ← ih, List.flatMap_cons, List.flatMap_nil,
        List.append_nil]
      rfl

/-- **What a `HandleRead` does**: a failed read leaves the connection as it was; a delivery goes
    in at the end, and `message_callback_` sees all there is; `HandleClose` comes of the end of the
    stream alone. -/
structure Reads (s : Process) (c : ConnId) (t : ThreadId) (rest : List Instr) (o : Outcome)
    (s' : Process) : Prop where
  failed : ∀ err, o = .read (.failed err) →
    s'.conns c = s.conns c ∧ s'.stack t = .conn c .handleError :: rest
  message : ∀ bytes, o = .read (.data bytes) → bytes ≠ [] →
    (s'.conns c).inputBuffer.readable = (s.conns c).inputBuffer.readable ++ bytes ∧
    (s'.conns c).log = (s.conns c).log ++ [.message (s'.conns c).inputBuffer.readable] ∧
    s'.stack t = .callback (some c) :: rest
  close : (s'.stack t).head? = some (.conn c .handleClose) ↔ o = .read (.data [])

theorem reads_step {o : Outcome} {rest : List Instr}
    (hst : s.stack t = .conn c .handleRead :: rest) (hs : Step s (.run t o) s') :
    Reads s c t rest o s' := by
  cases hs with
  | run _ _ i rest' s₁ is hst' he =>
      rw [hst] at hst'
      cases hst'
      cases he with
      | conn _ _ k is h =>
          have hconn : ((s.setCtx c k).setStack t (is ++ rest)).conns c = k.conn :=
            Function.update_self _ _ _
          have hstk : ((s.setCtx c k).setStack t (is ++ rest)).stack t = is ++ rest :=
            stack_setStack_self _ _ _
          cases o with
          | read r =>
              have h : (s.ctx c).handleRead c r = some (k, is) := h
              refine ⟨?_, ?_, ?_⟩ <;> rw [hstk]
              · rintro err ⟨⟩
                cases Ctx.of_handleRead h
                exact ⟨hconn, rfl⟩
              · rintro bytes ⟨⟩ hne
                cases Ctx.of_handleRead h with
                | message _ hn hcap =>
                    rw [hconn]
                    exact ⟨Buffer.readable_readFd _ _, rfl, rfl⟩
                | eof => exact absurd rfl hne
              · cases Ctx.of_handleRead h with
                | message bytes hn hcap =>
                    refine iff_of_false nofun fun e => ?_
                    cases e
                    exact Nat.lt_irrefl _ hn
                | eof => exact iff_of_true rfl rfl
                | failed err => exact iff_of_false nofun nofun
          | _ => cases h
      | quiet _ _ hq => cases hq
      | loop _ _ _ _ _ hl => cases hl

/-- **Incoming stream integrity.** In every state of every run, for every connection: what the
    callbacks have taken, followed by the content of `input_buffer_`, is what `readv` has
    delivered, in order; `message_callback_` has been called once for each delivery, with all
    there was; `readv` is offered at least 65536 bytes; and a `HandleRead` that comes next does
    what `Reads` says. -/
theorem input_integrity (h : Run step (init name addr numLoops writeComplete) tr s) (c : ConnId)
    (hc : c < s.created) :
    ((received c tr).popped ++ (s.conns c).inputBuffer.readable = (received c tr).pushed ∧
      (received c tr).pushed = tr.reverse.flatMap fun p => p.1.delivered c p.2) ∧
    messages (s.conns c).log = offered c tr ∧
    kExtraBuf ≤ (s.conns c).inputBuffer.readCapacity ∧
    ∀ t o rest s', s.stack t = .conn c .handleRead :: rest → step s (.run t o) = some s' →
      Reads s c t rest o s' := by
  have hin := intake_of_run h hc
  refine ⟨⟨?_, pushed_received⟩, hin.messages, Buffer.kExtraBuf_le_readCapacity _,
    fun t o rest s' hst hs => reads_step hst (of_step hs)⟩
  rw [← hin.content]
  exact (received c tr).law

/-- Three bytes in two deliveries; the callback takes one in between. -/
def readRun : List Label :=
  acceptRun ++ settleRun ++ [.poll 0 [(.conn 0, epollIn)], .dispatch 0, .run (.loop 0) .none,
    .run (.loop 0) (.read (.data [1, 2])), .user (.loop 0) (.retrieve 0 1), .run (.loop 0) .none,
    .ret (.loop 0), .loop 0 .startFunctors, .loop 0 .swap, .loop 0 .finish, .loop 0 .test,
    .poll 0 [(.conn 0, epollIn)], .dispatch 0, .run (.loop 0) .none,
    .run (.loop 0) (.read (.data [3]))]

theorem input_integrity_read : ∃ tr s, Run step oneLoop tr s ∧
    ((received 0 tr).popped = [1] ∧ (s.conns 0).inputBuffer.readable = [2, 3]) ∧
    ((received 0 tr).popped ++ (s.conns 0).inputBuffer.readable = (received 0 tr).pushed ∧
      (received 0 tr).pushed = tr.reverse.flatMap fun p => p.1.delivered 0 p.2) ∧
    messages (s.conns 0).log = offered 0 tr ∧
    kExtraBuf ≤ (s.conns 0).inputBuffer.readCapacity ∧
    ∀ t o rest s', s.stack t = .conn 0 .handleRead :: rest → step s (.run t o) = some s' →
      Reads s 0 t rest o s' := by
  have h : ((Machine.exec step oneLoop readRun).any fun s => decide (0 < s.created ∧
      (received 0 (execTrace step oneLoop readRun [])).popped = [1] ∧
      (s.conns 0).inputBuffer.readable = [2, 3])) = true := by decide +kernel
  obtain ⟨s, hs, hb⟩ := (Option.any_eq_true _ _).mp h
  obtain ⟨hc, hbytes⟩ := of_decide_eq_true hb
  exact ⟨_, s, exec_run .start hs, hbytes, input_integrity (exec_run .start hs) 0 hc⟩

end Runs

end Process

end CuteMuduo
