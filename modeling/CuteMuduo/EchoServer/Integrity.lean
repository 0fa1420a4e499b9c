/-
  File:      CuteMuduo/EchoServer/Integrity.lean
  Subject:   WHAT COMES IN GOES OUT AGAIN, over every run of the echo server: on every connection
             the kernel and `output_buffer_` hold what was received there, in order
             (`echo_integrity`).

  A message callback goes through the stages `message`, `retrieving`, `retrieved`, `sending` and
  `sendingInLoop`, one message in hand all the way (`Advance`). So what `SendInLoop` has run for,
  followed by the message in hand, is what the callbacks were called with, as long as the
  connection is up; and the buffer is empty at each delivery, so they were called with what was
  delivered.
-/
import CuteMuduo.EchoServer.Stands
import CuteMuduo.TcpServer.Input

namespace CuteMuduo

open Machine

namespace EchoStage

/-- What is still to be taken out of `c`'s buffer, whose content is `content`. -/
def unread (g : EchoStage) (c : ConnId) (content : List UInt8) : List UInt8 :=
  match g with
  | .message d => if d = c then content else []
  | .retrieving d msg => if d = c then msg else []
  | _ => []

/-- The message of `c`'s in hand. -/
def inHand (g : EchoStage) (c : ConnId) (content : List UInt8) : List (List UInt8) :=
  match g with
  | .message d => if d = c then [content] else []
  | .retrieving d msg | .retrieved d msg | .sending d msg | .sendingInLoop d msg =>
    if d = c then [msg] else []
  | _ => []

end EchoStage

namespace Ctx

variable {k k' : Ctx} {c : ConnId} {t u : ThreadId} {own : Bool} {op : ConnOp} {o : Outcome}
  {is : List Instr} {msg : List UInt8}

/-- Only a `HandleRead` that reads something calls `message_callback_`. -/
theorem exec_untold (ha : k.Agrees c) (h : k.exec c t own op o = some (k', is))
    (hread : op = .handleRead → ∀ b bs, o ≠ .read (.data (b :: bs))) :
    messages k'.conn.log = messages k.conn.log := by
  by_cases hr : op = .handleRead
  · subst hr
    cases o with
    | read r =>
        cases of_handleRead h with
        | message bytes hn =>
            cases bytes with
            | nil => exact absurd hn (Nat.lt_irrefl 0)
            | cons b bs => exact absurd rfl (hread rfl b bs)
        | _ => rfl
    | _ => cases h
  · exact exec_messages ha h hr

/-- What a `HandleRead` that reads nothing leaves of the buffer. -/
theorem exec_unread (h : k.exec c t own op o = some (k', is)) (hop : op.system = true)
    (hread : op = .handleRead → ∀ b bs, o ≠ .read (.data (b :: bs))) :
    k'.conn.inputBuffer.readable = k.conn.inputBuffer.readable := by
  by_cases hr : op = .handleRead
  · subst hr
    cases o with
    | read r =>
        cases of_handleRead h with
        | message bytes hn =>
            cases bytes with
            | nil => exact absurd hn (Nat.lt_irrefl 0)
            | cons b bs => exact absurd rfl (hread rfl b bs)
        | eof => exact (Buffer.readable_readFd _ _).trans (List.append_nil _)
        | failed => rfl
    | _ => cases h
  · refine congrArg Buffer.readable (exec_input h hr fun len e => ?_)
    subst e
    cases hop

/-- Only `SendInLoop` sends. -/
theorem exec_unsent (ha : k.Agrees c) (h : k.exec c t own op o = some (k', is))
    (hop : ∀ u msg, op ≠ .sendInLoop u msg) (u : ThreadId) :
    executedBy u k'.conn.log = executedBy u k.conn.log := by
  have hnone : messageOf u op = none := by
    cases op <;> first | rfl | exact absurd rfl (hop _ _)
  rw [exec_executed ha u h, hnone]
  exact List.append_nil _

/-- A `SendInLoop` of the history is of before, or is this step. -/
theorem of_mem_sends (ha : k.Agrees c) (h : k.exec c t own op o = some (k', is))
    {outcome : SendOutcome} (hm : .sendInLoop u msg outcome ∈ k'.conn.log) :
    .sendInLoop u msg outcome ∈ k.conn.log ∨ ∃ v m, op = .sendInLoop v m := by
  obtain ⟨es, hlog, hes⟩ := (exec_effect ha h).log
  rw [hlog] at hm
  rcases List.mem_append.mp hm with hm | hm
  · exact Or.inl hm
  · exact Or.inr (ConnEvent.of_causedBy_sendInLoop (hes _ hm))

/-- **`SendInLoop` on a connection that is up**: its message is in the history, kept unless the
    `write` sets `fault_error`. -/
theorem sendInLoop_settles {v : ThreadId} {m : List UInt8}
    (h : k.exec c t own (.sendInLoop v m) o = some (k', is)) (hs : k.conn.state ≠ .kDisconnected)
    {outcome : SendOutcome} (hm : .sendInLoop u msg outcome ∈ k'.conn.log) :
    .sendInLoop u msg outcome ∈ k.conn.log ∨ u = v ∧ outcome ≠ .refused ∧
      (o.faultError = false → outcome.survives = true) := by
  have hnew : ∀ {es : List ConnEvent} {out : SendOutcome},
      (∀ e ∈ es, e = .sendInLoop v m out ∨ ∃ bytes, e = .write bytes) →
      (out ≠ .refused ∧ (o.faultError = false → out.survives = true)) →
      .sendInLoop u msg outcome ∈ k.conn.log ++ es →
      .sendInLoop u msg outcome ∈ k.conn.log ∨ u = v ∧ outcome ≠ .refused ∧
        (o.faultError = false → outcome.survives = true) := by
    intro es out hes hout hm
    rcases List.mem_append.mp hm with hm | hm
    · exact Or.inl hm
    · rcases hes _ hm with e | ⟨bytes, e⟩
      · cases e
        exact Or.inr ⟨rfl, hout⟩
      · cases e
  cases o with
  | write r =>
      have hdirect : SendOutcome.direct r ≠ .refused ∧
          ((Outcome.write r).faultError = false → (SendOutcome.direct r).survives = true) := by
        refine ⟨nofun, fun hf => ?_⟩
        have hf : r.faultError = false := hf
        show (!r.faultError) = true
        rw [hf]
        rfl
      have hbuffered : SendOutcome.buffered ≠ .refused ∧
          ((Outcome.write r).faultError = false → SendOutcome.buffered.survives = true) :=
        ⟨nofun, fun _ => rfl⟩
      cases of_sendInLoop h with
      | refused hd => exact absurd hd hs
      | complete | dropped => exact hnew (by simp) hdirect hm
      | rest _ _ _ _ _ _ _ h =>
          rw [(of_appendOutput h).1] at hm
          exact hnew (by simp) hdirect hm
      | empty => exact hnew (by simp) hbuffered hm
      | buffered _ _ _ _ _ h =>
          rw [(of_appendOutput h).1] at hm
          exact hnew (by simp) hbuffered hm
  | _ => cases h

end Ctx

namespace EchoServer

variable {e e' : EchoServer} {s s' s₁ : Process} {a : Process.Label} {c : ConnId} {l : LoopId}
  {t u : ThreadId} {o : Outcome} {i j : Instr} {is rest : List Instr} {pc : EchoPc}

/-! ## A connection's bytes -/

/-- The thread of `c`'s loop. -/
def home (e : EchoServer) (c : ConnId) : ThreadId := .loop (e.process.conns c).loop

/-- What is in `c`'s input buffer. -/
def content (e : EchoServer) (c : ConnId) : List UInt8 :=
  (e.process.conns c).inputBuffer.readable

/-- The message of `c`'s that its callback has in hand: one, or none. -/
def inHand (e : EchoServer) (c : ConnId) : List (List UInt8) :=
  (e.stage (e.home c)).inHand c (e.content c)

/-- No direct `write` on `c` sets `fault_error`. -/
def Faultless (c : ConnId) (tr : List (Process × Process.Label)) : Prop :=
  ∀ p ∈ tr, ∀ u msg, p.1.executed c p.2 = some (.sendInLoop u msg) →
    p.2.outcome.faultError = false

/-- **What becomes of the bytes of connection `c`.** -/
structure Echoing (tr : List (Process × Process.Label)) (e : EchoServer) (c : ConnId) : Prop where
  /-- Only a callback that has not yet taken it has something in the buffer. -/
  unread : e.content c = (e.stage (e.home c)).unread c (e.content c)
  /-- The callbacks are called with what is delivered. -/
  told : (messages (e.process.conns c).log).flatten = (Process.received c tr).pushed
  /-- `SendInLoop` runs for what they are called with, unless the connection is down. -/
  echoed : ∃ lost, messages (e.process.conns c).log =
      executedBy (e.home c) (e.process.conns c).log ++ lost ++ e.inHand c ∧
    (lost ≠ [] → (e.process.conns c).state = .kDisconnected)
  /-- Nobody else sends, and nothing is refused. -/
  senders : ∀ u msg outcome, .sendInLoop u msg outcome ∈ (e.process.conns c).log →
    u = e.home c ∧ (outcome ≠ .refused ∧ (Faultless c tr → outcome.survives = true))
  handed : ∀ msg, e.stage (e.home c) = .sendingInLoop c msg →
    (e.process.conns c).state = .kConnected
  unclosed : (e.process.conns c).state ≠ .kDisconnecting

/-- A step that executes no function of `c`'s changes nothing of `c`'s in hand. -/
theorem advance_other {g g' : EchoStage} (hex : s.executed c a = none)
    (h : Advance s t a g g') :
    g'.unread c (s.conns c).inputBuffer.readable = g.unread c (s.conns c).inputBuffer.readable ∧
    g'.inHand c (s.conns c).inputBuffer.readable = g.inHand c (s.conns c).inputBuffer.readable ∧
    ∀ msg, g' = .sendingInLoop c msg → g = .sendingInLoop c msg := by
  have hne : ∀ {d op}, s.executed d a = some op → d ≠ c := by
    rintro d op hd rfl
    rw [hex] at hd
    cases hd
  cases h with
  | library | release | ret | connection => exact ⟨rfl, rfl, nofun⟩
  | message d b bs hd ho => simp [EchoStage.unread, EchoStage.inHand, hne hd]
  | retrieve d hno =>
      refine ⟨?_, ?_, nofun⟩ <;> by_cases e : d = c <;>
        simp [EchoStage.unread, EchoStage.inHand, e]
  | retrieved d msg hd => simp [EchoStage.unread, EchoStage.inHand, hne hd]
  | send d msg hno => exact ⟨rfl, rfl, nofun⟩
  | accepted d msg hd hs =>
      refine ⟨rfl, rfl, fun m e => ?_⟩
      cases e
      exact absurd rfl (hne hd)
  | refused d msg hd hs => simp [EchoStage.unread, EchoStage.inHand, hne hd]
  | sent d msg hd => simp [EchoStage.unread, EchoStage.inHand, hne hd]

theorem delivered_of_ne {op : ConnOp} (hex : s.executed c a = some op) (hop : op ≠ .handleRead) :
    s.delivered c a = [] := by
  unfold Process.delivered
  split
  · rename_i h
    rw [hex] at h
    exact absurd (Option.some.inj h) hop
  · rfl

/-- A `HandleRead` that reads nothing delivers nothing. -/
theorem delivered_of_unread (h : ∀ b bs, a.outcome ≠ .read (.data (b :: bs))) :
    s.delivered c a = [] := by
  unfold Process.delivered
  split
  · rename_i t bytes _
    cases bytes with
    | nil => rfl
    | cons b bs => exact absurd rfl (h b bs)
  · rfl

theorem delivered_of_none (hex : s.executed c a = none) : s.delivered c a = [] := by
  unfold Process.delivered
  rw [hex]

theorem Faultless.tail {p : Process × Process.Label} {tr : List (Process × Process.Label)}
    (h : Faultless c (p :: tr)) : Faultless c tr :=
  fun q hq => h q (List.mem_cons_of_mem _ hq)

/-- **A step that executes no function of `c`'s.** -/
theorem echoing_other {tr : List (Process × Process.Label)} (h : Echoing tr e c)
    (hs : Step e a e') (hadv : Advance e.process a.thread a (e.stage a.thread) (e'.stage a.thread))
    (hex : e.process.executed c a = none) (hconn : e'.process.conns c = e.process.conns c) :
    Echoing ((e.process, a) :: tr) e' c := by
  have hhome : e'.home c = e.home c := by rw [home, home, hconn]
  have hcontent : e'.content c = e.content c := by rw [content, content, hconn]
  have hstage : (e'.stage (e.home c)).unread c (e.content c) =
        (e.stage (e.home c)).unread c (e.content c) ∧
      (e'.stage (e.home c)).inHand c (e.content c) =
        (e.stage (e.home c)).inHand c (e.content c) ∧
      ∀ msg, e'.stage (e.home c) = .sendingInLoop c msg →
        e.stage (e.home c) = .sendingInLoop c msg := by
    by_cases ht : a.thread = e.home c
    · rw [← ht]
      exact advance_other hex hadv
    · rw [stage_other hs ht]
      exact ⟨rfl, rfl, fun _ => id⟩
  obtain ⟨hunread, hhand, hsending⟩ := hstage
  refine ⟨?_, ?_, ?_, ?_, ?_, ?_⟩
  · rw [hcontent, hhome, hunread]
    exact h.unread
  · rw [Process.received, hconn]
    show _ = _ ++ e.process.delivered c a
    rw [delivered_of_none hex, List.append_nil]
    exact h.told
  · rw [inHand, hhome, hcontent, hhand, hconn]
    exact h.echoed
  · rw [hhome, hconn]
    intro u msg outcome hm
    obtain ⟨hu, hr, hf⟩ := h.senders u msg outcome hm
    exact ⟨hu, hr, fun hfl => hf hfl.tail⟩
  · rw [hhome, hconn]
    exact fun msg hg => h.handed msg (hsending msg hg)
  · rw [hconn]
    exact h.unclosed

/-- **A function of `c`'s that is no send and delivers nothing**, as far as it leaves what its
    callback has in hand. -/
theorem echoing_quiet {tr : List (Process × Process.Label)} {op : ConnOp} {own : Bool}
    (hag : (e.process.ctx c).Agrees c) (h : Echoing tr e c)
    (hex : e.process.executed c a = some op)
    (he : (e.process.ctx c).exec c t own op a.outcome = some (e'.process.ctx c, is))
    (hop : ∀ u msg, op ≠ .sendInLoop u msg) (hsh : op ≠ .shutdownSetState)
    (hread : op = .handleRead → ∀ b bs, a.outcome ≠ .read (.data (b :: bs)))
    (hdel : e.process.delivered c a = [])
    (hunread : e'.content c = (e'.stage (e.home c)).unread c (e'.content c))
    (hhand : ∀ lost, (lost ≠ [] → (e.process.conns c).state = .kDisconnected) →
      ∃ lost', lost ++ e.inHand c = lost' ++ e'.inHand c ∧
        (lost' ≠ [] → (e'.process.conns c).state = .kDisconnected))
    (hhanded : ∀ msg, e'.stage (e.home c) = .sendingInLoop c msg →
      (e'.process.conns c).state = .kConnected) :
    Echoing ((e.process, a) :: tr) e' c := by
  have heff := Ctx.exec_effect hag he
  have hhome : e'.home c = e.home c := congrArg ThreadId.loop heff.same.loop
  have hmsg : messages (e'.process.conns c).log = messages (e.process.conns c).log :=
    Ctx.exec_untold hag he hread
  have hsent : executedBy (e.home c) (e'.process.conns c).log =
      executedBy (e.home c) (e.process.conns c).log := Ctx.exec_unsent hag he hop _
  refine ⟨?_, ?_, ?_, ?_, ?_, ?_⟩
  · rw [hhome]
    exact hunread
  · rw [hmsg, Process.received]
    show _ = _ ++ e.process.delivered c a
    rw [hdel, List.append_nil]
    exact h.told
  · obtain ⟨lost, hlost, hdown⟩ := h.echoed
    obtain ⟨lost', heq, hdown'⟩ := hhand lost hdown
    refine ⟨lost', ?_, hdown'⟩
    rw [hhome, hmsg, hsent, hlost, List.append_assoc, heq, List.append_assoc]
  · rw [hhome]
    intro u msg outcome hm
    rcases Ctx.of_mem_sends hag he hm with hold | ⟨v, m, e'⟩
    · obtain ⟨hu, hr, hf⟩ := h.senders u msg outcome hold
      exact ⟨hu, hr, fun hfl => hf hfl.tail⟩
    · exact absurd e' (hop v m)
  · rw [hhome]
    exact hhanded
  · have hstate : (e'.process.conns c).state = op.nextState (e.process.conns c).state := heff.state
    rw [hstate]
    have hold := h.unclosed
    cases op <;> first | exact hold | exact absurd rfl hsh | exact StateE.noConfusion

/-- **A delivery**: the buffer was empty, so the callback is called with what is delivered. -/
theorem echoing_message {tr : List (Process × Process.Label)} {own : Bool} {b : UInt8}
    {bs : List UInt8} (hag : (e.process.ctx c).Agrees c) (h : Echoing tr e c)
    (hidle : e.stage (e.home c) = .idle) (hstage : e'.stage (e.home c) = .message c)
    (hex : e.process.executed c (.run t (.read (.data (b :: bs)))) = some .handleRead)
    (he : (e.process.ctx c).exec c t own .handleRead (.read (.data (b :: bs))) =
      some (e'.process.ctx c, is)) :
    Echoing ((e.process, .run t (.read (.data (b :: bs)))) :: tr) e' c := by
  have heff := Ctx.exec_effect hag he
  have hhome : e'.home c = e.home c := congrArg ThreadId.loop heff.same.loop
  have hempty : e.content c = [] := by
    rw [h.unread, hidle]
    rfl
  have hread : (e.process.ctx c).handleRead c (.data (b :: bs)) = some (e'.process.ctx c, is) := he
  have hsent : executedBy (e.home c) (e'.process.conns c).log =
      executedBy (e.home c) (e.process.conns c).log :=
    Ctx.exec_unsent hag he (fun _ _ => ConnOp.noConfusion) _
  generalize hk : e'.process.ctx c = k' at hread
  have hconn : e'.process.conns c = k'.conn := congrArg Ctx.conn hk
  cases Ctx.of_handleRead hread with
  | message bytes hn hcap =>
      have hcontent : e'.content c = b :: bs := by
        rw [content, hconn]
        refine (Buffer.readable_readFd _ _).trans ?_
        show e.content c ++ _ = _
        rw [hempty]
        rfl
      have hmsg : messages (e'.process.conns c).log =
          messages (e.process.conns c).log ++ [e'.content c] := by
        rw [content, hconn]
        exact List.filterMap_append
      refine ⟨?_, ?_, ?_, ?_, ?_, ?_⟩
      · rw [hhome, hstage]
        exact (if_pos rfl).symm
      · have hdel : e.process.delivered c (.run t (.read (.data (b :: bs)))) = b :: bs := by
          unfold Process.delivered
          rw [hex]
        rw [hmsg, Process.received, List.flatten_append, h.told, hcontent]
        show _ = _ ++ e.process.delivered c _
        rw [hdel, List.flatten_singleton]
      · obtain ⟨lost, hlost, hdown⟩ := h.echoed
        have hold : e.inHand c = [] := by rw [inHand, hidle]; rfl
        have hnew : e'.inHand c = [e'.content c] := by
          rw [inHand, hhome, hstage]
          exact if_pos rfl
        refine ⟨lost, ?_, fun hne => heff.state.trans (hdown hne)⟩
        rw [hhome, hmsg, hsent, hlost, hold, hnew, List.append_nil]
      · rw [hhome]
        intro u msg outcome hm
        rcases Ctx.of_mem_sends hag he hm with hm | ⟨v, m, e'⟩
        · obtain ⟨hu, hr, hf⟩ := h.senders u msg outcome hm
          exact ⟨hu, hr, fun hfl => hf hfl.tail⟩
        · cases e'
      · rw [hhome, hstage]
        exact fun _ => EchoStage.noConfusion
      · rw [hconn]
        exact h.unclosed

/-- **`SendInLoop`** runs for the message in hand. -/
theorem echoing_sent {tr : List (Process × Process.Label)} {own : Bool} {msg : List UInt8}
    (hag : (e.process.ctx c).Agrees c) (h : Echoing tr e c) (ht : t = e.home c)
    (hsending : e.stage (e.home c) = .sendingInLoop c msg)
    (hstage : e'.stage (e.home c) = .sent)
    (hex : e.process.executed c (.run t o) = some (.sendInLoop t msg))
    (he : (e.process.ctx c).exec c t own (.sendInLoop t msg) o = some (e'.process.ctx c, is)) :
    Echoing ((e.process, .run t o) :: tr) e' c := by
  have heff := Ctx.exec_effect hag he
  have hhome : e'.home c = e.home c := congrArg ThreadId.loop heff.same.loop
  have hstate : (e'.process.conns c).state = (e.process.conns c).state := heff.state
  have hup := h.handed msg hsending
  have hmsg : messages (e'.process.conns c).log = messages (e.process.conns c).log :=
    Ctx.exec_messages hag he ConnOp.noConfusion
  have hcontent : e'.content c = e.content c :=
    congrArg Buffer.readable (Ctx.exec_input he ConnOp.noConfusion fun _ => ConnOp.noConfusion)
  have hsent : executedBy (e.home c) (e'.process.conns c).log =
      executedBy (e.home c) (e.process.conns c).log ++ [msg] := by
    refine (Ctx.exec_executed hag _ he).trans ?_
    rw [Ctx.messageOf, if_pos ht]
    rfl
  refine ⟨?_, ?_, ?_, ?_, ?_, ?_⟩
  · rw [hhome, hstage, hcontent, h.unread, hsending]
    rfl
  · rw [hmsg, Process.received]
    show _ = _ ++ e.process.delivered c _
    rw [delivered_of_ne hex ConnOp.noConfusion, List.append_nil]
    exact h.told
  · obtain ⟨lost, hlost, hdown⟩ := h.echoed
    have hnone : lost = [] := by
      by_contra hne
      rw [hup] at hdown
      cases hdown hne
    have hold : e.inHand c = [msg] := by
      rw [inHand, hsending]
      exact if_pos rfl
    have hnew : e'.inHand c = [] := by
      rw [inHand, hhome, hstage]
      rfl
    refine ⟨[], ?_, fun hne => absurd rfl hne⟩
    rw [hhome, hmsg, hsent, hlost, hold, hnew, hnone]
    simp
  · rw [hhome]
    intro u m outcome hm
    have hnd : (e.process.ctx c).conn.state ≠ .kDisconnected := fun hd => by
      rw [show (e.process.ctx c).conn.state = .kConnected from hup] at hd
      cases hd
    rcases Ctx.sendInLoop_settles he hnd hm with hold | ⟨hu, hr, hf⟩
    · obtain ⟨hu, hr, hf⟩ := h.senders u m outcome hold
      exact ⟨hu, hr, fun hfl => hf hfl.tail⟩
    · exact ⟨hu.trans ht, hr, fun hfl => hf (hfl _ List.mem_cons_self t msg hex)⟩
  · rw [hhome, hstage]
    exact fun _ => EchoStage.noConfusion
  · rw [hstate]
    exact h.unclosed

/-- **`Retrieve`** takes all there is. -/
theorem echoing_retrieved {tr : List (Process × Process.Label)} {own : Bool} {msg : List UInt8}
    (hag : (e.process.ctx c).Agrees c) (h : Echoing tr e c)
    (hretrieving : e.stage (e.home c) = .retrieving c msg)
    (hstage : e'.stage (e.home c) = .retrieved c msg)
    (hex : e.process.executed c (.run t o) = some (.retrieve msg.length))
    (he : (e.process.ctx c).exec c t own (.retrieve msg.length) o = some (e'.process.ctx c, is)) :
    Echoing ((e.process, .run t o) :: tr) e' c := by
  have heff := Ctx.exec_effect hag he
  have hhome : e'.home c = e.home c := congrArg ThreadId.loop heff.same.loop
  have hfull : e.content c = msg := by
    rw [h.unread, hretrieving]
    exact if_pos rfl
  have hempty : e'.content c = [] := by
    have hbuf : (e'.process.conns c).inputBuffer =
        (e.process.conns c).inputBuffer.retrieve msg.length :=
      congrArg (fun k => k.conn.inputBuffer) (Prod.mk.inj (Option.some.inj he)).1.symm
    rw [content, hbuf, Buffer.readable_retrieve]
    show (e.content c).drop msg.length = []
    rw [hfull, List.drop_length]
  have hold : e.inHand c = [msg] := by
    rw [inHand, hretrieving]
    exact if_pos rfl
  have hnew : e'.inHand c = [msg] := by
    rw [inHand, hhome, hstage]
    exact if_pos rfl
  refine echoing_quiet hag h hex he nofun nofun nofun (delivered_of_ne hex nofun) ?_ ?_ ?_
  · rw [hempty, hstage]
    rfl
  · exact fun lost hl => ⟨lost, by rw [hold, hnew], fun hne => heff.state.trans (hl hne)⟩
  · rw [hstage]
    exact nofun

/-- **`Send`** goes on with `SendInLoop`, unless the connection is down. -/
theorem echoing_send {tr : List (Process × Process.Label)} {own : Bool} {msg : List UInt8}
    (hag : (e.process.ctx c).Agrees c) (h : Echoing tr e c)
    (hsending : e.stage (e.home c) = .sending c msg)
    (hstage : (e'.stage (e.home c) = .sendingInLoop c msg ∧
        (e.process.conns c).state = .kConnected) ∨
      (e'.stage (e.home c) = .sent ∧ (e.process.conns c).state = .kDisconnected))
    (hex : e.process.executed c (.run t o) = some (.send msg))
    (he : (e.process.ctx c).exec c t own (.send msg) o = some (e'.process.ctx c, is)) :
    Echoing ((e.process, .run t o) :: tr) e' c := by
  have heff := Ctx.exec_effect hag he
  have hhome : e'.home c = e.home c := congrArg ThreadId.loop heff.same.loop
  have hstate : (e'.process.conns c).state = (e.process.conns c).state := heff.state
  have hcontent : e'.content c = e.content c :=
    congrArg Buffer.readable (Ctx.exec_input he nofun nofun)
  have hempty : e.content c = [] := by
    rw [h.unread, hsending]
    rfl
  have hold : e.inHand c = [msg] := by
    rw [inHand, hsending]
    exact if_pos rfl
  refine echoing_quiet hag h hex he nofun nofun nofun (delivered_of_ne hex nofun) ?_ ?_ ?_
  · rw [hcontent, hempty]
    rcases hstage with ⟨e, _⟩ | ⟨e, _⟩ <;> rw [e] <;> rfl
  · intro lost hl
    rcases hstage with ⟨hup, _⟩ | ⟨hdone, hdown⟩
    · have hnew : e'.inHand c = [msg] := by
        rw [inHand, hhome, hup]
        exact if_pos rfl
      exact ⟨lost, by rw [hold, hnew], fun hne => hstate.trans (hl hne)⟩
    · have hnew : e'.inHand c = [] := by
        rw [inHand, hhome, hdone]
        rfl
      exact ⟨lost ++ [msg], by rw [hold, hnew, List.append_nil], fun _ => hstate.trans hdown⟩
  · intro m hg
    rcases hstage with ⟨_, hup⟩ | ⟨hdone, _⟩
    · exact hstate.trans hup
    · rw [hdone] at hg
      cases hg

/-- **Every step.** -/
theorem echoing_step {tr : List (Process × Process.Label)} (hi : Process.Inv e.process)
    (hc : c < e.process.created) (htame : e.Tame) (h : Echoing tr e c) (hs : Step e a e') :
    Echoing ((e.process, a) :: tr) e' c := by
  have hw := hi.toWf
  have hag := hw.agrees c hc
  have hp := Process.of_step hs.process
  have hadv := advance_step hw htame hs
  cases hex : e.process.executed c a with
  | none =>
      refine echoing_other h hs hadv hex ?_
      cases Process.seen_step hw hc hp with
      | other hno r hctx => exact congrArg Ctx.conn hctx
      | run t o op rest is ha hst he =>
          rw [ha, Process.executed_of_stack hst] at hex
          cases hex
  | some op =>
      obtain ⟨t, o, rest, rfl, hst⟩ := Process.of_executed hex
      obtain ⟨is, he, _⟩ := Process.seen_run hw hst hp
      -- one connection's function is executed, and by the thread of its loop
      have honly : ∀ {d op'}, e.process.executed d (.run t o) = some op' → d = c ∧ op' = op :=
        fun h => of_executed hst h
      have hstands := htame.stands t
      rw [hst] at hstands
      have ht : t = e.home c := by
        rcases hstands.head with hsys | ⟨d, e'⟩ | ⟨d, op', e', ht, _⟩
        · refine (hw.stack t _ (Process.mem_stack hst)).2.resolve_left fun hany => ?_
          cases op <;> first | (cases hany; done) | cases hsys
        · cases e'
        · cases e'
          exact ht
      have hfirst : op ≠ .connectEstablished → (e.process.conns c).state ≠ .kConnecting := by
        intro hne hk
        cases Process.turn_step hi hc hp with
        | idle hno => exact hno t o op rest rfl hst
        | establish o' rest' ha hst' =>
            cases ha
            rw [hst] at hst'
            cases hst'
            exact hne rfl
        | own o' op' rest' is' T ha hst' hop hk' => exact hk' hk
        | foreign t' o' op' rest' is' ha hne' hst' hop hk' => exact hk' hk
      have hconnecting : op = .connectEstablished → (e.process.conns c).state = .kConnecting := by
        rintro rfl
        cases Process.turn_step hi hc hp with
        | idle hno => exact absurd hst (hno t o _ rest rfl)
        | establish o' rest' ha hst' hun hk => exact hk
        | own o' op' rest' is' T ha hst' hop =>
            cases ha
            rw [hst] at hst'
            cases hst'
            exact absurd rfl hop
        | foreign t' o' op' rest' is' ha hne' hst' hop =>
            cases ha
            rw [hst] at hst'
            cases hst'
            cases hop
      have hdown : op.system = true → (e.process.conns c).state = .kDisconnected →
          (e'.process.conns c).state = .kDisconnected := by
        intro hsys hd
        have hstate : (e'.process.conns c).state = op.nextState (e.process.conns c).state :=
          (Ctx.exec_effect hag he).state
        rw [hstate, hd]
        refine ConnOp.nextState_kDisconnected (fun e => ?_) (fun e => ?_)
        · rw [hconnecting e] at hd
          cases hd
        · rw [e] at hsys
          cases hsys
      -- what the library does by itself
      have hlibrary : op.system = true →
          (op = .handleRead → ∀ b bs, o ≠ .read (.data (b :: bs))) →
          e.stage t = .idle → (e'.stage t = .idle ∨ e'.stage t = .leaving) →
          Echoing ((e.process, .run t o) :: tr) e' c := by
        intro hsys hread hg hg'
        have hempty : e.content c = [] := by
          rw [h.unread, ← ht, hg]
          rfl
        have hempty' : e'.content c = [] :=
          (Ctx.exec_unread he hsys hread).trans hempty
        have hdel : e.process.delivered c (.run t o) = [] := by
          by_cases hop : op = .handleRead
          · exact delivered_of_unread (hread hop)
          · exact delivered_of_ne hex hop
        have hhome : e'.home c = e.home c :=
          congrArg ThreadId.loop (Ctx.exec_effect hag he).same.loop
        have hold : e.inHand c = [] := by rw [inHand, ← ht, hg]; rfl
        have hnew : e'.inHand c = [] := by
          rw [inHand, hhome, ← ht]
          rcases hg' with e | e <;> rw [e] <;> rfl
        refine echoing_quiet hag h hex he (fun u msg e => ?_) (fun e => ?_) hread hdel ?_ ?_ ?_
        · rw [e] at hsys
          cases hsys
        · rw [e] at hsys
          cases hsys
        · rw [hempty', ← ht]
          rcases hg' with e | e <;> rw [e] <;> rfl
        · exact fun lost hl => ⟨lost, by rw [hold, hnew], fun hne => hdown hsys (hl hne)⟩
        · rw [← ht]
          rcases hg' with e | e <;> rw [e] <;> exact nofun
      have hadv : Advance e.process t (.run t o) (e.stage t) (e'.stage t) := hadv
      generalize hg : e.stage t = g at hadv
      generalize hg' : e'.stage t = g' at hadv
      cases hadv with
      | library hop =>
          obtain ⟨hsys, hread⟩ := hop c op hex
          exact hlibrary hsys hread hg (Or.inl hg')
      | connection d hd =>
          obtain ⟨rfl, rfl⟩ := honly hd
          exact hlibrary rfl nofun hg (Or.inr hg')
      | message d b bs hd ho =>
          obtain ⟨rfl, rfl⟩ := honly hd
          have ho : o = .read (.data (b :: bs)) := ho
          subst ho
          exact echoing_message hag h (ht ▸ hg) (ht ▸ hg') hex he
      | retrieve d hno | send d msg hno =>
          rw [hno c] at hex
          cases hex
      | release hno | ret hno =>
          rw [hno c] at hex
          cases hex
      | retrieved d msg hd =>
          obtain ⟨rfl, rfl⟩ := honly hd
          exact echoing_retrieved hag h (ht ▸ hg) (ht ▸ hg') hex he
      | accepted d msg hd hup =>
          obtain ⟨rfl, rfl⟩ := honly hd
          exact echoing_send hag h (ht ▸ hg) (Or.inl ⟨ht ▸ hg', hup⟩) hex he
      | refused d msg hd hup =>
          obtain ⟨rfl, rfl⟩ := honly hd
          refine echoing_send hag h (ht ▸ hg) (Or.inr ⟨ht ▸ hg', ?_⟩) hex he
          have hk := hfirst nofun
          have hc := h.unclosed
          generalize (e.process.conns d).state = state at hup hk hc
          cases state <;> first | rfl | contradiction
      | sent d msg hd =>
          obtain ⟨rfl, rfl⟩ := honly hd
          exact echoing_sent hag h ht (ht ▸ hg) (ht ▸ hg') hex he

/-! ## Runs -/

/-- A callback of another connection's has nothing of `c`'s. -/
theorem stage_unexposed (h : Stands s t pc is) (hno : .callback (some c) ∉ is)
    (xs : List UInt8) : (EchoStage.of pc is).unread c xs = [] ∧
      (EchoStage.of pc is).inHand c xs = [] ∧
      ∀ msg, EchoStage.of pc is ≠ .sendingInLoop c msg := by
  have hne : ∀ {d}, .callback (some d) ∈ is → d ≠ c := by
    rintro d hm rfl
    exact hno hm
  cases h with
  | outside | leaving | sent => exact ⟨rfl, rfl, nofun⟩
  | message d rest =>
      have e : d ≠ c := hne (by simp)
      simp [EchoStage.of, EchoStage.unread, EchoStage.inHand, e]
  | retrieving d msg rest | retrieved d msg rest | sending d msg rest
  | sendingInLoop d msg rest =>
      have e : d ≠ c := hne (by simp)
      simp [EchoStage.of, EchoStage.unread, EchoStage.inHand, e]

/-- A connection nobody knows of. -/
theorem echoing_of_untouched {tr : List (Process × Process.Label)} (htame : e.Tame)
    (h : e.process.Untouched c) (hpushed : (Process.received c tr).pushed = []) :
    Echoing tr e c := by
  have hlog : (e.process.conns c).log = [] := h.log
  have hstate : (e.process.conns c).state = .kConnecting := h.state
  have hempty : e.content c = [] := h.input
  obtain ⟨hunread, hhand, hsending⟩ := stage_unexposed (htame.stands (e.home c))
    (fun hm => h.exposed _ _ hm rfl) (e.content c)
  refine ⟨?_, ?_, ⟨[], ?_, fun hne => absurd rfl hne⟩, ?_, ?_, ?_⟩
  · exact hempty.trans hunread.symm
  · rw [hlog, hpushed]
    rfl
  · have hnone : e.inHand c = [] := hhand
    rw [hlog, hnone]
    rfl
  · rw [hlog]
    exact fun u msg outcome hm => absurd hm List.not_mem_nil
  · exact fun msg hg => absurd hg (hsending msg)
  · rw [hstate]
    exact nofun

/-- What is kept, where `t` alone sends and all it sends is kept. -/
theorem keptBy_eq {keep : SendOutcome → Bool} {log : List ConnEvent}
    (h : ∀ u msg outcome, .sendInLoop u msg outcome ∈ log → u = t ∧ keep outcome = true) :
    keptBy keep log = (executedBy t log).flatten := by
  induction log with
  | nil => rfl
  | cons x xs ih =>
      have ih := ih fun u msg outcome hm => h u msg outcome (List.mem_cons_of_mem _ hm)
      rw [keptBy_cons, ih]
      cases x with
      | sendInLoop u msg outcome =>
          obtain ⟨rfl, hk⟩ := h u msg outcome List.mem_cons_self
          simp [ConnEvent.keptBy, executedBy, ConnEvent.executedOf, hk]
      | _ => rfl

/-- **What the echo server returns** of what it has received on connection `c`. -/
structure Echoes (tr : List (Process × Process.Label)) (e : EchoServer) (c : ConnId) : Prop where
  /-- Every byte delivered is in one message, in order. -/
  told : (messages (e.process.conns c).log).flatten =
    tr.reverse.flatMap fun p => p.1.delivered c p.2
  /-- The messages are sent one after the other, those apart that come when the connection is
      down. -/
  sent : ∃ lost, messages (e.process.conns c).log =
      executedBy (e.home c) (e.process.conns c).log ++ lost ++ e.inHand c ∧
    (lost ≠ [] → (e.process.conns c).state = .kDisconnected)
  /-- Nothing else is sent on it. -/
  senders : ∀ u msg outcome, .sendInLoop u msg outcome ∈ (e.process.conns c).log →
    u = e.home c ∧ outcome ≠ .refused
  /-- What is sent is with the kernel or in the buffer, but for a message whose `write` has set
      `fault_error`. -/
  stream : kernelBytes (e.process.conns c).log ++ (e.process.conns c).outputBuffer.readable =
    keptBy SendOutcome.survives (e.process.conns c).log
  /-- Where none has, it is the first of what was received. -/
  first : Faultless c tr →
    kernelBytes (e.process.conns c).log ++ (e.process.conns c).outputBuffer.readable <+:
      tr.reverse.flatMap fun p => p.1.delivered c p.2
  /-- And while the connection is up, all of it but what is in hand. -/
  whole : Faultless c tr → (e.process.conns c).state = .kConnected →
    kernelBytes (e.process.conns c).log ++ (e.process.conns c).outputBuffer.readable ++
      (e.inHand c).flatten = tr.reverse.flatMap fun p => p.1.delivered c p.2

section Runs

variable {name : List Char} {addr : InetAddress} {numLoops : Nat}
  {tr : List (EchoServer × Process.Label)}

/-- Nothing is delivered to a connection that is to come. -/
theorem pushed_of_le (h : Run step (start name addr numLoops) tr e)
    (hc : e.process.created ≤ c) : (Process.received c (trace tr)).pushed = [] := by
  induction h with
  | start => rfl
  | step tr e a e' h hs ih =>
      have hw := Process.wf_run (process_run h)
      have hle : e.process.created ≤ c :=
        Nat.le_trans (Process.wf_step hw (Process.of_step (of_step hs).process)).2.created hc
      show (Process.received c (trace tr)).pushed ++ e.process.delivered c a = []
      rw [ih hle, delivered_of_none (Process.executed_of_le hw hle)]
      rfl

theorem echoing_run (h : Run step (start name addr numLoops) tr e)
    (hc : c < e.process.created) : Echoing (trace tr) e c := by
  induction h with
  | start => exact absurd hc (Nat.not_lt_zero c)
  | step tr e a e' h hs ih =>
      have hi := Process.inv_run (process_run h)
      have hs' := of_step hs
      have htame := tame_run h
      by_cases hold : c < e.process.created
      · exact echoing_step hi hold htame (ih hold) hs'
      · have hle := Nat.le_of_not_lt hold
        have hun := ((Process.created_step hi.toWf (Process.of_step hs'.process) hc).resolve_left
          hold).2
        refine echoing_of_untouched (tame_step hi.toWf htame hs') hun ?_
        show (Process.received c (trace tr)).pushed ++ e.process.delivered c a = []
        rw [pushed_of_le h hle, delivered_of_none (Process.executed_of_le hi.toWf hle)]
        rfl

/-- **What comes in goes out again.** In every state of every run of the echo server, for every
    connection: the callbacks are called with what was delivered, piece by piece; they send it,
    all of it as long as the connection is up, and nothing else is sent; so, where no direct
    `write` fails with `fault_error`, what the kernel has taken, followed by `output_buffer_`, is
    the first of what was received, and all of it but the one message in hand while the connection
    is up. -/
theorem echo_integrity (h : Run step (start name addr numLoops) tr e) (c : ConnId)
    (hc : c < e.process.created) : Echoes (trace tr) e c := by
  have hecho := echoing_run h hc
  have htold := hecho.told.trans Process.pushed_received
  have hstream : kernelBytes (e.process.conns c).log ++
      (e.process.conns c).outputBuffer.readable =
      keptBy SendOutcome.survives (e.process.conns c).log :=
    Process.survives_run (process_run h) hc
  have hkept : Faultless c (trace tr) → keptBy SendOutcome.survives (e.process.conns c).log =
      (executedBy (e.home c) (e.process.conns c).log).flatten := fun hf =>
    keptBy_eq fun u msg outcome hm =>
      ⟨(hecho.senders u msg outcome hm).1, (hecho.senders u msg outcome hm).2.2 hf⟩
  obtain ⟨lost, hlost, hdown⟩ := hecho.echoed
  refine ⟨htold, ⟨lost, hlost, hdown⟩, fun u msg outcome hm => ?_, hstream, fun hf => ?_,
    fun hf hup => ?_⟩
  · exact ⟨(hecho.senders u msg outcome hm).1, (hecho.senders u msg outcome hm).2.1⟩
  · rw [hstream, hkept hf, ← htold, hlost, List.append_assoc, List.flatten_append]
    exact List.prefix_append _ _
  · have hnone : lost = [] := by
      by_contra hne
      rw [hdown hne] at hup
      cases hup
    rw [hstream, hkept hf, ← htold, hlost, hnone, List.append_nil, List.flatten_append]

/-- A server without sub loops. -/
def small : EchoServer := start ['s'] ⟨127, 0, 0, 1, 80⟩ 0

/-- A connection is accepted; two bytes arrive, and `write` takes one of them. -/
def echoRun : List Process.Label := List.flatten
  [[.loop 0 .enterLoop, .loop 0 .test, .poll 0 [(.acceptor, epollIn)], .dispatch 0,
      .run (.loop 0) .none, .run (.loop 0) (.accept (some 10))], Process.runs (.loop 0) 3,
    Process.settleRun, [.poll 0 [(.conn 0, epollIn)], .dispatch 0, .run (.loop 0) .none,
      .run (.loop 0) (.read (.data [1, 2])), .user (.loop 0) (.retrieve 0 2),
      .run (.loop 0) .none, .user (.loop 0) (.send 0 [1, 2]), .run (.loop 0) .none,
      .run (.loop 0) (.write (.wrote 1))]]

theorem echo_integrity_short : ∃ tr e, Run step small tr e ∧ Faultless 0 (trace tr) ∧
    (e.process.conns 0).state = .kConnected ∧ e.inHand 0 = [] ∧
    kernelBytes (e.process.conns 0).log = [1] ∧
    (e.process.conns 0).outputBuffer.readable = [2] ∧ Echoes (trace tr) e 0 := by
  have h : ((Machine.exec step small echoRun).any fun e => decide (0 < e.process.created ∧
      (e.process.conns 0).state = .kConnected ∧ e.inHand 0 = [] ∧
      kernelBytes (e.process.conns 0).log = [1] ∧
      (e.process.conns 0).outputBuffer.readable = [2])) = true := by decide +kernel
  obtain ⟨e, he, hb⟩ := (Option.any_eq_true _ _).mp h
  obtain ⟨hc, hstate, hhand, hkernel, hout⟩ := of_decide_eq_true hb
  have hrun := exec_run .start he
  refine ⟨_, e, hrun, fun p hp u msg _ => ?_, hstate, hhand, hkernel, hout,
    echo_integrity hrun 0 hc⟩
  have hall : ∀ a ∈ echoRun, a.outcome.faultError = false := by decide
  obtain ⟨q, hq, rfl⟩ := List.mem_map.mp hp
  exact hall _ ((label_mem_execTrace _ hq).resolve_left List.not_mem_nil)

end Runs

end EchoServer

end CuteMuduo
