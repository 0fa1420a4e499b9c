/-
  File:      CuteMuduo/TcpServer/Interest.lean
  Subject:   THE WRITE INTEREST TRACKS THE BACKLOG, over every run of the program: while a
             connection is up its fd is in the epoll set, for reading, and for writing if and only
             if `output_buffer_` holds bytes (`interest_tracks_backlog`).

  `SendInLoop` and `HandleWrite` are the functions that change both (`exec_tracks`); once the
  connection is `kDisconnected` there is no interest any more.
-/
import CuteMuduo.TcpServer.State

namespace CuteMuduo

open Machine

namespace Ctx

variable {k k' : Ctx} {c : ConnId} {t : ThreadId} {own : Bool} {op : ConnOp} {o : Outcome}
  {is : List Instr}

/-- The interest that goes with what `output_buffer_` holds. -/
def backlogMask (k : Ctx) : EventMask :=
  if k.conn.outputBuffer.readable = [] then kReadEvent else kReadEvent ||| kWriteEvent

/-- **The channel is registered, with the interest that goes with the backlog.** -/
structure Tracks (k : Ctx) : Prop where
  index : k.channel.index = .kAdded
  events : k.channel.events = k.backlogMask

/-- `IsWriting()`, on such a channel. -/
theorem Tracks.isWriting (h : k.Tracks) :
    k.channel.isWriting = true ↔ k.conn.outputBuffer.readable ≠ [] := by
  unfold Channel.isWriting
  rw [h.events]
  unfold backlogMask
  split
  · rename_i he
    exact iff_of_false (by decide) (not_not_intro he)
  · rename_i he
    exact iff_of_true (by decide) he

/-- The buffer is emptied, or filled, or neither. -/
theorem Tracks.of_eq (h : k.Tracks) (hch : k'.channel = k.channel)
    (hout : k'.conn.outputBuffer.readable = [] ↔ k.conn.outputBuffer.readable = []) :
    k'.Tracks := by
  refine ⟨hch ▸ h.index, ?_⟩
  rw [hch, h.events, backlogMask, backlogMask]
  simp only [hout]

theorem tracks_appendOutput {remaining : List UInt8} {es : List ConnEvent} (ha : k.Agrees c)
    (hk : k.Tracks) (hne : remaining ≠ [])
    (h : (k.record es).appendOutput c remaining = some (k', is)) : k'.Tracks := by
  obtain ⟨hconn, hch, _⟩ := of_appendOutput h
  have hfull : k'.conn.outputBuffer.readable ≠ [] := by
    rw [hconn]
    show (Buffer.append _ _).readable ≠ []
    rw [Buffer.readable_append]
    exact fun e => hne (List.append_eq_nil_iff.mp e).2
  rcases hch with ⟨hw, hch, _⟩ | ⟨hw, hen⟩
  · have hold : k.conn.outputBuffer.readable ≠ [] := hk.isWriting.mp hw
    exact hk.of_eq hch (iff_of_false hfull hold)
  · have hold : k.conn.outputBuffer.readable = [] := by
      by_contra hne'
      have hw' : k.channel.isWriting = true := hk.isWriting.mpr hne'
      rw [show k.channel.isWriting = false from hw] at hw'
      cases hw'
    obtain ⟨hev, _⟩ := of_updateChannel (d := k.channel) ha hen
    have hev : k'.channel = { k.channel with
        events := k.channel.events ||| kWriteEvent
        index := Channel.nextIndex k.channel.index (k.channel.events ||| kWriteEvent) } := hev
    rw [hk.index, hk.events, backlogMask, if_pos hold] at hev
    refine ⟨by rw [hev]; rfl, ?_⟩
    rw [hev, backlogMask, if_neg hfull]

theorem tracks_sendInLoop {sender : ThreadId} {msg : List UInt8} {r : WriteResult}
    (ha : k.Agrees c) (hk : k.Tracks) (h : k.sendInLoop c sender msg r = some (k', is)) :
    k'.Tracks := by
  cases of_sendInLoop h with
  | rest hs hd hn hr he k' is h => exact tracks_appendOutput ha hk he h
  | buffered hs hd he k' is h => exact tracks_appendOutput ha hk he h
  | _ => exact hk.of_eq rfl Iff.rfl

theorem tracks_handleWrite {r : WriteResult} (ha : k.Agrees c) (hk : k.Tracks)
    (h : k.handleWrite c r = some (k', is)) : k'.Tracks := by
  cases of_handleWrite h with
  | idle => exact hk
  | failed => exact hk.of_eq rfl Iff.rfl
  | short hw hr hn he =>
      -- nothing taken, or not all of it
      have hfull := hk.isWriting.mp hw
      refine hk.of_eq rfl (iff_of_false (fun hnil => ?_) hfull)
      refine he ⟨Nat.pos_of_ne_zero fun h0 => hfull ?_, (Buffer.readableBytes_eq_zero _).mpr hnil⟩
      have hnil : (k.conn.outputBuffer.writeFd r.nwrote).readable = [] := hnil
      rwa [h0, Buffer.readable_writeFd, List.drop_zero] at hnil
  | drained hw hr hn h0 he p hp =>
      have hempty : (k.conn.outputBuffer.writeFd r.nwrote).readable = [] :=
        (Buffer.readableBytes_eq_zero _).mp he
      obtain ⟨hev, _⟩ := of_updateChannel (d := k.channel) ha hp
      have hmask : (kReadEvent ||| kWriteEvent) &&& ~~~kWriteEvent = kReadEvent := by decide
      rw [hk.index, hk.events, backlogMask, if_neg (hk.isWriting.mp hw), hmask] at hev
      refine ⟨?_, ?_⟩
      · show p.2.index = .kAdded
        rw [hev]
        rfl
      · show p.2.events = if (k.conn.outputBuffer.writeFd r.nwrote).readable = [] then _ else _
        rw [hev, if_pos hempty]

/-- **Every function of a connection that is up keeps track**, but those that end it. -/
theorem exec_tracks (ha : k.Agrees c) (hk : k.Tracks) (hest : op ≠ .connectEstablished)
    (hdes : op ≠ .destroySetState) (hcl : op ≠ .handleClose) (hrm : op ≠ .channelRemove)
    (h : k.exec c t own op o = some (k', is)) : k'.Tracks := by
  by_cases hs : ∃ u msg, op = .sendInLoop u msg
  · obtain ⟨u, msg, rfl⟩ := hs
    cases o with
    | write r => exact tracks_sendInLoop ha hk h
    | _ => cases h
  by_cases hw : op = .handleWrite
  · subst hw
    cases o with
    | write r => exact tracks_handleWrite ha hk h
    | _ => cases h
  · have hno : touchesChannel op = false := by
      cases op <;> first
        | rfl
        | exact absurd rfl hest
        | exact absurd rfl hdes
        | exact absurd rfl hcl
        | exact absurd rfl hrm
        | exact absurd rfl hw
        | exact absurd ⟨_, _, rfl⟩ hs
    refine hk.of_eq (exec_channel h hno) ?_
    rw [exec_output h (fun u msg e => hs ⟨u, msg, e⟩) hw]

/-- `ConnectEstablished` registers the channel for reading. -/
theorem tracks_connectEstablished (ha : k.Agrees c) (hi : k.channel.index = .kNew)
    (hev : k.channel.events = kNoneEvent) (hout : k.conn.outputBuffer.readable = [])
    (h : k.connectEstablished c = some (k', is)) : k'.Tracks := by
  obtain ⟨p, hp, e⟩ := Option.map_eq_some_iff.mp h
  cases e
  obtain ⟨hch, _⟩ := of_updateChannel (d := k.channel.tie) (q := k.slot) ha hp
  refine ⟨?_, ?_⟩
  · show p.2.index = .kAdded
    rw [hch]
    show Channel.nextIndex k.channel.index _ = _
    rw [hi]
    rfl
  · show p.2.events = if k.conn.outputBuffer.readable = [] then _ else _
    rw [hch, if_pos hout]
    show k.channel.events ||| kReadEvent = _
    rw [hev]
    rfl

end Ctx

namespace Process

variable {s s' : Process} {a : Label} {c : ConnId} {t : ThreadId}

/-- Between `ConnectEstablished` and the end of `ConnectDestroyed`, and not `kDisconnected`. -/
structure IsUp (s : Process) (c : ConnId) : Prop where
  established : (s.ctx c).conn.state ≠ .kConnecting
  notClosed : (s.ctx c).conn.state ≠ .kDisconnected
  notDestroyed : .destroyed ∉ (s.ctx c).conn.log

/-- **The interest of a connection**, up or closed. -/
structure Interest (s : Process) (c : ConnId) : Prop where
  up : s.IsUp c → (s.ctx c).Tracks
  closed : (s.ctx c).conn.state = .kDisconnected → (s.ctx c).channel.events = kNoneEvent
  stores : s.Stores c

theorem interest_of_untouched (h : s.Untouched c) : s.Interest c := by
  refine ⟨fun hup => absurd h.state hup.established, fun hd => ?_, stores_of_untouched h⟩
  rw [h.state] at hd
  cases hd

/-- A function executed on an established connection. -/
theorem interest_run {own : Bool} {op : ConnOp} {o : Outcome} {is : List Instr}
    (hag : (s.ctx c).Agrees c) (h : s.Interest c) (hop : op ≠ .connectEstablished)
    (hk : (s.ctx c).conn.state ≠ .kConnecting)
    (hsh : op = .shutdownSetState → (s.ctx c).conn.state ≠ .kDisconnected)
    (he : (s.ctx c).exec c t own op o = some (s'.ctx c, is)) (hstores : s'.Stores c) :
    s'.Interest c := by
  have heff := Ctx.exec_effect hag he
  refine ⟨fun hup => ?_, fun hd => ?_, hstores⟩
  · have hne : ∀ {op'}, op'.nextState (s.ctx c).conn.state = .kDisconnected → op ≠ op' := by
      rintro op' hd rfl
      exact hup.notClosed (heff.state.trans hd)
    have hopen : (s.ctx c).conn.state ≠ .kDisconnected := by
      intro hd
      refine hup.notClosed (heff.state.trans ?_)
      rw [hd]
      exact ConnOp.nextState_kDisconnected hop fun e => hsh e hd
    have hup' : s.IsUp c := ⟨hk, hopen, fun hm => hup.notDestroyed (heff.log_subset hm)⟩
    refine Ctx.exec_tracks hag (h.up hup') hop (hne rfl) (hne rfl) ?_ he
    rintro rfl
    refine hup.notDestroyed ?_
    rw [(Ctx.exec_channelRemove hag he).2.2.2]
    exact List.mem_append_right _ List.mem_cons_self
  · by_cases hds : op = .destroySetState ∨ op = .handleClose
    · exact Ctx.exec_disableAll hag he hds
    · obtain ⟨hne, hne'⟩ := not_or.mp hds
      have hold : (s.ctx c).conn.state = .kDisconnected :=
        ((ConnOp.of_nextState_kDisconnected (heff.state ▸ hd)).resolve_left hne).resolve_left hne'
      exact Ctx.exec_disconnected hag hold (h.closed hold) hop he

theorem interest_step (hi : Inv s) (hc : c < s.created) (h : s.Interest c)
    (hS : ShutdownHere c s a) (hs : Step s a s') : s'.Interest c := by
  have hag := hi.agrees c hc
  have hstores : s'.Stores c := stores_step hi hc h.stores hS hs
  cases turn_step hi hc hs with
  | idle hno r hctx htr =>
      refine ⟨fun hup => ?_, ?_, hstores⟩
      · have hconn : (s'.ctx c).conn = (s.ctx c).conn := by rw [hctx]
        have hold : s.IsUp c := ⟨hconn ▸ hup.established, hconn ▸ hup.notClosed,
          hconn ▸ hup.notDestroyed⟩
        rw [hctx]
        exact ⟨(h.up hold).index, (h.up hold).events⟩
      · rw [hctx]
        exact h.closed
  | establish o rest ha hst hun hk he htr' =>
      have htracks := Ctx.tracks_connectEstablished hag hun.index hun.events hun.output he
      refine ⟨fun _ => htracks, fun hd => ?_, hstores⟩
      rw [(Ctx.exec_effect hag he).state] at hd
      cases hd
  | own o op rest is T ha hst hop hk he htr htr' hset =>
      refine interest_run hag h hop hk (fun e => ?_) he hstores
      have hm : ConnOp.shutdownSetState ∈ s.trail c := by
        rw [htr, e]
        exact List.mem_cons_self
      rw [h.stores (Or.inl hm)]
      nofun
  | foreign t o op rest is ha ht hst hany hk he htr =>
      exact interest_run hag h (ConnOp.ne_of_anyThread hany rfl) hk
        (fun e => absurd e (ne_of_shutdownHere hS ha ht hst)) he hstores

/-- What `HandleWrite` calls. -/
theorem handleWrite_step {o : Outcome} {rest : List Instr}
    (hst : s.stack t = .conn c .handleWrite :: rest) (hs : Step s (.run t o) s')
    (hw : (s.ctx c).channel.isWriting = false) : (s'.conns c).log = (s.conns c).log := by
  cases hs with
  | run _ _ i rest' s₁ is hst' he =>
      rw [hst] at hst'
      cases hst'
      cases he with
      | conn _ _ k is h =>
          cases o with
          | write r =>
              have hconn : ((s.setCtx c k).setStack t (is ++ rest)).conns c = k.conn :=
                Function.update_self _ _ _
              rw [hconn, (Ctx.handleWrite_idle hw h).1]
              rfl
          | _ => cases h
      | quiet _ _ hq => cases hq
      | loop _ _ _ _ _ hl => cases hl

section Runs

variable {name : List Char} {addr : InetAddress} {numLoops : Nat} {writeComplete : Bool}
  {tr : List (Process × Label)}

/-- **Write interest tracks the backlog**, in every run in which `Shutdown` is called on the
    thread of the connection's loop. While the connection is up, its fd is in the epoll set, with
    `EPOLLIN` and `EPOLLPRI`, and with `EPOLLOUT` if and only if `output_buffer_` holds bytes; and
    `HandleWrite` calls `write` neither with an empty buffer nor on a connection that is
    `kDisconnected`. -/
theorem interest_tracks_backlog (h : Run step (init name addr numLoops writeComplete) tr s)
    (c : ConnId) (hc : c < s.created) (hS : ∀ p ∈ tr, ShutdownHere c p.1 p.2) :
    (s.IsUp c → ∃ mask, (s.pollers (s.conns c).loop (s.fd c)).epoll = some (mask, .conn c) ∧
      (EventMask.has mask epollOut = true ↔ (s.conns c).outputBuffer.readable ≠ []) ∧
      EventMask.has mask epollIn = true ∧ EventMask.has mask epollPri = true) ∧
    ∀ t o rest s', s.stack t = .conn c .handleWrite :: rest → step s (.run t o) = some s' →
      (s.conns c).state = .kDisconnected ∨ s.IsUp c ∧ (s.conns c).outputBuffer.readable = [] →
      (s'.conns c).log = (s.conns c).log := by
  have hint : s.Interest c := conn_run (I := (Interest · c)) c (fun _ _ => interest_of_untouched)
    (fun _ _ _ hi hc h ha hs => interest_step hi hc h ha hs) h hS hc
  refine ⟨fun hup => ⟨(s.ctx c).backlogMask, ?_, ?_⟩, fun t o rest s' hst hs hcase => ?_⟩
  · have htr := hint.up hup
    have hag : (s.ctx c).slot = (s.ctx c).channel.slot (.conn c) := (inv_run h).agrees c hc
    show (s.ctx c).slot.epoll = _
    rw [hag, Channel.slot, if_pos htr.index, htr.events]
  · unfold Ctx.backlogMask
    split
    · rename_i he
      exact ⟨iff_of_false (by decide) (not_not_intro he), by decide, by decide⟩
    · rename_i he
      exact ⟨iff_of_true (by decide) he, by decide, by decide⟩
  · refine handleWrite_step hst (of_step hs) ?_
    rcases hcase with hd | ⟨hup, he⟩
    · rw [Channel.isWriting, hint.closed hd]
      rfl
    · exact Bool.eq_false_iff.mpr fun hw => (hint.up hup).isWriting.mp hw he

/-- The connection callback sends two bytes, and `write` takes one. -/
def backlogRun : List Label :=
  acceptRun ++ [.user (.loop 0) (.send 0 [1, 2]), .run (.loop 0) .none,
    .run (.loop 0) (.write (.wrote 1))]

theorem interest_tracks_backlog_short : ∃ s, Machine.exec step oneLoop backlogRun = some s ∧
    (s.IsUp 0 ∧ (s.conns 0).outputBuffer.readable = [2]) ∧
    (s.IsUp 0 → ∃ mask, (s.pollers (s.conns 0).loop (s.fd 0)).epoll = some (mask, .conn 0) ∧
      (EventMask.has mask epollOut = true ↔ (s.conns 0).outputBuffer.readable ≠ []) ∧
      EventMask.has mask epollIn = true ∧ EventMask.has mask epollPri = true) ∧
    ∀ t o rest s', s.stack t = .conn 0 .handleWrite :: rest → step s (.run t o) = some s' →
      (s.conns 0).state = .kDisconnected ∨ s.IsUp 0 ∧ (s.conns 0).outputBuffer.readable = [] →
      (s'.conns 0).log = (s.conns 0).log := by
  have h : ((Machine.exec step oneLoop backlogRun).any fun s => decide (0 < s.created ∧
      (s.conns 0).state = .kConnected ∧ .destroyed ∉ (s.conns 0).log ∧
      (s.conns 0).outputBuffer.readable = [2])) = true := by decide +kernel
  have hS : ((execTrace step oneLoop backlogRun []).all fun p =>
      decide (p.1.executed 0 p.2 ≠ some .shutdownSetState)) = true := by decide +kernel
  obtain ⟨s, hs, hb⟩ := (Option.any_eq_true _ _).mp h
  obtain ⟨hc, hstate, hlog, hout⟩ := of_decide_eq_true hb
  have hup : s.IsUp 0 := by
    have hstate : (s.ctx 0).conn.state = .kConnected := hstate
    exact ⟨by rw [hstate]; nofun, by rw [hstate]; nofun, hlog⟩
  exact ⟨s, hs, ⟨hup, hout⟩, interest_tracks_backlog (exec_run .start hs) 0 hc fun p hp hsh =>
    absurd hsh (of_decide_eq_true (List.all_eq_true.mp hS p hp))⟩

end Runs

end Process

end CuteMuduo
