/-
  File:      CuteMuduo/TcpServer/Callbacks.lean
  Subject:   THE CALLS TO USER CODE, over every run: UP once, then messages, then at most one DOWN,
             then nothing; and at most one call of `close_callback_` (`callback_protocol`).

  This is so as long as the handlers that do not test `state_` find nothing to do on a connection
  that is closed already (`HandledOpen`): `HandleEventWithGuard` may call up to four handlers for
  one mask, and goes on behind `HandleClose`. Where they do, DOWN is reported twice
  (`down_twice`).
-/
import CuteMuduo.TcpServer.State

namespace CuteMuduo

open Machine

/-! ## The shape of the calls -/

namespace ConnEvent

/-- A call of `connection_callback_` or `message_callback_`. -/
def isReport : ConnEvent → Bool
  | .connection _ | .message _ => true
  | _ => false

end ConnEvent

/-- The calls of `connection_callback_` and `message_callback_`. -/
def reports (log : List ConnEvent) : List ConnEvent := log.filter ConnEvent.isReport

/-- The calls of `close_callback_`. -/
def closes (log : List ConnEvent) : Nat := log.count .close

/-- UP, then messages. -/
def Up (es : List ConnEvent) : Prop :=
  ∃ ms, (∀ e ∈ ms, ∃ content, e = .message content) ∧ es = .connection true :: ms

/-- **The protocol**: nothing yet; UP and messages; or these, and a DOWN. -/
def Shape (es : List ConnEvent) : Prop :=
  es = [] ∨ Up es ∨ ∃ us, Up us ∧ es = us ++ [.connection false]

theorem up_message {es : List ConnEvent} (h : Up es) (content : List UInt8) :
    Up (es ++ [.message content]) := by
  obtain ⟨ms, hms, rfl⟩ := h
  refine ⟨ms ++ [.message content], fun e he => ?_, rfl⟩
  rcases List.mem_append.mp he with he | he
  · exact hms e he
  · exact ⟨content, List.mem_singleton.mp he⟩

/-- What has been reported, by the state, and by whether a call of `connection_callback_` comes
    next. -/
def Reported : StateE → Prop → List ConnEvent → Prop
  | .kConnecting, _, es => es = []
  | .kConnected, next, es => next ∧ es = [] ∨ ¬ next ∧ Up es
  | .kDisconnecting, next, es => ¬ next ∧ Up es
  | .kDisconnected, next, es => next ∧ Up es ∨ ¬ next ∧ ∃ us, Up us ∧ es = us ++ [.connection false]

theorem reported_iff {state : StateE} {next next' : Prop} {es : List ConnEvent}
    (h : next ↔ next') (hr : Reported state next es) : Reported state next' es := propext h ▸ hr

theorem shape_of_reported {state : StateE} {next : Prop} {es : List ConnEvent}
    (h : Reported state next es) : Shape es := by
  cases state with
  | kConnecting => exact Or.inl h
  | kConnected => exact h.elim (fun h => Or.inl h.2) fun h => Or.inr (Or.inl h.2)
  | kDisconnecting => exact Or.inr (Or.inl h.2)
  | kDisconnected => exact h.elim (fun h => Or.inr (Or.inl h.2)) fun h => Or.inr (Or.inr h.2)

/-- On a connection that is open, with no report to come next: UP and messages. -/
theorem up_of_reported {state : StateE} {next : Prop} {es : List ConnEvent}
    (h : Reported state next es) (hn : ¬ next) (h₁ : state ≠ .kConnecting)
    (h₂ : state ≠ .kDisconnected) : Up es := by
  cases state with
  | kConnecting => exact absurd rfl h₁
  | kConnected => exact h.elim (fun h => absurd h.1 hn) fun h => h.2
  | kDisconnecting => exact h.2
  | kDisconnected => exact absurd rfl h₂

namespace Ctx

variable {k k' : Ctx} {c : ConnId} {t : ThreadId} {own : Bool} {op : ConnOp} {o : Outcome}
  {is : List Instr}

/-- Only two functions report. -/
theorem exec_reports (ha : k.Agrees c) (h : k.exec c t own op o = some (k', is))
    (h₁ : op ≠ .connectionCallback) (h₂ : op ≠ .handleRead) :
    reports k'.conn.log = reports k.conn.log := by
  obtain ⟨es, hlog, hes⟩ := (exec_effect ha h).log
  have hno : es.filter ConnEvent.isReport = [] := by
    refine List.filter_eq_nil_iff.mpr fun e he hrep => ?_
    have hcb := hes e he
    cases e with
    | connection up => exact h₁ (ConnEvent.of_causedBy_connection hcb)
    | message content => exact h₂ (ConnEvent.of_causedBy_message hcb)
    | _ => cases hrep
  rw [reports, hlog, List.filter_append, hno, List.append_nil, reports]

/-- Only one function closes. -/
theorem exec_closes (ha : k.Agrees c) (h : k.exec c t own op o = some (k', is))
    (hop : op ≠ .closeCallback) : closes k'.conn.log = closes k.conn.log := by
  obtain ⟨es, hlog, hes⟩ := (exec_effect ha h).log
  have hno : es.count .close = 0 := by
    exact List.count_eq_zero.mpr fun he => hop (ConnEvent.of_causedBy_close (hes _ he))
  rw [closes, hlog, List.count_append, hno, Nat.add_zero, closes]

/-- `connection_callback_` reports what `state_` says: UP first, DOWN last. -/
theorem reported_connectionCallback (hk : k.conn.state ≠ .kConnecting)
    (hr : Reported k.conn.state True (reports k.conn.log)) :
    Reported k.conn.state False
      (reports (k.conn.log ++ [.connection k.isConnected])) := by
  rw [reports, List.filter_append]
  cases hs : k.conn.state with
  | kConnecting => exact absurd hs hk
  | kDisconnecting =>
      rw [hs] at hr
      exact absurd trivial hr.1
  | kConnected =>
      rw [hs] at hr
      have hnil : reports k.conn.log = [] := (hr.resolve_right fun h => h.1 trivial).2
      refine Or.inr ⟨id, [], fun _ he => absurd he List.not_mem_nil, ?_⟩
      rw [isConnected, hs, show k.conn.log.filter _ = [] from hnil]
      rfl
  | kDisconnected =>
      rw [hs] at hr
      have hup : Up (reports k.conn.log) := (hr.resolve_right fun h => h.1 trivial).2
      refine Or.inr ⟨id, _, hup, ?_⟩
      rw [isConnected, hs]
      rfl

/-- A message, on an open connection with its UP reported. -/
theorem reported_message {content : List UInt8} (hk : k.conn.state ≠ .kConnecting)
    (hs : k.conn.state ≠ .kDisconnected)
    (hr : Reported k.conn.state False (reports k.conn.log)) :
    Reported k.conn.state False (reports (k.conn.log ++ [.message content])) := by
  have hup := up_message (up_of_reported hr id hk hs) content
  rw [reports, List.filter_append]
  cases hs' : k.conn.state with
  | kConnecting => exact absurd hs' hk
  | kConnected => exact Or.inr ⟨id, hup⟩
  | kDisconnecting => exact ⟨id, hup⟩
  | kDisconnected => exact absurd hs' hs

/-- **A function of an established connection's keeps the reports in order**, if `Shutdown` and
    `ConnectDestroyed` find `kConnected` still, and nothing is handled on a closed connection. -/
theorem exec_reported (ha : k.Agrees c) (h : k.exec c t own op o = some (k', is))
    (hr : Reported k.conn.state (op = .connectionCallback) (reports k.conn.log))
    (hest : op ≠ .connectEstablished) (hk : k.conn.state ≠ .kConnecting)
    (hstores : op = .shutdownSetState ∨ op = .destroySetState → k.conn.state = .kConnected)
    (hclose : op = .handleClose → k.conn.state ≠ .kDisconnected)
    (hread : ∀ bytes, op = .handleRead → o = .read (.data bytes) → bytes ≠ [] →
      k.conn.state ≠ .kDisconnected) :
    Reported k'.conn.state (op = .destroySetState ∨ op = .handleClose) (reports k'.conn.log) := by
  have hstate := (exec_effect ha h).state
  by_cases hcb : op = .connectionCallback
  · subst hcb
    rw [hstate]
    cases h
    exact reported_iff (iff_of_false id (by nofun))
      (reported_connectionCallback hk (reported_iff (iff_of_true rfl trivial) hr))
  have hr' : Reported k.conn.state False (reports k.conn.log) :=
    reported_iff (iff_of_false hcb id) hr
  by_cases hrd : op = .handleRead
  · subst hrd
    rw [hstate]
    refine reported_iff (iff_of_false id (by nofun)) ?_
    cases o with
    | read r =>
        cases of_handleRead h with
        | eof => exact hr'
        | failed => exact hr'
        | message bytes hn hc =>
            exact reported_message hk (hread bytes rfl rfl (List.length_pos_iff.mp hn)) hr'
    | _ => cases h
  · rw [hstate, exec_reports ha h hcb hrd]
    cases op with
    | connectEstablished => exact absurd rfl hest
    | shutdownSetState =>
        have hup := up_of_reported hr' id hk (by rw [hstores (Or.inl rfl)]; nofun)
        exact ⟨by nofun, hup⟩
    | destroySetState =>
        have hup := up_of_reported hr' id hk (by rw [hstores (Or.inr rfl)]; nofun)
        exact Or.inl ⟨Or.inl rfl, hup⟩
    | handleClose => exact Or.inl ⟨Or.inr rfl, up_of_reported hr' id hk (hclose rfl)⟩
    | _ => exact reported_iff (iff_of_false id (by nofun)) hr'

end Ctx

namespace Process

variable {s s' : Process} {a : Label} {c : ConnId} {t : ThreadId}

/-! ## The invariant -/

/-- `readv` has returned bytes. -/
def readsBytes : Label → Bool
  | .run _ (.read (.data bytes)) => bytes ≠ []
  | _ => false

/-- **No `HandleClose`, and no `HandleRead` that reads bytes, on a connection that is
    `kDisconnected`.** -/
def HandledOpen (c : ConnId) (s : Process) (a : Label) : Prop :=
  (s.executed c a = some .handleClose → (s.conns c).state ≠ .kDisconnected) ∧
  (s.executed c a = some .handleRead → readsBytes a = true → (s.conns c).state ≠ .kDisconnected)

instance (c : ConnId) (s : Process) (a : Label) : Decidable (HandledOpen c s a) :=
  inferInstanceAs (Decidable (_ ∧ _))

/-- **The calls so far are in order**, and those that come next keep them so. -/
structure Protocol (s : Process) (c : ConnId) : Prop where
  reported : Reported (s.ctx c).conn.state (.connectionCallback ∈ s.trail c)
    (reports (s.ctx c).conn.log)
  stores : s.Stores c
  open' : (s.ctx c).conn.state ≠ .kDisconnected →
    closes (s.ctx c).conn.log = 0 ∧ .closeCallback ∉ s.trail c
  once : closes (s.ctx c).conn.log + (s.trail c).count .closeCallback ≤ 1

theorem protocol_of_untouched (h : s.Untouched c) : s.Protocol c := by
  have hno : ∀ {op}, op ∉ s.trail c := fun hm => by
    rw [h.trail] at hm
    exact absurd hm List.not_mem_nil
  refine ⟨?_, stores_of_untouched h, fun _ => ⟨?_, hno⟩, ?_⟩
  · rw [h.state, h.log]
    rfl
  · rw [h.log]
    rfl
  · rw [h.log, h.trail]
    exact Nat.zero_le 1

section Own

variable {o : Outcome} {op : ConnOp} {is : List Instr} {T : List ConnOp}

/-- `close_callback_` comes next at most once, and not at all on a connection that is open. -/
theorem once_own (hag : (s.ctx c).Agrees c) (h : s.Protocol c)
    (hclose : op = .handleClose → (s.ctx c).conn.state ≠ .kDisconnected)
    (he : (s.ctx c).exec c t true op o = some (s'.ctx c, is))
    (htr : s.trail c = (innerOp op).toList ++ T)
    (htr' : s'.trail c = leaves (s.ctx c).conn.state op ++ T ∨
      op = .handleWrite ∧ s'.trail c = .shutdownIfDisconnecting :: T) :
    closes (s'.ctx c).conn.log + (s'.trail c).count .closeCallback ≤ 1 := by
  by_cases hop : op = .closeCallback
  · subst hop
    have honce := h.once
    obtain ⟨d, hd, e⟩ := Option.map_eq_some_iff.mp he
    have hlog : (s'.ctx c).conn.log = (s.ctx c).conn.log ++ [.close] :=
      (congrArg (fun k => k.conn.log) (Prod.mk.inj e).1).symm
    rcases htr' with e | ⟨e, _⟩
    · rw [htr, show (innerOp .closeCallback).toList = [.closeCallback] from rfl,
        List.singleton_append, List.count_cons_self] at honce
      rw [hlog, e, closes, List.count_append]
      show _ + 1 + T.count _ ≤ 1
      rw [closes] at honce
      omega
    · cases e
  · rw [Ctx.exec_closes hag he hop]
    have hT : (s.trail c).count .closeCallback = T.count .closeCallback := by
      rw [htr, List.count_append, List.count_eq_zero_of_not_mem, Nat.zero_add]
      intro hm
      obtain ⟨_, e⟩ := Option.ite_none_right_eq_some.mp (Option.mem_toList.mp hm)
      exact hop (Option.some.inj e)
    have honce := h.once
    rw [hT] at honce
    rcases htr' with e | ⟨_, e⟩
    · rw [e, List.count_append]
      by_cases hcl : op = .handleClose
      · obtain ⟨hz, hno⟩ := h.open' (hclose hcl)
        rw [← List.count_eq_zero, hT] at hno
        rw [hz, hno, hcl]
        exact Nat.le_refl 1
      · rw [List.count_eq_zero_of_not_mem, Nat.zero_add]
        · exact honce
        · exact fun hm => hcl (ConnOp.of_leadsTo_closeCallback (leadsTo_of_mem_leaves hm))
    · rw [e]
      exact honce

/-- **`c`'s loop's thread executes a function of `c`'s.** -/
theorem protocol_own (hag : (s.ctx c).Agrees c) (h : s.Protocol c)
    (hclose : op = .handleClose → (s.ctx c).conn.state ≠ .kDisconnected)
    (hread : ∀ bytes, op = .handleRead → o = .read (.data bytes) → bytes ≠ [] →
      (s.ctx c).conn.state ≠ .kDisconnected)
    (hest : op ≠ .connectEstablished) (hk : (s.ctx c).conn.state ≠ .kConnecting)
    (he : (s.ctx c).exec c t true op o = some (s'.ctx c, is))
    (htr : s.trail c = (innerOp op).toList ++ T)
    (htr' : s'.trail c = leaves (s.ctx c).conn.state op ++ T ∨
      op = .handleWrite ∧ s'.trail c = .shutdownIfDisconnecting :: T)
    (hset : ∀ op' ∈ T, op'.settled = true) (hstores : s'.Stores c) : s'.Protocol c := by
  have hstate := (Ctx.exec_effect hag he).state
  have hhead : ∀ {op'}, op = op' → op'.inner = true → op' ∈ s.trail c := by
    rintro op' rfl hin
    rw [htr, innerOp, if_pos hin]
    exact List.mem_cons_self
  have hnext : .connectionCallback ∈ s.trail c ↔ op = .connectionCallback :=
    ⟨fun hm => (eq_of_mem_trail (htr ▸ hm) hset rfl).symm, fun e => hhead e rfl⟩
  have hnext' : op = .destroySetState ∨ op = .handleClose ↔ .connectionCallback ∈ s'.trail c := by
    refine ⟨?_, fun hm => ?_⟩
    · rintro (rfl | rfl)
      · exact mem_trail_of_leaves htr' (by decide) List.mem_cons_self
      · exact mem_trail_of_leaves htr' (by decide) List.mem_cons_self
    · rcases of_mem_trail hm htr' with hl | hm
      · cases op <;> first
          | (cases hl; done)
          | exact absurd rfl hest
          | exact Or.inl rfl
          | exact Or.inr rfl
      · exact absurd hm (not_mem_settled hset rfl)
  -- open behind the step, so open before it, and not closed by it
  have hback : (s'.ctx c).conn.state ≠ .kDisconnected →
      op ≠ .handleClose ∧ (s.ctx c).conn.state ≠ .kDisconnected := by
    rw [hstate]
    intro hs
    refine ⟨fun e => hs (e ▸ rfl), fun hd => hs ?_⟩
    rw [hd]
    refine ConnOp.nextState_kDisconnected hest fun e => ?_
    have hcon := h.stores (Or.inl (hhead e rfl))
    rw [hd] at hcon
    cases hcon
  refine ⟨reported_iff hnext' ?_, hstores, fun hs => ⟨?_, fun hm => ?_⟩,
    once_own hag h hclose he htr htr'⟩
  · exact Ctx.exec_reported hag he (reported_iff hnext h.reported) hest hk
      (fun e => h.stores (e.imp (hhead · rfl) (hhead · rfl))) hclose hread
  · obtain ⟨hne, hopen⟩ := hback hs
    obtain ⟨hz, hno⟩ := h.open' hopen
    rw [Ctx.exec_closes hag he fun e => hno (hhead e rfl)]
    exact hz
  · obtain ⟨hne, hopen⟩ := hback hs
    rcases of_mem_trail hm htr' with hl | hm
    · exact hne (ConnOp.of_leadsTo_closeCallback hl)
    · refine (h.open' hopen).2 ?_
      rw [htr]
      exact List.mem_append_right _ hm

end Own

/-- **Every step.** -/
theorem protocol_step (hi : Inv s) (hc : c < s.created) (h : s.Protocol c)
    (hS : ShutdownHere c s a) (hC : HandledOpen c s a) (hs : Step s a s') : s'.Protocol c := by
  have hag := hi.agrees c hc
  have hstores : s'.Stores c := stores_step hi hc h.stores hS hs
  cases turn_step hi hc hs with
  | idle hno r hctx htr =>
      refine ⟨?_, hstores, ?_, ?_⟩
      · rw [hctx, htr]
        exact h.reported
      · rw [hctx, htr]
        exact h.open'
      · rw [hctx, htr]
        exact h.once
  | establish o rest ha hst hun hk he htr' =>
      have hstate : (s'.ctx c).conn.state = .kConnected := (Ctx.exec_effect hag he).state
      have hlog : closes (s'.ctx c).conn.log = 0 := by
        rw [Ctx.exec_closes hag he (by nofun), hun.log]
        rfl
      have hno : ∀ {op'}, op' ∈ s'.trail c → op' = .connectionCallback := fun hm => by
        rw [htr'] at hm
        exact List.mem_singleton.mp hm
      refine ⟨?_, hstores, fun _ => ⟨hlog, fun hm => ?_⟩, ?_⟩
      · rw [hstate, Ctx.exec_reports hag he (by nofun) (by nofun), hun.log, htr']
        exact Or.inl ⟨List.mem_cons_self, rfl⟩
      · cases hno hm
      · rw [hlog, htr']
        exact Nat.zero_le 1
  | own o op rest is T ha hst hop hk he htr htr' hset =>
      have hex : s.executed c a = some op := ha ▸ executed_of_stack hst
      refine protocol_own hag h (fun e => hC.1 (e ▸ hex)) (fun bytes e ho hne => ?_) hop hk he htr
        htr' hset hstores
      subst ha ho
      exact hC.2 (e ▸ hex) (decide_eq_true hne)
  | foreign t o op rest is ha ht hst hany hk he htr =>
      -- not a `Shutdown` past its load: nothing changes that matters here
      have hne := ne_of_shutdownHere hS ha ht hst
      have hstate : (s'.ctx c).conn.state = (s.ctx c).conn.state := by
        rw [(Ctx.exec_effect hag he).state, ConnOp.nextState_of_anyThread hany hne]
      have hrep : reports (s'.ctx c).conn.log = reports (s.ctx c).conn.log :=
        Ctx.exec_reports hag he (ConnOp.ne_of_anyThread hany rfl) (ConnOp.ne_of_anyThread hany rfl)
      have hcl : closes (s'.ctx c).conn.log = closes (s.ctx c).conn.log :=
        Ctx.exec_closes hag he (ConnOp.ne_of_anyThread hany rfl)
      refine ⟨?_, hstores, ?_, ?_⟩
      · rw [hstate, hrep, htr]
        exact h.reported
      · rw [hstate, hcl, htr]
        exact h.open'
      · rw [hcl, htr]
        exact h.once

section Runs

variable {name : List Char} {addr : InetAddress} {numLoops : Nat} {writeComplete : Bool}
  {tr : List (Process × Label)}

/-- **The calls to user code are in order**, in every run in which `Shutdown` is called on the
    thread of the connection's loop and nothing is handled on a connection that is closed: UP
    once, then messages, then at most one DOWN, then nothing; and `close_callback_` is called at
    most once. -/
theorem callback_protocol (h : Run step (init name addr numLoops writeComplete) tr s) (c : ConnId)
    (hc : c < s.created) (hS : ∀ p ∈ tr, ShutdownHere c p.1 p.2)
    (hC : ∀ p ∈ tr, HandledOpen c p.1 p.2) :
    Shape (reports (s.conns c).log) ∧ closes (s.conns c).log ≤ 1 := by
  have hp : s.Protocol c := conn_run (I := (Protocol · c))
    (C := fun s a => ShutdownHere c s a ∧ HandledOpen c s a) c
    (fun _ _ => protocol_of_untouched)
    (fun _ _ _ hi hc h ha hs => protocol_step hi hc h ha.1 ha.2 hs) h
    (fun p hp => ⟨hS p hp, hC p hp⟩) hc
  exact ⟨shape_of_reported hp.reported, Nat.le_trans (Nat.le_add_right _ _) hp.once⟩

/-- The peer sends a byte, and hangs up. -/
def messageRun : List Label :=
  acceptRun ++ settleRun ++ [.poll 0 [(.conn 0, epollIn)], .dispatch 0, .run (.loop 0) .none,
    .run (.loop 0) (.read (.data [7])), .ret (.loop 0),
    .loop 0 .startFunctors, .loop 0 .swap, .loop 0 .finish, .loop 0 .test,
    .poll 0 [(.conn 0, epollHup)], .dispatch 0, .run (.loop 0) .none, .run (.loop 0) .none,
    .run (.loop 0) .none, .ret (.loop 0), .run (.loop 0) .none]

theorem callback_protocol_message : ∃ s, Machine.exec step oneLoop messageRun = some s ∧
    reports (s.conns 0).log = [.connection true, .message [7], .connection false] ∧
    Shape (reports (s.conns 0).log) ∧ closes (s.conns 0).log ≤ 1 := by
  have h : ((Machine.exec step oneLoop messageRun).any fun s => decide (0 < s.created ∧
      reports (s.conns 0).log = [.connection true, .message [7], .connection false])) = true := by
    decide +kernel
  have hC : ((execTrace step oneLoop messageRun []).all fun p =>
      decide (p.1.executed 0 p.2 ≠ some .shutdownSetState ∧ HandledOpen 0 p.1 p.2)) = true := by
    decide +kernel
  obtain ⟨s, hs, hb⟩ := (Option.any_eq_true _ _).mp h
  obtain ⟨hc, hrep⟩ := of_decide_eq_true hb
  have hC := fun p hp => of_decide_eq_true (List.all_eq_true.mp hC p hp)
  exact ⟨s, hs, hrep, callback_protocol (exec_run .start hs) 0 hc
    (fun p hp hsh => absurd hsh (hC p hp).1) fun p hp => (hC p hp).2⟩

/-- One dispatch with `EPOLLHUP | EPOLLPRI`: `HandleClose`, and, behind it, a `HandleRead` that
    finds the end of the stream. -/
def hangUpRun : List Label :=
  acceptRun ++ settleRun ++ [.poll 0 [(.conn 0, epollHup ||| epollPri)], .dispatch 0,
    .run (.loop 0) .none, .run (.loop 0) .none, .run (.loop 0) .none, .ret (.loop 0),
    .run (.loop 0) .none, .run (.loop 0) .none, .run (.loop 0) .none, .run (.loop 0) .none,
    .run (.loop 0) .none, .run (.loop 0) .none, .run (.loop 0) .none, .run (.loop 0) .none,
    .run (.loop 0) (.read (.data [])), .run (.loop 0) .none, .run (.loop 0) .none,
    .ret (.loop 0), .run (.loop 0) .none]

/-- **DOWN is reported twice, and `close_callback_` called twice.** -/
theorem down_twice : ¬ ∀ (tr : List (Process × Label)) (s : Process), Run step oneLoop tr s →
    ∀ c < s.created, (∀ p ∈ tr, ShutdownHere c p.1 p.2) →
      Shape (reports (s.conns c).log) ∧ closes (s.conns c).log ≤ 1 := by
  intro hall
  have h : ((Machine.exec step oneLoop hangUpRun).any fun s => decide (0 < s.created ∧
      reports (s.conns 0).log = [.connection true, .connection false, .connection false] ∧
      closes (s.conns 0).log = 2)) = true := by decide +kernel
  have hS : ((execTrace step oneLoop hangUpRun []).all fun p =>
      decide (p.1.executed 0 p.2 ≠ some .shutdownSetState)) = true := by decide +kernel
  obtain ⟨s, hs, hb⟩ := (Option.any_eq_true _ _).mp h
  obtain ⟨hc, _, htwo⟩ := of_decide_eq_true hb
  have hone := (hall _ s (exec_run .start hs) 0 hc fun p hp hsh =>
    absurd hsh (of_decide_eq_true (List.all_eq_true.mp hS p hp))).2
  rw [htwo] at hone
  exact absurd hone (by decide)

end Runs

end Process

end CuteMuduo
