/-
  File:      CuteMuduo/TcpServer/Registry.lean
  Subject:   THE SERVER'S REGISTRY, `connections_`, and the order of a connection's life, while the
             server is alive (`registry`):

  * names are in full, so that no two connections share one; an entry is never overwritten, and
    `erase` takes its own connection's;
  * `connections_` holds the connections `RemoveConnectionInLoop` has not run for;
  * of a connection's functions `ConnectEstablished` comes first, and once; `ConnectDestroyed` is
    executed where the entry is gone.
-/
import CuteMuduo.TcpServer.Confinement
import CuteMuduo.TcpServer.Frames
import CuteMuduo.TcpServer.State

namespace CuteMuduo

open Machine

/-! ## Names -/

/-- `ToIpPort()` is as long as `255.255.255.255:65535` at most. -/
theorem InetAddress.length_toIpPort (addr : InetAddress) : addr.toIpPort.length ≤ 21 := by
  have hbyte : ∀ x : UInt8, (Nat.toDigits 10 x.toNat).length ≤ 3 := fun x =>
    (Nat.length_toDigits_le_iff (by decide) (by decide)).mpr
      (Nat.lt_of_lt_of_le x.toNat_lt (by decide))
  have hport : (Nat.toDigits 10 addr.port.toNat).length ≤ 5 :=
    (Nat.length_toDigits_le_iff (by decide) (by decide)).mpr
      (Nat.lt_of_lt_of_le addr.port.toNat_lt (by decide))
  have ha := hbyte addr.a
  have hb := hbyte addr.b
  have hc := hbyte addr.c
  have hd := hbyte addr.d
  simp only [toIpPort, toIp, List.length_append, List.length_singleton]
  omega

namespace TcpServer

/-- The name of connection number `n` of a server, in full. -/
def fullName (name ipPort : List Char) (n : Nat) : List Char :=
  name ++ (['-'] ++ ipPort ++ ['#'] ++ Nat.toDigits 10 n)

/-- Numbers are read back from names. -/
theorem fullName_inj {name ipPort : List Char} {m n : Nat}
    (h : fullName name ipPort m = fullName name ipPort n) : m = n := by
  have hd : Nat.toDigits 10 m = Nat.toDigits 10 n :=
    List.append_cancel_left (List.append_cancel_left h)
  calc
    m = Nat.ofDigitChars 10 (Nat.toDigits 10 m) 0 := Nat.ofDigitChars_ten_toDigits.symm
    _ = Nat.ofDigitChars 10 (Nat.toDigits 10 n) 0 := by rw [hd]
    _ = n := Nat.ofDigitChars_ten_toDigits

/-- **`snprintf` truncates nothing**: the text fits into its 64 bytes. -/
theorem connName_eq {server : TcpServer} {addr : InetAddress} (hip : server.ipPort = addr.toIpPort)
    (hn : server.nextConnId < 2 ^ 31) :
    server.connName = fullName server.name addr.toIpPort server.nextConnId := by
  have hlen : (Nat.toDigits 10 server.nextConnId).length ≤ 10 :=
    (Nat.length_toDigits_le_iff (by decide) (by decide)).mpr (Nat.lt_of_lt_of_le hn (by decide))
  have hip' := addr.length_toIpPort
  unfold connName fullName
  rw [hip, List.take_of_length_le]
  simp only [List.length_append, List.length_singleton]
  omega

end TcpServer

namespace Process

variable {s s' s₁ : Process} {a : Label} {c : ConnId} {t : ThreadId} {o : Outcome} {i : Instr}
  {is rest : List Instr} {serverName : List Char} {addr : InetAddress}

/-- **Connections are numbered as they come**, from one, and named by their numbers. -/
structure Numbered (serverName : List Char) (addr : InetAddress) (s : Process) : Prop where
  server : s.server.name = serverName
  ipPort : s.server.ipPort = addr.toIpPort
  nextConnId : s.server.nextConnId = s.created + 1
  name : ∀ c < s.created, (s.conns c).name = TcpServer.fullName serverName addr.toIpPort (c + 1)

theorem numbered_exec (hw : Wf s) (hi : s.instrHome t i) (h : Numbered serverName addr s)
    (he : Exec s t o i s₁ is) : Numbered serverName addr s₁ := by
  have hg := (exec_stored hw.toStored hi he).2
  have hold : ∀ c < s.created,
      (s₁.conns c).name = TcpServer.fullName serverName addr.toIpPort (c + 1) :=
    fun c hc => (hg.same c hc).name.trans (h.name c hc)
  cases he with
  | create fd ho hlife hf hid =>
      refine ⟨h.server, h.ipPort, congrArg (· + 1) h.nextConnId, fun c hc => ?_⟩
      rcases Nat.lt_succ_iff_lt_or_eq.mp hc with hc | rfl
      · exact hold c hc
      · have hname : ((s.newConnection fd).1.conns s.created).name = s.server.connName :=
          congrArg (fun k => k.conn.name) (ctx_newConnection_self hw.toStored hf)
        rw [hname, TcpServer.connName_eq h.ipPort hid, h.server, h.nextConnId]
  | _ => exact ⟨h.server, h.ipPort, h.nextConnId, hold⟩

theorem numbered_step (hw : Wf s) (h : Numbered serverName addr s) (hs : Step s a s') :
    Numbered serverName addr s' := by
  cases hs with
  | run t o i rest s₁ is hst he =>
      obtain ⟨h₁, h₂, h₃, h₄⟩ :=
        numbered_exec hw (hw.stack t i (mem_stack hst)) h he
      exact ⟨h₁, h₂, h₃, h₄⟩
  | user t v s₁ is hu hcall =>
      obtain ⟨h₁, h₂, h₃, h₄⟩ := h
      cases hcall <;> exact ⟨h₁, h₂, h₃, h₄⟩
  | _ =>
      obtain ⟨h₁, h₂, h₃, h₄⟩ := h
      exact ⟨h₁, h₂, h₃, h₄⟩

/-- No two connections share a name. -/
theorem Numbered.inj (h : Numbered serverName addr s) {c d : ConnId} (hc : c < s.created)
    (hd : d < s.created) (e : (s.conns c).name = (s.conns d).name) : c = d := by
  rw [h.name c hc, h.name d hd] at e
  exact Nat.succ.inj (TcpServer.fullName_inj e)

/-- The name of the next connection is new. -/
theorem Numbered.fresh (h : Numbered serverName addr s) (hn : s.server.nextConnId < 2 ^ 31)
    (hc : c < s.created) : (s.conns c).name ≠ s.server.connName := by
  rw [h.name c hc, TcpServer.connName_eq h.ipPort hn, h.server, h.nextConnId]
  intro e
  exact Nat.ne_of_lt hc (Nat.succ.inj (TcpServer.fullName_inj e))

/-! ## While the server is alive -/

/-- **What the registry holds while the server is alive.** -/
structure Kept (s : Process) : Prop where
  keys : (s.server.connections.map Prod.fst).Nodup
  entries : ∀ e, e ∈ s.server.connections ↔
    ∃ c < s.created, c ∉ s.removed ∧ e = ((s.conns c).name, some c)
  removed : ∀ c ∈ s.removed, c < s.created
  destroyed : ∀ c, s.InFlight (.conn c .connectDestroyed) → c ∈ s.removed

/-- `insert` under a new name. -/
theorem nodup_insert {m : List (List Char × Option ConnId)} {n : List Char}
    (h : (m.map Prod.fst).Nodup) : ((TcpServer.insert m n c).map Prod.fst).Nodup := by
  rw [TcpServer.insert, List.map_cons, List.nodup_cons]
  refine ⟨fun hm => ?_, h.sublist (List.filter_sublist.map Prod.fst)⟩
  obtain ⟨e, he, hn⟩ := List.mem_map.mp hm
  exact of_decide_eq_true (List.mem_filter.mp he).2 hn

/-- **An instruction keeps the registry's entries**: those of the connections not removed. -/
theorem kept_exec (hw : Wf s) (hnum : Numbered serverName addr s) (hcl : s.Closing)
    (h : s.Kept) (hlive : s.server.life = .live) (hst : s.stack t = i :: rest)
    (he : Exec s t o i s₁ is) :
    (s₁.server.connections.map Prod.fst).Nodup ∧
    (∀ e, e ∈ s₁.server.connections ↔
      ∃ c < s₁.created, c ∉ s₁.removed ∧ e = ((s₁.conns c).name, some c)) ∧
    ∀ c ∈ s₁.removed, c < s₁.created := by
  have hi := hw.stack t i (mem_stack hst)
  have hg := (exec_stored hw.toStored hi he).2
  have hname : ∀ c < s.created, (s₁.conns c).name = (s.conns c).name :=
    fun c hc => (hg.same c hc).name
  have hno : i.destroys = true → False := fun hd =>
    hcl t i (mem_stack hst) hd hlive
  cases he with
  | conn d op k is he =>
      refine ⟨h.keys, fun e => (h.entries e).trans ?_, h.removed⟩
      refine exists_congr fun c => and_congr_right fun hc => and_congr_right fun _ => ?_
      rw [hname c hc]
  | create fd ho hlife hf hid =>
      have hnew : ((s.newConnection fd).1.conns s.created).name = s.server.connName :=
        congrArg (fun k => k.conn.name) (ctx_newConnection_self hw.toStored hf)
      refine ⟨nodup_insert h.keys, fun e => ⟨fun hm => ?_, ?_⟩,
        fun c hc => Nat.lt_succ_of_lt (h.removed c hc)⟩
      · rcases List.mem_cons.mp hm with rfl | hm
        · exact ⟨s.created, Nat.lt_succ_self _, fun hr => Nat.lt_irrefl _ (h.removed _ hr),
            by rw [hnew]⟩
        · obtain ⟨c, hc, hr, rfl⟩ := (h.entries e).mp (List.mem_of_mem_filter hm)
          exact ⟨c, Nat.lt_succ_of_lt hc, hr, by rw [hname c hc]⟩
      · rintro ⟨c, hc, hr, rfl⟩
        rcases Nat.lt_succ_iff_lt_or_eq.mp hc with hc | rfl
        · rw [hname c hc]
          exact List.mem_cons_of_mem _ (List.mem_filter.mpr ⟨(h.entries _).mpr ⟨c, hc, hr, rfl⟩,
            decide_eq_true (hnum.fresh hid hc)⟩)
        · rw [hnew]
          exact List.mem_cons_self
  | remove d hlife =>
      refine ⟨h.keys.sublist (List.filter_sublist.map Prod.fst), fun e => ⟨fun hm => ?_, ?_⟩,
        fun c hc => ?_⟩
      · obtain ⟨hm, hne⟩ := List.mem_filter.mp hm
        obtain ⟨c, hc, hr, rfl⟩ := (h.entries e).mp hm
        refine ⟨c, hc, fun hmem => ?_, rfl⟩
        rcases List.mem_append.mp hmem with hmem | hmem
        · exact hr hmem
        · rw [List.mem_singleton.mp hmem] at hne
          exact of_decide_eq_true hne rfl
      · rintro ⟨c, hc, hr, rfl⟩
        refine List.mem_filter.mpr ⟨(h.entries _).mpr
          ⟨c, hc, fun hm => hr (List.mem_append_left _ hm), rfl⟩, decide_eq_true fun e => ?_⟩
        exact hr (List.mem_append_right _ (List.mem_singleton.mpr (hnum.inj hc hi.1 e)))
      · rcases List.mem_append.mp hc with hc | hc
        · exact h.removed c hc
        · rw [List.mem_singleton.mp hc]
          exact hi.1
  | entry d ho hd => exact (hno rfl).elim
  | lastEntry ho hn => exact (hno rfl).elim
  | destroyAcceptor p q hp hq => exact (hno rfl).elim
  | _ => exact ⟨h.keys, h.entries, h.removed⟩

theorem kept_step (hw : Wf s) (hnum : Numbered serverName addr s) (hcl : s.Closing) (h : s.Kept)
    (hlive : s.server.life = .live) (hs : Step s a s') : s'.Kept := by
  have hdes : ∀ c, s'.InFlight (.conn c .connectDestroyed) → c ∈ s.removed ∨
      ∃ t o rest, a = .run t o ∧ s.stack t = .removeConnectionInLoop c :: rest := by
    intro c hf
    rcases inFlight_step hs hf with hf | hm
    · exact Or.inl (h.destroyed c hf)
    · cases hm with
      | run t o i rest _ hst hm =>
          cases hm with
          | conn d op j _ hj hc =>
              cases hj with
              | conn op' hop =>
                  cases hc
                  cases op <;> cases hop
              | _ => cases hc
          | handler d op hop => cases hop
          | remove => exact Or.inr ⟨t, o, rest, rfl, hst⟩
          | entry =>
              exact absurd hlive (hcl t .destroyEntries (mem_stack hst) rfl)
      | user t v _ hm => cases hm
  cases hs with
  | run t o i rest s₁ is hst he =>
      obtain ⟨h₁, h₂, h₃⟩ := kept_exec hw hnum hcl h hlive hst he
      refine ⟨h₁, h₂, h₃, fun c hf => ?_⟩
      have hgrow : c ∈ s.removed → c ∈ s₁.removed := by
        cases he with
        | remove d hlife => exact fun h => List.mem_append_left _ h
        | _ => exact id
      rcases hdes c hf with hr | ⟨t', o', rest', e, hst'⟩
      · exact hgrow hr
      · cases e
        rw [hst] at hst'
        cases hst'
        cases he with
        | remove d hlife => exact List.mem_append_right _ (List.mem_singleton.mpr rfl)
        | quiet _ _ hq => cases hq
        | loop _ l b l' _ hi => cases hi
  | user t v s₁ is hu hcall =>
      have hold : ∀ c, InFlight (s₁.setStack t (is ++ s.stack t)) (.conn c .connectDestroyed) →
          c ∈ s.removed := by
        intro c hf
        refine (hdes c hf).resolve_right ?_
        rintro ⟨_, _, _, e, _⟩
        cases e
      cases hcall <;> exact ⟨h.keys, h.entries, h.removed, hold⟩
  | _ =>
      exact ⟨h.keys, h.entries, h.removed,
        fun c hf => (hdes c hf).resolve_right (by rintro ⟨_, _, _, e, _⟩; cases e)⟩

/-! ## The order of a connection's life -/

/-- The functions of `c`'s that a run executed, in order. -/
def calls (c : ConnId) (tr : List (Process × Label)) : List ConnOp :=
  tr.reverse.filterMap fun p => p.1.executed c p.2

theorem calls_cons (c : ConnId) (s : Process) (a : Label) (tr : List (Process × Label)) :
    calls c ((s, a) :: tr) = calls c tr ++ (s.executed c a).toList :=
  filterMap_reverse_cons _ _ _

/-- What is executed was under way. -/
theorem inFlight_of_executed {op : ConnOp} (h : s.executed c a = some op) :
    s.InFlight (.conn c op) := by
  obtain ⟨t, o, rest, rfl, hst⟩ := of_executed h
  exact Or.inl ⟨t, .conn c op, mem_stack hst, rfl⟩

section Runs

variable {name : List Char} {numLoops : Nat} {writeComplete : Bool} {tr : List (Process × Label)}

/-- **`ConnectEstablished` comes first and once.** -/
theorem established_first (h : Run step (init name addr numLoops writeComplete) tr s) (c : ConnId) :
    (c < s.created ∧ (s.conns c).state ≠ .kConnecting ∧
      ∃ ops, calls c tr = .connectEstablished :: ops ∧ .connectEstablished ∉ ops) ∨
    ((c < s.created → (s.conns c).state = .kConnecting) ∧ calls c tr = []) := by
  induction h with
  | start => exact Or.inr ⟨fun hc => absurd hc (Nat.not_lt_zero c), rfl⟩
  | step tr s a s' h hs ih =>
      have hi := inv_run h
      have hs := of_step hs
      rw [calls_cons]
      by_cases hc : c < s.created
      · have hc' := Nat.lt_of_lt_of_le hc (wf_step hi.toWf hs).2.created
        rcases state_step hi hc hs with ⟨hno, hstate⟩ | ⟨op, hex, hstate, hest⟩
        · rw [hno, hstate]
          rcases ih with ⟨_, hne, ops, hops, hnot⟩ | ⟨hk, hnil⟩
          · exact Or.inl ⟨hc', hne, ops, by rw [hops]; exact List.append_nil _, hnot⟩
          · exact Or.inr ⟨fun _ => hk hc, by rw [hnil]; rfl⟩
        · left
          rw [hex, hstate]
          rcases ih with ⟨_, hne, ops, hops, hnot⟩ | ⟨hk, hnil⟩
          · have hop : op ≠ .connectEstablished := fun e => hne (hest.mp e)
            refine ⟨hc', ConnOp.nextState_ne_kConnecting hne, ops ++ [op], by rw [hops]; rfl,
              fun hm => ?_⟩
            rcases List.mem_append.mp hm with hm | hm
            · exact hnot hm
            · exact hop (List.mem_singleton.mp hm).symm
          · rw [hest.mpr (hk hc), hnil]
            exact ⟨hc', nofun, [], rfl, List.not_mem_nil⟩
      · rw [executed_of_le hi.toWf (Nat.le_of_not_lt hc)]
        right
        refine ⟨fun hc' => ?_, ?_⟩
        · exact ((created_step hi.toWf hs hc').resolve_left hc).2.state
        · rcases ih with ⟨hlt, _⟩ | ⟨_, hnil⟩
          · exact absurd hlt hc
          · rw [hnil]
            rfl

/-- **The registry of a server that is alive.** -/
structure Registered (name : List Char) (addr : InetAddress) (s : Process) : Prop where
  /-- Names are in full. -/
  full : ∀ c < s.created, (s.conns c).name = TcpServer.fullName name addr.toIpPort (c + 1)
  distinct : ∀ c < s.created, ∀ d < s.created, (s.conns c).name = (s.conns d).name → c = d
  keys : (s.server.connections.map Prod.fst).Nodup
  entries : ∀ e, e ∈ s.server.connections ↔
    ∃ c < s.created, c ∉ s.removed ∧ e = ((s.conns c).name, some c)
  /-- `connections_[name] = conn_ptr` overwrites nothing. -/
  insert : s.server.nextConnId < 2 ^ 31 → ∀ e ∈ s.server.connections, e.1 ≠ s.server.connName
  erase : ∀ c < s.created, ∀ e ∈ s.server.connections,
    e ∉ TcpServer.erase s.server.connections (s.conns c).name → e = ((s.conns c).name, some c)

/-- **The order of a connection's life**, in a run of a server that is alive. -/
structure Ordered (c : ConnId) (tr : List (Process × Label)) : Prop where
  first : calls c tr = [] ∨
    ∃ ops, calls c tr = .connectEstablished :: ops ∧ .connectEstablished ∉ ops
  own : ∀ p ∈ tr, p.1.executed c p.2 = some .connectEstablished →
    p.2.thread = .loop (p.1.conns c).loop
  destroyed : ∀ p ∈ tr, p.1.executed c p.2 = some .connectDestroyed →
    c ∈ p.1.removed ∧ ∀ e ∈ p.1.server.connections, e.2 ≠ some c

theorem numbered_run (h : Run step (init name addr numLoops writeComplete) tr s) :
    Numbered name addr s := by
  induction h with
  | start => exact ⟨rfl, rfl, rfl, fun c hc => absurd hc (Nat.not_lt_zero c)⟩
  | step tr s a s' h hs ih => exact numbered_step (wf_run h) ih (of_step hs)

theorem kept_run (h : Run step (init name addr numLoops writeComplete) tr s)
    (hlive : s.server.life = .live) : s.Kept := by
  induction h with
  | start =>
      refine ⟨List.nodup_nil, fun e => ⟨fun he => absurd he List.not_mem_nil, ?_⟩,
        fun c hc => absurd hc List.not_mem_nil, fun c hf => ?_⟩
      · rintro ⟨c, hc, _⟩
        exact absurd hc (Nat.not_lt_zero c)
      · rcases hf with ⟨t, i, hi, _⟩ | ⟨l, hl⟩
        · exact absurd hi List.not_mem_nil
        · exact absurd hl List.not_mem_nil
  | step tr s a s' h hs ih =>
      have hold := live_of_live (of_step hs) hlive
      exact kept_step (wf_run h) (numbered_run h) (closing_run h) (ih hold) hold (of_step hs)

/-- **The server's registry and the order of its connections' lives.** While the server is alive,
    names are in full and distinct, `connections_` holds the connections `RemoveConnectionInLoop`
    has not run for under their names, nothing is overwritten, and `erase` takes its own
    connection's entry only; of every connection's functions `ConnectEstablished` comes first and
    once, on its own loop, and `ConnectDestroyed` finds its entry gone. -/
theorem registry (h : Run step (init name addr numLoops writeComplete) tr s)
    (hlive : s.server.life = .live) : Registered name addr s ∧ ∀ c, Ordered c tr := by
  have hnum := numbered_run h
  have hk := kept_run h hlive
  refine ⟨⟨hnum.name, fun c hc d hd => hnum.inj hc hd, hk.keys, hk.entries, fun hn e he => ?_,
    fun c hc e he hne => ?_⟩, fun c => ⟨?_, fun p hp hex => ?_, fun p hp hex => ?_⟩⟩
  · obtain ⟨c, hc, _, rfl⟩ := (hk.entries e).mp he
    exact hnum.fresh hn hc
  · obtain ⟨d, hd, _, rfl⟩ := (hk.entries e).mp he
    have hname : (s.conns d).name = (s.conns c).name := by
      by_contra hn
      exact hne (List.mem_filter.mpr ⟨he, decide_eq_true hn⟩)
    rw [hnum.inj hd hc hname]
  · rcases established_first h c with ⟨_, _, hops⟩ | ⟨_, hnil⟩
    · exact Or.inr hops
    · exact Or.inl hnil
  · obtain ⟨tr₁, _, _, h₁, _⟩ := h.split hp
    exact executed_thread (wf_run h₁) hex rfl
  · obtain ⟨tr₁, _, _, h₁, _⟩ := h.split hp
    have hk₁ := kept_run h₁ (live_run h hlive p hp)
    have hr := hk₁.destroyed c (inFlight_of_executed hex)
    refine ⟨hr, fun e he hce => ?_⟩
    obtain ⟨d, _, hd, rfl⟩ := (hk₁.entries e).mp he
    cases hce
    exact hd hr

/-- The connection callback returns, the peer hangs up, and the base loop runs
    `ConnectDestroyed`. -/
def peerClosesRun : List Label :=
  acceptRun ++ settleRun ++ [.poll 0 [(.conn 0, epollHup)], .dispatch 0] ++
    List.replicate 3 (.run (.loop 0) .none) ++ [.ret (.loop 0)] ++
    List.replicate 8 (.run (.loop 0) .none) ++ [.loop 0 .startFunctors, .loop 0 .swap,
      .loop 0 (.next (.loop 0)), .run (.loop 0) .none]

theorem registry_hangUp : ∃ tr s, Run step oneLoop tr s ∧ s.server.life = .live ∧
    calls 0 tr = [.connectEstablished, .connectionCallback, .handleClose, .connectionCallback,
      .closeCallback, .connectDestroyed] ∧
    Registered ['s'] ⟨127, 0, 0, 1, 80⟩ s ∧ ∀ c, Ordered c tr := by
  have h : ((Machine.exec step oneLoop peerClosesRun).any fun s =>
      decide (s.server.life = .live)) = true := by decide +kernel
  have hcalls : calls 0 (execTrace step oneLoop peerClosesRun []) = [.connectEstablished,
      .connectionCallback, .handleClose, .connectionCallback, .closeCallback,
      .connectDestroyed] := by decide +kernel
  obtain ⟨s, hs, hb⟩ := (Option.any_eq_true _ _).mp h
  have hlive := of_decide_eq_true hb
  exact ⟨_, s, exec_run .start hs, hlive, hcalls, registry (exec_run .start hs) hlive⟩

end Runs

end Process

end CuteMuduo
