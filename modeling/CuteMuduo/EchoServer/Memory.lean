/-
  File:      CuteMuduo/EchoServer/Memory.lean
  Subject:   A PEER CANNOT FILL THE ECHO SERVER'S INPUT, however much it sends and however slowly
             the callbacks run: between two callbacks there is nothing in `input_buffer_`, so what
             one `readv` brings is all it ever holds (`echo_input_bounded`).

  `RetrieveAllAsString` puts the indices back to the front; a `ReadFd` then finds the whole vector
  writable, and goes through `extrabuf` only while that is shorter than `extrabuf`.
-/
import CuteMuduo.EchoServer.Integrity
import CuteMuduo.TcpServer.Memory

namespace CuteMuduo

open Machine

/-- The prepend, one byte less than `extrabuf`, and `extrabuf`. -/
def kMaxInput : Nat := kCheapPrepend + (kExtraBuf - 1) + kExtraBuf

namespace Buffer

variable {b : Buffer} {data : List UInt8}

/-- **`Append` to a full vector** whose content begins right behind the prepend. -/
theorem length_append_full (hfull : b.writableBytes = 0) (hfront : b.readerIndex = kCheapPrepend) :
    (b.append data).buffer.length = b.buffer.length + data.length := by
  have hw := b.writer_le
  rw [length_append_eq, ensureWritableBytes]
  split
  · rename_i hlt
    unfold makeSpace
    split
    · show (resize _ _).length = _
      rw [length_resize]
      unfold writableBytes at hfull
      omega
    · rename_i hmove
      unfold prependableBytes at hmove
      omega
  · rename_i hno
    omega

/-- **`ReadFd` into an empty buffer** with its indices at the front. -/
theorem length_readFd_empty (hr : b.Rewound) (hempty : b.readable = [])
    (hc : data.length ≤ b.readCapacity) :
    (b.readFd data).buffer.length ≤ max b.buffer.length kMaxInput := by
  have hreader := hr hempty
  have hnone := b.readableBytes_eq_zero.mpr hempty
  have hle := b.reader_le
  have hw := b.writer_le
  unfold readFd
  split
  · rename_i hfit
    rw [length_push]
    exact Nat.le_max_left _ _
  · rename_i hmore
    have htake : (data.take b.writableBytes).length = b.writableBytes :=
      List.length_take_of_le (Nat.le_of_not_le hmore)
    have hlen := b.length_push (Nat.le_of_eq htake)
    have hfull : (b.push (data.take b.writableBytes) (Nat.le_of_eq htake)).writableBytes = 0 := by
      show (b.push _ _).buffer.length - (b.writerIndex + (data.take b.writableBytes).length) = 0
      rw [hlen, htake]
      unfold writableBytes
      omega
    rw [length_append_full hfull hreader, hlen, List.length_drop]
    unfold readCapacity at hc
    unfold readableBytes at hnone
    unfold writableBytes kMaxInput kCheapPrepend kExtraBuf at *
    split at hc <;> omega

end Buffer

/-- A step executes one connection's function at a time. -/
theorem Process.executed_unique {s : Process} {a : Process.Label} {c d : ConnId} {op op' : ConnOp}
    (h : s.executed c a = some op) (h' : s.executed d a = some op') : op = op' := by
  obtain ⟨t, o, rest, rfl, hst⟩ := of_executed h
  exact ((EchoServer.of_executed hst h').2).symm

namespace EchoServer

variable {e e' : EchoServer} {a : Process.Label} {c : ConnId} {t : ThreadId}

/-- `HandleRead` runs outside the callbacks. -/
theorem idle_of_handleRead {s : Process} {g g' : EchoStage} (h : Advance s t a g g')
    (hex : s.executed c a = some .handleRead) : g = .idle := by
  have hne : ∀ {d op}, s.executed d a = some op → op = .handleRead := fun h =>
    (Process.executed_unique hex h).symm
  cases h with
  | library | connection | message => rfl
  | retrieve d hno | send d msg hno =>
      rw [hno c] at hex
      cases hex
  | release hno | ret hno =>
      rw [hno c] at hex
      cases hex
  | retrieved d msg hd | accepted d msg hd | refused d msg hd | sent d msg hd => cases hne hd

/-- **The input buffer of connection `c`** is in bounds. -/
structure Bounded (e : EchoServer) (c : ConnId) : Prop where
  rewound : (e.process.conns c).inputBuffer.Rewound
  length : (e.process.conns c).inputBuffer.buffer.length ≤ kMaxInput

theorem length_create_le : (Buffer.create kInitialSize).buffer.length ≤ kMaxInput := by
  rw [Buffer.length_create]
  decide

theorem bounded_step {tr : List (Process × Process.Label)} (hi : Process.Inv e.process)
    (htame : e.Tame) (hecho : c < e.process.created → Echoing tr e c) (h : e.Bounded c)
    (hs : Step e a e') : e'.Bounded c := by
  have hkeep : ∀ {k : Ctx}, e'.process.conns c = k.conn →
      k.conn.inputBuffer = (e.process.conns c).inputBuffer → e'.Bounded c := fun hconn hbuf =>
    ⟨(hconn ▸ hbuf) ▸ h.rewound, (hconn ▸ hbuf) ▸ h.length⟩
  cases Process.conn_step (Process.of_step hs.process) c with
  | same hconn => exact ⟨hconn ▸ h.rewound, hconn ▸ h.length⟩
  | built hconn =>
      refine ⟨hconn ▸ Buffer.rewound_create kInitialSize, ?_⟩
      rw [hconn]
      exact length_create_le
  | exec t o op rest is k ha hst he hconn =>
      by_cases hread : op = .handleRead
      · subst hread ha
        have hc : c < e.process.created := (hi.stack t _ (Process.mem_stack hst)).1
        have hadv : Advance e.process t (.run t o) (e.stage t) (e'.stage t) :=
          advance_step hi.toWf htame hs
        have hhome : t = e.home c :=
          (hi.stack t _ (Process.mem_stack hst)).2.resolve_left Bool.false_ne_true
        have hempty : e.content c = [] := by
          rw [(hecho hc).unread, ← hhome,
            idle_of_handleRead hadv (Process.executed_of_stack hst)]
          rfl
        have hgrow : ∀ bytes : List UInt8,
            bytes.length ≤ (e.process.conns c).inputBuffer.readCapacity →
            (e'.process.conns c).inputBuffer = (e.process.conns c).inputBuffer.readFd bytes →
            e'.Bounded c := fun bytes hcap hbuf => by
          refine ⟨hbuf ▸ Buffer.rewound_readFd h.rewound, ?_⟩
          rw [hbuf]
          exact Nat.le_trans (Buffer.length_readFd_empty h.rewound hempty hcap)
            (Nat.max_le.mpr ⟨h.length, Nat.le_refl _⟩)
        cases o with
        | read r =>
            have he : (e.process.ctx c).handleRead c r = some (k, is) := he
            cases Ctx.of_handleRead he with
            | message bytes hn hcap => exact hgrow bytes hcap (by rw [hconn]; rfl)
            | eof => exact hgrow [] (Nat.zero_le _) (by rw [hconn]; rfl)
            | failed => exact hkeep hconn rfl
        | _ => cases he
      · by_cases hret : ∃ len, op = .retrieve len
        · obtain ⟨len, rfl⟩ := hret
          cases he
          refine ⟨hconn ▸ Buffer.rewound_retrieve _, ?_⟩
          rw [hconn]
          exact Nat.le_trans (Nat.le_of_eq (Buffer.length_retrieve _)) h.length
        · exact hkeep hconn (Ctx.exec_input he hread fun len e => hret ⟨len, e⟩)

section Runs

variable {name : List Char} {addr : InetAddress} {numLoops : Nat}
  {tr : List (EchoServer × Process.Label)}

theorem bounded_run (h : Run step (start name addr numLoops) tr e) (c : ConnId) :
    e.Bounded c := by
  induction h with
  | start => exact ⟨Buffer.rewound_create kInitialSize, length_create_le⟩
  | step tr e a e' h hs ih =>
      exact bounded_step (Process.inv_run (process_run h)) (tame_run h) (fun hc => echoing_run h hc)
        ih (of_step hs)

/-- **A peer cannot fill the input.** In every state of every run of the echo server, whatever is
    sent to it and however it is scheduled: the vector of each connection's `input_buffer_` has at
    most 131079 bytes; and outside a callback that has not yet taken its message there is nothing
    in it, and all behind the prepend is writable. -/
theorem echo_input_bounded (h : Run step (start name addr numLoops) tr e) (c : ConnId) :
    (e.process.conns c).inputBuffer.buffer.length ≤ 131079 ∧
    (c < e.process.created → (∀ m, e.stage (e.home c) ≠ .message m) →
      (∀ m msg, e.stage (e.home c) ≠ .retrieving m msg) → e.content c = [] ∧
        (e.process.conns c).inputBuffer.writableBytes =
          (e.process.conns c).inputBuffer.buffer.length - kCheapPrepend) := by
  have hb := bounded_run h c
  refine ⟨hb.length, fun hc hm hr => ?_⟩
  have hempty : e.content c = [] := by
    rw [(echoing_run h hc).unread]
    cases hg : e.stage (e.home c) with
    | message m => exact absurd hg (hm m)
    | retrieving m msg => exact absurd hg (hr m msg)
    | _ => rfl
  exact ⟨hempty, Buffer.writableBytes_of_empty hb.rewound hempty⟩

theorem echo_input_bounded_short : ∃ tr e, Run step small tr e ∧ 0 < e.process.created ∧
    (e.process.conns 0).inputBuffer.buffer.length ≤ 131079 ∧ e.content 0 = [] := by
  have h : ((Machine.exec step small echoRun).any fun e => decide (0 < e.process.created ∧
      e.stage (e.home 0) = .sent)) = true := by decide +kernel
  obtain ⟨e, he, hb⟩ := (Option.any_eq_true _ _).mp h
  obtain ⟨hc, hg⟩ := of_decide_eq_true hb
  have hrun := exec_run .start he
  have hbound := echo_input_bounded hrun 0
  exact ⟨_, e, hrun, hc, hbound.1,
    (hbound.2 hc (fun m => hg ▸ nofun) fun m msg => hg ▸ nofun).1⟩

end Runs

end EchoServer

end CuteMuduo
