/-
  File:      CuteMuduo/TcpServer/Memory.lean
  Subject:   THE MEMORY OF A CONNECTION, over every run of the program: its two buffers are used as
             buffers are (`Buffer.use`), so they take no more than twice what they have held at
             once (`buffers_bounded`).
-/
import CuteMuduo.Buffer.Growth
import CuteMuduo.TcpServer.Established

namespace CuteMuduo

open Machine

/-- What becomes of a buffer in a step: nothing, or it is used once, for no more than it holds
    before or behind. -/
inductive Buffer.Used (b : Buffer) : Buffer → Prop where
  | unused : Used b b
  | once (u : BufferUse) (b' : Buffer) (h : b.use u = some b')
      (hd : b.demand u ≤ max b.readableBytes b'.readableBytes) : Used b b'

namespace Buffer

theorem used_retrieve (b : Buffer) (len : Nat) : b.Used (b.retrieve len) :=
  .once (.call (.retrieve len)) _ rfl (Nat.le_max_left _ _)

theorem used_append (b : Buffer) (data : List UInt8) : b.Used (b.append data) := by
  refine .once (.call (.append data)) _ rfl (Nat.le_trans (Nat.le_of_eq ?_) (Nat.le_max_right _ _))
  rw [← length_readable (b.append data), readable_append, List.length_append, length_readable]
  rfl

theorem used_readFd (b : Buffer) (data : List UInt8) (h : data.length ≤ b.readCapacity) :
    b.Used (b.readFd data) := by
  refine .once (.readFd data) _ (if_pos h) (Nat.le_trans (Nat.le_of_eq ?_) (Nat.le_max_right _ _))
  rw [← length_readable (b.readFd data), readable_readFd, List.length_append, length_readable]
  rfl

end Buffer

namespace Ctx

variable {k k' : Ctx} {c : ConnId} {t : ThreadId} {own : Bool} {op : ConnOp} {o : Outcome}
  {is : List Instr}

/-- **A function of a connection's uses each of its buffers** once, or not at all. -/
theorem exec_used (h : k.exec c t own op o = some (k', is)) :
    k.conn.inputBuffer.Used k'.conn.inputBuffer ∧
      k.conn.outputBuffer.Used k'.conn.outputBuffer := by
  have hout : (∀ u msg, op ≠ .sendInLoop u msg) → op ≠ .handleWrite →
      k.conn.outputBuffer.Used k'.conn.outputBuffer := fun hs hw => by
    rw [exec_output h hs hw]
    exact .unused
  have hin : op ≠ .handleRead → (∀ len, op ≠ .retrieve len) →
      k.conn.inputBuffer.Used k'.conn.inputBuffer := fun hr hret => by
    rw [exec_input h hr hret]
    exact .unused
  cases op with
  | handleRead =>
      refine ⟨?_, hout nofun nofun⟩
      cases o with
      | read r =>
          cases of_handleRead h with
          | message bytes hn hc => exact Buffer.used_readFd _ bytes hc
          | eof => exact Buffer.used_readFd _ [] (Nat.zero_le _)
          | failed => exact .unused
      | _ => cases h
  | retrieve len =>
      refine ⟨?_, hout nofun nofun⟩
      cases h
      exact Buffer.used_retrieve _ _
  | sendInLoop u msg =>
      refine ⟨hin nofun nofun, ?_⟩
      cases o with
      | write r =>
          cases of_sendInLoop h with
          | rest _ _ _ _ _ _ _ h | buffered _ _ _ _ _ h =>
              rw [(of_appendOutput h).1]
              exact Buffer.used_append _ _
          | _ => exact .unused
      | _ => cases h
  | handleWrite =>
      refine ⟨hin nofun nofun, ?_⟩
      cases o with
      | write r =>
          cases of_handleWrite h with
          | short | drained => exact Buffer.used_retrieve _ _
          | _ => exact .unused
      | _ => cases h
  | _ => exact ⟨hin nofun nofun, hout nofun nofun⟩

end Ctx

namespace Process

variable {s s' s₁ : Process} {a : Label} {c : ConnId} {t : ThreadId} {o : Outcome} {i : Instr}
  {is : List Instr}

/-- **What becomes of connection `c` in a step**, whether it has been built or not. -/
inductive ConnStep (s : Process) (a : Label) (s' : Process) (c : ConnId) : Prop where
  | same (h : s'.conns c = s.conns c) : ConnStep s a s' c
  | exec (t : ThreadId) (o : Outcome) (op : ConnOp) (rest is : List Instr) (k : Ctx)
      (ha : a = .run t o) (hst : s.stack t = .conn c op :: rest)
      (he : (s.ctx c).exec c t (s.isInLoopThread (s.conns c).loop t) op o = some (k, is))
      (h : s'.conns c = k.conn) : ConnStep s a s' c
  | built (h : s'.conns c = s.freshConn) : ConnStep s a s' c

theorem conn_step (hs : Step s a s') (c : ConnId) : ConnStep s a s' c := by
  cases hs with
  | run t o i rest s₁ is hst he =>
      cases he with
      | conn d op k is h =>
          by_cases e : c = d
          · subst e
            exact .exec t o op rest is k rfl hst h (Function.update_self _ _ _)
          · exact .same (Function.update_of_ne e _ _)
      | create fd =>
          by_cases e : c = s.created
          · subst e
            exact .built (Function.update_self _ _ _)
          · exact .same (Function.update_of_ne e _ _)
      | _ => exact .same rfl
  | user t v s₁ is hu hcall => cases hcall <;> exact .same rfl
  | _ => exact .same rfl

section Runs

variable {name : List Char} {addr : InetAddress} {numLoops : Nat} {writeComplete : Bool}
  {tr : List (Process × Label)}

/-- **A buffer of a connection's is a buffer in use**: a run of its own, for no more than it
    held. -/
theorem buffer_run (f : TcpConnection → Buffer) {peak : Nat}
    (hf : ∀ {k k' : Ctx} {t own op o is}, k.exec c t own op o = some (k', is) →
      (f k.conn).Used (f k'.conn))
    (h0 : ∀ {l name}, f (.create l name) = .create kInitialSize)
    (hnew : ∀ {s : Process}, f s.freshConn = .create kInitialSize)
    (h : Run step (init name addr numLoops writeComplete) tr s)
    (hpeak : (∀ p ∈ tr, (f (p.1.conns c)).readableBytes ≤ peak) ∧
      (f (s.conns c)).readableBytes ≤ peak) :
    ∃ tr', Run Buffer.use (.create kInitialSize) tr' (f (s.conns c)) ∧
      ∀ p ∈ tr', p.1.demand p.2 ≤ peak := by
  have hnone : ∀ p ∈ ([] : List (Buffer × BufferUse)), p.1.demand p.2 ≤ peak :=
    fun p hp => absurd hp List.not_mem_nil
  induction h with
  | start => exact ⟨[], h0 ▸ .start, hnone⟩
  | step tr s a s' h hs ih =>
      have hold := hpeak.1 _ List.mem_cons_self
      obtain ⟨tr', hrun, hall⟩ := ih ⟨fun p hp => hpeak.1 p (List.mem_cons_of_mem _ hp), hold⟩
      cases conn_step (of_step hs) c with
      | same e => exact ⟨tr', e ▸ hrun, hall⟩
      | built e => exact ⟨[], e ▸ hnew ▸ .start, hnone⟩
      | exec t o op rest is k ha hst he e =>
          have hused := hf he
          have hnext := hpeak.2
          rw [e] at hnext ⊢
          generalize f k.conn = b' at hused hnext
          cases hused with
          | unused => exact ⟨tr', hrun, hall⟩
          | once u _ hu hd =>
              refine ⟨_, .step _ _ u _ hrun hu, fun p hp => ?_⟩
              rcases List.mem_cons.mp hp with rfl | hp
              · exact Nat.le_trans hd (Nat.max_le.mpr ⟨hold, hnext⟩)
              · exact hall p hp

/-- **The memory of a connection.** Over every run, where a connection's buffers never held more
    than `peakIn` and `peakOut` bytes, their vectors are never larger than twice that, and seven,
    or than they were built. -/
theorem buffers_bounded (h : Run step (init name addr numLoops writeComplete) tr s) (c : ConnId)
    {peakIn peakOut : Nat}
    (hin : (∀ p ∈ tr, (p.1.conns c).inputBuffer.readableBytes ≤ peakIn) ∧
      (s.conns c).inputBuffer.readableBytes ≤ peakIn)
    (hout : (∀ p ∈ tr, (p.1.conns c).outputBuffer.readableBytes ≤ peakOut) ∧
      (s.conns c).outputBuffer.readableBytes ≤ peakOut) :
    (s.conns c).inputBuffer.buffer.length ≤ max 1032 (2 * peakIn + 7) ∧
      (s.conns c).outputBuffer.buffer.length ≤ max 1032 (2 * peakOut + 7) := by
  obtain ⟨_, hi, hdi⟩ := buffer_run TcpConnection.inputBuffer (fun he => (Ctx.exec_used he).1)
    rfl rfl h hin
  obtain ⟨_, ho, hdo⟩ := buffer_run TcpConnection.outputBuffer (fun he => (Ctx.exec_used he).2)
    rfl rfl h hout
  exact ⟨(Buffer.grown_run hi hdi).2.1, (Buffer.grown_run ho hdo).2.1⟩

/-- A connection is accepted, and 1100 bytes arrive on it at once. -/
def fillRun : List Label := List.flatten
  [acceptRun, settleRun, [.poll 0 [(.conn 0, epollIn)], .dispatch 0, .run (.loop 0) .none,
    .run (.loop 0) (.read (.data (List.replicate 1100 65)))]]

theorem buffers_bounded_fill : ∃ tr s, Run step oneLoop tr s ∧
    (s.conns 0).inputBuffer.buffer.length = 1108 ∧
    (s.conns 0).inputBuffer.buffer.length ≤ max 1032 (2 * 1100 + 7) := by
  have h : ((Machine.exec step oneLoop fillRun).any fun s => decide (
      (s.conns 0).inputBuffer.buffer.length = 1108 ∧
      (s.conns 0).inputBuffer.readableBytes ≤ 1100 ∧
      (s.conns 0).outputBuffer.readableBytes ≤ 0)) = true := by decide +kernel
  have htr : ∀ p ∈ execTrace step oneLoop fillRun [],
      (p.1.conns 0).inputBuffer.readableBytes ≤ 1100 ∧
      (p.1.conns 0).outputBuffer.readableBytes ≤ 0 := by
    have hall : (execTrace step oneLoop fillRun []).all (fun p => decide (
        (p.1.conns 0).inputBuffer.readableBytes ≤ 1100 ∧
        (p.1.conns 0).outputBuffer.readableBytes ≤ 0)) = true := by decide +kernel
    exact fun p hp => of_decide_eq_true (List.all_eq_true.mp hall p hp)
  obtain ⟨s, hs, hb⟩ := (Option.any_eq_true _ _).mp h
  obtain ⟨hlen, hin, hout⟩ := of_decide_eq_true hb
  have hrun := exec_run .start hs
  exact ⟨_, s, hrun, hlen, (buffers_bounded hrun 0 ⟨fun p hp => (htr p hp).1, hin⟩
    ⟨fun p hp => (htr p hp).2, hout⟩).1⟩

end Runs

end Process

end CuteMuduo
