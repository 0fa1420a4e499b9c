/-
  File:      CuteMuduo/TcpConnection/SendBuffer.lean
  Subject:   `Send(Buffer*)` BESIDE `Send(std::string const&)` (tcp_connection.cpp): what each
             passes to `SendInLoop`, and what it leaves of the caller's buffer, with everything
             that may come between the call and the functor it queues.

  The string overload copies its message into the functor; the buffer overload captures the
  pointer, and its functor reads the buffer when it runs. The string overload always passes what
  was readable at the call (`send_string`). The buffer overload does if and only if the caller
  is the loop's own thread, or has by then left its buffer as it was (`send_buffer`).

  What `SendInLoop` does with the bytes is in `TcpConnection.lean`; here they are recorded.
-/
import CuteMuduo.Buffer.Calls
import CuteMuduo.TcpConnection
import CuteMuduo.EventLoop.Queue

namespace CuteMuduo

open Machine

/-- A functor in the queue of the connection's loop. -/
inductive SendTask where
  /-- `[this, msg]`, of `Send(std::string const&)`. -/
  | string (msg : List UInt8)
  /-- `[this, buffer]`, of `Send(Buffer*)`. -/
  | buffer
  /-- A functor that has to do neither with the call nor with the buffer. -/
  | other (k : Nat)
  deriving DecidableEq, Repr

/-- A thread that owns a buffer and sends it on a connection. -/
structure Sending where
  /-- `state_` of the connection. -/
  state : StateE
  /-- `loop_` of the connection. -/
  loop : EventLoop ThreadId SendTask
  caller : ThreadId
  buffer : Buffer
  -- history
  /-- What `SendInLoop` was passed. -/
  passed : List (List UInt8)

/-- What the caller may do with its buffer. -/
inductive BufferOp where
  | append (data : List UInt8)
  | retrieve (len : Nat)
  | retrieveAll
  deriving DecidableEq, Repr

namespace BufferOp

def apply (b : Buffer) : BufferOp → Buffer
  | append data => b.append data
  | retrieve len => b.retrieve len
  | retrieveAll => b.retrieveAll

/-- What the operation makes of the readable bytes. -/
def content (q : List UInt8) : BufferOp → List UInt8
  | append data => q ++ data
  | retrieve len => q.drop len
  | retrieveAll => []

theorem readable_apply (b : Buffer) (op : BufferOp) :
    (op.apply b).readable = op.content b.readable := by
  cases op with
  | append data => exact b.readable_append data
  | retrieve len => exact b.readable_retrieve len
  | retrieveAll => exact b.readable_retrieveAll

end BufferOp

namespace Sending

/-- A caller with its buffer, and a connection of loop `l`'s that is up. -/
def create (l : LoopId) (caller : ThreadId) (b : Buffer) : Sending where
  state := .kConnected
  loop := .create (.loop l)
  caller := caller
  buffer := b
  passed := []

/-- `SendInLoop(msg.c_str(), msg.size())`. -/
def sendInLoop (s : Sending) (msg : List UInt8) : Sending := { s with passed := s.passed ++ [msg] }

/-- `SendInLoop(buffer->Peek(), buffer->ReadableBytes())`, and `buffer->RetrieveAll()`. -/
def sendReadable (s : Sending) : Sending :=
  { s.sendInLoop s.buffer.readable with buffer := s.buffer.retrieveAll }

/-- The loop calls the functor. -/
def runTask (s : Sending) : SendTask → Sending
  | .string msg => s.sendInLoop msg
  | .buffer => s.sendReadable
  | .other _ => s

/-- `IsInLoopThread()`, asked by the caller. -/
def own (s : Sending) : Bool := s.loop.isInLoopThread s.caller

/-- `RunInLoop`, called by the caller. -/
def runInLoop (s : Sending) (f : SendTask) : Option Sending :=
  if s.own then some (s.runTask f)
  else (s.loop.step (.queueInLoop s.caller f)).map fun l => { s with loop := l }

/-- `Send(std::string const& msg)`. -/
def sendMsg (s : Sending) (msg : List UInt8) : Option Sending :=
  if s.state = .kConnected then
    if s.own then some (s.sendInLoop msg) else s.runInLoop (.string msg)
  else some s

/-- `Send(b->RetrieveAllAsString())`. -/
def sendString (s : Sending) : Option Sending :=
  { s with buffer := s.buffer.retrieveAllAsString.2 }.sendMsg s.buffer.retrieveAllAsString.1

/-- `Send(Buffer* buffer)`. -/
def sendBuffer (s : Sending) : Option Sending :=
  if s.state = .kConnected then
    if s.own then some s.sendReadable else s.runInLoop .buffer
  else some s

/-! ## Steps -/

/-- One step. -/
inductive Label where
  /-- The caller uses its buffer. -/
  | op (op : BufferOp)
  /-- A thread queues another functor. -/
  | queueOther (t : ThreadId) (k : Nat)
  /-- Another function of the connection stores to `state_`. -/
  | setState (state : StateE)
  /-- The loop goes on, or a thread with what is left of its call. -/
  | loop (a : EventLoop.Action ThreadId SendTask)
  deriving DecidableEq, Repr

/-- A step of the loop's machine that queues a functor. -/
def isPush : EventLoop.Action ThreadId SendTask → Bool
  | .queueInLoop _ _ | .runInLoop _ _ => true
  | _ => false

/-- The functor the loop calls in this step. -/
def called (s : Sending) : EventLoop.Action ThreadId SendTask → Option SendTask
  | .next _ => match s.loop.phase with
    | .batch (f :: _) => some f
    | _ => none
  | _ => none

def step (s : Sending) : Label → Option Sending
  | .op op =>
    if s.loop.call s.caller = .idle then some { s with buffer := op.apply s.buffer } else none
  | .queueOther t k =>
    (s.loop.step (.queueInLoop t (.other k))).map fun l => { s with loop := l }
  | .setState state => some { s with state := state }
  | .loop a =>
    if isPush a then none
    else (s.loop.step a).map fun l =>
      (s.called a).elim { s with loop := l } { s with loop := l }.runTask

/-- What the caller does with its buffer in the step. -/
def Label.bufferOp : Label → Option BufferOp
  | .op o => some o
  | _ => none

/-- What the caller has done with its buffer, in order. -/
def ops (tr : List (Sending × Label)) : List BufferOp := tr.reverse.filterMap fun p => p.2.bufferOp

/-- **What `Send` is to do**: pass what was readable at the call, and take that from the buffer,
    so that what is left there is what the caller has put there since. -/
structure Delivers (s : Sending) (ops : List BufferOp) (s₁ : Sending) : Prop where
  passed : s₁.passed = s.passed ++ [s.buffer.readable]
  taken : s₁.buffer.readable = ops.foldl BufferOp.content []

/-! ## What comes between the call and its functor -/

variable {s s' s₁ : Sending} {a : Label} {f : SendTask} {tr tr' : List (Sending × Label)}

theorem ops_cons (s : Sending) (a : Label) (tr : List (Sending × Label)) :
    ops ((s, a) :: tr) = ops tr ++ a.bufferOp.toList :=
  filterMap_reverse_cons _ _ _

/-- The functor that is called comes from the queue. -/
theorem mem_queue_of_called {b : EventLoop.Action ThreadId SendTask} (h : s.called b = some f) :
    f ∈ s.loop.queue := by
  cases b with
  | next t =>
      simp only [called] at h
      split at h
      · rename_i g rest hph
        cases h
        rw [EventLoop.queue, hph]
        exact List.mem_append_left _ List.mem_cons_self
      · cases h
  | _ => cases h

/-- **A step, as the call sees it.** -/
inductive Seen (s : Sending) (a : Label) (s' : Sending) : Prop where
  | other (hp : s'.passed = s.passed)
      (hb : s'.buffer.readable = a.bufferOp.toList.foldl BufferOp.content s.buffer.readable)
  /-- The loop calls a functor. -/
  | ran (f : SendTask) (hf : f ∈ s.loop.queue) (ha : a.bufferOp = none)
      (hp : s'.passed = (s.runTask f).passed) (hb : s'.buffer = (s.runTask f).buffer)

theorem runTask_loop (s : Sending) (f : SendTask) : (s.runTask f).loop = s.loop := by
  cases f <;> rfl

theorem seen_step (h : s.step a = some s') : Seen s a s' := by
  cases a with
  | op o =>
      obtain ⟨_, e⟩ := Option.ite_none_right_eq_some.mp h
      cases e
      exact .other rfl (o.readable_apply s.buffer)
  | queueOther t k =>
      obtain ⟨l, _, rfl⟩ := Option.map_eq_some_iff.mp h
      exact .other rfl rfl
  | setState state =>
      cases h
      exact .other rfl rfl
  | loop b =>
      obtain ⟨_, h⟩ := Option.ite_none_left_eq_some.mp h
      obtain ⟨l, _, rfl⟩ := Option.map_eq_some_iff.mp h
      cases hf : s.called b with
      | none => exact .other rfl rfl
      | some f =>
          exact .ran f (mem_queue_of_called hf) rfl (by cases f <;> rfl) (by cases f <;> rfl)

/-- What waits after a step waited before it, or is another functor. -/
theorem mem_queue_step (h : s.step a = some s') (hf : f ∈ s'.loop.queue) :
    f ∈ s.loop.queue ∨ ∃ k, f = .other k := by
  cases a with
  | op o =>
      obtain ⟨_, e⟩ := Option.ite_none_right_eq_some.mp h
      cases e
      exact Or.inl hf
  | queueOther t k =>
      obtain ⟨l, hl, rfl⟩ := Option.map_eq_some_iff.mp h
      rcases EventLoop.mem_queue_step hl hf with hf | ⟨t', e | e⟩
      · exact Or.inl hf
      · cases e
        exact Or.inr ⟨k, rfl⟩
      · cases e
  | setState state =>
      cases h
      exact Or.inl hf
  | loop b =>
      obtain ⟨hb, h⟩ := Option.ite_none_left_eq_some.mp h
      obtain ⟨l, hl, rfl⟩ := Option.map_eq_some_iff.mp h
      have hloop :
          ((s.called b).elim { s with loop := l } { s with loop := l }.runTask).loop = l := by
        cases s.called b with
        | none => rfl
        | some f => exact runTask_loop _ f
      rw [hloop] at hf
      refine Or.inl ((EventLoop.mem_queue_step hl hf).resolve_right ?_)
      rintro ⟨t, rfl | rfl⟩ <;> exact hb rfl

/-- **Between the call and its functor**: `f` waits among functors that have nothing to do with the
    buffer, and the buffer is what the caller makes of it, until `f` is called. -/
theorem sent_run (hf : ∀ x : Sending, (x.runTask f).passed ≠ x.passed)
    (hq : ∀ g ∈ s.loop.queue, g = f ∨ ∃ k, g = .other k)
    (h : Run step s tr s₁) (hb : ∀ p ∈ tr, p.1.passed = s.passed) :
    (∀ g ∈ s₁.loop.queue, g = f ∨ ∃ k, g = .other k) ∧
    (s₁.passed = s.passed ∧
        s₁.buffer.readable = (ops tr).foldl BufferOp.content s.buffer.readable ∨
      ∃ s₂ : Sending, s₂.passed = s.passed ∧
        s₂.buffer.readable = (ops tr).foldl BufferOp.content s.buffer.readable ∧
        s₁.passed = (s₂.runTask f).passed ∧ s₁.buffer = (s₂.runTask f).buffer) := by
  induction h with
  | start => exact ⟨hq, Or.inl ⟨rfl, rfl⟩⟩
  | step tr s₂ a s₃ h hs ih =>
      obtain ⟨hq₂, hsent⟩ := ih fun p hp => hb p (List.mem_cons_of_mem _ hp)
      have hp : s₂.passed = s.passed := hb _ List.mem_cons_self
      refine ⟨fun g hg => ?_, ?_⟩
      · rcases mem_queue_step hs hg with hg | ⟨k, rfl⟩
        · exact hq₂ g hg
        · exact Or.inr ⟨k, rfl⟩
      · -- `f` has not been called before this step
        have hread : s₂.buffer.readable = (ops tr).foldl BufferOp.content s.buffer.readable := by
          rcases hsent with ⟨_, hread⟩ | ⟨x, hx, _, hx', _⟩
          · exact hread
          · exact absurd (hx'.symm.trans (hp.trans hx.symm)) (hf x)
        rw [ops_cons, List.foldl_append, ← hread]
        cases seen_step hs with
        | other hp' hb' => exact Or.inl ⟨hp'.trans hp, hb'⟩
        | ran g hg ha hp' hb' =>
            rw [ha]
            rcases hq₂ g hg with rfl | ⟨k, rfl⟩
            · exact Or.inr ⟨s₂, hp, rfl, hp', hb'⟩
            · exact Or.inl ⟨hp'.trans hp, congrArg Buffer.readable hb'⟩

/-- Before the call only other functors wait. -/
theorem queue_run {l : LoopId} {caller : ThreadId} {b : Buffer}
    (h : Run step (create l caller b) tr s) : ∀ g ∈ s.loop.queue, ∃ k, g = .other k := by
  induction h with
  | start => exact fun g hg => absurd hg List.not_mem_nil
  | step tr s a s' h hs ih =>
      intro g hg
      rcases mem_queue_step hs hg with hg | hk
      · exact ih g hg
      · exact hk

/-- `RunInLoop` on another thread. -/
theorem of_runInLoop (ho : s.own = false) (h : s.runInLoop f = some s') :
    s'.passed = s.passed ∧ s'.buffer = s.buffer ∧ s'.loop.queue = s.loop.queue ++ [f] := by
  unfold runInLoop at h
  rw [ho] at h
  obtain ⟨l, hl, rfl⟩ := Option.map_eq_some_iff.mp h
  exact ⟨rfl, rfl, EventLoop.queue_push hl⟩

/-- **The functor of a call on another thread** is called with the buffer as the caller has made
    it by then. -/
theorem sent_queued (hf : ∀ x : Sending, (x.runTask f).passed ≠ x.passed)
    (hq : ∀ g ∈ s.loop.queue, ∃ k, g = .other k) (ho : s.own = false)
    (hs : s.runInLoop f = some s') (hr : Run step s' tr s₁)
    (hb : ∀ p ∈ tr, p.1.passed = s.passed) (hp : s₁.passed ≠ s.passed) :
    ∃ s₂ : Sending, s₂.passed = s.passed ∧
      s₂.buffer.readable = (ops tr).foldl BufferOp.content s.buffer.readable ∧
      s₁.passed = (s₂.runTask f).passed ∧ s₁.buffer = (s₂.runTask f).buffer := by
  obtain ⟨hp', hb', hq'⟩ := of_runInLoop ho hs
  have hwait : ∀ g ∈ s'.loop.queue, g = f ∨ ∃ k, g = .other k := by
    intro g hg
    rw [hq'] at hg
    rcases List.mem_append.mp hg with hg | hg
    · exact Or.inr (hq g hg)
    · exact Or.inl (List.mem_singleton.mp hg)
  rcases (sent_run hf hwait hr fun p hm => (hb p hm).trans hp'.symm).2 with ⟨e, _⟩ | hsent
  · exact absurd (e.trans hp') hp
  · rw [hp', hb'] at hsent
    exact hsent

/-- What `b->RetrieveAllAsString()` returns, and leaves. -/
theorem retrieveAllAsString_spec (b : Buffer) :
    b.retrieveAllAsString.1 = b.readable ∧ b.retrieveAllAsString.2.readable = [] := by
  have hlen : b.readable.length ≤ b.readableBytes := Nat.le_of_eq b.length_readable
  refine ⟨(b.take_drop_readerIndex (Nat.le_refl _)).trans (List.take_of_length_le hlen), ?_⟩
  exact (b.readable_retrieve _).trans (List.drop_of_length_le hlen)

/-- With the message passed by the call itself, nothing comes between. -/
theorem run_nil (hp : s'.passed ≠ s.passed) (h : Run step s' tr s₁)
    (hb : ∀ p ∈ tr, p.1.passed = s.passed) : tr = [] ∧ s₁ = s' := by
  refine h.start_mem.resolve_right ?_
  rintro ⟨a, ha⟩
  exact hp (hb _ ha)

/-- Bytes are passed. -/
theorem passed_ne (xs : List (List UInt8)) (msg : List UInt8) : xs ++ [msg] ≠ xs := by
  intro e
  have h := congrArg List.length e
  rw [List.length_append] at h
  exact absurd h (by simp)

section Calls

variable {l : LoopId} {caller : ThreadId} {b : Buffer}

/-- **`Send(b->RetrieveAllAsString())`** passes what was readable at the call and takes that from
    the buffer, whatever comes between the call and its functor. -/
theorem send_string (h : Run step (create l caller b) tr s) (hk : s.state = .kConnected)
    (hs : s.sendString = some s') (hr : Run step s' tr' s₁)
    (hb : ∀ p ∈ tr', p.1.passed = s.passed) (hp : s₁.passed ≠ s.passed) :
    s.Delivers (ops tr') s₁ := by
  obtain ⟨hmsg, hrest⟩ := retrieveAllAsString_spec s.buffer
  have hq := queue_run h
  change (if s.state = .kConnected then _ else _) = some s' at hs
  rw [if_pos hk] at hs
  split at hs
  · -- on the loop's own thread
    cases hs
    obtain ⟨rfl, rfl⟩ := run_nil (s := s) (passed_ne _ _) hr hb
    exact ⟨by rw [← hmsg]; rfl, hrest⟩
  · rename_i ho
    obtain ⟨x, hx, hread, hx', hxb⟩ :=
      sent_queued (s := { s with buffer := s.buffer.retrieveAllAsString.2 })
        (f := .string s.buffer.retrieveAllAsString.1) (fun x => passed_ne x.passed _) hq
        (Bool.eq_false_iff.mpr ho) hs hr hb hp
    refine ⟨?_, ?_⟩
    · rw [hx', ← hmsg]
      show x.passed ++ [s.buffer.retrieveAllAsString.1] = _
      rw [hx]
    · rw [← hrest, hxb]
      exact hread

/-- **`Send(Buffer*)`** passes what was readable at the call and takes that from the buffer if and
    only if the caller is the loop's own thread, or what the caller has done with the buffer by
    the time its functor is called leaves the bytes that were there at the call, and would leave
    an empty buffer empty. -/
theorem send_buffer (h : Run step (create l caller b) tr s) (hk : s.state = .kConnected)
    (hs : s.sendBuffer = some s') (hr : Run step s' tr' s₁)
    (hb : ∀ p ∈ tr', p.1.passed = s.passed) (hp : s₁.passed ≠ s.passed) :
    s.Delivers (ops tr') s₁ ↔ s.own = true ∨
      (ops tr').foldl BufferOp.content s.buffer.readable = s.buffer.readable ∧
        (ops tr').foldl BufferOp.content [] = [] := by
  simp only [sendBuffer, hk, if_true] at hs
  split at hs
  · rename_i ho
    cases hs
    obtain ⟨rfl, rfl⟩ := run_nil (s := s) (passed_ne _ _) hr hb
    exact iff_of_true ⟨rfl, s.buffer.readable_retrieveAll⟩ (Or.inl ho)
  · rename_i ho
    obtain ⟨x, hx, hread, hx', hxb⟩ := sent_queued (f := .buffer) (fun x => passed_ne x.passed _)
      (queue_run h) (Bool.eq_false_iff.mpr ho) hs hr hb hp
    -- the functor reads the buffer as it is now, and leaves nothing in it
    have hpass : s₁.passed = s.passed ++ [(ops tr').foldl BufferOp.content s.buffer.readable] := by
      rw [hx', ← hread, ← hx]
      rfl
    have hleft : s₁.buffer.readable = [] := by
      rw [hxb]
      exact x.buffer.readable_retrieveAll
    refine ⟨fun hd => Or.inr ⟨?_, hd.taken.symm.trans hleft⟩, fun hc => ?_⟩
    · have e := hpass.symm.trans hd.passed
      exact List.singleton_inj.mp (List.append_cancel_left e)
    · obtain ⟨hsame, hnone⟩ := hc.resolve_left ho
      exact ⟨by rw [hpass, hsame], hleft.trans hnone.symm⟩

end Calls

/-- User thread `0`, with two bytes in its buffer, and a connection of loop `1`'s. -/
def twoBytes : Sending := create 1 (.user 0) ((Buffer.create 4).append [1, 2])

/-- The loop polls when `Send(Buffer*)` is called; then `after`. -/
def polling : List Label := [.loop .enterLoop, .loop .test]

/-- `Send(Buffer*)` returns, the caller goes on with `between`, and the loop runs its queue. -/
def sendRun (between : List Label) : List Label :=
  .loop (.queueWake (.user 0)) :: between ++ [.loop (.pollReturn true), .loop .handleRead,
    .loop .startFunctors, .loop .swap, .loop (.next (.loop 1))]

/-- Such a run, up to the call of the functor, which passes `msg`. -/
theorem exists_sendRun (between : List Label) (msg : List UInt8)
    (h : ((Machine.exec step twoBytes polling).any fun s =>
      decide (s.state = .kConnected ∧ s.passed = [] ∧ s.buffer.readable = [1, 2]) &&
      s.sendBuffer.any fun s' => ((Machine.exec step s' (sendRun between)).any fun s₁ =>
        decide (s₁.passed = [msg])) &&
        (execTrace step s' (sendRun between) []).all fun p => decide (p.1.passed = [])) = true) :
    ∃ s s' s₁, Run step twoBytes (execTrace step twoBytes polling []) s ∧ s.state = .kConnected ∧
      s.sendBuffer = some s' ∧ Run step s' (execTrace step s' (sendRun between) []) s₁ ∧
      (∀ p ∈ execTrace step s' (sendRun between) [], p.1.passed = s.passed) ∧
      s₁.passed ≠ s.passed ∧ s.passed = [] ∧ s.buffer.readable = [1, 2] ∧ s₁.passed = [msg] := by
  obtain ⟨s, hs, h⟩ := (Option.any_eq_true _ _).mp h
  obtain ⟨h₁, h⟩ := Bool.and_eq_true_iff.mp h
  obtain ⟨hk, hp, hr⟩ := of_decide_eq_true h₁
  obtain ⟨s', hs', h⟩ := (Option.any_eq_true _ _).mp h
  obtain ⟨h₂, h₃⟩ := Bool.and_eq_true_iff.mp h
  obtain ⟨s₁, hs₁, h₂⟩ := (Option.any_eq_true _ _).mp h₂
  have hp₁ := of_decide_eq_true h₂
  refine ⟨s, s', s₁, exec_run .start hs, hk, hs', exec_run .start hs₁, fun p hm => ?_, ?_, hp, hr,
    hp₁⟩
  · rw [hp]
    exact of_decide_eq_true (List.all_eq_true.mp h₃ p hm)
  · rw [hp, hp₁]
    exact List.cons_ne_nil _ _

theorem send_buffer_quiet : ∃ s s' tr s₁, Run step twoBytes (execTrace step twoBytes polling []) s ∧
    s.sendBuffer = some s' ∧ Run step s' tr s₁ ∧ s₁.passed = [[1, 2]] ∧
    (s.Delivers (ops tr) s₁ ↔ s.own = true ∨
      (ops tr).foldl BufferOp.content s.buffer.readable = s.buffer.readable ∧
        (ops tr).foldl BufferOp.content [] = []) := by
  obtain ⟨s, s', s₁, hrun, hk, hs', hr, hb, hp, _, _, hp₁⟩ :=
    exists_sendRun [] [1, 2] (by decide +kernel)
  exact ⟨s, s', _, s₁, hrun, hs', hr, hp₁, send_buffer hrun hk hs' hr hb hp⟩

/-- **The caller appends a byte behind its call**, and the functor passes that too. -/
theorem send_buffer_appended : ¬ ∀ (l : LoopId) (caller : ThreadId) (b : Buffer)
    (tr tr' : List (Sending × Label)) (s s' s₁ : Sending), Run step (create l caller b) tr s →
    s.state = .kConnected → s.sendBuffer = some s' → Run step s' tr' s₁ →
    (∀ p ∈ tr', p.1.passed = s.passed) → s₁.passed ≠ s.passed → s.Delivers (ops tr') s₁ := by
  intro hall
  obtain ⟨s, s', s₁, hrun, hk, hs', hr, hb, hp, hp₀, hread, hp₁⟩ :=
    exists_sendRun [.op (.append [3])] [1, 2, 3] (by decide +kernel)
  have hd := (hall 1 (.user 0) _ _ _ s s' s₁ hrun hk hs' hr hb hp).passed
  rw [hp₁, hp₀, hread] at hd
  exact absurd hd (by decide)

end Sending

end CuteMuduo
