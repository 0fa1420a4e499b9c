/-
  File:      CuteMuduo/Buffer/Calls.lean
  Subject:   `Buffer` IS A FIFO QUEUE OF BYTES, over any sequence of calls.

  Each call is what its counterpart on a queue is, on the buffer's content (`call_spec`): the
  buffer refines the queue (`buffer_fifo`). With it go the facts that keep the C++ inside its
  memory: the indices are in order, `MakeSpace` computes no negative number, it moves bytes to
  the front only where they lie further back, and every write stays inside the vector.
-/
import CuteMuduo.Buffer
import CuteMuduo.Lib.Fifo
import CuteMuduo.Lib.Run

namespace CuteMuduo

open Machine

namespace Buffer

/-- `RetrieveUntil(end)`, where `end` lies `len` bytes behind `Peek()`. -/
def retrieveUntil (b : Buffer) (len : Nat) : Buffer := b.retrieve len

/-- `RetrieveAsString(len)`: the `len` bytes from `Peek()` on, and the buffer behind the call. -/
def retrieveAsString (b : Buffer) (len : Nat) : List UInt8 × Buffer :=
  ((b.buffer.drop b.readerIndex).take len, b.retrieve len)

def retrieveAllAsString (b : Buffer) : List UInt8 × Buffer := b.retrieveAsString b.readableBytes

/-- `EnsureWritableBytes(len)` calls `MakeSpace`, and that moves the readable bytes to the front. -/
def compacts (b : Buffer) (len : Nat) : Bool :=
  decide (b.writableBytes < len ∧ ¬ b.prependableBytes + b.writableBytes - kCheapPrepend < len)

/-! ## The memory -/

section Memory

variable (b : Buffer)

/-- The unsigned expression in `MakeSpace` does not underflow. -/
theorem kCheapPrepend_le : kCheapPrepend ≤ b.prependableBytes + b.writableBytes :=
  Nat.le_trans b.prepend_le (Nat.le_add_right _ _)

/-- **What `EnsureWritableBytes` does**: `compacts` tells where it moves the bytes. -/
theorem ensureWritableBytes_eq (len : Nat) : b.ensureWritableBytes len =
    if b.compacts len then b.moveToFront
    else if b.writableBytes < len then b.grow len else b := by
  unfold ensureWritableBytes makeSpace compacts
  by_cases hlt : b.writableBytes < len
  · by_cases hsmall : b.prependableBytes + b.writableBytes - kCheapPrepend < len
    · rw [if_pos hlt, if_pos hsmall, if_neg (by simp [hsmall]), if_pos hlt]
    · rw [if_pos hlt, if_neg hsmall, if_pos (decide_eq_true ⟨hlt, hsmall⟩)]
  · rw [if_neg hlt, if_neg (by simp [hlt]), if_neg hlt]

/-- **Bytes move to the front only where they lie behind it**: `std::copy` may run forward. -/
theorem lt_readerIndex_of_compacts {len : Nat} (h : b.compacts len = true) :
    kCheapPrepend < b.readerIndex := by
  obtain ⟨hlt, hge⟩ := of_decide_eq_true h
  have hp := b.prepend_le
  unfold prependableBytes at hge
  omega

/-- What `Append` writes behind `EnsureWritableBytes` stays inside the vector. -/
theorem writerIndex_add_le (len : Nat) : (b.ensureWritableBytes len).writerIndex + len ≤
    (b.ensureWritableBytes len).buffer.length :=
  writerIndex_add_le_of_fits _ (b.le_writableBytes len)

theorem length_moveToFront : b.moveToFront.buffer.length = b.buffer.length :=
  length_overwrite b.prepend_add_readable_le

theorem length_push {data : List UInt8} (h : data.length ≤ b.writableBytes) :
    (b.push data h).buffer.length = b.buffer.length :=
  length_overwrite (b.writerIndex_add_le_of_fits h)

/-- **`Append` itself leaves the vector as large as it is**: what grows it is `MakeSpace`. -/
theorem length_append_eq (data : List UInt8) :
    (b.append data).buffer.length = (b.ensureWritableBytes data.length).buffer.length :=
  length_push _ (b.le_writableBytes data.length)

/-- The bytes from `Peek()` on, as long as they are readable. -/
theorem take_drop_readerIndex {len : Nat} (h : len ≤ b.readableBytes) :
    (b.buffer.drop b.readerIndex).take len = b.readable.take len := by
  unfold readableBytes at h
  rw [readable, List.drop_take, List.take_take, Nat.min_eq_left h]

end Memory

end Buffer

/-! ## Calls -/

/-- A call on a `Buffer`. -/
inductive BufferCall where
  | append (data : List UInt8)
  | retrieve (len : Nat)
  | retrieveUntil (len : Nat)
  | retrieveAll
  | retrieveAsString (len : Nat)
  | retrieveAllAsString
  | ensureWritableBytes (len : Nat)
  /-- `WriteFd`, with the answer of `write`: nothing is its `-1`. -/
  | writeFd (n : Option Nat)
  deriving DecidableEq, Repr

/-- The bytes a call puts in. -/
def BufferCall.appended : BufferCall → List UInt8
  | .append data => data
  | _ => []

/-- **The call on the buffer**: the buffer behind it, and the string it returns. `RetrieveUntil`
    takes a pointer between `Peek()` and `BeginWrite()`, `RetrieveAsString` no more than is
    readable, and `write` no more than it is offered. -/
def Buffer.call (b : Buffer) : BufferCall → Option (Buffer × Option (List UInt8))
  | .append data => some (b.append data, none)
  | .retrieve len => some (b.retrieve len, none)
  | .retrieveUntil len =>
    if len ≤ b.readableBytes then some (b.retrieveUntil len, none) else none
  | .retrieveAll => some (b.retrieveAll, none)
  | .retrieveAsString len =>
    if len ≤ b.readableBytes then
      some ((b.retrieveAsString len).2, some (b.retrieveAsString len).1)
    else none
  | .retrieveAllAsString => some (b.retrieveAllAsString.2, some b.retrieveAllAsString.1)
  | .ensureWritableBytes len => some (b.ensureWritableBytes len, none)
  | .writeFd none => some (b, none)
  | .writeFd (some n) => if n ≤ b.readableBytes then some (b.writeFd n, none) else none

/-- **What the call means on a queue of bytes.** A string that is returned is what is popped. -/
def BufferCall.spec (q : Fifo UInt8) : BufferCall → Option (Fifo UInt8 × Option (List UInt8))
  | .append data => some (q.push data, none)
  | .retrieve len => some (q.pop len, none)
  | .retrieveUntil len => if len ≤ q.content.length then some (q.pop len, none) else none
  | .retrieveAll => some (q.pop q.content.length, none)
  | .retrieveAsString len =>
    if len ≤ q.content.length then some (q.pop len, some (q.content.take len)) else none
  | .retrieveAllAsString => some (q.pop q.content.length, some q.content)
  | .ensureWritableBytes _ => some (q, none)
  | .writeFd none => some (q, none)
  | .writeFd (some n) => if n ≤ q.content.length then some (q.pop n, none) else none

/-- A call, with the strings returned so far. -/
def Buffer.step (s : Buffer × List (List UInt8)) (call : BufferCall) :
    Option (Buffer × List (List UInt8)) :=
  (s.1.call call).map fun p => (p.1, s.2 ++ p.2.toList)

def BufferCall.specStep (s : Fifo UInt8 × List (List UInt8)) (call : BufferCall) :
    Option (Fifo UInt8 × List (List UInt8)) :=
  (call.spec s.1).map fun p => (p.1, s.2 ++ p.2.toList)

/-! ## The buffer refines the queue -/

section Refines

variable {b : Buffer} {q : Fifo UInt8}

/-- **Every call does on the content what it does on a queue**, and returns the same. -/
theorem call_spec (h : q.content = b.readable) (call : BufferCall) :
    (b.call call).map (fun p => (p.1.readable, p.2)) =
      (call.spec q).map fun p => (p.1.content, p.2) := by
  have hlen : q.content.length = b.readableBytes := by rw [h, b.length_readable]
  have hall : b.readable.drop b.readableBytes = [] :=
    List.drop_of_length_le (Nat.le_of_eq b.length_readable)
  cases call with
  | append data =>
      simp only [Buffer.call, BufferCall.spec, Option.map_some, Buffer.readable_append,
        Fifo.content_push, h]
  | retrieve len =>
      simp only [Buffer.call, BufferCall.spec, Option.map_some, Buffer.readable_retrieve,
        Fifo.content_pop, h]
  | retrieveUntil len =>
      simp only [Buffer.call, BufferCall.spec, hlen, Buffer.retrieveUntil]
      split
      · simp only [Option.map_some, Buffer.readable_retrieve, Fifo.content_pop, h]
      · rfl
  | retrieveAll =>
      simp only [Buffer.call, BufferCall.spec, Option.map_some, Buffer.readable_retrieveAll,
        Fifo.content_pop, h, b.length_readable, hall]
  | retrieveAsString len =>
      simp only [Buffer.call, BufferCall.spec, hlen, Buffer.retrieveAsString]
      split
      · rename_i hle
        simp only [Option.map_some, Buffer.readable_retrieve, Fifo.content_pop, h,
          b.take_drop_readerIndex hle]
      · rfl
  | retrieveAllAsString =>
      simp only [Buffer.call, BufferCall.spec, Buffer.retrieveAllAsString,
        Buffer.retrieveAsString, Option.map_some, Buffer.readable_retrieve, Fifo.content_pop, h,
        b.length_readable, b.take_drop_readerIndex (Nat.le_refl _),
        List.take_of_length_le (Nat.le_of_eq b.length_readable)]
  | ensureWritableBytes len =>
      simp only [Buffer.call, BufferCall.spec, Option.map_some,
        Buffer.readable_ensureWritableBytes, h]
  | writeFd n =>
      cases n with
      | none => simp only [Buffer.call, BufferCall.spec, Option.map_some, h]
      | some n =>
          simp only [Buffer.call, BufferCall.spec, hlen]
          split
          · simp only [Option.map_some, Buffer.readable_writeFd, Fifo.content_pop, h]
          · rfl

/-- What a call pushes. -/
theorem pushed_call {q' : Fifo UInt8} {out : Option (List UInt8)} {call : BufferCall}
    (h : call.spec q = some (q', out)) : q'.pushed = q.pushed ++ call.appended := by
  have hpop : ∀ {n}, (q.pop n).pushed = q.pushed ++ [] := fun {n} => by
    rw [Fifo.pushed_pop, List.append_nil]
  cases call with
  | append data =>
      cases h
      rfl
  | retrieveUntil len | retrieveAsString len =>
      simp only [BufferCall.spec] at h
      split at h
      · cases h
        exact hpop
      · cases h
  | ensureWritableBytes len =>
      cases h
      exact (List.append_nil _).symm
  | writeFd n =>
      cases n with
      | none =>
          cases h
          exact (List.append_nil _).symm
      | some n =>
          simp only [BufferCall.spec] at h
          split at h
          · cases h
            exact hpop
          · cases h
  | _ =>
      cases h
      exact hpop

/-- A sequence of calls, on the buffer and on the queue. -/
theorem exec_spec (h : q.content = b.readable) (calls : List BufferCall)
    {outs outs' : List (List UInt8)} {b' : Buffer}
    (he : Machine.exec Buffer.step (b, outs) calls = some (b', outs')) :
    ∃ q', Machine.exec BufferCall.specStep (q, outs) calls = some (q', outs') ∧
      q'.content = b'.readable ∧ q'.pushed = q.pushed ++ calls.flatMap BufferCall.appended := by
  induction calls generalizing b q outs with
  | nil =>
      cases he
      exact ⟨q, rfl, h, (List.append_nil _).symm⟩
  | cons call calls ih =>
      obtain ⟨s₁, hs, he⟩ := Option.bind_eq_some_iff.mp he
      obtain ⟨⟨b₁, out⟩, hb, rfl⟩ := Option.map_eq_some_iff.mp hs
      have hspec := call_spec h call
      rw [hb, Option.map_some, eq_comm, Option.map_eq_some_iff] at hspec
      obtain ⟨⟨q₁, out₁⟩, hq, e⟩ := hspec
      obtain ⟨hc, rfl⟩ := Prod.mk.inj e
      obtain ⟨q', hq', hc', hp⟩ := ih hc he
      refine ⟨q', Option.bind_eq_some_iff.mpr ⟨_, ?_, hq'⟩, hc', ?_⟩
      · rw [BufferCall.specStep, hq]
        rfl
      · rw [hp, pushed_call hq, List.append_assoc, List.flatMap_cons]

/-- **A `Buffer` is a FIFO queue of bytes.** Behind every sequence of calls on a fresh buffer of
    any size: its content, and every string the calls have returned, are those of a queue under
    the same calls, into which the appended bytes have gone in order; the indices are in order;
    the unsigned expression in `MakeSpace` does not underflow; `MakeSpace` moves bytes to the front
    where `compacts` says so, and there they come from further back; and no copy goes past the end
    of the vector: neither the move nor what `Append` writes makes it larger than it was. -/
theorem buffer_fifo (initialSize : Nat) (calls : List BufferCall) {b : Buffer}
    {outs : List (List UInt8)}
    (h : Machine.exec Buffer.step (.create initialSize, []) calls = some (b, outs)) :
    (∃ q, Machine.exec BufferCall.specStep (.empty, []) calls = some (q, outs) ∧
      q.content = b.readable ∧ q.pushed = calls.flatMap BufferCall.appended ∧
      q.popped ++ b.readable = q.pushed) ∧
    (kCheapPrepend ≤ b.readerIndex ∧ b.readerIndex ≤ b.writerIndex ∧
      b.writerIndex ≤ b.buffer.length) ∧
    kCheapPrepend ≤ b.prependableBytes + b.writableBytes ∧
    (∀ len, b.ensureWritableBytes len =
          (if b.compacts len then b.moveToFront
            else if b.writableBytes < len then b.grow len else b) ∧
        (b.compacts len = true →
          kCheapPrepend < b.readerIndex ∧ kCheapPrepend + b.readableBytes ≤ b.buffer.length) ∧
        (b.ensureWritableBytes len).writerIndex + len ≤
          (b.ensureWritableBytes len).buffer.length) ∧
    b.moveToFront.buffer.length = b.buffer.length ∧
    ∀ data, (b.append data).buffer.length =
      (b.ensureWritableBytes data.length).buffer.length := by
  obtain ⟨q, hq, hc, hp⟩ :=
    exec_spec (q := .empty) (Buffer.readable_create initialSize).symm calls h
  refine ⟨⟨q, hq, hc, hp, hc ▸ q.law⟩, ⟨b.prepend_le, b.reader_le, b.writer_le⟩,
    b.kCheapPrepend_le, fun len => ⟨b.ensureWritableBytes_eq len, fun hm =>
      ⟨b.lt_readerIndex_of_compacts hm, b.prepend_add_readableBytes_le⟩, b.writerIndex_add_le len⟩,
    b.length_moveToFront, b.length_append_eq⟩

/-- Five bytes through a buffer of four: it grows, moves its bytes to the front, and is drained. -/
def growCalls : List BufferCall :=
  [.append [1, 2, 3], .retrieve 2, .append [4, 5], .writeFd (some 1), .ensureWritableBytes 3,
    .retrieveAsString 1, .append [6], .retrieveAllAsString]

theorem buffer_fifo_grow : ∃ b outs,
    Machine.exec Buffer.step (.create 4, []) growCalls = some (b, outs) ∧ outs = [[4], [5, 6]] ∧
    (∃ q, Machine.exec BufferCall.specStep (.empty, []) growCalls = some (q, outs) ∧
      q.content = b.readable ∧ q.pushed = growCalls.flatMap BufferCall.appended ∧
      q.popped ++ b.readable = q.pushed) ∧
    (kCheapPrepend ≤ b.readerIndex ∧ b.readerIndex ≤ b.writerIndex ∧
      b.writerIndex ≤ b.buffer.length) ∧
    kCheapPrepend ≤ b.prependableBytes + b.writableBytes ∧
    (∀ len, b.ensureWritableBytes len =
          (if b.compacts len then b.moveToFront
            else if b.writableBytes < len then b.grow len else b) ∧
        (b.compacts len = true →
          kCheapPrepend < b.readerIndex ∧ kCheapPrepend + b.readableBytes ≤ b.buffer.length) ∧
        (b.ensureWritableBytes len).writerIndex + len ≤
          (b.ensureWritableBytes len).buffer.length) ∧
    b.moveToFront.buffer.length = b.buffer.length ∧
    ∀ data, (b.append data).buffer.length =
      (b.ensureWritableBytes data.length).buffer.length := by
  have h : ((Machine.exec Buffer.step (.create 4, []) growCalls).any fun s =>
      decide (s.2 = [[4], [5, 6]])) = true := by decide +kernel
  obtain ⟨⟨b, outs⟩, hs, hb⟩ := (Option.any_eq_true _ _).mp h
  exact ⟨b, outs, hs, of_decide_eq_true hb, buffer_fifo 4 growCalls hs⟩

end Refines

end CuteMuduo
