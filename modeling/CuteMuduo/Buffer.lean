/-
  File:      CuteMuduo/Buffer.lean
  Subject:   `Buffer` (buffer.hpp, buffer.cpp): the byte queue in front of a socket.

  A vector with a reader and a writer index. The indices stay in order
  (`kCheapPrepend <= reader_index_ <= writer_index_ <= buffer_.size()`); a `Buffer` carries the
  proof. `readable` is its content, and the lemmas say what each operation does to it: `Append`
  and `ReadFd` add at the end, `Retrieve` and `WriteFd` take from the front.

  A copy past the end of the vector is undefined. There is none: what writes into the vector
  (`overwrite`, `push`) takes a proof that the bytes fit.

  Sizes are natural numbers: this is the buffer below the limits of `size_t` and of the vector.
-/
import Mathlib.Data.List.Basic

namespace CuteMuduo

/-- The front part `[Peek() - kCheapPrepend, Peek())` a fresh buffer keeps free. -/
def kCheapPrepend : Nat := 8

def kInitialSize : Nat := 1024

/-- The size of `extrabuf` in `ReadFd`. -/
def kExtraBuf : Nat := 65536

/-- `std::copy` of `data` into `xs` from index `i` on, where it fits. -/
def overwrite (xs : List UInt8) (i : Nat) (data : List UInt8)
    (_ : i + data.length ≤ xs.length) : List UInt8 :=
  xs.take i ++ data ++ xs.drop (i + data.length)

/-- `std::vector::resize`. -/
def resize (xs : List UInt8) (n : Nat) : List UInt8 :=
  xs.take n ++ List.replicate (n - xs.length) 0

theorem length_overwrite {xs data : List UInt8} {i : Nat} (h : i + data.length ≤ xs.length) :
    (overwrite xs i data h).length = xs.length := by
  simp only [overwrite, List.length_append, List.length_take, List.length_drop]
  omega

theorem length_resize (xs : List UInt8) (n : Nat) : (resize xs n).length = n := by
  simp only [resize, List.length_append, List.length_take, List.length_replicate]
  omega

/-- A `Buffer`, with its indices in order. -/
structure Buffer where
  buffer : List UInt8
  readerIndex : Nat
  writerIndex : Nat
  prepend_le : kCheapPrepend ≤ readerIndex
  reader_le : readerIndex ≤ writerIndex
  writer_le : writerIndex ≤ buffer.length
  deriving DecidableEq

namespace Buffer

/-- `Buffer::Buffer(size_t initial_size)`. -/
def create (initialSize : Nat) : Buffer where
  buffer := List.replicate (kCheapPrepend + initialSize) 0
  readerIndex := kCheapPrepend
  writerIndex := kCheapPrepend
  prepend_le := Nat.le_refl _
  reader_le := Nat.le_refl _
  writer_le := by
    rw [List.length_replicate]
    exact Nat.le_add_right _ _

def readableBytes (b : Buffer) : Nat := b.writerIndex - b.readerIndex

def writableBytes (b : Buffer) : Nat := b.buffer.length - b.writerIndex

def prependableBytes (b : Buffer) : Nat := b.readerIndex

/-- The bytes between `Peek()` and `BeginWrite()`. -/
def readable (b : Buffer) : List UInt8 := (b.buffer.take b.writerIndex).drop b.readerIndex

def retrieveAll (b : Buffer) : Buffer where
  buffer := b.buffer
  readerIndex := kCheapPrepend
  writerIndex := kCheapPrepend
  prepend_le := Nat.le_refl _
  reader_le := Nat.le_refl _
  writer_le := Nat.le_trans (Nat.le_trans b.prepend_le b.reader_le) b.writer_le

def retrieve (b : Buffer) (len : Nat) : Buffer :=
  if h : len < b.readableBytes then
    { b with
      readerIndex := b.readerIndex + len
      prepend_le := Nat.le_trans b.prepend_le (Nat.le_add_right _ _)
      reader_le := by
        unfold readableBytes at h
        omega }
  else b.retrieveAll

theorem length_readable (b : Buffer) : b.readable.length = b.readableBytes := by
  have h := b.writer_le
  simp only [readable, readableBytes, List.length_drop, List.length_take]
  omega

/-- There is room for the readable bytes behind the prepend. -/
theorem prepend_add_readableBytes_le (b : Buffer) :
    kCheapPrepend + b.readableBytes ≤ b.buffer.length := by
  have hp := b.prepend_le
  have hr := b.reader_le
  have hw := b.writer_le
  unfold readableBytes
  omega

theorem prepend_add_readable_le (b : Buffer) :
    kCheapPrepend + b.readable.length ≤ b.buffer.length :=
  b.length_readable ▸ b.prepend_add_readableBytes_le

/-- The vector resized, for `len` bytes behind the writer index. -/
def grow (b : Buffer) (len : Nat) : Buffer :=
  { b with
    buffer := resize b.buffer (b.writerIndex + len)
    writer_le := by
      rw [length_resize]
      exact Nat.le_add_right _ _ }

/-- The readable bytes moved to the front. -/
def moveToFront (b : Buffer) : Buffer where
  buffer := overwrite b.buffer kCheapPrepend b.readable b.prepend_add_readable_le
  readerIndex := kCheapPrepend
  writerIndex := kCheapPrepend + b.readableBytes
  prepend_le := Nat.le_refl _
  reader_le := Nat.le_add_right _ _
  writer_le := by
    rw [length_overwrite]
    exact b.prepend_add_readableBytes_le

/-- `Buffer::MakeSpace`. -/
def makeSpace (b : Buffer) (len : Nat) : Buffer :=
  if b.prependableBytes + b.writableBytes - kCheapPrepend < len then b.grow len
  else b.moveToFront

def ensureWritableBytes (b : Buffer) (len : Nat) : Buffer :=
  if b.writableBytes < len then b.makeSpace len else b

/-- **After `EnsureWritableBytes(len)` there is room for `len` bytes.** -/
theorem le_writableBytes (b : Buffer) (len : Nat) :
    len ≤ (b.ensureWritableBytes len).writableBytes := by
  have hr := b.reader_le
  have hw := b.writer_le
  have hp := b.prepend_le
  unfold ensureWritableBytes
  split
  · unfold makeSpace
    split
    · show len ≤ (resize b.buffer (b.writerIndex + len)).length - b.writerIndex
      rw [length_resize]
      omega
    · rename_i h
      simp only [prependableBytes, writableBytes] at h
      show len ≤ (overwrite b.buffer kCheapPrepend b.readable b.prepend_add_readable_le).length -
        (kCheapPrepend + b.readableBytes)
      rw [length_overwrite, readableBytes]
      omega
  · rename_i h
    exact Nat.le_of_not_lt h

theorem writerIndex_add_le_of_fits (b : Buffer) {len : Nat} (h : len ≤ b.writableBytes) :
    b.writerIndex + len ≤ b.buffer.length := by
  have hw := b.writer_le
  unfold writableBytes at h
  omega

/-- Bytes put behind the writer index, which moves past them; they fit. -/
def push (b : Buffer) (data : List UInt8) (h : data.length ≤ b.writableBytes) : Buffer where
  buffer := overwrite b.buffer b.writerIndex data (b.writerIndex_add_le_of_fits h)
  readerIndex := b.readerIndex
  writerIndex := b.writerIndex + data.length
  prepend_le := b.prepend_le
  reader_le := Nat.le_trans b.reader_le (Nat.le_add_right _ _)
  writer_le := by
    rw [length_overwrite]
    exact b.writerIndex_add_le_of_fits h

/-- `Buffer::Append(char const* data, size_t len)`. -/
def append (b : Buffer) (data : List UInt8) : Buffer :=
  (b.ensureWritableBytes data.length).push data (b.le_writableBytes data.length)

/-- What `readv` may fill in `Buffer::ReadFd`. -/
def readCapacity (b : Buffer) : Nat :=
  if b.writableBytes < kExtraBuf then b.writableBytes + kExtraBuf else b.writableBytes

/-- `Buffer::ReadFd` after a `readv` that returned `data`: what does not fit goes through
    `extrabuf`. -/
def readFd (b : Buffer) (data : List UInt8) : Buffer :=
  if h : data.length ≤ b.writableBytes then b.push data h
  else (b.push (data.take b.writableBytes) (List.length_take_le _ _)).append
    (data.drop b.writableBytes)

/-- `Buffer::WriteFd` after a `write` that returned `n`. -/
def writeFd (b : Buffer) (n : Nat) : Buffer := b.retrieve n

/-! ## What the operations do to the content -/

section Content

variable (b : Buffer)

theorem writableBytes_create (n : Nat) : (create n).writableBytes = n := by
  show (List.replicate (kCheapPrepend + n) (0 : UInt8)).length - kCheapPrepend = n
  rw [List.length_replicate, Nat.add_sub_cancel_left]

theorem readableBytes_eq_zero : b.readableBytes = 0 ↔ b.readable = [] := by
  rw [← length_readable, List.length_eq_zero_iff]

@[simp] theorem readable_create (n : Nat) : (create n).readable = [] := by
  rw [← readableBytes_eq_zero]
  exact Nat.sub_self _

@[simp] theorem readable_retrieveAll : b.retrieveAll.readable = [] := by
  rw [← readableBytes_eq_zero]
  exact Nat.sub_self _

/-- **`Retrieve` takes from the front.** -/
@[simp] theorem readable_retrieve (len : Nat) :
    (b.retrieve len).readable = b.readable.drop len := by
  unfold retrieve
  split
  · simp only [readable, List.drop_drop]
  · rename_i h
    rw [readable_retrieveAll, List.drop_eq_nil_of_le]
    rw [length_readable]
    exact Nat.le_of_not_lt h

@[simp] theorem readable_writeFd (n : Nat) : (b.writeFd n).readable = b.readable.drop n :=
  b.readable_retrieve n

/-- **`MakeSpace` keeps the content.** -/
theorem readable_makeSpace (len : Nat) : (b.makeSpace len).readable = b.readable := by
  have hr := b.reader_le
  have hw := b.writer_le
  have hp := b.prepend_le
  unfold makeSpace
  split
  · show ((resize b.buffer (b.writerIndex + len)).take b.writerIndex).drop b.readerIndex = _
    unfold resize readable
    rw [List.take_append_of_le_length (by rw [List.length_take]; omega), List.take_take,
      Nat.min_eq_left (by omega)]
  · show ((overwrite b.buffer kCheapPrepend b.readable b.prepend_add_readable_le).take
      (kCheapPrepend + b.readableBytes)).drop kCheapPrepend = b.readable
    have hlen : (b.buffer.take kCheapPrepend).length = kCheapPrepend := by
      rw [List.length_take]
      omega
    unfold overwrite
    rw [List.append_assoc, List.take_append, hlen, Nat.add_sub_cancel_left,
      List.take_of_length_le (by rw [hlen]; omega),
      List.drop_append_of_le_length (Nat.le_of_eq hlen.symm),
      List.drop_of_length_le (Nat.le_of_eq hlen),
      List.nil_append, List.take_append_of_le_length (Nat.le_of_eq b.length_readable.symm),
      List.take_of_length_le (Nat.le_of_eq b.length_readable)]

theorem readable_ensureWritableBytes (len : Nat) :
    (b.ensureWritableBytes len).readable = b.readable := by
  unfold ensureWritableBytes
  split
  · exact b.readable_makeSpace len
  · rfl

/-- Bytes put behind the writer index follow the content. -/
theorem readable_push {data : List UInt8} (h : data.length ≤ b.writableBytes) :
    (b.push data h).readable = b.readable ++ data := by
  have hr := b.reader_le
  have hw := b.writer_le
  have hlen : (b.buffer.take b.writerIndex).length = b.writerIndex := by
    rw [List.length_take]
    omega
  show ((overwrite b.buffer b.writerIndex data (b.writerIndex_add_le_of_fits h)).take
    (b.writerIndex + data.length)).drop b.readerIndex = _
  unfold overwrite readable
  rw [List.take_append_of_le_length (Nat.le_of_eq (by rw [List.length_append, hlen])),
    List.take_of_length_le (Nat.le_of_eq (by rw [List.length_append, hlen])),
    List.drop_append_of_le_length (by rw [hlen]; exact hr)]

/-- **`Append` adds at the end.** -/
@[simp] theorem readable_append (data : List UInt8) :
    (b.append data).readable = b.readable ++ data := by
  rw [append, readable_push, readable_ensureWritableBytes]

/-- **`ReadFd` adds at the end**, whether the bytes fit or go through `extrabuf`. -/
@[simp] theorem readable_readFd (data : List UInt8) :
    (b.readFd data).readable = b.readable ++ data := by
  unfold readFd
  split
  · exact b.readable_push _
  · rw [readable_append, readable_push, List.append_assoc, List.take_append_drop]

end Content

end Buffer

end CuteMuduo
