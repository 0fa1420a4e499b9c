/-
  File:      CuteMuduo/Buffer/Limits.lean
  Subject:   `Buffer` IN 64-BIT WORDS: the constructor and `EnsureWritableBytes` (buffer.cpp) as
             they compute, with sums and differences of `size_t` that wrap.

  `Buffer.lean` computes with natural numbers. Here the indices are words, `buffer_.size()` is one,
  and nothing is carried: that the indices are in order is a property (`InOrder`) an operation
  keeps or not. The vector is the library's: its constructor and `resize` throw above `max_size()`,
  and leave everything as it was.

  * `ensureWritableBytes_toBuffer` -- where `writer_index_ + len` does not wrap, the words compute
    what the numbers do;
  * `inOrder_near_limit` -- which sizes the constructor and `EnsureWritableBytes` survive: all but
    those whose sum wraps to a size the vector does not refuse.
-/
import CuteMuduo.Buffer.Calls
import Mathlib.Algebra.Group.Nat.Defs

namespace CuteMuduo

/-- `size_t`. -/
abbrev SizeT := BitVec 64

/-- The fields of a `Buffer`, with nothing known about them. -/
structure WordBuffer where
  buffer : List UInt8
  readerIndex : SizeT
  writerIndex : SizeT
  deriving DecidableEq

namespace WordBuffer

/-- `static const size_t kCheapPrepend`. -/
def cheapPrepend : SizeT := BitVec.ofNat 64 kCheapPrepend

/-- `std::vector<char>(n)`; nothing where it throws. -/
def vectorNew (maxSize n : SizeT) : Option (List UInt8) :=
  if n ≤ maxSize then some (List.replicate n.toNat 0) else none

/-- `std::vector::resize(n)`; nothing where it throws. -/
def vectorResize (maxSize : SizeT) (xs : List UInt8) (n : SizeT) : Option (List UInt8) :=
  if n ≤ maxSize then some (resize xs n.toNat) else none

/-- `Buffer::Buffer(size_t initial_size)`; nothing where the vector throws. -/
def create (maxSize initialSize : SizeT) : Option WordBuffer :=
  (vectorNew maxSize (cheapPrepend + initialSize)).map fun xs =>
    { buffer := xs, readerIndex := cheapPrepend, writerIndex := cheapPrepend }

/-- `buffer_.size()`. -/
def size (b : WordBuffer) : SizeT := BitVec.ofNat 64 b.buffer.length

def readableBytes (b : WordBuffer) : SizeT := b.writerIndex - b.readerIndex

def writableBytes (b : WordBuffer) : SizeT := b.size - b.writerIndex

def prependableBytes (b : WordBuffer) : SizeT := b.readerIndex

/-- The bytes between `Peek()` and `BeginWrite()`. -/
def readable (b : WordBuffer) : List UInt8 :=
  (b.buffer.take b.writerIndex.toNat).drop b.readerIndex.toNat

/-- The test in `MakeSpace`: the vector is resized. -/
def resizes (b : WordBuffer) (len : SizeT) : Bool :=
  decide (b.prependableBytes + b.writableBytes - cheapPrepend < len)

/-- `Buffer::MakeSpace`: the buffer behind it, and whether it threw. Bytes that do not fit where
    they are to be moved are undefined behaviour; a buffer in order has none. -/
def makeSpace (maxSize : SizeT) (b : WordBuffer) (len : SizeT) : WordBuffer × Bool :=
  if b.resizes len then
    match vectorResize maxSize b.buffer (b.writerIndex + len) with
    | some xs => ({ b with buffer := xs }, false)
    | none => (b, true)
  else if h : kCheapPrepend + b.readable.length ≤ b.buffer.length then
    ({ buffer := overwrite b.buffer kCheapPrepend b.readable h
       readerIndex := cheapPrepend
       writerIndex := cheapPrepend + b.readableBytes }, false)
  else (b, false)

/-- `Buffer::EnsureWritableBytes`: the buffer behind it, and whether it threw. -/
def ensureWritableBytes (maxSize : SizeT) (b : WordBuffer) (len : SizeT) : WordBuffer × Bool :=
  if b.writableBytes < len then b.makeSpace maxSize len else (b, false)

/-- **The indices are in order**, and the vector is one that can be. -/
structure InOrder (maxSize : SizeT) (b : WordBuffer) : Prop where
  prepend_le : cheapPrepend ≤ b.readerIndex
  reader_le : b.readerIndex ≤ b.writerIndex
  writer_le : b.writerIndex ≤ b.size
  size_le : b.buffer.length ≤ maxSize.toNat

/-- **What `EnsureWritableBytes(len)` is for**: it throws and changes nothing, or there is room for
    `len` bytes behind the same content. -/
def Ensures (maxSize : SizeT) (b : WordBuffer) (len : SizeT) (r : WordBuffer × Bool) : Prop :=
  if r.2 then r.1 = b
  else r.1.InOrder maxSize ∧ len ≤ r.1.writableBytes ∧ r.1.readable = b.readable

/-! ## Words and numbers -/

section Words

variable {maxSize : SizeT} {b : WordBuffer}

theorem toNat_size (h : b.InOrder maxSize) : b.size.toNat = b.buffer.length := by
  have hm := maxSize.isLt
  have hs := h.size_le
  rw [size, BitVec.toNat_ofNat]
  exact Nat.mod_eq_of_lt (by omega)

/-- **The buffer, in numbers.** -/
def toBuffer (b : WordBuffer) (h : b.InOrder maxSize) : Buffer where
  buffer := b.buffer
  readerIndex := b.readerIndex.toNat
  writerIndex := b.writerIndex.toNat
  prepend_le := h.prepend_le
  reader_le := h.reader_le
  writer_le := toNat_size h ▸ h.writer_le

theorem readable_toBuffer (h : b.InOrder maxSize) : (b.toBuffer h).readable = b.readable := rfl

theorem toNat_readableBytes (h : b.InOrder maxSize) :
    b.readableBytes.toNat = (b.toBuffer h).readableBytes :=
  BitVec.toNat_sub_of_le h.reader_le

theorem toNat_writableBytes (h : b.InOrder maxSize) :
    b.writableBytes.toNat = (b.toBuffer h).writableBytes := by
  rw [writableBytes, BitVec.toNat_sub_of_le h.writer_le, toNat_size h]
  rfl

/-- **The test in `MakeSpace` does not wrap**, wherever the indices are. -/
theorem resizes_iff (h : b.InOrder maxSize) (len : SizeT) : b.resizes len = true ↔
    (b.toBuffer h).prependableBytes + (b.toBuffer h).writableBytes - kCheapPrepend <
      len.toNat := by
  have hp := (b.toBuffer h).prepend_le
  have hr := (b.toBuffer h).reader_le
  have hw := (b.toBuffer h).writer_le
  have hlen : b.buffer.length < 2 ^ 64 := Nat.lt_of_le_of_lt h.size_le maxSize.isLt
  have hadd : (b.prependableBytes + b.writableBytes).toNat =
      (b.toBuffer h).prependableBytes + (b.toBuffer h).writableBytes := by
    rw [BitVec.toNat_add, toNat_writableBytes h]
    refine Nat.mod_eq_of_lt ?_
    show b.readerIndex.toNat + (b.buffer.length - b.writerIndex.toNat) < 2 ^ 64
    have hr' : b.readerIndex.toNat ≤ b.writerIndex.toNat := hr
    have hw' : b.writerIndex.toNat ≤ b.buffer.length := hw
    omega
  have hle : cheapPrepend ≤ b.prependableBytes + b.writableBytes := by
    rw [BitVec.le_def, hadd]
    exact Nat.le_trans hp (Nat.le_add_right _ _)
  rw [resizes, decide_eq_true_iff, BitVec.lt_def, BitVec.toNat_sub_of_le hle, hadd]
  rfl

/-- A buffer of words whose numbers are those of a `Buffer` is in order. -/
theorem inOrder_of_eq {c : Buffer} (hb : b.buffer = c.buffer)
    (hr : b.readerIndex.toNat = c.readerIndex) (hw : b.writerIndex.toNat = c.writerIndex)
    (hs : b.buffer.length ≤ maxSize.toNat) :
    ∃ h : b.InOrder maxSize, b.toBuffer h = c := by
  have hlen : b.size.toNat = b.buffer.length :=
    Nat.mod_eq_of_lt (Nat.lt_of_le_of_lt hs maxSize.isLt)
  obtain ⟨xs, r, w⟩ := b
  obtain ⟨ys, r', w', hp, hrw, hwl⟩ := c
  subst hb hr hw
  exact ⟨⟨hp, hrw, BitVec.le_def.mpr (hlen.symm ▸ hwl), hs⟩, rfl⟩

/-- **Where `writer_index_ + len` does not wrap, the words compute what the numbers do**, unless
    the vector throws. -/
theorem ensureWritableBytes_toBuffer (h : b.InOrder maxSize) {len : SizeT}
    (hlt : b.resizes len = true → b.writerIndex.toNat + len.toNat < 2 ^ 64)
    (hr : (b.ensureWritableBytes maxSize len).2 = false) :
    ∃ h' : (b.ensureWritableBytes maxSize len).1.InOrder maxSize,
      (b.ensureWritableBytes maxSize len).1.toBuffer h' =
        (b.toBuffer h).ensureWritableBytes len.toNat := by
  have hw : b.writableBytes < len ↔ (b.toBuffer h).writableBytes < len.toNat := by
    rw [BitVec.lt_def, toNat_writableBytes h]
  unfold ensureWritableBytes Buffer.ensureWritableBytes at *
  by_cases hen : b.writableBytes < len
  · rw [if_pos hen] at hr ⊢
    rw [if_pos (hw.mp hen)]
    unfold makeSpace Buffer.makeSpace at *
    by_cases hre : b.resizes len = true
    · -- the sum is the number, and the vector takes it
      have hsum : (b.writerIndex + len).toNat = b.writerIndex.toNat + len.toNat := by
        rw [BitVec.toNat_add]
        exact Nat.mod_eq_of_lt (hlt hre)
      rw [if_pos hre] at hr ⊢
      rw [if_pos ((resizes_iff h len).mp hre)]
      unfold vectorResize at *
      by_cases hm : b.writerIndex + len ≤ maxSize
      · rw [if_pos hm]
        refine inOrder_of_eq ?_ rfl rfl ?_
        · show resize b.buffer (b.writerIndex + len).toNat = _
          rw [hsum]
          rfl
        · show (resize b.buffer (b.writerIndex + len).toNat).length ≤ maxSize.toNat
          rw [length_resize]
          exact hm
      · rw [if_neg hm] at hr
        cases hr
    · -- the bytes are moved; nothing is computed that could wrap
      rw [if_neg hre]
      rw [if_neg fun hn => hre ((resizes_iff h len).mpr hn)]
      have hle : kCheapPrepend + (b.toBuffer h).readableBytes ≤ b.buffer.length :=
        (b.toBuffer h).prepend_add_readableBytes_le
      have hfit : kCheapPrepend + b.readable.length ≤ b.buffer.length :=
        (b.toBuffer h).prepend_add_readable_le
      rw [dif_pos hfit]
      refine inOrder_of_eq rfl rfl ?_ ((length_overwrite hfit).symm ▸ h.size_le)
      show (cheapPrepend + b.readableBytes).toNat = _
      rw [BitVec.toNat_add, toNat_readableBytes h]
      exact Nat.mod_eq_of_lt (Nat.lt_of_le_of_lt (Nat.le_trans hle h.size_le) maxSize.isLt)
  · rw [if_neg hen]
    rw [if_neg fun hn => hen (hw.mpr hn)]
    exact ⟨h, rfl⟩

end Words

/-! ## Where they hold -/

section Holds

variable {maxSize : SizeT} {b : WordBuffer} {len : SizeT}

/-- `EnsureWritableBytes` that throws has changed nothing. -/
theorem ensureWritableBytes_threw (h : (b.ensureWritableBytes maxSize len).2 = true) :
    (b.ensureWritableBytes maxSize len).1 = b := by
  unfold ensureWritableBytes makeSpace at *
  split
  · rename_i hen
    rw [if_pos hen] at h
    split
    · rename_i hre
      rw [if_pos hre] at h
      cases hv : vectorResize maxSize b.buffer (b.writerIndex + len) with
      | some xs =>
          rw [hv] at h
          cases h
      | none => rfl
    · rename_i hre
      rw [if_neg hre] at h
      split at h <;> cases h
  · rfl

/-- **The resize whose size wraps** leaves the writer index behind the end of the vector. -/
theorem not_inOrder_of_wrap (h : b.InOrder maxSize) (hre : b.resizes len = true)
    (hwrap : 2 ^ 64 ≤ b.writerIndex.toNat + len.toNat) :
    (b.ensureWritableBytes maxSize len).2 = false ∧
      ¬ (b.ensureWritableBytes maxSize len).1.InOrder maxSize := by
  have hlen := len.isLt
  have hw : b.writerIndex.toNat ≤ b.buffer.length := (b.toBuffer h).writer_le
  have hs := h.size_le
  have hm := maxSize.isLt
  have hsum : (b.writerIndex + len).toNat = b.writerIndex.toNat + len.toNat - 2 ^ 64 := by
    rw [BitVec.toNat_add]
    omega
  have hen : b.writableBytes < len := by
    rw [BitVec.lt_def, toNat_writableBytes h]
    show b.buffer.length - b.writerIndex.toNat < len.toNat
    omega
  have hle : b.writerIndex + len ≤ maxSize := by
    rw [BitVec.le_def, hsum]
    omega
  have he : b.ensureWritableBytes maxSize len =
      ({ b with buffer := resize b.buffer (b.writerIndex + len).toNat }, false) := by
    rw [ensureWritableBytes, if_pos hen, makeSpace, if_pos hre, vectorResize, if_pos hle]
  rw [he]
  refine ⟨rfl, fun hio => ?_⟩
  have hbad := (toBuffer _ hio).writer_le
  replace hbad : b.writerIndex.toNat ≤ (resize b.buffer (b.writerIndex + len).toNat).length := hbad
  rw [length_resize, hsum] at hbad
  omega

/-- **`EnsureWritableBytes(len)` does what it is for, exactly unless it resizes to a size that
    wraps.** -/
theorem ensures_iff (h : b.InOrder maxSize) :
    Ensures maxSize b len (b.ensureWritableBytes maxSize len) ↔
      (b.resizes len = true → b.writerIndex.toNat + len.toNat < 2 ^ 64) := by
  constructor
  · intro he hre
    refine Nat.lt_of_not_le fun hwrap => ?_
    obtain ⟨hr, hbad⟩ := not_inOrder_of_wrap h hre hwrap
    rw [Ensures, hr] at he
    exact hbad he.1
  · intro hlt
    unfold Ensures
    split
    · rename_i hr
      exact ensureWritableBytes_threw hr
    · rename_i hr
      obtain ⟨h', he⟩ := ensureWritableBytes_toBuffer h hlt (Bool.not_eq_true _ ▸ hr)
      refine ⟨h', ?_, ?_⟩
      · rw [BitVec.le_def, toNat_writableBytes h', he]
        exact Buffer.le_writableBytes _ _
      · rw [← readable_toBuffer h', he, Buffer.readable_ensureWritableBytes]
        rfl

/-- **The constructor leaves what it should, or throws, exactly unless its size wraps** to one the
    vector takes. -/
theorem create_iff (maxSize initialSize : SizeT) :
    (∀ b, create maxSize initialSize = some b →
        b.InOrder maxSize ∧ initialSize ≤ b.writableBytes) ↔
      (kCheapPrepend + initialSize.toNat < 2 ^ 64 ∨ maxSize < cheapPrepend + initialSize) := by
  have hi := initialSize.isLt
  have hm := maxSize.isLt
  have hsum : (cheapPrepend + initialSize).toNat = (kCheapPrepend + initialSize.toNat) % 2 ^ 64 :=
    BitVec.toNat_add _ _
  unfold create vectorNew
  by_cases hle : cheapPrepend + initialSize ≤ maxSize
  · have hnot : ¬ maxSize < cheapPrepend + initialSize := BitVec.not_lt.mpr hle
    rw [if_pos hle, Option.map_some]
    have hlen : (List.replicate (cheapPrepend + initialSize).toNat (0 : UInt8)).length =
        (cheapPrepend + initialSize).toNat := List.length_replicate
    constructor
    · intro h
      obtain ⟨hio, _⟩ := h _ rfl
      have hw := (toBuffer _ hio).writer_le
      replace hw : kCheapPrepend ≤
        (List.replicate (cheapPrepend + initialSize).toNat (0 : UInt8)).length := hw
      rw [hlen, hsum] at hw
      unfold kCheapPrepend at *
      left
      omega
    · intro h b hb
      cases hb
      have hlt : kCheapPrepend + initialSize.toNat < 2 ^ 64 := h.resolve_right hnot
      rw [Nat.mod_eq_of_lt hlt] at hsum
      have hs : (List.replicate (cheapPrepend + initialSize).toNat (0 : UInt8)).length ≤
          maxSize.toNat := by
        rw [hlen]
        exact hle
      obtain ⟨hio, he⟩ := inOrder_of_eq (c := .create initialSize.toNat)
        (b := ⟨List.replicate (cheapPrepend + initialSize).toNat 0, cheapPrepend, cheapPrepend⟩)
        (congrArg (List.replicate · 0) hsum) rfl rfl hs
      refine ⟨hio, ?_⟩
      rw [BitVec.le_def, toNat_writableBytes hio, he]
      exact Nat.le_of_eq (Buffer.writableBytes_create _).symm
  · rw [if_neg hle]
    exact iff_of_true (fun _ hb => absurd hb.symm (Option.some_ne_none _))
      (Or.inr (BitVec.not_le.mp hle))

/-- Below 2^63 bytes, where the vectors of this platform end, every sum that wraps is one that
    `MakeSpace` resizes to. -/
theorem resizes_of_wrap (hmax : maxSize.toNat < 2 ^ 63) (h : b.InOrder maxSize)
    (hwrap : 2 ^ 64 ≤ b.writerIndex.toNat + len.toNat) : b.resizes len = true := by
  have hr : b.readerIndex.toNat ≤ b.writerIndex.toNat := h.reader_le
  have hw : b.writerIndex.toNat ≤ b.buffer.length := (b.toBuffer h).writer_le
  have hs := h.size_le
  rw [resizes_iff h]
  show b.readerIndex.toNat + (b.buffer.length - b.writerIndex.toNat) - kCheapPrepend < len.toNat
  omega

/-- **Sizes near the limit of `size_t`.** Whatever the vector's `max_size()` is: the constructor
    throws, or leaves the indices in order and room for `initial_size` bytes, if and only if
    `kCheapPrepend + initial_size` does not wrap, or wraps to a size the vector refuses. With the
    indices in order, `EnsureWritableBytes(len)` throws and changes nothing, or leaves room for
    `len` bytes behind the same content, if and only if it does not resize to a
    `writer_index_ + len` that wraps; and with a `max_size()` below 2^63 that is, if and only if
    `writer_index_ + len` does not wrap. -/
theorem inOrder_near_limit (maxSize : SizeT) :
    (∀ initialSize, (∀ b, create maxSize initialSize = some b →
        b.InOrder maxSize ∧ initialSize ≤ b.writableBytes) ↔
      (kCheapPrepend + initialSize.toNat < 2 ^ 64 ∨ maxSize < cheapPrepend + initialSize)) ∧
    ∀ b : WordBuffer, b.InOrder maxSize → ∀ len,
      (Ensures maxSize b len (b.ensureWritableBytes maxSize len) ↔
        (b.resizes len = true → b.writerIndex.toNat + len.toNat < 2 ^ 64)) ∧
      (maxSize.toNat < 2 ^ 63 → (Ensures maxSize b len (b.ensureWritableBytes maxSize len) ↔
        b.writerIndex.toNat + len.toNat < 2 ^ 64)) := by
  refine ⟨create_iff maxSize, fun b h len => ⟨ensures_iff h, fun hmax => ?_⟩⟩
  rw [ensures_iff h]
  refine ⟨fun hre => Nat.lt_of_not_le fun hwrap => ?_, fun hlt _ => hlt⟩
  exact Nat.not_lt.mpr hwrap (hre (resizes_of_wrap hmax h hwrap))

/-- `max_size()` of a vector of bytes. -/
def vectorMaxSize : SizeT := BitVec.ofNat 64 (2 ^ 63 - 1)

/-- `Buffer(0)`. -/
def emptyWords : WordBuffer := ⟨List.replicate 8 0, 8, 8⟩

theorem inOrder_emptyWords : emptyWords.InOrder vectorMaxSize :=
  ⟨by decide, by decide, by decide, by decide⟩

theorem inOrder_near_limit_empty :
    (∀ initialSize, (∀ b, create vectorMaxSize initialSize = some b →
        b.InOrder vectorMaxSize ∧ initialSize ≤ b.writableBytes) ↔
      (kCheapPrepend + initialSize.toNat < 2 ^ 64 ∨
        vectorMaxSize < cheapPrepend + initialSize)) ∧
    ∀ len,
      (Ensures vectorMaxSize emptyWords len (emptyWords.ensureWritableBytes vectorMaxSize len) ↔
        (emptyWords.resizes len = true → emptyWords.writerIndex.toNat + len.toNat < 2 ^ 64)) ∧
      (Ensures vectorMaxSize emptyWords len (emptyWords.ensureWritableBytes vectorMaxSize len) ↔
        emptyWords.writerIndex.toNat + len.toNat < 2 ^ 64) := by
  obtain ⟨hc, he⟩ := inOrder_near_limit vectorMaxSize
  refine ⟨hc, fun len => ?_⟩
  obtain ⟨h, hmax⟩ := he emptyWords inOrder_emptyWords len
  exact ⟨h, hmax (by decide)⟩

/-- **Sizes that wrap**: `Buffer(2^64 - 1)` does not throw and has its writer index behind the end
    of its seven bytes; `EnsureWritableBytes(2^64 - 8)` on `Buffer(0)` does not throw and leaves
    no byte at all. -/
theorem sizes_wrap :
    (¬ ∀ initialSize b, create vectorMaxSize initialSize = some b →
      b.InOrder vectorMaxSize ∧ initialSize ≤ b.writableBytes) ∧
    ¬ ∀ b len, b.InOrder vectorMaxSize →
      Ensures vectorMaxSize b len (b.ensureWritableBytes vectorMaxSize len) := by
  constructor
  · intro h
    obtain ⟨hio, _⟩ := h (BitVec.ofNat 64 (2 ^ 64 - 1)) ⟨List.replicate 7 0, 8, 8⟩ rfl
    exact absurd hio.writer_le (by decide)
  · intro h
    have he := h emptyWords (BitVec.ofNat 64 (2 ^ 64 - 8)) inOrder_emptyWords
    have hr : (emptyWords.ensureWritableBytes vectorMaxSize (BitVec.ofNat 64 (2 ^ 64 - 8))) =
        (⟨[], 8, 8⟩, false) := by decide +kernel
    rw [hr] at he
    exact absurd he.1.writer_le (by decide)

end Holds

end WordBuffer

end CuteMuduo
