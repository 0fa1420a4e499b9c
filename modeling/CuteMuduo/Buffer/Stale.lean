/-
  File:      CuteMuduo/Buffer/Stale.lean
  Subject:   WHAT CAN BE SEEN OF A `Buffer`: the strings it returns, `ToString()`,
             `ReadableBytes()` and `FindCRLF()`, over any sequence of calls.

  The buffer never clears a byte it has given away; the old ones lie on in front of `Peek()` and
  behind `BeginWrite()`. What is seen should be a matter of the content alone (`ReadCall.seen`).
  `Retrieve(len)` takes no more than is readable; `RetrieveAsString(len)` builds its string from
  `len` bytes, readable or not, and then calls `Retrieve(len)`. Longer than the content, the string
  goes on into what lies behind it, and behind the vector (`returned_eq_iff`); everything else stops
  at `writer_index_` (`stale_bytes_iff`).
-/
import CuteMuduo.Buffer.Lines

namespace CuteMuduo

/-- The calls that put bytes in and take them out. -/
inductive ReadCall where
  | append (data : List UInt8)
  | retrieve (len : Nat)
  | retrieveAsString (len : Nat)
  | retrieveAllAsString
  | retrieveAll
  deriving DecidableEq, Repr

/-- What a call returns: no string, one, or one built from memory behind the vector. -/
inductive Returned where
  | nothing
  | string (s : List UInt8)
  | undefined
  deriving DecidableEq, Repr

/-- What is seen behind a call. -/
structure Seen where
  returned : Returned
  toString : List UInt8
  readableBytes : Nat
  findCRLF : Option Nat
  deriving DecidableEq

namespace Buffer

/-- `Buffer::ToString`: the `ReadableBytes()` bytes from `Peek()` on. -/
def toString (b : Buffer) : List UInt8 := (b.buffer.drop b.readerIndex).take b.readableBytes

/-- The string of the `len` bytes from `Peek()` on; the vector must hold them. -/
def stringFromPeek (b : Buffer) (len : Nat) : Returned :=
  if b.readerIndex + len ≤ b.buffer.length then .string ((b.buffer.drop b.readerIndex).take len)
  else .undefined

/-- The buffer behind a call. -/
def behind (b : Buffer) : ReadCall → Buffer
  | .append data => b.append data
  | .retrieve len => b.retrieve len
  | .retrieveAsString len => (b.retrieveAsString len).2
  | .retrieveAllAsString => b.retrieveAllAsString.2
  | .retrieveAll => b.retrieveAll

/-- What a call returns. -/
def returned (b : Buffer) : ReadCall → Returned
  | .retrieveAsString len => b.stringFromPeek len
  | .retrieveAllAsString => b.stringFromPeek b.readableBytes
  | .append _ | .retrieve _ | .retrieveAll => .nothing

/-- What is seen behind a call. -/
def seen (b : Buffer) (call : ReadCall) : Seen where
  returned := b.returned call
  toString := (b.behind call).toString
  readableBytes := (b.behind call).readableBytes
  findCRLF := (b.behind call).findCRLF

/-- **What is seen over a sequence of calls.** -/
def observe (b : Buffer) : List ReadCall → List Seen
  | [] => []
  | call :: calls => b.seen call :: (b.behind call).observe calls

end Buffer

/-! ## On the content alone -/

namespace ReadCall

/-- The content behind a call. -/
def rest (content : List UInt8) : ReadCall → List UInt8
  | .append data => content ++ data
  | .retrieve len | .retrieveAsString len => content.drop len
  | .retrieveAllAsString | .retrieveAll => []

/-- **What a call returns of the content**: the bytes it takes. -/
def string (content : List UInt8) : ReadCall → Returned
  | .retrieveAsString len => .string (content.take len)
  | .retrieveAllAsString => .string content
  | .append _ | .retrieve _ | .retrieveAll => .nothing

/-- What is seen of the content. -/
def seen (content : List UInt8) (call : ReadCall) : Seen where
  returned := call.string content
  toString := call.rest content
  readableBytes := (call.rest content).length
  findCRLF := Search.find kCRLF (call.rest content)

def observe (content : List UInt8) : List ReadCall → List Seen
  | [] => []
  | call :: calls => call.seen content :: observe (call.rest content) calls

/-- `RetrieveAsString` asks for no more than is readable. -/
def within (content : List UInt8) : ReadCall → Bool
  | .retrieveAsString len => decide (len ≤ content.length)
  | _ => true

/-- **Every `RetrieveAsString` of the sequence asks for no more than is readable.** -/
def allWithin (content : List UInt8) : List ReadCall → Bool
  | [] => true
  | call :: calls => call.within content && allWithin (call.rest content) calls

end ReadCall

namespace Buffer

section Observed

variable (b : Buffer)

theorem toString_eq : b.toString = b.readable := by
  rw [toString, b.take_drop_readerIndex (Nat.le_refl _)]
  exact List.take_of_length_le (Nat.le_of_eq b.length_readable)

/-- What is readable lies in the vector. -/
theorem stringFromPeek_of_le {len : Nat} (h : len ≤ b.readableBytes) :
    b.stringFromPeek len = .string (b.readable.take len) := by
  have hr := b.reader_le
  have hw := b.writer_le
  rw [stringFromPeek, b.take_drop_readerIndex h]
  refine if_pos ?_
  unfold readableBytes at h
  omega

/-- **A longer string goes on behind the content**: where the vector is long enough, into the bytes
    that lie behind `BeginWrite()`. -/
theorem stringFromPeek_of_lt {len : Nat} (h : b.readableBytes < len) : b.stringFromPeek len =
    if b.readerIndex + len ≤ b.buffer.length then
      .string (b.readable ++ (b.buffer.drop b.writerIndex).take (len - b.readableBytes))
    else .undefined := by
  have hr := b.reader_le
  have hw := b.writer_le
  unfold stringFromPeek
  split
  · rename_i hle
    have hcut : (b.buffer.drop b.readerIndex) =
        b.readable ++ b.buffer.drop b.writerIndex := by
      rw [readable, ← List.drop_append_of_le_length (by rw [List.length_take]; omega),
        List.take_append_drop]
    rw [hcut, List.take_append, length_readable,
      List.take_of_length_le (Nat.le_trans (Nat.le_of_eq b.length_readable) (Nat.le_of_lt h))]
  · rfl

theorem readable_behind (call : ReadCall) :
    (b.behind call).readable = call.rest b.readable := by
  cases call with
  | append data => exact b.readable_append data
  | retrieve len => exact b.readable_retrieve len
  | retrieveAsString len => exact b.readable_retrieve len
  | retrieveAllAsString =>
      refine (b.readable_retrieve _).trans ?_
      exact List.drop_of_length_le (Nat.le_of_eq b.length_readable)
  | retrieveAll => exact b.readable_retrieveAll

/-- **What a call returns is what it takes of the content, exactly unless it is a
    `RetrieveAsString` that asks for more than is readable.** -/
theorem returned_eq_iff (call : ReadCall) :
    b.returned call = call.string b.readable ↔ call.within b.readable = true := by
  cases call with
  | retrieveAsString len =>
      show b.stringFromPeek len = .string (b.readable.take len) ↔
        decide (len ≤ b.readable.length) = true
      rw [decide_eq_true_iff, length_readable]
      refine ⟨fun he => Nat.le_of_not_lt fun hlt => ?_, b.stringFromPeek_of_le⟩
      have hr := b.reader_le
      have hw := b.writer_le
      rw [b.stringFromPeek_of_lt hlt] at he
      split at he
      · -- the string is longer than the content
        rename_i hle
        have hlen := congrArg List.length (Returned.string.inj he)
        simp only [List.length_append, List.length_take, List.length_drop, length_readable] at hlen
        unfold readableBytes at hlen hlt
        omega
      · cases he
  | retrieveAllAsString =>
      refine iff_of_true ((b.stringFromPeek_of_le (Nat.le_refl _)).trans ?_) rfl
      rw [List.take_of_length_le (Nat.le_of_eq b.length_readable)]
      rfl
  | append data => exact iff_of_true rfl rfl
  | retrieve len => exact iff_of_true rfl rfl
  | retrieveAll => exact iff_of_true rfl rfl

/-- Behind a call the rest of what is seen is a matter of the content. -/
theorem seen_eq (call : ReadCall) (h : b.returned call = call.string b.readable) :
    b.seen call = call.seen b.readable := by
  unfold seen ReadCall.seen
  rw [h, toString_eq, findCRLF_eq, ← length_readable, readable_behind]

/-- **Within the content, everything seen is a matter of the content.** -/
theorem observe_eq (calls : List ReadCall) (h : ReadCall.allWithin b.readable calls = true) :
    b.observe calls = ReadCall.observe b.readable calls := by
  induction calls generalizing b with
  | nil => rfl
  | cons call calls ih =>
      obtain ⟨hw, hrest⟩ := Bool.and_eq_true_iff.mp h
      show b.seen call :: _ = call.seen b.readable :: _
      rw [b.seen_eq call ((b.returned_eq_iff call).mpr hw)]
      rw [← readable_behind] at hrest ⊢
      rw [ih (b.behind call) hrest]

end Observed

/-- **Every `RetrieveAsString(len)` of the sequence returns the bytes its `Retrieve(len)`
    consumes.** -/
def ReturnsConsumed (b : Buffer) : List ReadCall → Prop
  | [] => True
  | call :: calls => (∀ len, call = .retrieveAsString len → ∃ s, b.returned call = .string s ∧
      s ++ (b.retrieve len).readable = b.readable) ∧ (b.behind call).ReturnsConsumed calls

/-- That is so exactly where they ask for no more than is readable. -/
theorem returnsConsumed_iff (b : Buffer) (calls : List ReadCall) :
    b.ReturnsConsumed calls ↔ ReadCall.allWithin b.readable calls = true := by
  induction calls generalizing b with
  | nil => exact iff_of_true trivial rfl
  | cons call calls ih =>
      unfold ReturnsConsumed ReadCall.allWithin
      rw [Bool.and_eq_true, ih, readable_behind]
      refine and_congr_left fun _ => ?_
      rw [← b.returned_eq_iff call]
      constructor
      · intro h
        cases call with
        | retrieveAsString len =>
            obtain ⟨s, hs, happ⟩ := h len rfl
            rw [readable_retrieve] at happ
            have hcut : s ++ b.readable.drop len = b.readable.take len ++ b.readable.drop len :=
              happ.trans (List.take_append_drop _ _).symm
            rw [hs, List.append_cancel_right hcut]
            rfl
        | retrieveAllAsString => exact (b.returned_eq_iff _).mpr rfl
        | append data => rfl
        | retrieve len => rfl
        | retrieveAll => rfl
      · rintro h len rfl
        refine ⟨_, h, ?_⟩
        rw [readable_retrieve, List.take_append_drop]

/-- **Stale bytes do not show, exactly unless `RetrieveAsString` asks for them.** For two buffers
    with the same content, whatever their indices, capacities and other bytes, and any sequence of
    calls: the strings returned, `ToString()`, `ReadableBytes()` and `FindCRLF()` are the same
    behind every call, and every `RetrieveAsString(len)` returns what `Retrieve(len)` consumes, if
    and only if every `RetrieveAsString(len)` comes with `len <= ReadableBytes()`. -/
theorem stale_bytes_iff {b₁ b₂ : Buffer} (h : b₁.readable = b₂.readable) (calls : List ReadCall) :
    (b₁.observe calls = b₂.observe calls ∧ b₁.ReturnsConsumed calls ∧ b₂.ReturnsConsumed calls) ↔
      ReadCall.allWithin b₁.readable calls = true := by
  constructor
  · rintro ⟨_, hc, _⟩
    exact (b₁.returnsConsumed_iff calls).mp hc
  · intro hw
    have hw₂ : ReadCall.allWithin b₂.readable calls = true := h ▸ hw
    refine ⟨?_, (b₁.returnsConsumed_iff calls).mpr hw, (b₂.returnsConsumed_iff calls).mpr hw₂⟩
    rw [b₁.observe_eq calls hw, b₂.observe_eq calls hw₂, h]

/-- A byte in a fresh buffer. -/
def freshOne : Buffer := (create 4).append [1]

/-- The same byte, in front of one of a message that was taken out. -/
def reusedOne : Buffer := (((create 4).append [7, 9]).retrieveAll).append [1]

theorem readable_reusedOne : freshOne.readable = reusedOne.readable := by
  simp only [freshOne, reusedOne, readable_append, readable_create, readable_retrieveAll]

theorem stale_bytes_iff_reused :
    freshOne.observe [.retrieveAsString 1, .append [2], .retrieveAllAsString] =
        reusedOne.observe [.retrieveAsString 1, .append [2], .retrieveAllAsString] ∧
      freshOne.ReturnsConsumed [.retrieveAsString 1, .append [2], .retrieveAllAsString] ∧
      reusedOne.ReturnsConsumed [.retrieveAsString 1, .append [2], .retrieveAllAsString] :=
  (stale_bytes_iff readable_reusedOne _).mpr (by decide +kernel)

/-- **`RetrieveAsString(2)` on one readable byte** gives out a byte of the earlier message where
    there was one, and on 100 it reads behind the vector. -/
theorem retrieveAsString_stale :
    (¬ ∀ b₁ b₂ : Buffer, b₁.readable = b₂.readable → ∀ calls, b₁.observe calls = b₂.observe calls) ∧
    reusedOne.returned (.retrieveAsString 2) = .string [1, 9] ∧
    (reusedOne.retrieve 2).readable = [] ∧
    reusedOne.returned (.retrieveAsString 100) = .undefined := by
  refine ⟨fun h => ?_, by decide +kernel, by decide +kernel, by decide +kernel⟩
  have he := h freshOne reusedOne readable_reusedOne [.retrieveAsString 2]
  exact absurd he (by decide +kernel)

end Buffer

end CuteMuduo
