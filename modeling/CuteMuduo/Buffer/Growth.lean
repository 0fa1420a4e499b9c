/-
  File:      CuteMuduo/Buffer/Growth.lean
  Subject:   HOW LARGE A `Buffer` GROWS, over any sequence of calls (`buffer_growth`): the vector is
             never larger than it was built, or than twice what was to be in it at once.

  `MakeSpace` resizes only where the room in front of the content is less than what is asked for;
  so the room that is wasted there is less than that, too.
-/
import CuteMuduo.Buffer.Calls

namespace CuteMuduo

open Machine

namespace Buffer

/-! ## The size of the vector -/

section Length

variable (b : Buffer) {len : Nat} {data : List UInt8}

theorem length_retrieve : (b.retrieve len).buffer.length = b.buffer.length := by
  unfold retrieve
  split <;> rfl

/-- **`EnsureWritableBytes` wastes less room than it is asked for.** -/
theorem length_ensureWritableBytes :
    b.buffer.length ≤ (b.ensureWritableBytes len).buffer.length ∧
      (b.ensureWritableBytes len).buffer.length ≤
        max b.buffer.length (2 * (b.readableBytes + len) + 7) := by
  have hr := b.reader_le
  have hw := b.writer_le
  have hp := b.prepend_le
  unfold ensureWritableBytes
  split
  · rename_i hlt
    unfold makeSpace
    split
    · rename_i hsmall
      show _ ≤ (resize _ _).length ∧ (resize _ _).length ≤ _
      rw [length_resize]
      unfold prependableBytes writableBytes kCheapPrepend at hsmall
      unfold writableBytes at hlt
      unfold readableBytes
      omega
    · rw [length_moveToFront]
      exact ⟨Nat.le_refl _, Nat.le_max_left _ _⟩
  · exact ⟨Nat.le_refl _, Nat.le_max_left _ _⟩

/-- **`Append`**, likewise. -/
theorem length_append (data : List UInt8) : b.buffer.length ≤ (b.append data).buffer.length ∧
    (b.append data).buffer.length ≤
      max b.buffer.length (2 * (b.readableBytes + data.length) + 7) := by
  rw [length_append_eq]
  exact b.length_ensureWritableBytes

/-- **`ReadFd`**, likewise. -/
theorem length_readFd : b.buffer.length ≤ (b.readFd data).buffer.length ∧
    (b.readFd data).buffer.length ≤
      max b.buffer.length (2 * (b.readableBytes + data.length) + 7) := by
  unfold readFd
  split
  · rename_i h
    rw [length_push]
    exact ⟨Nat.le_refl _, Nat.le_max_left _ _⟩
  · rename_i h
    have hfull : (data.take b.writableBytes).length = b.writableBytes :=
      List.length_take_of_le (Nat.le_of_not_le h)
    have hfit := Nat.le_of_eq hfull
    have hlen := b.length_push hfit
    obtain ⟨hge, hle⟩ :=
      (b.push (data.take b.writableBytes) hfit).length_append (data.drop b.writableBytes)
    have hall : (b.push (data.take b.writableBytes) hfit).readableBytes +
        (data.drop b.writableBytes).length = b.readableBytes + data.length := by
      rw [← length_readable, readable_push, List.length_append, length_readable, hfull,
        List.length_drop]
      omega
    rw [hall, hlen] at hle
    exact ⟨hlen ▸ hge, hle⟩

end Length

/-- An empty buffer has its indices at the front. -/
def Rewound (b : Buffer) : Prop := b.readable = [] → b.readerIndex = kCheapPrepend

section Rewound

variable {b : Buffer} {data : List UInt8}

/-- All of its vector behind the prepend is writable. -/
theorem writableBytes_of_empty (h : b.Rewound) (hempty : b.readable = []) :
    b.writableBytes = b.buffer.length - kCheapPrepend := by
  have hreader := h hempty
  have hnone := b.readableBytes_eq_zero.mpr hempty
  have hr := b.reader_le
  unfold readableBytes at hnone
  unfold writableBytes
  omega

theorem rewound_create (n : Nat) : (create n).Rewound := fun _ => rfl

theorem rewound_retrieve (len : Nat) : (b.retrieve len).Rewound := by
  intro h
  unfold retrieve at h ⊢
  split
  · rename_i hlt
    rw [dif_pos hlt] at h
    have hw := b.writer_le
    unfold readableBytes at hlt
    simp only [readable, List.drop_eq_nil_iff, List.length_take] at h
    omega
  · rfl

theorem readerIndex_ensureWritableBytes (len : Nat) :
    (b.ensureWritableBytes len).readerIndex = b.readerIndex ∨
      (b.ensureWritableBytes len).readerIndex = kCheapPrepend := by
  unfold ensureWritableBytes makeSpace
  split
  · split
    · exact Or.inl rfl
    · exact Or.inr rfl
  · exact Or.inl rfl

theorem rewound_ensureWritableBytes (len : Nat) (h : b.Rewound) :
    (b.ensureWritableBytes len).Rewound := by
  intro hr
  rw [readable_ensureWritableBytes] at hr
  rcases b.readerIndex_ensureWritableBytes len with e | e
  · exact e.trans (h hr)
  · exact e

theorem rewound_append (h : b.Rewound) : (b.append data).Rewound := by
  intro hr
  rw [readable_append] at hr
  obtain ⟨hb, _⟩ := List.append_eq_nil_iff.mp hr
  exact rewound_ensureWritableBytes data.length h
    ((b.readable_ensureWritableBytes _).trans hb)

theorem rewound_push (h : b.Rewound) {hfit : data.length ≤ b.writableBytes} :
    (b.push data hfit).Rewound := by
  intro hr
  rw [readable_push] at hr
  exact h (List.append_eq_nil_iff.mp hr).1

theorem rewound_readFd (h : b.Rewound) : (b.readFd data).Rewound := by
  unfold readFd
  split
  · exact rewound_push h
  · exact rewound_append (rewound_push h)

end Rewound

end Buffer

/-! ## Any sequence of calls -/

/-- A call on a `Buffer`, or a `ReadFd` whose `readv` has returned `data`. -/
inductive BufferUse where
  | call (c : BufferCall)
  | readFd (data : List UInt8)
  deriving DecidableEq, Repr

namespace Buffer

/-- The buffer behind the use; `readv` fills no more than it is offered. -/
def use (b : Buffer) : BufferUse → Option Buffer
  | .call c => (b.call c).map Prod.fst
  | .readFd data => if data.length ≤ b.readCapacity then some (b.readFd data) else none

/-- How many bytes are to be in the buffer at once. -/
def demand (b : Buffer) : BufferUse → Nat
  | .call (.append data) | .readFd data => b.readableBytes + data.length
  | .call (.ensureWritableBytes len) => b.readableBytes + len
  | .call _ => b.readableBytes

variable {b b' : Buffer} {u : BufferUse}

/-- **A use of the buffer**: the vector never shrinks, and grows with the demand only. -/
theorem use_spec (h : b.use u = some b') :
    b.buffer.length ≤ b'.buffer.length ∧
      b'.buffer.length ≤ max b.buffer.length (2 * b.demand u + 7) ∧ (b.Rewound → b'.Rewound) := by
  have hretrieve : ∀ {len d}, b.buffer.length ≤ (b.retrieve len).buffer.length ∧
      (b.retrieve len).buffer.length ≤ max b.buffer.length d ∧
      (b.Rewound → (b.retrieve len).Rewound) := by
    intro len d
    rw [b.length_retrieve]
    exact ⟨Nat.le_refl _, Nat.le_max_left _ _, fun _ => rewound_retrieve len⟩
  cases u with
  | readFd data =>
      obtain ⟨_, e⟩ := Option.ite_none_right_eq_some.mp h
      cases e
      exact ⟨b.length_readFd.1, b.length_readFd.2, rewound_readFd⟩
  | call c =>
      obtain ⟨p, hp, rfl⟩ := Option.map_eq_some_iff.mp h
      cases c with
      | append data =>
          cases hp
          exact ⟨(b.length_append data).1, (b.length_append data).2, rewound_append⟩
      | ensureWritableBytes len =>
          cases hp
          exact ⟨b.length_ensureWritableBytes.1, b.length_ensureWritableBytes.2,
            rewound_ensureWritableBytes len⟩
      | retrieveAll =>
          cases hp
          exact ⟨Nat.le_refl _, Nat.le_max_left _ _, fun _ _ => rfl⟩
      | retrieve len | retrieveAllAsString =>
          cases hp
          exact hretrieve
      | retrieveUntil len | retrieveAsString len =>
          obtain ⟨_, e⟩ := Option.ite_none_right_eq_some.mp hp
          cases e
          exact hretrieve
      | writeFd n =>
          cases n with
          | none =>
              cases hp
              exact ⟨Nat.le_refl _, Nat.le_max_left _ _, id⟩
          | some n =>
              obtain ⟨_, e⟩ := Option.ite_none_right_eq_some.mp hp
              cases e
              exact hretrieve

theorem length_create (n : Nat) : (create n).buffer.length = kCheapPrepend + n :=
  List.length_replicate

/-- **Over a run**: the vector is as large as it was built, or at most twice the peak, and seven. -/
theorem grown_run {initialSize peak : Nat} {tr : List (Buffer × BufferUse)}
    (h : Run use (.create initialSize) tr b) (hpeak : ∀ p ∈ tr, p.1.demand p.2 ≤ peak) :
    kCheapPrepend + initialSize ≤ b.buffer.length ∧
      b.buffer.length ≤ max (kCheapPrepend + initialSize) (2 * peak + 7) ∧ b.Rewound :=
  h.invOn (C := fun c u => c.demand u ≤ peak)
    (I := fun c => kCheapPrepend + initialSize ≤ c.buffer.length ∧
      c.buffer.length ≤ max (kCheapPrepend + initialSize) (2 * peak + 7) ∧ c.Rewound)
    (by rw [length_create]; exact ⟨Nat.le_refl _, Nat.le_max_left _ _, rewound_create _⟩)
    (fun c u c' hc hu hs => by
      obtain ⟨hge, hle, hrew⟩ := use_spec hs
      have hold := hc.2.1
      exact ⟨Nat.le_trans hc.1 hge, by omega, hrew hc.2.2⟩) hpeak

/-- The vector never shrinks on the way. -/
theorem never_shrinks {b₀ : Buffer} {tr : List (Buffer × BufferUse)} (h : Run use b₀ tr b) :
    ∀ p ∈ tr, p.1.buffer.length ≤ b.buffer.length := by
  induction h with
  | start => exact fun p hp => absurd hp List.not_mem_nil
  | step tr b u b' _ hs ih =>
      have hle := (use_spec hs).1
      intro p hp
      rcases List.mem_cons.mp hp with rfl | hp
      · exact hle
      · exact Nat.le_trans (ih p hp) hle

/-- **How large a `Buffer` grows.** Behind every sequence of calls on a fresh buffer, `ReadFd`
    among them, where no more than `peak` bytes were ever to be in it at once: the vector is no
    smaller than it was at any point before, and as large as it was built or at most twice the
    peak, and seven; and where it is empty, all of it behind the prepend is writable. -/
theorem buffer_growth {initialSize peak : Nat} {tr : List (Buffer × BufferUse)}
    (h : Run use (.create initialSize) tr b) (hpeak : ∀ p ∈ tr, p.1.demand p.2 ≤ peak) :
    (∀ p ∈ tr, p.1.buffer.length ≤ b.buffer.length) ∧
      kCheapPrepend + initialSize ≤ b.buffer.length ∧
      b.buffer.length ≤ max (kCheapPrepend + initialSize) (2 * peak + 7) ∧
      (b.readable = [] → b.writableBytes = b.buffer.length - kCheapPrepend) := by
  obtain ⟨hge, hle, hrew⟩ := grown_run h hpeak
  exact ⟨never_shrinks h, hge, hle, writableBytes_of_empty hrew⟩

/-- Five bytes are read into a vector built for four, and taken out; the next read fits, and the
    last one makes the vector grow again. -/
def growUses : List BufferUse :=
  [.readFd [1, 2, 3, 4, 5], .call (.retrieve 4), .call .retrieveAllAsString, .readFd [6],
    .call (.append [7, 8, 9, 10, 11, 12, 13]), .call (.retrieve 7),
    .readFd [14, 15, 16, 17, 18, 19, 20, 21]]

theorem buffer_growth_reads : ∃ tr b, Run use (.create 4) tr b ∧ tr.length = 7 ∧
    b.buffer.length = 24 ∧ b.readable.length = 9 ∧
    (∀ p ∈ tr, p.1.buffer.length ≤ b.buffer.length) ∧
    b.buffer.length ≤ max (kCheapPrepend + 4) (2 * 9 + 7) := by
  have h : ((Machine.exec use (.create 4) growUses).any fun b => decide (
      b.buffer.length = 24 ∧ b.readable.length = 9 ∧
      (execTrace use (.create 4) growUses []).length = 7 ∧
      ∀ p ∈ execTrace use (.create 4) growUses [], p.1.demand p.2 ≤ 9)) = true := by
    decide +kernel
  obtain ⟨b, hs, hb⟩ := (Option.any_eq_true _ _).mp h
  obtain ⟨hlen, hread, htr, hpeak⟩ := of_decide_eq_true hb
  have hrun := exec_run .start hs
  obtain ⟨hall, _, hle, _⟩ := buffer_growth hrun hpeak
  exact ⟨_, b, hrun, htr, hlen, hread, hall, hle⟩

end Buffer

end CuteMuduo
