/-
  File:      CuteMuduo/EpollPoller.lean
  Subject:   `Channel` (channel.hpp, channel.cpp) and `EpollPoller` (epoll_poller.cpp): a file
             descriptor's interest, and its registration with the poller and the kernel.

  Everything the poller does with a channel happens at the channel's fd, in `channels_` and in
  the kernel's epoll set. `Slot` is what the two hold at one fd; a poller is a slot for each fd.
  `epoll_ctl` is the kernel's: ADD fails on an fd that is present, MOD and DEL on one that is
  absent. A failed ADD or MOD is `LOG_FATAL`, which ends the process (`none` here); a failed DEL
  is logged and passed over.

  * `Channel.slot` -- what the poller and the kernel hold of a channel when all three agree;
  * `updateChannel_slot`, `removeChannel_slot` -- the operations keep them in agreement, and
    `epoll_ctl` does not fail.
-/
import Mathlib.Logic.Basic

namespace CuteMuduo

/-- The `uint32_t events` of an `epoll_event`. -/
abbrev EventMask := BitVec 32

def epollIn : EventMask := 0x001
def epollPri : EventMask := 0x002
def epollOut : EventMask := 0x004
def epollErr : EventMask := 0x008
def epollHup : EventMask := 0x010

def kNoneEvent : EventMask := 0
def kReadEvent : EventMask := epollIn ||| epollPri
def kWriteEvent : EventMask := epollOut

/-- `mask & bits`, tested. -/
def EventMask.has (mask bits : EventMask) : Bool := mask &&& bits != 0

/-- The channel's state in its poller, `index_`. -/
inductive Index where
  | kNew
  | kAdded
  | kDeleted
  deriving DecidableEq, Repr

/-- A `Channel`. -/
structure Channel where
  fd : Nat
  events : EventMask
  revents : EventMask
  index : Index
  /-- `tie_` is set. -/
  tied : Bool
  deriving DecidableEq, Repr

namespace Channel

/-- `Channel::Channel(EventLoop* loop, int fd)`. -/
def create (fd : Nat) : Channel where
  fd := fd
  events := kNoneEvent
  revents := 0
  index := .kNew
  tied := false

def isNoneEvent (ch : Channel) : Bool := ch.events == kNoneEvent

def isWriting (ch : Channel) : Bool := EventMask.has ch.events kWriteEvent

def isReading (ch : Channel) : Bool := EventMask.has ch.events kReadEvent

def setRevents (ch : Channel) (revents : EventMask) : Channel := { ch with revents := revents }

/-- `Channel::Tie`. -/
def tie (ch : Channel) : Channel := { ch with tied := true }

end Channel

/-- What `channels_` and the kernel's epoll set hold at one fd; `P` are the channel pointers. -/
structure Slot (P : Type) where
  channel : Option P
  /-- The registered mask, and the pointer in `event.data`. -/
  epoll : Option (EventMask × P)
  deriving DecidableEq, Repr

/-- An `EpollPoller`: a slot for each fd. -/
abbrev EpollPoller (P : Type) := Nat → Slot P

/-- The `op` argument of `epoll_ctl`. -/
inductive EpollOp where
  | add
  | mod
  | del
  deriving DecidableEq, Repr

namespace Slot

variable {P : Type}

/-- Nothing is registered at this fd. -/
def empty : Slot P := ⟨none, none⟩

/-- `epoll_ctl` at this fd: the kernel's new entry, or failure. -/
def epollCtl (slot : Slot P) (op : EpollOp) (event : EventMask × P) :
    Option (Option (EventMask × P)) :=
  match op, slot.epoll with
  | .add, none => some (some event)
  | .mod, some _ => some (some event)
  | .del, some _ => some none
  | _, _ => none

/-- `EpollPoller::Update`. -/
def update (slot : Slot P) (op : EpollOp) (ptr : P) (ch : Channel) : Option (Slot P) :=
  match slot.epollCtl op (ch.events, ptr) with
  | some entry => some { slot with epoll := entry }
  | none => match op with
    | .del => some slot
    | .add | .mod => none

/-- `EpollPoller::UpdateChannel`, for the channel `ch` at address `ptr`. -/
def updateChannel (slot : Slot P) (ptr : P) (ch : Channel) : Option (Slot P × Channel) :=
  match ch.index with
  | .kNew =>
    ({ slot with channel := some ptr }.update .add ptr ch).map (·, { ch with index := .kAdded })
  | .kDeleted => (slot.update .add ptr ch).map (·, { ch with index := .kAdded })
  | .kAdded =>
    if ch.isNoneEvent then (slot.update .del ptr ch).map (·, { ch with index := .kDeleted })
    else (slot.update .mod ptr ch).map (·, ch)

/-- `EpollPoller::RemoveChannel`. -/
def removeChannel (slot : Slot P) (ptr : P) (ch : Channel) : Option (Slot P × Channel) :=
  let slot := { slot with channel := none }
  if ch.index = .kAdded then (slot.update .del ptr ch).map (·, { ch with index := .kNew })
  else some (slot, { ch with index := .kNew })

/-! ### What an operation registers -/

section Registers

variable {slot slot' : Slot P} {ptr : P} {ch : Channel} {p : Slot P × Channel}

/-- `Update` registers nothing but its own channel. -/
theorem epoll_update {op : EpollOp} (h : slot.update op ptr ch = some slot')
    {e : EventMask × P} (he : slot'.epoll = some e) : slot.epoll = some e ∨ e.2 = ptr := by
  obtain ⟨channel, epoll⟩ := slot
  cases op <;> cases epoll <;> cases h <;> first
    | exact Or.inl he
    | (cases he <;> exact Or.inr rfl)

theorem epoll_updateChannel (h : slot.updateChannel ptr ch = some p)
    {e : EventMask × P} (he : p.1.epoll = some e) : slot.epoll = some e ∨ e.2 = ptr := by
  unfold updateChannel at h
  split at h
  · obtain ⟨s, hs, rfl⟩ := Option.map_eq_some_iff.mp h
    exact epoll_update hs he
  · obtain ⟨s, hs, rfl⟩ := Option.map_eq_some_iff.mp h
    exact epoll_update hs he
  · split at h
    · obtain ⟨s, hs, rfl⟩ := Option.map_eq_some_iff.mp h
      exact epoll_update hs he
    · obtain ⟨s, hs, rfl⟩ := Option.map_eq_some_iff.mp h
      exact epoll_update hs he

theorem epoll_removeChannel (h : slot.removeChannel ptr ch = some p)
    {e : EventMask × P} (he : p.1.epoll = some e) : slot.epoll = some e ∨ e.2 = ptr := by
  simp only [removeChannel] at h
  split at h
  · obtain ⟨s, hs, rfl⟩ := Option.map_eq_some_iff.mp h
    exact epoll_update hs he
  · cases h
    exact Or.inl he

theorem fd_updateChannel (h : slot.updateChannel ptr ch = some p) : p.2.fd = ch.fd := by
  unfold updateChannel at h
  split at h
  · obtain ⟨s, _, rfl⟩ := Option.map_eq_some_iff.mp h
    rfl
  · obtain ⟨s, _, rfl⟩ := Option.map_eq_some_iff.mp h
    rfl
  · split at h <;> (obtain ⟨s, _, rfl⟩ := Option.map_eq_some_iff.mp h; rfl)

theorem fd_removeChannel (h : slot.removeChannel ptr ch = some p) : p.2.fd = ch.fd := by
  simp only [removeChannel] at h
  split at h
  · obtain ⟨s, _, rfl⟩ := Option.map_eq_some_iff.mp h
    rfl
  · cases h
    rfl

end Registers

/-- `Poller::HasChannel`. -/
def hasChannel [DecidableEq P] (slot : Slot P) (ptr : P) : Bool := slot.channel == some ptr

end Slot

namespace Channel

variable {P : Type}

def enableReading (ch : Channel) (slot : Slot P) (ptr : P) : Option (Slot P × Channel) :=
  slot.updateChannel ptr { ch with events := ch.events ||| kReadEvent }

def disableReading (ch : Channel) (slot : Slot P) (ptr : P) : Option (Slot P × Channel) :=
  slot.updateChannel ptr { ch with events := ch.events &&& ~~~kReadEvent }

def enableWriting (ch : Channel) (slot : Slot P) (ptr : P) : Option (Slot P × Channel) :=
  slot.updateChannel ptr { ch with events := ch.events ||| kWriteEvent }

def disableWriting (ch : Channel) (slot : Slot P) (ptr : P) : Option (Slot P × Channel) :=
  slot.updateChannel ptr { ch with events := ch.events &&& ~~~kWriteEvent }

def disableAll (ch : Channel) (slot : Slot P) (ptr : P) : Option (Slot P × Channel) :=
  slot.updateChannel ptr { ch with events := kNoneEvent }

/-- `Channel::Remove`. -/
def remove (ch : Channel) (slot : Slot P) (ptr : P) : Option (Slot P × Channel) :=
  slot.removeChannel ptr ch

/-! ## Channel, poller and kernel in agreement -/

/-- What the poller and the kernel hold of the channel at address `ptr` when they agree with it:
    it is in `channels_` unless its index is `kNew`, and in the epoll set, with its own mask,
    while its index is `kAdded`. -/
def slot (ch : Channel) (ptr : P) : Slot P where
  channel := if ch.index = .kNew then none else some ptr
  epoll := if ch.index = .kAdded then some (ch.events, ptr) else none

/-- The index `UpdateChannel` leaves. -/
def nextIndex (index : Index) (events : EventMask) : Index :=
  if index = .kAdded ∧ events = kNoneEvent then .kDeleted else .kAdded

/-- **`UpdateChannel` keeps the agreement**, whatever the new interest is, and no `epoll_ctl`
    fails. -/
theorem updateChannel_slot (ch : Channel) (ptr : P) (events : EventMask) :
    (ch.slot ptr).updateChannel ptr { ch with events := events } =
      some (slot { ch with events := events, index := nextIndex ch.index events } ptr,
        { ch with events := events, index := nextIndex ch.index events }) := by
  obtain ⟨fd, old, revents, index, tied⟩ := ch
  cases index with
  | kNew => rfl
  | kDeleted => rfl
  | kAdded =>
      by_cases he : events = kNoneEvent
      · subst he
        rfl
      · have hn : isNoneEvent ⟨fd, events, revents, .kAdded, tied⟩ = false := by
          rw [isNoneEvent, beq_eq_false_iff_ne]
          exact he
        have hi : nextIndex .kAdded events = .kAdded := if_neg fun h => he h.2
        simp only [Slot.updateChannel, hn, hi]
        rfl

/-- **`RemoveChannel` leaves nothing** in the poller and in the kernel. -/
theorem removeChannel_slot (ch : Channel) (ptr : P) :
    (ch.slot ptr).removeChannel ptr ch = some (Slot.empty, { ch with index := .kNew }) := by
  obtain ⟨fd, events, revents, index, tied⟩ := ch
  cases index <;> rfl

theorem slot_of_kNew {ch : Channel} (ptr : P) (h : ch.index = .kNew) :
    ch.slot ptr = Slot.empty := by
  unfold slot Slot.empty
  rw [h]
  rfl

end Channel

end CuteMuduo
