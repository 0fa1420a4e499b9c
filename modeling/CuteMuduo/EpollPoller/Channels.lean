/-
  File:      CuteMuduo/EpollPoller/Channels.lean
  Subject:   MANY CHANNELS ON ONE `EpollPoller`: any sequence of `EnableReading`,
             `DisableReading`, `EnableWriting`, `DisableWriting`, `DisableAll` and `Remove`, on
             channels whose fds are distinct.

  An operation works at its own channel's fd, so it keeps the agreement there
  (`Channel.updateChannel_slot`, `removeChannel_slot`) and does not touch what the poller and the
  kernel hold of the others. `poller_agrees` is the result: no `epoll_ctl` ever fails, and after
  every operation channel, `channels_` and the epoll set agree.
-/
import CuteMuduo.EpollPoller
import CuteMuduo.Lib.Run
import Mathlib.Logic.Function.Basic

namespace CuteMuduo

open Machine

/-- The operations on a channel. -/
inductive ChannelOp where
  | enableReading
  | disableReading
  | enableWriting
  | disableWriting
  | disableAll
  | remove
  deriving DecidableEq, Repr

namespace Channel

variable {P : Type}

/-- The operation, by name. -/
def call (ch : Channel) (slot : Slot P) (ptr : P) : ChannelOp → Option (Slot P × Channel)
  | .enableReading => ch.enableReading slot ptr
  | .disableReading => ch.disableReading slot ptr
  | .enableWriting => ch.enableWriting slot ptr
  | .disableWriting => ch.disableWriting slot ptr
  | .disableAll => ch.disableAll slot ptr
  | .remove => ch.remove slot ptr

/-- `events_` behind the operation. -/
def eventsAfter (ch : Channel) : ChannelOp → EventMask
  | .enableReading => ch.events ||| kReadEvent
  | .disableReading => ch.events &&& ~~~kReadEvent
  | .enableWriting => ch.events ||| kWriteEvent
  | .disableWriting => ch.events &&& ~~~kWriteEvent
  | .disableAll => kNoneEvent
  | .remove => ch.events

/-- `index_` behind the operation. -/
def indexAfter (ch : Channel) : ChannelOp → Index
  | .remove => .kNew
  | op => nextIndex ch.index (ch.eventsAfter op)

/-- The `epoll_ctl` the operation makes: `Remove` makes none unless the index is `kAdded`. -/
def ctl (ch : Channel) : ChannelOp → Option EpollOp
  | .remove => if ch.index = .kAdded then some .del else none
  | op => if ch.index = .kAdded then
      if ch.eventsAfter op = kNoneEvent then some .del else some .mod
    else some .add

/-- What an operation leaves of a channel that agrees with its poller. -/
def after (ch : Channel) (op : ChannelOp) : Channel :=
  { ch with events := ch.eventsAfter op, index := ch.indexAfter op }

/-- **Every operation keeps the agreement**, and does not end the process. -/
theorem call_slot (ch : Channel) (ptr : P) (op : ChannelOp) :
    ch.call (ch.slot ptr) ptr op = some ((ch.after op).slot ptr, ch.after op) := by
  cases op with
  | remove =>
      refine (removeChannel_slot ch ptr).trans ?_
      have hempty : (ch.after .remove).slot ptr = Slot.empty := slot_of_kNew ptr rfl
      rw [hempty]
      rfl
  | _ => exact updateChannel_slot ch ptr _

/-- **`epoll_ctl` does not fail** on a channel that agrees with its poller. -/
theorem ctl_slot (ch : Channel) (ptr : P) (op : ChannelOp) {e : EpollOp} (h : ch.ctl op = some e) :
    ((ch.slot ptr).epollCtl e (ch.eventsAfter op, ptr)).isSome = true := by
  have hadd : ch.index = .kAdded → (ch.slot ptr).epoll = some (ch.events, ptr) :=
    fun hi => if_pos hi
  have hnot : ch.index ≠ .kAdded → (ch.slot ptr).epoll = none := fun hi => if_neg hi
  by_cases hi : ch.index = .kAdded
  · have hne : e ≠ .add := by
      rintro rfl
      cases op <;> simp only [ctl, if_pos hi] at h
      case remove => cases h
      all_goals split at h <;> cases h
    cases e with
    | add => exact absurd rfl hne
    | mod => simp only [Slot.epollCtl, hadd hi, Option.isSome_some]
    | del => simp only [Slot.epollCtl, hadd hi, Option.isSome_some]
  · have he : e = .add := by
      cases op <;> simp only [ctl, if_neg hi] at h <;> cases h
      all_goals rfl
    rw [he]
    simp only [Slot.epollCtl, hnot hi, Option.isSome_some]

/-- **`ctl` is the `epoll_ctl` the operation makes**: the operation is one `Update` with it, or
    none. -/
def MakesCtl (ch : Channel) (slot : Slot P) (ptr : P) (op : ChannelOp) : Prop :=
  ∃ (slot₀ : Slot P) (index : Index), slot₀.epoll = slot.epoll ∧ ch.call slot ptr op =
    match ch.ctl op with
    | some e => (slot₀.update e ptr { ch with events := ch.eventsAfter op }).map
        (·, { ch with events := ch.eventsAfter op, index := index })
    | none => some (slot₀, { ch with index := index })

theorem call_ctl (ch : Channel) (slot : Slot P) (ptr : P) (op : ChannelOp) :
    ch.MakesCtl slot ptr op := by
  have hupdate : ∀ events, ∃ (slot₀ : Slot P) (index : Index), slot₀.epoll = slot.epoll ∧
      slot.updateChannel ptr { ch with events := events } =
        match (if ch.index = .kAdded then
          if events = kNoneEvent then some EpollOp.del else some .mod else some .add) with
        | some e => (slot₀.update e ptr { ch with events := events }).map
            (·, { ch with events := events, index := index })
        | none => some (slot₀, { ch with index := index }) := by
    intro events
    obtain ⟨fd, old, revents, index, tied⟩ := ch
    cases index with
    | kNew => exact ⟨{ slot with channel := some ptr }, .kAdded, rfl, rfl⟩
    | kDeleted => exact ⟨slot, .kAdded, rfl, rfl⟩
    | kAdded =>
        by_cases hn : events = kNoneEvent
        · subst hn
          exact ⟨slot, .kDeleted, rfl, rfl⟩
        · refine ⟨slot, .kAdded, rfl, ?_⟩
          have hb : isNoneEvent ⟨fd, events, revents, .kAdded, tied⟩ = false :=
            beq_eq_false_iff_ne.mpr hn
          simp only [Slot.updateChannel, hb, if_neg hn]
          rfl
  cases op with
  | remove =>
      refine ⟨{ slot with channel := none }, .kNew, rfl, ?_⟩
      simp only [call, remove, Slot.removeChannel, ctl]
      split <;> rfl
  | _ => exact hupdate _

end Channel

/-! ## The machine -/

/-- Channels, by address, and the poller they are on. -/
structure Watched (P : Type) where
  chan : P → Channel
  poller : EpollPoller P

namespace Watched

variable {P : Type}

/-- Fresh channels, and a fresh poller. -/
def init (fd : P → Nat) : Watched P where
  chan c := Channel.create (fd c)
  poller _ := Slot.empty

/-- **Channels, poller and kernel agree.** -/
structure Agree (fd : P → Nat) (s : Watched P) : Prop where
  sameFd : ∀ c, (s.chan c).fd = fd c
  slot : ∀ c, s.poller (fd c) = (s.chan c).slot c

variable {fd : P → Nat} {s : Watched P}

theorem agree_init : Agree fd (init fd) := ⟨fun _ => rfl, fun _ => rfl⟩

variable [DecidableEq P]

/-- An operation on channel `c`; nothing is left where it ends the process. -/
def step (s : Watched P) : P × ChannelOp → Option (Watched P)
  | (c, op) => ((s.chan c).call (s.poller (s.chan c).fd) c op).map fun p =>
    { chan := Function.update s.chan c p.2
      poller := Function.update s.poller (s.chan c).fd p.1 }

/-- What an operation does to the channels and the poller that agree. -/
theorem step_eq (h : Agree fd s) (c : P) (op : ChannelOp) : s.step (c, op) = some
    { chan := Function.update s.chan c ((s.chan c).after op)
      poller := Function.update s.poller (fd c) (((s.chan c).after op).slot c) } := by
  rw [step, h.sameFd, h.slot, Channel.call_slot]
  rfl

/-- **No operation fails, and each keeps the agreement**: at its own fd, and, as the fds are
    distinct, at the others. -/
theorem agree_step (hfd : Function.Injective fd) (h : Agree fd s) (c : P) (op : ChannelOp) :
    ∃ s', s.step (c, op) = some s' ∧ Agree fd s' := by
  refine ⟨_, step_eq h c op, fun d => ?_, fun d => ?_⟩
  · by_cases hd : d = c
    · subst hd
      show (Function.update s.chan d _ d).fd = fd d
      rw [Function.update_self]
      exact h.sameFd d
    · show (Function.update s.chan c _ d).fd = fd d
      rw [Function.update_of_ne hd]
      exact h.sameFd d
  · by_cases hd : d = c
    · subst hd
      show Function.update s.poller (fd d) _ (fd d) = (Function.update s.chan d _ d).slot d
      rw [Function.update_self, Function.update_self]
    · show Function.update s.poller (fd c) _ (fd d) = (Function.update s.chan c _ d).slot d
      rw [Function.update_of_ne hd, Function.update_of_ne fun e => hd (hfd e)]
      exact h.slot d

/-- Every sequence of operations runs to its end. -/
theorem agree_exec (hfd : Function.Injective fd) (h : Agree fd s) (ops : List (P × ChannelOp)) :
    ∃ s', Machine.exec step s ops = some s' ∧ Agree fd s' := by
  induction ops generalizing s with
  | nil => exact ⟨s, rfl, h⟩
  | cons a ops ih =>
      obtain ⟨s₁, hs, h₁⟩ := agree_step hfd h a.1 a.2
      obtain ⟨s', hs', h'⟩ := ih h₁
      exact ⟨s', Option.bind_eq_some_iff.mpr ⟨s₁, hs, hs'⟩, h'⟩

/-- **Poller, channels and kernel agree**, behind every sequence of operations on channels with
    distinct fds. The sequence runs to its end; the next operation, whatever it is, makes the
    `epoll_ctl` that `ctl` says, and that one does not fail; the kernel has a channel's fd while
    its index is `kAdded`, and then with the channel's own mask and address; `HasChannel` holds
    unless the index is `kNew`. -/
theorem poller_agrees (fd : P → Nat) (hfd : Function.Injective fd) (ops : List (P × ChannelOp)) :
    ∃ s, Machine.exec step (init fd) ops = some s ∧
      (∀ c op, (s.chan c).MakesCtl (s.poller (fd c)) c op ∧
        ∀ e, (s.chan c).ctl op = some e →
          ((s.poller (fd c)).epollCtl e ((s.chan c).eventsAfter op, c)).isSome = true) ∧
      ∀ c, (s.poller (fd c)).epoll =
          (if (s.chan c).index = .kAdded then some ((s.chan c).events, c) else none) ∧
        ((s.poller (fd c)).hasChannel c = true ↔ (s.chan c).index ≠ .kNew) := by
  obtain ⟨s, hs, h⟩ := agree_exec hfd agree_init ops
  refine ⟨s, hs, fun c op => ⟨Channel.call_ctl _ _ c op, fun e he => ?_⟩, fun c => ⟨?_, ?_⟩⟩
  · rw [h.slot]
    exact Channel.ctl_slot _ c op he
  · rw [h.slot]
    rfl
  · rw [h.slot, Slot.hasChannel, Channel.slot, beq_iff_eq]
    split
    · rename_i hi
      exact iff_of_false nofun (not_not_intro hi)
    · rename_i hi
      exact iff_of_true rfl hi

theorem poller_agrees_two : ∃ s, Machine.exec step (init id)
    [(0, .enableReading), (1, .enableWriting), (0, .disableAll), (1, .remove), (0, .enableWriting)]
      = some s ∧
    (∀ c op, (s.chan c).MakesCtl (s.poller (id c)) c op ∧
      ∀ e, (s.chan c).ctl op = some e →
        ((s.poller (id c)).epollCtl e ((s.chan c).eventsAfter op, c)).isSome = true) ∧
    ∀ c, (s.poller (id c)).epoll =
        (if (s.chan c).index = .kAdded then some ((s.chan c).events, c) else none) ∧
      ((s.poller (id c)).hasChannel c = true ↔ (s.chan c).index ≠ .kNew) :=
  poller_agrees id Function.injective_id _

/-! ## An empty mask

`UpdateChannel` looks at the index before it looks at the mask. A channel with no interest is
taken out of the epoll set in the `kAdded` branch alone; the other two ADD it, mask or no mask,
and epoll reports EPOLLHUP and EPOLLERR for whatever is in the set. -/

/-- The operation leaves its channel no interest; `Remove` is not one that changes it. -/
def LeavesNone (s : Watched P) (a : P × ChannelOp) : Prop :=
  a.2 ≠ .remove ∧ (s.chan a.1).eventsAfter a.2 = kNoneEvent

omit [DecidableEq P] in
theorem leavesNone_disableAll (s : Watched P) (c : P) : s.LeavesNone (c, .disableAll) :=
  ⟨ChannelOp.noConfusion, rfl⟩

/-- The channel's registration behind an operation. -/
theorem epoll_step (h : Agree fd s) {c : P} {op : ChannelOp} {s' : Watched P}
    (hs : s.step (c, op) = some s') : (s'.poller (fd c)).epoll =
      if (s.chan c).indexAfter op = .kAdded then some ((s.chan c).eventsAfter op, c) else none := by
  rw [step_eq h, Option.some.injEq] at hs
  subst hs
  show (Function.update s.poller (fd c) _ (fd c)).epoll = _
  rw [Function.update_self]
  rfl

/-- **With an empty mask, the fd is out of the epoll set behind the operation exactly where the
    index was `kAdded`** in front of it. -/
theorem epoll_none_iff (h : Agree fd s) {a : P × ChannelOp} {s' : Watched P}
    (hn : s.LeavesNone a) (hs : s.step a = some s') :
    (s'.poller (fd a.1)).epoll = none ↔ (s.chan a.1).index = .kAdded := by
  obtain ⟨c, op⟩ := a
  obtain ⟨hop, hev⟩ := hn
  have hidx : (s.chan c).indexAfter op = Channel.nextIndex (s.chan c).index kNoneEvent := by
    rw [← hev]
    cases op with
    | remove => exact absurd rfl hop
    | _ => rfl
  rw [epoll_step h hs, hidx]
  by_cases hi : (s.chan c).index = .kAdded
  · rw [if_neg (by simp [Channel.nextIndex, hi])]
    exact iff_of_true rfl hi
  · rw [if_pos (by simp [Channel.nextIndex, hi])]
    exact iff_of_false (Option.some_ne_none _) hi

/-- **Channels without interest are not registered.** -/
def Unregistered (fd : P → Nat) (s : Watched P) : Prop :=
  ∀ c, (s.chan c).events = kNoneEvent → (s.poller (fd c)).epoll = none

theorem unregistered_step (hfd : Function.Injective fd) (h : Agree fd s)
    (hun : Unregistered fd s) {a : P × ChannelOp} {s' : Watched P}
    (ha : s.LeavesNone a → (s.chan a.1).index = .kAdded) (hs : s.step a = some s') :
    Unregistered fd s' := by
  obtain ⟨c, op⟩ := a
  intro d hd
  have hs' := hs
  rw [step_eq h, Option.some.injEq] at hs'
  subst hs'
  by_cases e : d = c
  · subst e
    replace hd : (Function.update s.chan d ((s.chan d).after op) d).events = kNoneEvent := hd
    rw [Function.update_self] at hd
    by_cases hop : op = .remove
    · subst hop
      rw [epoll_step h hs]
      exact if_neg Index.noConfusion
    · have hn : s.LeavesNone (d, op) := ⟨hop, hd⟩
      exact (epoll_none_iff h hn hs).mpr (ha hn)
  · replace hd : (Function.update s.chan c ((s.chan c).after op) d).events = kNoneEvent := hd
    rw [Function.update_of_ne e] at hd
    show (Function.update s.poller (fd c) _ (fd d)).epoll = none
    rw [Function.update_of_ne fun e' => e (hfd e')]
    exact hun d hd

omit [DecidableEq P] in
theorem unregistered_init (fd : P → Nat) : Unregistered fd (init fd) := fun _ _ => rfl

theorem agree_run (hfd : Function.Injective fd) {tr : List (Watched P × (P × ChannelOp))}
    (h : Machine.Run step (init fd) tr s) : Agree fd s :=
  h.inv agree_init fun _ a _ h hs => by
    obtain ⟨_, hs', h'⟩ := agree_step hfd h a.1 a.2
    exact Option.some.inj (hs.symm.trans hs') ▸ h'

/-- **`DisableAll` twice is never `DisableAll` once**: the channel is registered behind one of the
    two and not behind the other. -/
theorem disableAll_twice (hfd : Function.Injective fd) (h : Agree fd s) (c : P) :
    ∃ s₁ s₂, s.step (c, .disableAll) = some s₁ ∧ s₁.step (c, .disableAll) = some s₂ ∧
      (s₁.chan c).index ≠ (s₂.chan c).index ∧
      ((s₁.poller (fd c)).epoll = none ↔ (s₂.poller (fd c)).epoll ≠ none) := by
  obtain ⟨s₁, hs₁, h₁⟩ := agree_step hfd h c .disableAll
  obtain ⟨s₂, hs₂, h₂⟩ := agree_step hfd h₁ c .disableAll
  have e₁ : s₁.chan c = (s.chan c).after .disableAll := by
    rw [step_eq h, Option.some.injEq] at hs₁
    subst hs₁
    exact Function.update_self c ((s.chan c).after .disableAll) s.chan
  have e₂ : s₂.chan c = (s₁.chan c).after .disableAll := by
    rw [step_eq h₁, Option.some.injEq] at hs₂
    subst hs₂
    exact Function.update_self c ((s₁.chan c).after .disableAll) s₁.chan
  have hne : (s₁.chan c).index ≠ (s₂.chan c).index := by
    rw [e₂]
    show (s₁.chan c).index ≠ Channel.nextIndex (s₁.chan c).index kNoneEvent
    cases (s₁.chan c).index <;> decide
  have hn₁ := epoll_none_iff h (leavesNone_disableAll s c) hs₁
  have hn₂ := epoll_none_iff h₁ (leavesNone_disableAll s₁ c) hs₂
  have hi : (s₁.chan c).index = .kAdded ↔ ¬ (s.chan c).index = .kAdded := by
    rw [e₁]
    show Channel.nextIndex (s.chan c).index kNoneEvent = .kAdded ↔ _
    cases (s.chan c).index <;> decide
  exact ⟨s₁, s₂, hs₁, hs₂, hne, by rw [hn₁, Ne, hn₂, hi, not_not]⟩

/-- **An empty mask unregisters exactly where the index is `kAdded`.** At every step of a run: an
    operation that leaves its channel no interest leaves its fd out of the epoll set if and only
    if the index was `kAdded` in front of it. In a run all of whose operations meet that, no
    channel without interest is registered in any state. And `DisableAll` is not idempotent in any
    state: a second one registers what the first took out, or takes out what the first
    registered. -/
theorem noInterest_unregistered (fd : P → Nat) (hfd : Function.Injective fd)
    {tr : List (Watched P × (P × ChannelOp))} {s : Watched P}
    (h : Machine.Run step (init fd) tr s) :
    (∀ p ∈ tr, p.1.LeavesNone p.2 → ∃ s', p.1.step p.2 = some s' ∧
      ((s'.poller (fd p.2.1)).epoll = none ↔ (p.1.chan p.2.1).index = .kAdded)) ∧
    ((∀ p ∈ tr, p.1.LeavesNone p.2 → (p.1.chan p.2.1).index = .kAdded) →
      (∀ p ∈ tr, Unregistered fd p.1) ∧ Unregistered fd s) ∧
    ∀ c, ∃ s₁ s₂, s.step (c, .disableAll) = some s₁ ∧ s₁.step (c, .disableAll) = some s₂ ∧
      (s₁.chan c).index ≠ (s₂.chan c).index ∧
      ((s₁.poller (fd c)).epoll = none ↔ (s₂.poller (fd c)).epoll ≠ none) := by
  refine ⟨fun p hp hn => ?_, fun hC => ?_, disableAll_twice hfd (agree_run hfd h)⟩
  · obtain ⟨_, _, s', h₁, hs, _, _⟩ := h.split hp
    exact ⟨s', hs, epoll_none_iff (agree_run hfd h₁) hn hs⟩
  · refine Machine.Run.all_of_forall (C := fun s a => s.LeavesNone a → (s.chan a.1).index = .kAdded)
      (fun tr s h hC => ?_) h hC
    exact h.invWith agree_init (fun s a s' h hs => by
        obtain ⟨_, hs', h'⟩ := agree_step hfd h a.1 a.2
        exact Option.some.inj (hs.symm.trans hs') ▸ h') (unregistered_init fd)
      (fun s a s' h hun ha hs => unregistered_step hfd h hun ha hs) hC

/-- A channel that is closed once, as a handler does it. -/
def closedOnce : List (Nat × ChannelOp) := [(0, .enableReading), (0, .disableAll)]

theorem noInterest_unregistered_closedOnce : ∃ (tr : _) (s : Watched Nat),
    Machine.Run step (init id) tr s ∧ tr.length = 2 ∧
    (∀ p ∈ tr, p.1.LeavesNone p.2 → ∃ s', p.1.step p.2 = some s' ∧
      ((s'.poller (id p.2.1)).epoll = none ↔ (p.1.chan p.2.1).index = .kAdded)) ∧
    ((∀ p ∈ tr, p.1.LeavesNone p.2 → (p.1.chan p.2.1).index = .kAdded) →
      (∀ p ∈ tr, Unregistered id p.1) ∧ Unregistered id s) ∧
    ∀ c, ∃ s₁ s₂, s.step (c, .disableAll) = some s₁ ∧ s₁.step (c, .disableAll) = some s₂ ∧
      (s₁.chan c).index ≠ (s₂.chan c).index ∧
      ((s₁.poller (id c)).epoll = none ↔ (s₂.poller (id c)).epoll ≠ none) := by
  have he : ∃ s, Machine.exec step (init id) closedOnce = some s := ⟨_, rfl⟩
  obtain ⟨s, he⟩ := he
  have hr := Machine.exec_run .start he
  exact ⟨_, s, hr, rfl, noInterest_unregistered id Function.injective_id hr⟩

/-- **A fresh channel that is disabled is registered**, as an acceptor's is that never listened;
    and so is one that is closed a second time. -/
theorem disableAll_registers :
    (¬ ∀ (ops : List (Nat × ChannelOp)) (s : Watched Nat),
      Machine.exec step (init id) ops = some s → ∀ c op s', s.LeavesNone (c, op) →
        s.step (c, op) = some s' → (s'.poller c).epoll = none) ∧
    ∃ s₁ s₂, Machine.exec step (init id) closedOnce = some s₁ ∧
      s₁.step (0, .disableAll) = some s₂ ∧ (s₁.poller 0).epoll = none ∧
      (s₂.poller 0).epoll = some (kNoneEvent, 0) := by
  refine ⟨fun h => ?_, _, _, rfl, rfl, by decide, by decide⟩
  have hnil := h [] (init id) rfl 0 .disableAll _ (leavesNone_disableAll _ 0) rfl
  exact absurd hnil (by decide)

end Watched

end CuteMuduo
