/-
  File:      CuteMuduo/TcpServer/RoundRobin.lean
  Subject:   WHERE THE CONNECTIONS LIVE, over every run of the program: `GetNextLoop` deals them out
             to the sub loops in turn, and they stay where they are (`round_robin`).

  `next_` is the number of connections built so far, modulo the number of sub loops; so the
  number of connections a sub loop has ever been given is known, whatever has become of them.
-/
import Mathlib.Data.Int.CardIntervalMod
import CuteMuduo.TcpServer.Registry
import CuteMuduo.TcpServer.ServerEnd

namespace CuteMuduo

open Machine

namespace TcpServer

/-- The loop connection `c` is dealt to: a sub loop, or the base loop where there is none. -/
def dealtTo (numLoops : Nat) (c : ConnId) : LoopId :=
  if numLoops = 0 then 0 else c % numLoops + 1

theorem dealtTo_le (numLoops : Nat) (c : ConnId) : dealtTo numLoops c ≤ numLoops := by
  unfold dealtTo
  split
  · exact Nat.zero_le _
  · rename_i h
    exact Nat.mod_lt c (Nat.pos_of_ne_zero h)

/-- **`GetNextLoop` deals in turn**: where `next_` is the number of connections so far, modulo the
    number of sub loops, it is so behind the call. -/
theorem getNextLoop_dealt {server : TcpServer} {numLoops n : Nat} (hn : numLoops ≠ 0)
    (h : server.next = n % numLoops) :
    server.getNextLoop numLoops = (dealtTo numLoops n, (n + 1) % numLoops) := by
  have hlt : n % numLoops < numLoops := Nat.mod_lt n (Nat.pos_of_ne_zero hn)
  have hmod : (n + 1) % numLoops = (n % numLoops + 1) % numLoops := (Nat.mod_add_mod n _ 1).symm
  unfold getNextLoop dealtTo
  rw [if_neg hn, if_neg hn, h, hmod]
  by_cases hlast : numLoops ≤ n % numLoops + 1
  · have e : n % numLoops + 1 = numLoops := Nat.le_antisymm hlt hlast
    rw [if_pos hlast, e, Nat.mod_self]
  · rw [if_neg hlast, Nat.mod_eq_of_lt (Nat.lt_of_not_le hlast)]

end TcpServer

namespace Process

variable {s s' s₁ : Process} {a : Label} {c : ConnId} {t : ThreadId} {o : Outcome} {i : Instr}
  {is : List Instr}

/-- **The connections are dealt out in turn.** -/
structure Dealt (s : Process) : Prop where
  next : s.numLoops ≠ 0 → s.server.next = s.created % s.numLoops
  loop : ∀ c < s.created, (s.conns c).loop = TcpServer.dealtTo s.numLoops c

theorem Dealt.of_same (h : s.Dealt) (hn : s'.numLoops = s.numLoops)
    (hnext : s'.server.next = s.server.next) (hc : s'.created = s.created)
    (hloop : ∀ c < s.created, (s'.conns c).loop = (s.conns c).loop) : s'.Dealt := by
  refine ⟨fun h0 => ?_, fun c hlt => ?_⟩
  · rw [hnext, hc, hn]
    exact h.next (hn ▸ h0)
  · rw [hc] at hlt
    rw [hloop c hlt, hn]
    exact h.loop c hlt

/-- The next connection is dealt to the next loop. -/
theorem freshConn_loop (h : s.Dealt) :
    s.freshConn.loop = TcpServer.dealtTo s.numLoops s.created := by
  show (s.server.getNextLoop s.numLoops).1 = _
  by_cases h0 : s.numLoops = 0
  · simp [TcpServer.getNextLoop, TcpServer.dealtTo, h0]
  · rw [TcpServer.getNextLoop_dealt h0 (h.next h0)]

theorem dealt_exec (hw : Wf s) (hi : s.instrHome t i) (h : s.Dealt) (he : Exec s t o i s₁ is) :
    s₁.Dealt := by
  have hg := (exec_stored hw.toStored hi he).2
  cases he with
  | create fd ho hlife hf hid =>
      refine ⟨fun h0 => ?_, fun c hc => ?_⟩
      · exact congrArg Prod.snd (TcpServer.getNextLoop_dealt h0 (h.next h0))
      · rcases Nat.lt_succ_iff_lt_or_eq.mp hc with hc | rfl
        · exact (hg.loop hc).trans (h.loop c hc)
        · have hnew : ((s.newConnection fd).1.conns s.created).loop = s.freshConn.loop :=
            congrArg (fun k => k.conn.loop) (ctx_newConnection_self hw.toStored hf)
          rw [hnew]
          exact freshConn_loop h
  | conn c op k is he => exact h.of_same rfl rfl rfl fun c hc => hg.loop hc
  | quiet _ _ hq => exact h
  | _ => exact h.of_same rfl rfl rfl fun c hc => rfl

theorem dealt_step (hw : Wf s) (h : s.Dealt) (hs : Step s a s') : s'.Dealt := by
  cases hs with
  | run t o i rest s₁ is hst he =>
      have h₁ := dealt_exec hw (hw.stack t i (mem_stack hst)) h he
      exact h₁.of_same rfl rfl rfl fun c hc => rfl
  | user t v s₁ is hu hcall =>
      cases hcall <;> exact h.of_same rfl rfl rfl fun c hc => rfl
  | _ => exact h.of_same rfl rfl rfl fun c hc => rfl

/-- How many connections loop `l` has been given. -/
def load (s : Process) (l : LoopId) : Nat := Nat.count (fun c => (s.conns c).loop = l) s.created

/-- The connections of a sub loop are those of one residue class. -/
theorem load_eq (h : s.Dealt) {l : Nat} (h0 : 0 < l) (hl : l ≤ s.numLoops) :
    s.load l = s.created / s.numLoops + if l - 1 < s.created % s.numLoops then 1 else 0 := by
  have hpos : 0 < s.numLoops := Nat.lt_of_lt_of_le h0 hl
  have hlt : l - 1 < s.numLoops := by omega
  have hclass : ∀ c < s.created, (s.conns c).loop = l ↔ c ≡ l - 1 [MOD s.numLoops] := by
    intro c hc
    rw [h.loop c hc, TcpServer.dealtTo, if_neg (Nat.ne_of_gt hpos), Nat.ModEq,
      Nat.mod_eq_of_lt hlt]
    exact ⟨Nat.eq_sub_of_add_eq, fun e => by rw [e, Nat.sub_add_cancel h0]⟩
  have hcount := Nat.count_modEq_card s.created hpos (l - 1)
  rw [Nat.mod_eq_of_lt hlt] at hcount
  rw [load, ← hcount, Nat.count_eq_card_filter_range, Nat.count_eq_card_filter_range]
  refine congrArg Finset.card (Finset.filter_congr fun c hc => ?_)
  exact hclass c (Finset.mem_range.mp hc)

section Runs

variable {name : List Char} {addr : InetAddress} {numLoops : Nat} {writeComplete : Bool}
  {tr : List (Process × Label)}

theorem dealt_init : (init name addr numLoops writeComplete).Dealt :=
  ⟨fun _ => (Nat.zero_mod _).symm, fun c hc => absurd hc (Nat.not_lt_zero c)⟩

theorem numLoops_run (h : Run step (init name addr numLoops writeComplete) tr s) :
    s.numLoops = numLoops := by
  refine h.inv (I := fun s => s.numLoops = numLoops) rfl fun s₁ b s₂ h₁ hs => ?_
  exact (numLoops_step (of_step hs)).trans h₁

theorem dealt_run (h : Run step (init name addr numLoops writeComplete) tr s) : s.Dealt := by
  induction h with
  | start => exact dealt_init
  | step tr s a s' h hs ih => exact dealt_step (wf_run h) ih (of_step hs)

/-- **The connections are dealt out in turn.** In every state of every run, connection number `c`
    lives on sub loop `c % numLoops + 1`, and on the base loop if and only if there is no sub loop;
    so no loop's load differs from another's by more than one, and what each has been given is
    what the number of connections says. -/
theorem round_robin (h : Run step (init name addr numLoops writeComplete) tr s) :
    (∀ c < s.created, (s.conns c).loop = TcpServer.dealtTo numLoops c) ∧
    (∀ c < s.created, (s.conns c).loop = 0 ↔ numLoops = 0) ∧
    (∀ l : Nat, 0 < l → l ≤ numLoops → s.load l =
      s.created / numLoops + if l ≤ s.created % numLoops then 1 else 0) ∧
    ∀ l m : Nat, 0 < l → l ≤ numLoops → 0 < m → m ≤ numLoops → s.load l ≤ s.load m + 1 := by
  have hd := dealt_run h
  have hn := numLoops_run h
  have hload : ∀ l : Nat, 0 < l → l ≤ numLoops → s.load l =
      s.created / numLoops + if l ≤ s.created % numLoops then 1 else 0 := by
    intro l h0 hl
    have e := load_eq hd h0 (hn ▸ hl)
    rw [hn] at e
    rw [e]
    congr 1
    have hiff : l - 1 < s.created % numLoops ↔ l ≤ s.created % numLoops := by omega
    simp only [hiff]
  have hloop : ∀ c < s.created, (s.conns c).loop = TcpServer.dealtTo numLoops c :=
    fun c hc => hn ▸ hd.loop c hc
  refine ⟨hloop, fun c hc => ?_, hload, fun l m h0 hl h0' hm => ?_⟩
  · rw [hloop c hc, TcpServer.dealtTo]
    by_cases e : numLoops = 0
    · simp [e]
    · simp [e]
  · rw [hload l h0 hl, hload m h0' hm]
    split <;> split <;> omega

/-- A server with two sub loops, started. -/
def threeLoops : Process := init ['s'] ⟨127, 0, 0, 1, 80⟩ 2 false

/-- The base loop accepts a connection, and polls again. -/
def dealOne (fd : Nat) : List Label := List.flatten
  [[.poll 0 [(.acceptor, epollIn)], .dispatch 0], runs (.loop 0) 1,
    [.run (.loop 0) (.accept (some fd))], runs (.loop 0) 5,
    [.loop 0 .startFunctors, .loop 0 .swap, .loop 0 .finish, .loop 0 .test]]

/-- Three connections: the first and the third go to one sub loop, the second to the other. -/
def dealRun : List Label :=
  [.loop 0 .enterLoop, .loop 0 .test] ++ dealOne 10 ++ dealOne 11 ++ dealOne 12

theorem round_robin_deal : ∃ tr s, Run step threeLoops tr s ∧ s.created = 3 ∧
    (s.conns 0).loop = 1 ∧ (s.conns 1).loop = 2 ∧ (s.conns 2).loop = 1 ∧
    s.load 1 = 2 ∧ s.load 2 = 1 := by
  have h : ((Machine.exec step threeLoops dealRun).any fun s => decide (s.created = 3)) = true := by
    decide +kernel
  obtain ⟨s, hs, hb⟩ := (Option.any_eq_true _ _).mp h
  have hthree : s.created = 3 := of_decide_eq_true hb
  have hrun := exec_run .start hs
  obtain ⟨hloop, _, hload, _⟩ := round_robin hrun
  rw [hthree] at hloop hload
  exact ⟨_, s, hrun, hthree, hloop 0 (by decide), hloop 1 (by decide), hloop 2 (by decide),
    hload 1 (by decide) (by decide), hload 2 (by decide) (by decide)⟩

end Runs

end Process

end CuteMuduo
