/-
  File:      CuteMuduo/EchoServer.lean
  Subject:   THE ECHO SERVER (tests/echo_server.cpp): the whole program with the user's code that
             `main` runs on it.

  The user's code is two callbacks. `UserDefineConnectionCallback` logs and returns;
  `UserDefineMessageCallback` takes all there is in the buffer (`RetrieveAllAsString`), sends it
  (`Send`) and returns. There is no other thread, no other callback is set, and nothing calls
  `Quit` or destroys the server: the steps are those of the program (`Process.step`), those of
  user code only where the two functions make them.

  `pc` says where a thread stands in the two functions; `Stands`, what is then on its stack.
-/
import CuteMuduo.TcpConnection.SendBuffer
import CuteMuduo.TcpServer.Progress
import CuteMuduo.TcpServer.RoundRobin

namespace CuteMuduo

open Machine

/-- Where a thread stands in the code of the `EchoServer`. -/
inductive EchoPc where
  /-- In neither of its callbacks. -/
  | outside
  /-- In `UserDefineMessageCallback`, before `RetrieveAllAsString`. -/
  | message (c : ConnId)
  /-- In `UserDefineMessageCallback`, before `Send`; `msg` is its local variable. -/
  | retrieved (c : ConnId) (msg : List UInt8)
  /-- Behind `Send`, or in `UserDefineConnectionCallback`: no call is left. -/
  | leaving
  deriving DecidableEq, Repr

/-- The program that `main` runs. -/
structure EchoServer where
  process : Process
  pc : ThreadId → EchoPc

namespace EchoServer

/-- `server.Start()` has returned; `SetThreadNum(numLoops)`. -/
def start (name : List Char) (addr : InetAddress) (numLoops : Nat) : EchoServer where
  process := .init name addr numLoops false
  pc _ := .outside

/-- The callback that a step on `t` calls. -/
def called (s : Process) (t : ThreadId) (o : Outcome) : Option EchoPc :=
  match s.stack t, o with
  | .conn _ .connectionCallback :: _, _ => some .leaving
  | .conn c .handleRead :: _, .read (.data (_ :: _)) => some (.message c)
  | _, _ => none

/-- The next call of the callback on `t`, and where it stands behind it. -/
def nextCall (e : EchoServer) (t : ThreadId) : Option (Process.UserCall × EchoPc) :=
  match e.pc t with
  | .message c =>
    let buf := (e.process.conns c).inputBuffer
    some (.retrieve c buf.readableBytes, .retrieved c buf.retrieveAllAsString.1)
  | .retrieved c msg => some (.send c msg, .leaving)
  | _ => none

/-- **One step of the echo server.** -/
def step (e : EchoServer) (a : Process.Label) : Option EchoServer :=
  match a with
  | .run t o => (e.process.step a).map fun s =>
      ⟨s, Function.update e.pc t ((called e.process t o).getD (e.pc t))⟩
  | .user t u => match e.nextCall t with
    | some (v, pc) =>
      if u = v then (e.process.step a).map fun s => ⟨s, Function.update e.pc t pc⟩ else none
    | none => none
  | .ret t =>
    if e.pc t = .leaving then
      (e.process.step a).map fun s => ⟨s, Function.update e.pc t .outside⟩
    else none
  | _ => (e.process.step a).map fun s => ⟨s, e.pc⟩

/-- `main`: four sub loops, port 9012 of the loopback address. -/
def main : EchoServer := start "CuteEchoServer".toList ⟨127, 0, 0, 1, 9012⟩ 4

end EchoServer

/-! ## What the library does by itself -/

/-- No call of the user's, nor what becomes of one. -/
def ConnOp.system : ConnOp → Bool
  | .send _ | .sendInLoop _ _ | .shutdown | .shutdownSetState | .writeComplete | .highWaterMark _
  | .setHighWaterMark _ | .retrieve _ => false
  | _ => true

def Functor.system : Functor → Bool
  | .conn _ op => op.system
  | .removeConnectionInLoop _ => true
  | .user _ => false

/-- Neither user code, nor a call of the user's, nor what becomes of one. -/
def Instr.system : Instr → Bool
  | .conn _ op => op.system
  | .runInLoop _ f | .queueInLoop _ f => f.system
  | .callback _ | .quit _ | .quitWake _ | .destroyEntries | .destroyThread _ | .join _
  | .destroyAcceptor => false
  | _ => true

namespace Ctx

variable {k k' : Ctx} {c : ConnId} {t : ThreadId} {own : Bool} {op : ConnOp} {o : Outcome}
  {is : List Instr}

/-- **Where a function calls user code**, that is all it leaves to do. -/
theorem exec_callback (h : k.exec c t own op o = some (k', is)) (hop : op.system = true)
    {arg : Option ConnId} (hm : .callback arg ∈ is) : is = [.callback (some c)] ∧
      (op = .connectionCallback ∨ op = .handleRead ∧ ∃ b bs, o = .read (.data (b :: bs))) := by
  cases op with
  | connectionCallback =>
      cases h
      exact ⟨rfl, Or.inl rfl⟩
  | handleRead =>
      cases o with
      | read r =>
          cases of_handleRead h with
          | message bytes hn =>
              cases bytes with
              | nil => exact absurd hn (Nat.lt_irrefl 0)
              | cons b bs => exact ⟨rfl, Or.inr ⟨rfl, b, bs, rfl⟩⟩
          | _ => simp at hm
      | _ => cases h
  | handleWrite =>
      cases o with
      | write r =>
          cases of_handleWrite h with
          | drained =>
              unfold queueWriteComplete at hm
              split at hm <;> simp at hm
          | _ => simp at hm
      | _ => cases h
  | connectEstablished | destroySetState | channelRemove | closeCallback | handleClose =>
      obtain ⟨p, _, e⟩ := Option.map_eq_some_iff.mp h
      cases e
      simp at hm
  | connectDestroyed | shutdownIfDisconnecting =>
      cases h
      split at hm <;> simp at hm
  | handleError | shutdownInLoop =>
      cases h
      simp at hm
  | _ => cases hop

/-- What the library does by itself leads to the like, where no notification is asked for. -/
theorem exec_system (ha : k.Agrees c) (h : k.exec c t own op o = some (k', is))
    (hop : op.system = true) (hw : k.conn.writeCompleteCallback = false)
    (hh : k.conn.highWaterMarkCallback = false) {j : Instr} (hj : j ∈ is)
    (hcb : ∀ arg, j ≠ .callback arg) : j.system = true := by
  have hno : k'.conn.writeCompleteCallback = false ∧ k'.conn.highWaterMarkCallback = false := by
    refine ⟨(exec_effect ha h).same.writeComplete.trans hw, ?_⟩
    rw [exec_highWaterMark h, hh]
    cases op <;> first | rfl | cases hop
  cases exec_produced h j hj with
  | callback => exact absurd rfl (hcb _)
  | writeComplete =>
      have hset : k'.conn.writeCompleteCallback = true := (exec_calls ha h hj rfl).2
      rw [hno.1] at hset
      cases hset
  | highWaterMark size =>
      have hset : k'.conn.highWaterMarkCallback = true := (exec_calls ha h hj rfl).2
      rw [hno.2] at hset
      cases hset
  | sendInLoop msg e | sendHere msg e =>
      subst e
      cases hop
  | shutdownInLoop e =>
      subst e
      cases hop
  | conn op' hlead =>
      cases op <;> cases op' <;> first | rfl | cases hlead | cases hop
  | _ => rfl

end Ctx

end CuteMuduo
