/-
  File:      CuteMuduo/TcpServer.lean
  Subject:   THE WHOLE PROGRAM: a `TcpServer` (tcp_server.hpp, tcp_server.cpp) with its acceptor,
             base loop, sub loops and connections, and the user's code and threads around it.

  Each thread has a stack of instructions, what is left to do on it; a step of a thread executes
  the first one (`exec`), which may put others in its place. User code runs where the first
  instruction is `callback`, and on a thread with nothing to do: it may call any function of the
  interface (`UserCall`), as often as it likes, and return. A loop's thread with an empty stack
  goes on with `Loop()`: these are the steps of the machine `EventLoop`, one for each loop.

  * The run begins with `TcpServer::Start` returned: the acceptor listens, every sub loop is
    published and about to enter `Loop()`.
  * A `TcpConnection` is destroyed when nothing owns it; what then happens to its fd is
    `Ownership.lean`. As it turns out there that none is ever destroyed, no step here closes a
    connection's fd, and `accept4` does not return the fd of an earlier connection.
  * Undefined behaviour, an exception out of the library and `LOG_FATAL` end the run: no step.
    So do the use of a server or of a loop that is gone, and a connection whose number is beyond
    `int`.
-/
import Mathlib.Algebra.Group.Nat.Defs
import CuteMuduo.EventLoop
import CuteMuduo.TcpConnection
import CuteMuduo.InetAddress

namespace CuteMuduo

open Machine

/-- What is left of the `TcpServer`. -/
inductive Life where
  | live
  /-- In `~TcpServer`. -/
  | destroying
  /-- `~TcpServer` has returned. -/
  | dead
  deriving DecidableEq, Repr

/-- A `TcpServer` and the counter of its thread pool. -/
structure TcpServer where
  ipPort : List Char
  name : List Char
  writeCompleteCallback : Bool
  nextConnId : Nat
  /-- `connections_`; `~TcpServer` leaves null pointers in it. -/
  connections : List (List Char × Option ConnId)
  /-- `next_` of the `EventLoopThreadPool`. -/
  next : Nat
  life : Life

namespace TcpServer

/-- `connections_[name] = conn_ptr`. -/
def insert (m : List (List Char × Option ConnId)) (name : List Char) (c : ConnId) :
    List (List Char × Option ConnId) :=
  (name, some c) :: m.filter (·.1 ≠ name)

/-- `connections_.erase(name)`. -/
def erase (m : List (List Char × Option ConnId)) (name : List Char) :
    List (List Char × Option ConnId) :=
  m.filter (·.1 ≠ name)

/-- `conn_ptr.reset()` on the entry that points to `c`. -/
def reset (m : List (List Char × Option ConnId)) (c : ConnId) :
    List (List Char × Option ConnId) :=
  m.map fun e => if e.2 = some c then (e.1, none) else e

/-- The name of the next connection: `snprintf` into 64 bytes, behind the server's name. -/
def connName (server : TcpServer) : List Char :=
  server.name ++
    (['-'] ++ server.ipPort ++ ['#'] ++ Nat.toDigits 10 server.nextConnId).take 63

/-- `EventLoopThreadPool::GetNextLoop()`: the loop, and `next_` behind the call. -/
def getNextLoop (server : TcpServer) (numLoops : Nat) : LoopId × Nat :=
  if numLoops = 0 then (0, server.next)
  else (server.next + 1, if numLoops ≤ server.next + 1 then 0 else server.next + 1)

end TcpServer

/-- The whole program. -/
structure Process where
  /-- The sub loops are `1, …, numLoops`. -/
  numLoops : Nat
  loops : LoopId → EventLoop ThreadId Functor
  /-- What `Loop()` has still to handle of `active_channels_`. -/
  active : LoopId → List Chan
  pollers : LoopId → EpollPoller Chan
  chans : Chan → Channel
  conns : ConnId → TcpConnection
  /-- How many connections there are. -/
  created : Nat
  server : TcpServer
  /-- The `TcpConnectionPtr`s user code keeps. -/
  held : List ConnId
  /-- The sub loops whose `ThreadFunc` has returned. -/
  threadDone : LoopId → Bool
  stack : ThreadId → List Instr
  -- history
  /-- The connections `RemoveConnectionInLoop` has run for. -/
  removed : List ConnId

namespace Process

/-- The fds below this one are the loops' eventfds and the listening socket. -/
def firstFd (numLoops : Nat) : Nat := numLoops + 2

/-- A channel with its read interest registered. -/
def listening (fd : Nat) : Channel :=
  { Channel.create fd with events := kReadEvent, index := .kAdded }

/-- `TcpServer::Start` has returned. -/
def init (name : List Char) (addr : InetAddress) (numLoops : Nat) (writeComplete : Bool) :
    Process where
  numLoops := numLoops
  loops l := .create (.loop l)
  active _ := []
  pollers l fd :=
    if l ≤ numLoops ∧ fd = l then (listening l).slot (.wakeup l)
    else if l = 0 ∧ fd = numLoops + 1 then (listening (numLoops + 1)).slot .acceptor
    else Slot.empty
  chans
    | .wakeup l => listening l
    | .acceptor => listening (numLoops + 1)
    | .conn _ => Channel.create 0
  conns _ := .create 0 []
  created := 0
  server :=
    { ipPort := addr.toIpPort, name := name, writeCompleteCallback := writeComplete
      nextConnId := 1, connections := [], next := 0, life := .live }
  held := []
  threadDone _ := false
  stack _ := []
  removed := []

/-- Connection `c`, its channel, and what its poller holds at its fd. -/
def ctx (s : Process) (c : ConnId) : Ctx where
  conn := s.conns c
  channel := s.chans (.conn c)
  slot := s.pollers (s.conns c).loop (s.chans (.conn c)).fd

def setCtx (s : Process) (c : ConnId) (k : Ctx) : Process :=
  { s with
    conns := Function.update s.conns c k.conn
    chans := Function.update s.chans (.conn c) k.channel
    pollers := Function.update s.pollers (s.conns c).loop
      (Function.update (s.pollers (s.conns c).loop) (s.chans (.conn c)).fd k.slot) }

def setStack (s : Process) (t : ThreadId) (is : List Instr) : Process :=
  { s with stack := Function.update s.stack t is }

@[simp] theorem stack_setStack_self (s : Process) (t : ThreadId) (is : List Instr) :
    (s.setStack t is).stack t = is := Function.update_self _ _ _

theorem stack_setStack_of_ne (s : Process) {t u : ThreadId} (is : List Instr) (h : u ≠ t) :
    (s.setStack t is).stack u = s.stack u := Function.update_of_ne h _ _

/-- What is executed next is on the stack. -/
theorem mem_stack {s : Process} {t : ThreadId} {i : Instr} {rest : List Instr}
    (h : s.stack t = i :: rest) : i ∈ s.stack t := by
  rw [h]
  exact List.mem_cons_self

/-- The loop and its thread exist. -/
def hasLoop (s : Process) (l : LoopId) : Bool := decide (l ≤ s.numLoops) && !s.threadDone l

/-- One step of loop `l`'s machine. -/
def loopStep (s : Process) (l : LoopId) (a : EventLoop.Action ThreadId Functor) : Option Process :=
  if s.hasLoop l then
    ((s.loops l).step a).map fun l' => { s with loops := Function.update s.loops l l' }
  else none

/-- `IsInLoopThread()` of loop `l`, asked by `t`. -/
def isInLoopThread (s : Process) (l : LoopId) (t : ThreadId) : Bool :=
  (s.loops l).isInLoopThread t

end Process

/-- The call of a functor. -/
def Functor.instr : Functor → Instr
  | .conn c op => .conn c op
  | .removeConnectionInLoop c => .removeConnectionInLoop c
  | .user _ => .callback none

/-- The functor's captured pointer lives until here. -/
def Functor.releases (f : Functor) : List Instr :=
  match f.captures with
  | some c => [.release c]
  | none => []

/-- The handlers `HandleEventWithGuard` calls for the mask `revents`. -/
def handlers (c : ConnId) (revents : EventMask) : List Instr :=
  (if revents.has epollHup && !revents.has epollIn then [.conn c .handleClose] else []) ++
  (if revents.has epollErr then [.conn c .handleError] else []) ++
  (if revents.has (epollIn ||| epollPri) then [.conn c .handleRead] else []) ++
  (if revents.has epollOut then [.conn c .handleWrite] else [])

namespace Process

/-! ## Instructions -/

/-- `Channel::HandleEvent`. A connection's channel is a member of the connection its `tie_`
    watches: where `HandleEvent` runs on a channel that exists, the lock succeeds. The pointer it
    returns is gone before a handler is called. -/
def handleEvent (s : Process) (ch : Chan) : Option (Process × List Instr) :=
  let revents := (s.chans ch).revents
  match ch with
  | .wakeup l =>
    if revents.has (epollIn ||| epollPri) then (s.loopStep l .handleRead).map (·, [])
    else some (s, [])
  | .acceptor =>
    if s.server.life = .dead then none
    else some (s, if revents.has (epollIn ||| epollPri) then
      [.acceptorHandleRead, .acceptorEventEnd] else [])
  | .conn c => some (s, handlers c revents)

/-- The connection `TcpServer::NewConnection` builds. Its `close_callback_` captures a
    `TcpConnectionPtr` to itself. -/
def freshConn (s : Process) : TcpConnection :=
  { TcpConnection.create (s.server.getNextLoop s.numLoops).1 s.server.connName with
    closeCallback := some s.created
    writeCompleteCallback := s.server.writeCompleteCallback }

/-- `TcpServer::NewConnection`. -/
def newConnection (s : Process) (fd : Nat) : Process × List Instr :=
  ({ s with
      conns := Function.update s.conns s.created s.freshConn
      chans := Function.update s.chans (.conn s.created) (Channel.create fd)
      created := s.created + 1
      server := { s.server with
        nextConnId := s.server.nextConnId + 1
        connections := TcpServer.insert s.server.connections s.server.connName s.created
        next := (s.server.getNextLoop s.numLoops).2 } },
    [.runInLoop (s.server.getNextLoop s.numLoops).1 (.conn s.created .connectEstablished),
      .release s.created])

/-- A new fd is not one of the loops', the listening socket's or an earlier connection's. -/
def freshFd (s : Process) (fd : Nat) : Bool :=
  decide (firstFd s.numLoops ≤ fd) &&
    (List.range s.created).all fun c => (s.chans (.conn c)).fd != fd

/-- `Acceptor::HandleRead`; a connection's number is an `int`. -/
def acceptorHandleRead (s : Process) (fd : Option Nat) : Option (Process × List Instr) :=
  match fd with
  | none => some (s, [])
  | some fd =>
    if s.server.life ≠ .dead ∧ s.freshFd fd ∧ s.server.nextConnId < 2 ^ 31 then
      some (s.newConnection fd)
    else none

/-- `connections_.erase(conn_ptr->GetName())`. -/
def eraseEntry (s : Process) (c : ConnId) : Process :=
  { s with
    server := { s.server with
      connections := TcpServer.erase s.server.connections (s.conns c).name }
    removed := s.removed ++ [c] }

/-- `TcpServer::RemoveConnectionInLoop`. -/
def removeConnectionInLoop (s : Process) (c : ConnId) : Option (Process × List Instr) :=
  if s.server.life = .dead then none
  else some (s.eraseEntry c, [.queueInLoop (s.conns c).loop (.conn c .connectDestroyed)])

/-- `conn_ptr.reset()` in `~TcpServer`. -/
def resetEntry (s : Process) (c : ConnId) : Process :=
  { s with server := { s.server with connections := TcpServer.reset s.server.connections c } }

/-- The members of the `TcpServer` behind its thread pool are destroyed. -/
def clearEntries (s : Process) : Process :=
  { s with server := { s.server with connections := [] } }

/-- `~TcpServer`: the next entry of `connections_`, or, behind the last, the destruction of the
    thread pool and of the acceptor. -/
def destroyEntries (s : Process) (entry : Option ConnId) : Option (Process × List Instr) :=
  match entry with
  | some c =>
    if s.server.connections.any (·.2 == some c) then
      some (s.resetEntry c,
        [.runInLoop (s.conns c).loop (.conn c .connectDestroyed), .release c, .destroyEntries])
    else none
  | none =>
    if s.server.connections.all (·.2 == none) then
      some (s.clearEntries,
        (List.range s.numLoops).map (fun i => .destroyThread (i + 1)) ++ [.destroyAcceptor])
    else none

/-- The acceptor's channel and its registration after an operation; `~TcpServer` is over. -/
def dropAcceptor (s : Process) (p : Slot Chan × Channel) : Process :=
  { s with
    chans := Function.update s.chans .acceptor p.2
    pollers := Function.update s.pollers 0
      (Function.update (s.pollers 0) (s.chans .acceptor).fd p.1)
    server := { s.server with life := .dead } }

/-- `~Acceptor`: `DisableAll` and `Remove` on its channel. -/
def destroyAcceptor (s : Process) : Option (Process × List Instr) :=
  ((s.chans .acceptor).disableAll (s.pollers 0 (s.chans .acceptor).fd) .acceptor).bind fun p =>
    (p.2.remove p.1 .acceptor).map fun p => (s.dropAcceptor p, [])

/-- **Thread `t` executes the instruction `i`**: what becomes of the program, and what is to do
    in the place of `i`. -/
def exec (s : Process) (t : ThreadId) (i : Instr) (o : Outcome) : Option (Process × List Instr) :=
  match i with
  | .conn c op =>
    ((s.ctx c).exec c t (s.isInLoopThread (s.conns c).loop t) op o).map fun p =>
      (s.setCtx c p.1, p.2)
  | .handleEvent ch => s.handleEvent ch
  | .callback _ => none
  | .release _ => some (s, [])
  | .runInLoop l f =>
    some (s, if s.isInLoopThread l t then f.instr :: f.releases else [.queueInLoop l f])
  | .queueInLoop l f => (s.loopStep l (.queueInLoop t f)).map (·, [.queueWake l])
  | .queueWake l => (s.loopStep l (.queueWake t)).map (·, [])
  | .quit l => (s.loopStep l (.quitStore t)).map (·, [.quitWake l])
  | .quitWake l => (s.loopStep l (.quitWake t)).map (·, [])
  | .removeConnection c =>
    if s.server.life = .dead then none
    else some (s, [.runInLoop 0 (.removeConnectionInLoop c)])
  | .removeConnectionInLoop c => s.removeConnectionInLoop c
  | .acceptorHandleRead => match o with
    | .accept fd => s.acceptorHandleRead fd
    | _ => none
  -- the acceptor and its channel are gone where a callback inside it has destroyed the server
  | .acceptorEventEnd => if s.server.life = .dead then none else some (s, [])
  | .destroyEntries => match o with
    | .entry c => s.destroyEntries c
    | _ => none
  | .destroyThread l => some (s, if s.threadDone l then [] else [.quit l, .join l])
  | .join l => if s.threadDone l then some (s, []) else none
  | .destroyAcceptor => s.destroyAcceptor

/-! ## User code -/

/-- What user code may do. -/
inductive UserCall where
  | send (c : ConnId) (msg : List UInt8)
  | shutdown (c : ConnId)
  | setHighWaterMark (c : ConnId) (mark : Nat)
  /-- `Retrieve` on the buffer a message callback was given. -/
  | retrieve (c : ConnId) (len : Nat)
  /-- Keep a copy of a `TcpConnectionPtr`. -/
  | copy (c : ConnId)
  /-- Give up a copy. -/
  | drop (c : ConnId)
  | queueInLoop (l : LoopId) (k : Nat)
  | runInLoop (l : LoopId) (k : Nat)
  | quit (l : LoopId)
  /-- `~TcpServer`. -/
  | destroyServer
  deriving DecidableEq, Repr

/-- Thread `t` is in user code: in a callback, or with nothing of the library to do. -/
def userCode (s : Process) (t : ThreadId) : Bool :=
  match s.stack t with
  | .callback _ :: _ => true
  | _ :: _ => false
  | [] => match t with
    | .user _ => true
    | .loop l => s.hasLoop l && match (s.loops l).phase with
      | .init => true
      | .left => l == 0
      | _ => false

/-- The pointer the running callback was called with. -/
def argument (s : Process) (t : ThreadId) : Option ConnId :=
  match s.stack t with
  | .callback arg :: _ => arg
  | _ => none

/-- User code on `t` has a `TcpConnectionPtr` to `c`. -/
def mayUse (s : Process) (t : ThreadId) (c : ConnId) : Bool :=
  s.held.contains c || s.argument t == some c

/-- User code on `t` makes a call. The caller's pointer lives until the call returns. -/
def call (s : Process) (t : ThreadId) : UserCall → Option (Process × List Instr)
  | .send c msg => if s.mayUse t c then some (s, [.conn c (.send msg), .release c]) else none
  | .shutdown c => if s.mayUse t c then some (s, [.conn c .shutdown, .release c]) else none
  | .setHighWaterMark c mark =>
    if s.mayUse t c then some (s, [.conn c (.setHighWaterMark mark), .release c]) else none
  | .retrieve c len =>
    if s.argument t = some c ∧ s.isInLoopThread (s.conns c).loop t then
      some (s, [.conn c (.retrieve len)])
    else none
  | .copy c => if s.mayUse t c then some ({ s with held := c :: s.held }, []) else none
  | .drop c => some ({ s with held := s.held.erase c }, [])
  | .queueInLoop l k => some (s, [.queueInLoop l (.user k)])
  | .runInLoop l k => some (s, [.runInLoop l (.user k)])
  | .quit l => some (s, [.quit l])
  | .destroyServer =>
    if t = .loop 0 ∧ s.server.life = .live then
      some ({ s with server := { s.server with life := .destroying } }, [.destroyEntries])
    else none

/-! ## Steps -/

/-- One step, with the choices it leaves open. -/
inductive Label where
  /-- Thread `t` executes its next instruction. -/
  | run (t : ThreadId) (o : Outcome)
  /-- User code on `t` makes a call. -/
  | user (t : ThreadId) (u : UserCall)
  /-- The callback on `t` returns. -/
  | ret (t : ThreadId)
  /-- Loop `l` goes on. -/
  | loop (l : LoopId) (a : EventLoop.Action ThreadId Functor)
  /-- `Poll` of loop `l` returns with these channels and masks. -/
  | poll (l : LoopId) (events : List (Chan × EventMask))
  /-- Loop `l` calls `HandleEvent` on the next active channel. -/
  | dispatch (l : LoopId)
  /-- `ThreadFunc` of sub loop `l` returns. -/
  | threadEnd (l : LoopId)

/-- The steps of `Loop()` that are no call and no dispatch. -/
def isControl : EventLoop.Action ThreadId Functor → Bool
  | .enterLoop | .test | .startFunctors | .swap | .next _ | .ret | .finish => true
  | _ => false

/-- The functor that is about to be called. -/
def nextInstr (s : Process) (l : LoopId) : EventLoop.Action ThreadId Functor → List Instr
  | .next _ => match (s.loops l).phase with
    | .batch (f :: _) => [f.instr]
    | _ => []
  | _ => []

/-- The kernel may report channel `ch` of loop `l` with mask `revents`: it is in the epoll set.
    An eventfd is only ever readable. -/
def mayReport (s : Process) (l : LoopId) (event : Chan × EventMask) : Bool :=
  ((s.pollers l (s.chans event.1).fd).epoll.any (·.2 == event.1)) &&
    match event.1 with
    | .wakeup _ => event.2 == epollIn
    | _ => true

/-- `FillActiveChannels`: the masks go into the channels. -/
def setRevents (chans : Chan → Channel) : List (Chan × EventMask) → Chan → Channel
  | [] => chans
  | (ch, revents) :: events =>
    Function.update (setRevents chans events) ch ((setRevents chans events ch).setRevents revents)

/-- **One step of the program.** -/
def step (s : Process) : Label → Option Process
  | .run t o => match s.stack t with
    | i :: rest => (s.exec t i o).map fun p => p.1.setStack t (p.2 ++ rest)
    | [] => none
  | .user t u =>
    if s.userCode t then (s.call t u).map fun p => p.1.setStack t (p.2 ++ s.stack t) else none
  | .ret t => match s.stack t with
    | .callback _ :: rest => some (s.setStack t rest)
    | _ => none
  | .loop l a =>
    if s.stack (.loop l) = [] ∧ s.active l = [] ∧ isControl a then
      (s.loopStep l a).map fun s' => s'.setStack (.loop l) (s.nextInstr l a)
    else none
  | .poll l events =>
    if s.stack (.loop l) = [] ∧ events.all (s.mayReport l) ∧ (events.map Prod.fst).Nodup then
      (s.loopStep l (.pollReturn (events.any (·.1 == .wakeup l)))).map fun s' =>
        { s' with
          chans := setRevents s.chans events
          active := Function.update s.active l (events.map Prod.fst) }
    else none
  | .dispatch l => match s.stack (.loop l), s.active l with
    | [], ch :: rest => some
      ({ s with active := Function.update s.active l rest }.setStack (.loop l) [.handleEvent ch])
    | _, _ => none
  | .threadEnd l =>
    if 0 < l ∧ s.hasLoop l ∧ s.stack (.loop l) = [] ∧ (s.loops l).phase = .left then
      some { s with threadDone := Function.update s.threadDone l true }
    else none

end Process

end CuteMuduo
