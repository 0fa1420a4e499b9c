/-
  File:      CuteMuduo/TcpConnection.lean
  Subject:   `TcpConnection` (tcp_connection.hpp, tcp_connection.cpp): one connection, its socket
             and channel, as the functions its loop and its users call.

  `state_` is shared between threads; the rest belongs to the thread of the connection's loop. A
  function is cut where another thread may come in between two accesses to `state_` or to the
  task queue, and where user code runs: what is left to do then are instructions (`Instr`),
  which the thread executes next. So `ConnectDestroyed` is the load (`connectDestroyed`), the
  store with `DisableAll` (`destroySetState`), the callback (`connectionCallback`) and `Remove`
  (`channelRemove`); `Send` and `Shutdown` are their load, and what follows it.

  The answers of `write` and `readv` are arguments. `connection_callback_` and
  `message_callback_` are set; `high_water_mark_callback_` is set through `setHighWaterMark`.

  `log` is history: no function reads it. The theorems speak about it.
-/
import CuteMuduo.Buffer
import CuteMuduo.EpollPoller

namespace CuteMuduo

/-- Event loops: `0` is the base loop, the others are the sub loops. -/
abbrev LoopId := Nat

/-- Connections, in the order `NewConnection` builds them. -/
abbrev ConnId := Nat

/-- The thread of a loop, or a thread of the user's. -/
inductive ThreadId where
  | loop (l : LoopId)
  | user (u : Nat)
  deriving DecidableEq, Repr

/-- A `Channel*`. -/
inductive Chan where
  | wakeup (l : LoopId)
  | acceptor
  | conn (c : ConnId)
  deriving DecidableEq, Repr

/-- `TcpConnection::StateE`. -/
inductive StateE where
  | kConnecting
  | kConnected
  | kDisconnecting
  | kDisconnected
  deriving DecidableEq, Repr

inductive Errno where
  | eWouldBlock
  | ePipe
  | eConnReset
  | other (n : Nat)
  deriving DecidableEq, Repr

/-- The answer of `write`. A failure carries the `errno` it set, and the `errno` found after the
    logger has run. -/
inductive WriteResult where
  | wrote (n : Nat)
  | failed (err errAfterLog : Errno)
  deriving DecidableEq, Repr

/-- The answer of `readv`; no bytes is the end of the stream. -/
inductive ReadResult where
  | data (bytes : List UInt8)
  | failed (err : Errno)
  deriving DecidableEq, Repr

/-- What a thread does on a connection: a member function, or what is left of one. -/
inductive ConnOp where
  | connectEstablished
  | connectDestroyed
  /-- `ConnectDestroyed`, past its load of `kConnected`: the store and `DisableAll`. -/
  | destroySetState
  /-- The end of `ConnectDestroyed`. -/
  | channelRemove
  /-- The call of `connection_callback_`. -/
  | connectionCallback
  /-- The call of `close_callback_`. -/
  | closeCallback
  | handleRead
  | handleWrite
  | handleClose
  | handleError
  /-- `HandleWrite`, with the buffer drained: its test of `state_`. -/
  | shutdownIfDisconnecting
  | send (msg : List UInt8)
  /-- `SendInLoop` of a message `sender` sent. -/
  | sendInLoop (sender : ThreadId) (msg : List UInt8)
  | shutdown
  /-- `Shutdown`, past its load of `kConnected`: the store. -/
  | shutdownSetState
  | shutdownInLoop
  /-- The functor that calls `write_complete_callback_`. -/
  | writeComplete
  /-- The functor that calls `high_water_mark_callback_`. -/
  | highWaterMark (size : Nat)
  | setHighWaterMark (mark : Nat)
  /-- `Retrieve` on `input_buffer_`, by a message callback. -/
  | retrieve (len : Nat)
  deriving DecidableEq, Repr

/-- A functor handed to a loop. -/
inductive Functor where
  | conn (c : ConnId) (op : ConnOp)
  | removeConnectionInLoop (c : ConnId)
  | user (k : Nat)
  deriving DecidableEq, Repr

/-- The `TcpConnectionPtr` a functor captures. The functors a connection makes of itself capture
    `this`, which owns nothing. -/
def Functor.captures : Functor → Option ConnId
  | .conn c .connectEstablished => some c
  | .conn c .connectDestroyed => some c
  | .removeConnectionInLoop c => some c
  | _ => none

/-- What is left to do on a thread, the next first. -/
inductive Instr where
  | conn (c : ConnId) (op : ConnOp)
  /-- `Channel::HandleEvent`. -/
  | handleEvent (ch : Chan)
  /-- User code runs; `arg` is the `TcpConnectionPtr` it was called with. -/
  | callback (arg : Option ConnId)
  /-- A local `TcpConnectionPtr` to `c` lives until here. -/
  | release (c : ConnId)
  | runInLoop (l : LoopId) (f : Functor)
  | queueInLoop (l : LoopId) (f : Functor)
  /-- The rest of `QueueInLoop`. -/
  | queueWake (l : LoopId)
  | quit (l : LoopId)
  /-- The rest of `Quit`. -/
  | quitWake (l : LoopId)
  /-- `TcpServer::RemoveConnection`. -/
  | removeConnection (c : ConnId)
  | removeConnectionInLoop (c : ConnId)
  /-- `Acceptor::HandleRead`. -/
  | acceptorHandleRead
  /-- The rest of `HandleEvent` on the acceptor's channel: it reads `revents_` again. -/
  | acceptorEventEnd
  /-- `~TcpServer`, in its loop over `connections_`. -/
  | destroyEntries
  /-- `~EventLoopThread` of sub loop `l`. -/
  | destroyThread (l : LoopId)
  /-- `Thread::Join` of sub loop `l`'s thread. -/
  | join (l : LoopId)
  /-- `~Acceptor`, the last member `~TcpServer` destroys that does anything. -/
  | destroyAcceptor
  deriving DecidableEq, Repr

/-- How a `SendInLoop` went. -/
inductive SendOutcome where
  /-- `state_` was `kDisconnected`. -/
  | refused
  /-- It called `write`. -/
  | direct (r : WriteResult)
  /-- It only appended to `output_buffer_`. -/
  | buffered
  deriving DecidableEq, Repr

/-- What happened on a connection. -/
inductive ConnEvent where
  /-- `Send` found `kConnected`. -/
  | accepted (sender : ThreadId) (msg : List UInt8)
  | sendInLoop (sender : ThreadId) (msg : List UInt8) (outcome : SendOutcome)
  /-- A call of `write`; the kernel took `bytes`. -/
  | write (bytes : List UInt8)
  /-- A call of `ShutdownWrite`. -/
  | shutdownWrite
  /-- `connection_callback_`, with the `IsConnected()` it sees. -/
  | connection (up : Bool)
  /-- `message_callback_`, with the content of `input_buffer_`. -/
  | message (content : List UInt8)
  /-- `close_callback_`. -/
  | close
  /-- `ConnectDestroyed` returns. -/
  | destroyed
  deriving DecidableEq, Repr

/-- A `TcpConnection`; its channel is kept beside it. -/
structure TcpConnection where
  loop : LoopId
  name : List Char
  state : StateE
  /-- The `TcpConnectionPtr` that `close_callback_` captures. -/
  closeCallback : Option ConnId
  /-- `write_complete_callback_` is set. -/
  writeCompleteCallback : Bool
  highWaterMark : Nat
  /-- `high_water_mark_callback_` is set. -/
  highWaterMarkCallback : Bool
  inputBuffer : Buffer
  outputBuffer : Buffer
  -- history
  log : List ConnEvent
  deriving DecidableEq

/-- `TcpConnection::TcpConnection`. -/
def TcpConnection.create (loop : LoopId) (name : List Char) : TcpConnection where
  loop := loop
  name := name
  state := .kConnecting
  closeCallback := none
  writeCompleteCallback := false
  highWaterMark := 64 * 1024 * 1024
  highWaterMarkCallback := false
  inputBuffer := .create kInitialSize
  outputBuffer := .create kInitialSize
  log := []

/-- A connection with its channel, and what its poller holds at its fd. -/
structure Ctx where
  conn : TcpConnection
  channel : Channel
  slot : Slot Chan

namespace WriteResult

/-- `nwrote`, after `if (nwrote < 0) nwrote = 0`. -/
def nwrote : WriteResult → Nat
  | .wrote n => n
  | .failed _ _ => 0

def succeeded : WriteResult → Bool
  | .wrote _ => true
  | .failed _ _ => false

/-- `fault_error`: the second test of `errno` comes after the logger. -/
def faultError : WriteResult → Bool
  | .wrote _ => false
  | .failed err errAfterLog =>
    err != .eWouldBlock && (errAfterLog == .ePipe || errAfterLog == .eConnReset)

/-- `write` takes no more than it is offered. -/
def allowed (r : WriteResult) (offered : Nat) : Bool := decide (r.nwrote ≤ offered)

end WriteResult

namespace Ctx

/-- Add to the history. -/
def record (k : Ctx) (events : List ConnEvent) : Ctx :=
  { k with conn := { k.conn with log := k.conn.log ++ events } }

def setState (k : Ctx) (state : StateE) : Ctx := { k with conn := { k.conn with state := state } }

/-- The channel and its registration after an operation on the poller. -/
def setChannel (k : Ctx) (p : Slot Chan × Channel) : Ctx := { k with slot := p.1, channel := p.2 }

/-- `IsConnected()`. -/
def isConnected (k : Ctx) : Bool := k.conn.state == .kConnected

/-! ### Coming and going -/

def connectEstablished (k : Ctx) (c : ConnId) : Option (Ctx × List Instr) :=
  let k := k.setState .kConnected
  (k.channel.tie.enableReading k.slot (.conn c)).map fun p =>
    (k.setChannel p, [.conn c .connectionCallback])

def connectDestroyed (k : Ctx) (c : ConnId) : Option (Ctx × List Instr) :=
  some (k, if k.conn.state = .kConnected then [.conn c .destroySetState, .conn c .channelRemove]
    else [.conn c .channelRemove])

def destroySetState (k : Ctx) (c : ConnId) : Option (Ctx × List Instr) :=
  let k := k.setState .kDisconnected
  (k.channel.disableAll k.slot (.conn c)).map fun p =>
    (k.setChannel p, [.conn c .connectionCallback])

def channelRemove (k : Ctx) (c : ConnId) : Option (Ctx × List Instr) :=
  (k.channel.remove k.slot (.conn c)).map fun p => ((k.setChannel p).record [.destroyed], [])

def connectionCallback (k : Ctx) (c : ConnId) : Option (Ctx × List Instr) :=
  some (k.record [.connection k.isConnected], [.callback (some c)])

/-- `close_callback_` is `NewConnection`'s lambda, which calls `RemoveConnection` with the
    pointer it captured. -/
def closeCallback (k : Ctx) : Option (Ctx × List Instr) :=
  k.conn.closeCallback.map fun d => (k.record [.close], [.removeConnection d])

/-! ### The handlers of the channel -/

def handleRead (k : Ctx) (c : ConnId) (r : ReadResult) : Option (Ctx × List Instr) :=
  match r with
  | .data bytes =>
    if bytes.length ≤ k.conn.inputBuffer.readCapacity then
      let k := { k with conn := { k.conn with inputBuffer := k.conn.inputBuffer.readFd bytes } }
      if 0 < bytes.length then
        some (k.record [.message k.conn.inputBuffer.readable], [.callback (some c)])
      else some (k, [.conn c .handleClose])
    else none
  | .failed _ => some (k, [.conn c .handleError])

/-- The functor that calls `write_complete_callback_`, queued. -/
def queueWriteComplete (k : Ctx) (c : ConnId) : List Instr :=
  if k.conn.writeCompleteCallback then [.queueInLoop k.conn.loop (.conn c .writeComplete)] else []

def handleWrite (k : Ctx) (c : ConnId) (r : WriteResult) : Option (Ctx × List Instr) :=
  if k.channel.isWriting then
    if r.allowed k.conn.outputBuffer.readableBytes then
      let k := k.record [.write (k.conn.outputBuffer.readable.take r.nwrote)]
      if r.succeeded then
        let k := { k with conn :=
          { k.conn with outputBuffer := k.conn.outputBuffer.writeFd r.nwrote } }
        if 0 < r.nwrote ∧ k.conn.outputBuffer.readableBytes = 0 then
          (k.channel.disableWriting k.slot (.conn c)).map fun p =>
            (k.setChannel p, k.queueWriteComplete c ++ [.conn c .shutdownIfDisconnecting])
        else some (k, [])
      else some (k, [])
    else none
  else some (k, [])

def handleClose (k : Ctx) (c : ConnId) : Option (Ctx × List Instr) :=
  let k := k.setState .kDisconnected
  (k.channel.disableAll k.slot (.conn c)).map fun p =>
    (k.setChannel p, [.conn c .connectionCallback, .conn c .closeCallback, .release c])

/-- `HandleError` reads `SO_ERROR` and logs it. -/
def handleError (k : Ctx) : Option (Ctx × List Instr) := some (k, [])

/-! ### Sending and shutting down -/

/-- `Send(std::string const&)`, called by thread `t`; `own`: `IsInLoopThread()`. -/
def send (k : Ctx) (c : ConnId) (t : ThreadId) (own : Bool) (msg : List UInt8) :
    Option (Ctx × List Instr) :=
  if k.conn.state = .kConnected then
    some (k.record [.accepted t msg],
      if own then [.conn c (.sendInLoop t msg)]
      else [.runInLoop k.conn.loop (.conn c (.sendInLoop t msg))])
  else some (k, [])

/-- The end of `SendInLoop`: `remaining` bytes go to `output_buffer_`. -/
def appendOutput (k : Ctx) (c : ConnId) (remaining : List UInt8) : Option (Ctx × List Instr) :=
  let oldLen := k.conn.outputBuffer.readableBytes
  let high : List Instr :=
    if k.conn.highWaterMark ≤ oldLen + remaining.length ∧ oldLen < k.conn.highWaterMark ∧
        k.conn.highWaterMarkCallback then
      [.queueInLoop k.conn.loop (.conn c (.highWaterMark (oldLen + remaining.length)))]
    else []
  let k := { k with conn := { k.conn with outputBuffer := k.conn.outputBuffer.append remaining } }
  if k.channel.isWriting then some (k, high)
  else (k.channel.enableWriting k.slot (.conn c)).map fun p => (k.setChannel p, high)

/-- No write interest and nothing buffered: `SendInLoop` may write at once. -/
def writesDirectly (k : Ctx) : Bool :=
  !k.channel.isWriting && k.conn.outputBuffer.readableBytes == 0

def sendInLoop (k : Ctx) (c : ConnId) (sender : ThreadId) (msg : List UInt8) (r : WriteResult) :
    Option (Ctx × List Instr) :=
  if k.conn.state = .kDisconnected then some (k.record [.sendInLoop sender msg .refused], [])
  else if k.writesDirectly then
    if r.allowed msg.length then
      let k := k.record [.write (msg.take r.nwrote), .sendInLoop sender msg (.direct r)]
      let remaining := msg.drop r.nwrote
      if r.succeeded ∧ remaining = [] then some (k, k.queueWriteComplete c)
      else if r.faultError = false ∧ remaining ≠ [] then k.appendOutput c remaining
      else some (k, [])
    else none
  else
    let k := k.record [.sendInLoop sender msg .buffered]
    if msg ≠ [] then k.appendOutput c msg else some (k, [])

def shutdown (k : Ctx) (c : ConnId) : Option (Ctx × List Instr) :=
  some (k, if k.conn.state = .kConnected then [.conn c .shutdownSetState] else [])

def shutdownSetState (k : Ctx) (c : ConnId) : Option (Ctx × List Instr) :=
  some (k.setState .kDisconnecting, [.runInLoop k.conn.loop (.conn c .shutdownInLoop)])

def shutdownInLoop (k : Ctx) : Option (Ctx × List Instr) :=
  some (if k.channel.isWriting then k else k.record [.shutdownWrite], [])

def shutdownIfDisconnecting (k : Ctx) (c : ConnId) : Option (Ctx × List Instr) :=
  some (k, if k.conn.state = .kDisconnecting then [.conn c .shutdownInLoop] else [])

/-- `SetHighWaterMarkCallback`, with a callback. -/
def setHighWaterMark (k : Ctx) (mark : Nat) : Option (Ctx × List Instr) :=
  some ({ k with conn := { k.conn with highWaterMark := mark, highWaterMarkCallback := true } }, [])

def retrieve (k : Ctx) (len : Nat) : Option (Ctx × List Instr) :=
  some ({ k with conn := { k.conn with inputBuffer := k.conn.inputBuffer.retrieve len } }, [])

end Ctx

/-- What the environment answers in a step: a system call of the step, or an order the code
    leaves open. -/
inductive Outcome where
  | none
  | write (r : WriteResult)
  | read (r : ReadResult)
  /-- `accept4`: the new fd, or a failure. -/
  | accept (fd : Option Nat)
  /-- The next entry of an `unordered_map`; nothing at its end. -/
  | entry (c : Option ConnId)
  deriving DecidableEq, Repr

/-- **Thread `t` executes `op` on connection `c`**; `own`: it is the thread of `c`'s loop. -/
def Ctx.exec (k : Ctx) (c : ConnId) (t : ThreadId) (own : Bool) (op : ConnOp) (o : Outcome) :
    Option (Ctx × List Instr) :=
  match op with
  | .connectEstablished => k.connectEstablished c
  | .connectDestroyed => k.connectDestroyed c
  | .destroySetState => k.destroySetState c
  | .channelRemove => k.channelRemove c
  | .connectionCallback => k.connectionCallback c
  | .closeCallback => k.closeCallback
  | .handleRead => match o with
    | .read r => k.handleRead c r
    | _ => none
  | .handleWrite => match o with
    | .write r => k.handleWrite c r
    | _ => none
  | .handleClose => k.handleClose c
  | .handleError => k.handleError
  | .shutdownIfDisconnecting => k.shutdownIfDisconnecting c
  | .send msg => k.send c t own msg
  | .sendInLoop sender msg => match o with
    | .write r => k.sendInLoop c sender msg r
    | _ => none
  | .shutdown => k.shutdown c
  | .shutdownSetState => k.shutdownSetState c
  | .shutdownInLoop => k.shutdownInLoop
  | .writeComplete => if k.conn.writeCompleteCallback then some (k, [.callback (some c)]) else none
  | .highWaterMark _ =>
    if k.conn.highWaterMarkCallback then some (k, [.callback (some c)]) else none
  | .setHighWaterMark mark => k.setHighWaterMark mark
  | .retrieve len => k.retrieve len

end CuteMuduo
