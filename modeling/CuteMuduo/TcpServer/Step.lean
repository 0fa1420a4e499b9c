/-
  File:      CuteMuduo/TcpServer/Step.lean
  Subject:   THE WAYS A STEP CAN GO: what `Process.exec` and `Process.step` can do, once and for
             all, as relations with one rule for each way.

  The invariants are proved by cases on these rules; `exec` and `step` are not unfolded again.
-/
import CuteMuduo.TcpServer
import CuteMuduo.TcpConnection.Exec

namespace CuteMuduo

open Machine

namespace Process

/-- **The instructions that are a step of a loop's machine**, and what they leave to do. -/
inductive LoopInstr (t : ThreadId) :
    Instr → LoopId → EventLoop.Action ThreadId Functor → List Instr → Prop where
  | queueInLoop (l : LoopId) (f : Functor) :
      LoopInstr t (.queueInLoop l f) l (.queueInLoop t f) [.queueWake l]
  | queueWake (l : LoopId) : LoopInstr t (.queueWake l) l (.queueWake t) []
  | quit (l : LoopId) : LoopInstr t (.quit l) l (.quitStore t) [.quitWake l]
  | quitWake (l : LoopId) : LoopInstr t (.quitWake l) l (.quitWake t) []
  | handleRead (l : LoopId) : LoopInstr t (.handleEvent (.wakeup l)) l .handleRead []

/-- **The instructions that change nothing but what is left to do.** -/
inductive Quiet (s : Process) (t : ThreadId) : Instr → List Instr → Prop where
  | wakeup (l : LoopId) : Quiet s t (.handleEvent (.wakeup l)) []
  | acceptor (hlife : s.server.life ≠ .dead) : Quiet s t (.handleEvent .acceptor) []
  | accept (hlife : s.server.life ≠ .dead) :
      Quiet s t (.handleEvent .acceptor) [.acceptorHandleRead, .acceptorEventEnd]
  | acceptorEnd (hlife : s.server.life ≠ .dead) : Quiet s t .acceptorEventEnd []
  | handlers (c : ConnId) :
      Quiet s t (.handleEvent (.conn c)) (handlers c (s.chans (.conn c)).revents)
  | release (c : ConnId) : Quiet s t (.release c) []
  | runHere (l : LoopId) (f : Functor) (h : s.isInLoopThread l t = true) :
      Quiet s t (.runInLoop l f) (f.instr :: f.releases)
  | runThere (l : LoopId) (f : Functor) (h : s.isInLoopThread l t = false) :
      Quiet s t (.runInLoop l f) [.queueInLoop l f]
  | removeConnection (c : ConnId) (hlife : s.server.life ≠ .dead) :
      Quiet s t (.removeConnection c) [.runInLoop 0 (.removeConnectionInLoop c)]
  | notAccepted : Quiet s t .acceptorHandleRead []
  | destroyThread (l : LoopId) : Quiet s t (.destroyThread l) [.quit l, .join l]
  | threadGone (l : LoopId) (h : s.threadDone l = true) : Quiet s t (.destroyThread l) []
  | joined (l : LoopId) (h : s.threadDone l = true) : Quiet s t (.join l) []

/-- **The ways to execute an instruction.** -/
inductive Exec (s : Process) (t : ThreadId) (o : Outcome) :
    Instr → Process → List Instr → Prop where
  | conn (c : ConnId) (op : ConnOp) (k : Ctx) (is : List Instr)
      (h : (s.ctx c).exec c t (s.isInLoopThread (s.conns c).loop t) op o = some (k, is)) :
      Exec s t o (.conn c op) (s.setCtx c k) is
  | quiet (i : Instr) (is : List Instr) (h : Quiet s t i is) : Exec s t o i s is
  | loop (i : Instr) (l : LoopId) (a : EventLoop.Action ThreadId Functor)
      (l' : EventLoop ThreadId Functor) (is : List Instr) (hi : LoopInstr t i l a is)
      (hl : s.hasLoop l = true) (h : (s.loops l).step a = some l') :
      Exec s t o i { s with loops := Function.update s.loops l l' } is
  | create (fd : Nat) (ho : o = .accept (some fd)) (hlife : s.server.life ≠ .dead)
      (hf : s.freshFd fd = true) (hid : s.server.nextConnId < 2 ^ 31) :
      Exec s t o .acceptorHandleRead (s.newConnection fd).1 (s.newConnection fd).2
  | remove (c : ConnId) (hlife : s.server.life ≠ .dead) :
      Exec s t o (.removeConnectionInLoop c) (s.eraseEntry c)
        [.queueInLoop (s.conns c).loop (.conn c .connectDestroyed)]
  | entry (c : ConnId) (ho : o = .entry (some c))
      (h : ∃ e ∈ s.server.connections, e.2 = some c) :
      Exec s t o .destroyEntries (s.resetEntry c)
        [.runInLoop (s.conns c).loop (.conn c .connectDestroyed), .release c, .destroyEntries]
  | lastEntry (ho : o = .entry none) (h : ∀ e ∈ s.server.connections, e.2 = none) :
      Exec s t o .destroyEntries s.clearEntries
        ((List.range s.numLoops).map (fun i => .destroyThread (i + 1)) ++ [.destroyAcceptor])
  | destroyAcceptor (p q : Slot Chan × Channel)
      (hp : (s.chans .acceptor).disableAll (s.pollers 0 (s.chans .acceptor).fd) .acceptor = some p)
      (hq : p.2.remove p.1 .acceptor = some q) :
      Exec s t o .destroyAcceptor (s.dropAcceptor q) []

theorem of_loopStep {s s' : Process} {l : LoopId} {a : EventLoop.Action ThreadId Functor}
    (h : s.loopStep l a = some s') : s.hasLoop l = true ∧ ∃ l', (s.loops l).step a = some l' ∧
      s' = { s with loops := Function.update s.loops l l' } := by
  unfold loopStep at h
  split at h
  · rename_i hl
    obtain ⟨l', hs, he⟩ := Option.map_eq_some_iff.mp h
    exact ⟨hl, l', hs, he.symm⟩
  · cases h

/-- An instruction that is a step of a loop's machine. -/
theorem exec_loop {s s' : Process} {t : ThreadId} {o : Outcome} {i : Instr} {l : LoopId}
    {a : EventLoop.Action ThreadId Functor} {is js : List Instr} (hi : LoopInstr t i l a js)
    (h : (s.loopStep l a).map (·, js) = some (s', is)) : Exec s t o i s' is := by
  obtain ⟨s₁, hs, he⟩ := Option.map_eq_some_iff.mp h
  cases he
  obtain ⟨hl, l', hl', rfl⟩ := of_loopStep hs
  exact .loop i l a l' _ hi hl hl'

theorem of_exec {s s' : Process} {t : ThreadId} {i : Instr} {o : Outcome} {is : List Instr}
    (h : s.exec t i o = some (s', is)) : Exec s t o i s' is := by
  cases i with
  | conn c op =>
      obtain ⟨p, hp, he⟩ := Option.map_eq_some_iff.mp h
      cases he
      exact .conn c op p.1 p.2 hp
  | handleEvent ch =>
      cases ch with
      | wakeup l =>
          simp only [exec, handleEvent] at h
          split at h
          · exact exec_loop (.handleRead l) h
          · cases h
            exact .quiet _ _ (.wakeup l)
      | acceptor =>
          simp only [exec, handleEvent] at h
          split at h
          · cases h
          · rename_i hlife
            cases h
            split
            · exact .quiet _ _ (.accept hlife)
            · exact .quiet _ _ (.acceptor hlife)
      | conn c =>
          cases h
          exact .quiet _ _ (.handlers c)
  | callback arg => cases h
  | release c =>
      cases h
      exact .quiet _ _ (.release c)
  | runInLoop l f =>
      cases h
      split
      · rename_i hl
        exact .quiet _ _ (.runHere l f hl)
      · rename_i hl
        exact .quiet _ _ (.runThere l f (Bool.eq_false_iff.mpr hl))
  | queueInLoop l f => exact exec_loop (.queueInLoop l f) h
  | queueWake l => exact exec_loop (.queueWake l) h
  | quit l => exact exec_loop (.quit l) h
  | quitWake l => exact exec_loop (.quitWake l) h
  | removeConnection c =>
      simp only [exec] at h
      split at h
      · cases h
      · rename_i hlife
        cases h
        exact .quiet _ _ (.removeConnection c hlife)
  | removeConnectionInLoop c =>
      simp only [exec, removeConnectionInLoop] at h
      split at h
      · cases h
      · rename_i hlife
        cases h
        exact .remove c hlife
  | acceptorHandleRead =>
      cases o with
      | accept fd =>
          cases fd with
          | none =>
              cases h
              exact .quiet _ _ .notAccepted
          | some fd =>
              simp only [exec, acceptorHandleRead] at h
              split at h
              · rename_i hc
                cases h
                exact .create fd rfl hc.1 hc.2.1 hc.2.2
              · cases h
      | _ => cases h
  | acceptorEventEnd =>
      simp only [exec] at h
      split at h
      · cases h
      · rename_i hlife
        cases h
        exact .quiet _ _ (.acceptorEnd hlife)
  | destroyEntries =>
      cases o with
      | entry c =>
          cases c with
          | some c =>
              simp only [exec, destroyEntries] at h
              split at h
              · rename_i hc
                cases h
                obtain ⟨e, he, hec⟩ := List.any_eq_true.mp hc
                exact .entry c rfl ⟨e, he, eq_of_beq hec⟩
              · cases h
          | none =>
              simp only [exec, destroyEntries] at h
              split at h
              · rename_i hc
                cases h
                exact .lastEntry rfl fun e he => eq_of_beq (List.all_eq_true.mp hc e he)
              · cases h
      | _ => cases h
  | destroyThread l =>
      cases h
      split
      · rename_i hd
        exact .quiet _ _ (.threadGone l hd)
      · exact .quiet _ _ (.destroyThread l)
  | join l =>
      simp only [exec] at h
      split at h
      · rename_i hd
        cases h
        exact .quiet _ _ (.joined l hd)
      · cases h
  | destroyAcceptor =>
      obtain ⟨p, hp, h⟩ := Option.bind_eq_some_iff.mp h
      obtain ⟨q, hq, he⟩ := Option.map_eq_some_iff.mp h
      cases he
      exact .destroyAcceptor p q hp hq

/-- **The calls user code may make.** -/
inductive Called (s : Process) (t : ThreadId) : UserCall → Process → List Instr → Prop where
  | send (c : ConnId) (msg : List UInt8) (h : s.mayUse t c = true) :
      Called s t (.send c msg) s [.conn c (.send msg), .release c]
  | shutdown (c : ConnId) (h : s.mayUse t c = true) :
      Called s t (.shutdown c) s [.conn c .shutdown, .release c]
  | setHighWaterMark (c : ConnId) (mark : Nat) (h : s.mayUse t c = true) :
      Called s t (.setHighWaterMark c mark) s [.conn c (.setHighWaterMark mark), .release c]
  | retrieve (c : ConnId) (len : Nat) (h : s.argument t = some c)
      (hown : s.isInLoopThread (s.conns c).loop t = true) :
      Called s t (.retrieve c len) s [.conn c (.retrieve len)]
  | copy (c : ConnId) (h : s.mayUse t c = true) :
      Called s t (.copy c) { s with held := c :: s.held } []
  | drop (c : ConnId) : Called s t (.drop c) { s with held := s.held.erase c } []
  | queueInLoop (l : LoopId) (k : Nat) :
      Called s t (.queueInLoop l k) s [.queueInLoop l (.user k)]
  | runInLoop (l : LoopId) (k : Nat) : Called s t (.runInLoop l k) s [.runInLoop l (.user k)]
  | quit (l : LoopId) : Called s t (.quit l) s [.quit l]
  | destroyServer (ht : t = .loop 0) (hlife : s.server.life = .live) :
      Called s t .destroyServer { s with server := { s.server with life := .destroying } }
        [.destroyEntries]

theorem of_call {s s' : Process} {t : ThreadId} {u : UserCall} {is : List Instr}
    (h : s.call t u = some (s', is)) : Called s t u s' is := by
  cases u with
  | send c msg =>
      obtain ⟨hm, he⟩ := Option.ite_none_right_eq_some.mp h
      cases he
      exact .send c msg hm
  | shutdown c =>
      obtain ⟨hm, he⟩ := Option.ite_none_right_eq_some.mp h
      cases he
      exact .shutdown c hm
  | setHighWaterMark c mark =>
      obtain ⟨hm, he⟩ := Option.ite_none_right_eq_some.mp h
      cases he
      exact .setHighWaterMark c mark hm
  | retrieve c len =>
      obtain ⟨hm, he⟩ := Option.ite_none_right_eq_some.mp h
      cases he
      exact .retrieve c len hm.1 hm.2
  | copy c =>
      obtain ⟨hm, he⟩ := Option.ite_none_right_eq_some.mp h
      cases he
      exact .copy c hm
  | drop c =>
      cases h
      exact .drop c
  | queueInLoop l k =>
      cases h
      exact .queueInLoop l k
  | runInLoop l k =>
      cases h
      exact .runInLoop l k
  | quit l =>
      cases h
      exact .quit l
  | destroyServer =>
      obtain ⟨hm, he⟩ := Option.ite_none_right_eq_some.mp h
      cases he
      exact .destroyServer hm.1 hm.2

/-- **The ways to make a step.** -/
inductive Step (s : Process) : Label → Process → Prop where
  | run (t : ThreadId) (o : Outcome) (i : Instr) (rest : List Instr) (s' : Process)
      (is : List Instr) (hst : s.stack t = i :: rest) (he : Exec s t o i s' is) :
      Step s (.run t o) (s'.setStack t (is ++ rest))
  | user (t : ThreadId) (u : UserCall) (s' : Process) (is : List Instr)
      (hu : s.userCode t = true) (hc : Called s t u s' is) :
      Step s (.user t u) (s'.setStack t (is ++ s.stack t))
  | ret (t : ThreadId) (arg : Option ConnId) (rest : List Instr)
      (hst : s.stack t = .callback arg :: rest) : Step s (.ret t) (s.setStack t rest)
  | loop (l : LoopId) (a : EventLoop.Action ThreadId Functor) (l' : EventLoop ThreadId Functor)
      (hst : s.stack (.loop l) = []) (hact : s.active l = []) (ha : isControl a = true)
      (hl : s.hasLoop l = true) (h : (s.loops l).step a = some l') :
      Step s (.loop l a) ({ s with loops := Function.update s.loops l l' }.setStack (.loop l)
        (s.nextInstr l a))
  | poll (l : LoopId) (events : List (Chan × EventMask)) (l' : EventLoop ThreadId Functor)
      (hst : s.stack (.loop l) = []) (hev : ∀ e ∈ events, s.mayReport l e = true)
      (hnd : (events.map Prod.fst).Nodup) (hl : s.hasLoop l = true)
      (h : (s.loops l).step (.pollReturn (events.any (·.1 == .wakeup l))) = some l') :
      Step s (.poll l events)
        { s with
          loops := Function.update s.loops l l'
          chans := setRevents s.chans events
          active := Function.update s.active l (events.map Prod.fst) }
  | dispatch (l : LoopId) (ch : Chan) (rest : List Chan) (hst : s.stack (.loop l) = [])
      (hact : s.active l = ch :: rest) :
      Step s (.dispatch l)
        ({ s with active := Function.update s.active l rest }.setStack (.loop l)
          [.handleEvent ch])
  | threadEnd (l : LoopId) (h0 : 0 < l) (hl : s.hasLoop l = true)
      (hst : s.stack (.loop l) = []) (hp : (s.loops l).phase = .left) :
      Step s (.threadEnd l) { s with threadDone := Function.update s.threadDone l true }

theorem of_step {s s' : Process} {a : Label} (h : s.step a = some s') : Step s a s' := by
  cases a with
  | run t o =>
      simp only [step] at h
      split at h
      · rename_i i rest hst
        obtain ⟨p, hp, he⟩ := Option.map_eq_some_iff.mp h
        cases he
        exact .run t o i rest p.1 p.2 hst (of_exec hp)
      · cases h
  | user t u =>
      simp only [step] at h
      split at h
      · rename_i hu
        obtain ⟨p, hp, he⟩ := Option.map_eq_some_iff.mp h
        cases he
        exact .user t u p.1 p.2 hu (of_call hp)
      · cases h
  | ret t =>
      simp only [step] at h
      split at h
      · rename_i arg rest hst
        cases h
        exact .ret t arg rest hst
      · cases h
  | loop l a =>
      simp only [step] at h
      split at h
      · rename_i hc
        obtain ⟨s₁, hs, he⟩ := Option.map_eq_some_iff.mp h
        obtain ⟨hl, l', hl', rfl⟩ := of_loopStep hs
        cases he
        exact .loop l a l' hc.1 hc.2.1 hc.2.2 hl hl'
      · cases h
  | poll l events =>
      simp only [step] at h
      split at h
      · rename_i hc
        obtain ⟨s₁, hs, he⟩ := Option.map_eq_some_iff.mp h
        obtain ⟨hl, l', hl', rfl⟩ := of_loopStep hs
        cases he
        exact .poll l events l' hc.1 (List.all_eq_true.mp hc.2.1) hc.2.2 hl hl'
      · cases h
  | dispatch l =>
      simp only [step] at h
      split at h
      · rename_i ch rest hst hact
        cases h
        exact .dispatch l ch rest hst hact
      · cases h
  | threadEnd l =>
      simp only [step] at h
      split at h
      · rename_i hc
        cases h
        exact .threadEnd l hc.1 hc.2.1 hc.2.2.1 hc.2.2.2
      · cases h

/-- `HandleEventWithGuard` calls handlers of its own connection. -/
theorem of_mem_handlers {c : ConnId} {revents : EventMask} {i : Instr}
    (h : i ∈ handlers c revents) : ∃ op, i = .conn c op ∧ op.isHandler = true := by
  simp only [handlers, List.mem_append] at h
  rcases h with ((h | h) | h) | h <;>
    (split at h <;> first
      | exact absurd h List.not_mem_nil
      | exact ⟨_, List.mem_singleton.mp h, rfl⟩)

/-- **What an instruction may leave to do on its thread.** -/
inductive Follows (s : Process) (t : ThreadId) : Instr → Instr → Prop where
  | conn (c : ConnId) (op : ConnOp) (j : Instr)
      (h : Ctx.Produced (s.ctx c) c t (s.isInLoopThread (s.conns c).loop t) op j) :
      Follows s t (.conn c op) j
  | handler (c : ConnId) (op : ConnOp) (hop : op.isHandler = true) :
      Follows s t (.handleEvent (.conn c)) (.conn c op)
  | accept : Follows s t (.handleEvent .acceptor) .acceptorHandleRead
  | accepted : Follows s t (.handleEvent .acceptor) .acceptorEventEnd
  | runHere (l : LoopId) (f : Functor) (h : s.isInLoopThread l t = true) :
      Follows s t (.runInLoop l f) f.instr
  | captured (l : LoopId) (f : Functor) (c : ConnId) (h : f.captures = some c) :
      Follows s t (.runInLoop l f) (.release c)
  | runThere (l : LoopId) (f : Functor) (h : s.isInLoopThread l t = false) :
      Follows s t (.runInLoop l f) (.queueInLoop l f)
  | queueWake (l : LoopId) (f : Functor) : Follows s t (.queueInLoop l f) (.queueWake l)
  | quitWake (l : LoopId) : Follows s t (.quit l) (.quitWake l)
  | removeConnection (c : ConnId) :
      Follows s t (.removeConnection c) (.runInLoop 0 (.removeConnectionInLoop c))
  | remove (c : ConnId) : Follows s t (.removeConnectionInLoop c)
      (.queueInLoop (s.conns c).loop (.conn c .connectDestroyed))
  | create : Follows s t .acceptorHandleRead
      (.runInLoop (s.server.getNextLoop s.numLoops).1 (.conn s.created .connectEstablished))
  | created : Follows s t .acceptorHandleRead (.release s.created)
  | entry (c : ConnId) (h : ∃ e ∈ s.server.connections, e.2 = some c) :
      Follows s t .destroyEntries (.runInLoop (s.conns c).loop (.conn c .connectDestroyed))
  | taken (c : ConnId) (h : ∃ e ∈ s.server.connections, e.2 = some c) :
      Follows s t .destroyEntries (.release c)
  | entries : Follows s t .destroyEntries .destroyEntries
  | thread (l : LoopId) : Follows s t .destroyEntries (.destroyThread l)
  | acceptor : Follows s t .destroyEntries .destroyAcceptor
  | quit (l : LoopId) : Follows s t (.destroyThread l) (.quit l)
  | join (l : LoopId) : Follows s t (.destroyThread l) (.join l)

theorem exec_follows {s s' : Process} {t : ThreadId} {i : Instr} {o : Outcome} {is : List Instr}
    (h : Exec s t o i s' is) : ∀ j ∈ is, Follows s t i j := by
  have hnil : ∀ j ∈ ([] : List Instr), Follows s t i j := fun j hj => absurd hj List.not_mem_nil
  have hone : ∀ {k : Instr}, Follows s t i k → ∀ j ∈ [k], Follows s t i j :=
    fun h j hj => List.mem_singleton.mp hj ▸ h
  cases h with
  | conn c op k is h => exact fun j hj => .conn c op j (Ctx.exec_produced h j hj)
  | quiet i is h =>
      cases h with
      | accept =>
          intro j hj
          rcases List.mem_cons.mp hj with rfl | hj
          · exact .accept
          · exact hone .accepted j hj
      | handlers c =>
          intro j hj
          obtain ⟨op, rfl, hop⟩ := of_mem_handlers hj
          exact .handler c op hop
      | runHere l f hl =>
          intro j hj
          rcases List.mem_cons.mp hj with rfl | hj
          · exact .runHere l f hl
          · unfold Functor.releases at hj
            split at hj
            · rename_i c hc
              exact hone (.captured l f c hc) j hj
            · exact hnil j hj
      | runThere l f hl => exact hone (.runThere l f hl)
      | removeConnection c => exact hone (.removeConnection c)
      | destroyThread l =>
          intro j hj
          rcases List.mem_cons.mp hj with rfl | hj
          · exact .quit l
          · exact hone (.join l) j hj
      | _ => exact hnil
  | loop i l a l' is hi =>
      cases hi with
      | queueInLoop l f => exact hone (.queueWake l f)
      | quit l => exact hone (.quitWake l)
      | _ => exact hnil
  | create fd =>
      intro j hj
      rcases List.mem_cons.mp hj with rfl | hj
      · exact .create
      · exact hone .created j hj
  | remove c => exact hone (.remove c)
  | entry c ho hc =>
      intro j hj
      rcases List.mem_cons.mp hj with rfl | hj
      · exact .entry c hc
      · rcases List.mem_cons.mp hj with rfl | hj
        · exact .taken c hc
        · exact hone .entries j hj
  | lastEntry =>
      intro j hj
      rcases List.mem_append.mp hj with hj | hj
      · obtain ⟨n, _, rfl⟩ := List.mem_map.mp hj
        exact .thread (n + 1)
      · exact hone .acceptor j hj
  | destroyAcceptor => exact hnil

/-- **What a call of user code may leave to do.** -/
inductive Asked (s : Process) (t : ThreadId) : UserCall → Instr → Prop where
  | send (c : ConnId) (msg : List UInt8) (h : s.mayUse t c = true) :
      Asked s t (.send c msg) (.conn c (.send msg))
  | shutdown (c : ConnId) (h : s.mayUse t c = true) : Asked s t (.shutdown c) (.conn c .shutdown)
  | setHighWaterMark (c : ConnId) (mark : Nat) (h : s.mayUse t c = true) :
      Asked s t (.setHighWaterMark c mark) (.conn c (.setHighWaterMark mark))
  | release (u : UserCall) (c : ConnId) (h : s.mayUse t c = true) : Asked s t u (.release c)
  | retrieve (c : ConnId) (len : Nat) (h : s.argument t = some c)
      (hown : s.isInLoopThread (s.conns c).loop t = true) :
      Asked s t (.retrieve c len) (.conn c (.retrieve len))
  | queueInLoop (l : LoopId) (k : Nat) : Asked s t (.queueInLoop l k) (.queueInLoop l (.user k))
  | runInLoop (l : LoopId) (k : Nat) : Asked s t (.runInLoop l k) (.runInLoop l (.user k))
  | quit (l : LoopId) : Asked s t (.quit l) (.quit l)
  | destroyServer (ht : t = .loop 0) (hlife : s.server.life = .live) :
      Asked s t .destroyServer .destroyEntries

theorem called_asked {s s' : Process} {t : ThreadId} {u : UserCall} {is : List Instr}
    (h : Called s t u s' is) : ∀ j ∈ is, Asked s t u j := by
  have hone : ∀ {k : Instr}, Asked s t u k → ∀ j ∈ [k], Asked s t u j :=
    fun h j hj => List.mem_singleton.mp hj ▸ h
  have htwo : ∀ {k : Instr} {c : ConnId}, Asked s t u k → s.mayUse t c = true →
      ∀ j ∈ [k, .release c], Asked s t u j := by
    intro k c hk hc j hj
    rcases List.mem_cons.mp hj with rfl | hj
    · exact hk
    · exact hone (.release u c hc) j hj
  cases h with
  | send c msg h => exact htwo (.send c msg h) h
  | shutdown c h => exact htwo (.shutdown c h) h
  | setHighWaterMark c mark h => exact htwo (.setHighWaterMark c mark h) h
  | retrieve c len h hown => exact hone (.retrieve c len h hown)
  | copy c h => exact fun j hj => absurd hj List.not_mem_nil
  | drop c => exact fun j hj => absurd hj List.not_mem_nil
  | queueInLoop l k => exact hone (.queueInLoop l k)
  | runInLoop l k => exact hone (.runInLoop l k)
  | quit l => exact hone (.quit l)
  | destroyServer ht hlife => exact hone (.destroyServer ht hlife)

/-- **What a step puts on a stack.** -/
inductive Pushed (s : Process) : Label → ThreadId → Instr → Prop where
  | exec (t : ThreadId) (o : Outcome) (i : Instr) (rest : List Instr)
      (hst : s.stack t = i :: rest) (j : Instr) (h : Follows s t i j) : Pushed s (.run t o) t j
  | call (t : ThreadId) (u : UserCall) (j : Instr) (h : Asked s t u j) : Pushed s (.user t u) t j
  | functor (l : LoopId) (a : EventLoop.Action ThreadId Functor) (f : Functor)
      (rest : List Functor) (hph : (s.loops l).phase = .batch (f :: rest)) :
      Pushed s (.loop l a) (.loop l) f.instr
  | event (l : LoopId) (ch : Chan) (hch : ch ∈ s.active l) :
      Pushed s (.dispatch l) (.loop l) (.handleEvent ch)

/-- Executing an instruction touches no stack. -/
theorem exec_stack {s s' : Process} {t : ThreadId} {i : Instr} {o : Outcome} {is : List Instr}
    (h : Exec s t o i s' is) : s'.stack = s.stack := by
  cases h <;> rfl

/-- **Every loop makes a step of its machine**, or stays as it is. -/
theorem loops_step {s s' : Process} {a : Label} (h : Step s a s') (l : LoopId) :
    s'.loops l = s.loops l ∨ ∃ b, (s.loops l).step b = some (s'.loops l) := by
  have hset : ∀ {m : LoopId} {b : EventLoop.Action ThreadId Functor}
      {m' : EventLoop ThreadId Functor}, (s.loops m).step b = some m' →
      Function.update s.loops m m' l = s.loops l ∨
        ∃ b, (s.loops l).step b = some (Function.update s.loops m m' l) := by
    intro m b m' hb
    by_cases e : l = m
    · subst e
      rw [Function.update_self]
      exact Or.inr ⟨b, hb⟩
    · exact Or.inl (Function.update_of_ne e _ _)
  cases h with
  | run t o i rest s₁ is hst he =>
      cases he with
      | loop _ m b m' _ hi hl hb => exact hset hb
      | _ => exact Or.inl rfl
  | user t v s₁ is hu hc => cases hc <;> exact Or.inl rfl
  | loop m b m' hst hact hb hl hs => exact hset hs
  | poll m events m' hst hev hnd hl hs => exact hset hs
  | _ => exact Or.inl rfl

/-- **What is on a stack after a step** was there before, or is put there by the step. -/
theorem mem_stack_step {s s' : Process} {a : Label} {u : ThreadId} {j : Instr} (h : Step s a s')
    (hj : j ∈ s'.stack u) : j ∈ s.stack u ∨ Pushed s a u j := by
  have hset : ∀ {t : ThreadId} {xs : List Instr}, j ∈ Function.update s.stack t xs u →
      j ∈ s.stack u ∨ j ∈ xs ∧ u = t := by
    intro t xs hj
    by_cases e : u = t
    · subst e
      rw [Function.update_self] at hj
      exact Or.inr ⟨hj, rfl⟩
    · rw [Function.update_of_ne e] at hj
      exact Or.inl hj
  cases h with
  | run t o i rest s₁ is hst he =>
      change j ∈ Function.update s₁.stack t (is ++ rest) u at hj
      rw [exec_stack he] at hj
      rcases hset hj with hj | ⟨hx, rfl⟩
      · exact Or.inl hj
      · rcases List.mem_append.mp hx with hx | hx
        · exact Or.inr (.exec u o i rest hst j (exec_follows he j hx))
        · exact Or.inl (by rw [hst]; exact List.mem_cons_of_mem _ hx)
  | user t v s₁ is hu hc =>
      have hk : s₁.stack = s.stack := by cases hc <;> rfl
      change j ∈ Function.update s₁.stack t (is ++ s.stack t) u at hj
      rw [hk] at hj
      rcases hset hj with hj | ⟨hx, rfl⟩
      · exact Or.inl hj
      · rcases List.mem_append.mp hx with hx | hx
        · exact Or.inr (.call u v j (called_asked hc j hx))
        · exact Or.inl hx
  | ret t arg rest hst =>
      rcases hset hj with hj | ⟨hx, rfl⟩
      · exact Or.inl hj
      · exact Or.inl (by rw [hst]; exact List.mem_cons_of_mem _ hx)
  | loop l b l' hst hact hb hl hs =>
      rcases hset hj with hj | ⟨hx, rfl⟩
      · exact Or.inl hj
      · right
        unfold nextInstr at hx
        split at hx
        · split at hx
          · rename_i f rest hph
            rw [List.mem_singleton.mp hx]
            exact .functor l _ f rest hph
          · exact absurd hx List.not_mem_nil
        · exact absurd hx List.not_mem_nil
  | poll l events l' hst hev hnd hl hs => exact Or.inl hj
  | dispatch l ch rest hst hact =>
      rcases hset hj with hj | ⟨hx, rfl⟩
      · exact Or.inl hj
      · rw [List.mem_singleton.mp hx]
        exact Or.inr (.event l ch (by rw [hact]; exact List.mem_cons_self))
  | threadEnd l h0 hl hst hp => exact Or.inl hj

/-- **What is on a stack stays there**, until it is executed or, if it is a callback, returns. -/
theorem stack_stays {s s' : Process} {a : Label} {u : ThreadId} {j : Instr} (h : Step s a s')
    (hj : j ∈ s.stack u) : j ∈ s'.stack u ∨
      ∃ rest, s.stack u = j :: rest ∧ ((∃ o, a = .run u o) ∨ a = .ret u) := by
  have hset : ∀ {t : ThreadId} {xs : List Instr}, (u = t → j ∈ xs) →
      j ∈ Function.update s.stack t xs u := by
    intro t xs hx
    by_cases e : u = t
    · subst e
      rw [Function.update_self]
      exact hx rfl
    · rw [Function.update_of_ne e]
      exact hj
  have hnil : ∀ {l : LoopId}, s.stack (.loop l) = [] → u ≠ .loop l := by
    rintro l hst rfl
    rw [hst] at hj
    exact absurd hj List.not_mem_nil
  cases h with
  | run t o i rest s₁ is hst he =>
      by_cases e : u = t
      · subst e
        rw [hst] at hj
        rcases List.mem_cons.mp hj with rfl | hj
        · exact Or.inr ⟨rest, hst, Or.inl ⟨o, rfl⟩⟩
        · left
          rw [stack_setStack_self]
          exact List.mem_append_right _ hj
      · left
        rw [stack_setStack_of_ne _ _ e, exec_stack he]
        exact hj
  | user t v s₁ is hu hc =>
      left
      have hk : s₁.stack = s.stack := by cases hc <;> rfl
      show j ∈ Function.update s₁.stack t _ u
      rw [hk]
      exact hset fun e => List.mem_append_right _ (e ▸ hj)
  | ret t arg rest hst =>
      by_cases e : u = t
      · subst e
        rw [hst] at hj
        rcases List.mem_cons.mp hj with rfl | hj
        · exact Or.inr ⟨rest, hst, Or.inr rfl⟩
        · left
          rw [stack_setStack_self]
          exact hj
      · left
        rw [stack_setStack_of_ne _ _ e]
        exact hj
  | loop l b l' hst hact hb hl hs => exact Or.inl (hset fun e => absurd e (hnil hst))
  | poll l events l' hst hev hnd hl hs => exact Or.inl hj
  | dispatch l ch rest hst hact => exact Or.inl (hset fun e => absurd e (hnil hst))
  | threadEnd l h0 hl hst hp => exact Or.inl hj

end Process

end CuteMuduo
