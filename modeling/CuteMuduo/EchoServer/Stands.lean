/-
  File:      CuteMuduo/EchoServer/Stands.lean
  Subject:   WHERE THE CALLBACKS STAND, in every state the echo server reaches: a thread's stack is
             what its place in the callbacks says (`Stands`), and outside the callbacks there is
             nothing but what the library does by itself (`Tame`).

  So the server is never destroyed and no loop is ever left: nobody asks for it. And a message
  callback goes from one stage to the next, one message in hand until it is sent (`Advance`).
-/
import CuteMuduo.EchoServer

namespace CuteMuduo

open Machine

/-- The step is no step of an instruction or of user code: `Loop()` goes on, or a thread ends. -/
def Process.Label.ofLoop : Process.Label → Bool
  | .loop _ _ | .poll _ _ | .dispatch _ | .threadEnd _ => true
  | _ => false

/-- How far a callback is with its message. -/
inductive EchoStage where
  /-- No callback runs. -/
  | idle
  | message (c : ConnId)
  /-- About to execute `Retrieve`. -/
  | retrieving (c : ConnId) (msg : List UInt8)
  | retrieved (c : ConnId) (msg : List UInt8)
  /-- About to execute `Send`. -/
  | sending (c : ConnId) (msg : List UInt8)
  /-- About to execute `SendInLoop`. -/
  | sendingInLoop (c : ConnId) (msg : List UInt8)
  /-- `Send` is about to return. -/
  | sent
  /-- The callback is about to return. -/
  | leaving
  deriving DecidableEq, Repr

/-- The stage of a thread with this stack, standing at `pc`. -/
def EchoStage.of (pc : EchoPc) (stack : List Instr) : EchoStage :=
  match pc, stack with
  | .outside, _ => .idle
  | .message c, _ => .message c
  | .retrieved c msg, .conn _ (.retrieve _) :: _ => .retrieving c msg
  | .retrieved c msg, _ => .retrieved c msg
  | .leaving, .conn c (.send msg) :: _ => .sending c msg
  | .leaving, .conn c (.sendInLoop _ msg) :: _ => .sendingInLoop c msg
  | .leaving, .release _ :: _ => .sent
  | .leaving, _ => .leaving

namespace EchoServer

variable {e e' : EchoServer} {s s' s₁ : Process} {a : Process.Label} {c : ConnId} {l : LoopId}
  {t u : ThreadId} {o : Outcome} {i j : Instr} {is rest : List Instr} {pc : EchoPc}

/-- **The ways to make a step.** -/
inductive Step (e : EchoServer) : Process.Label → EchoServer → Prop where
  | run (t : ThreadId) (o : Outcome) (s : Process) (h : e.process.step (.run t o) = some s) :
      Step e (.run t o) ⟨s, Function.update e.pc t ((called e.process t o).getD (e.pc t))⟩
  | retrieve (t : ThreadId) (c : ConnId) (s : Process) (hpc : e.pc t = .message c)
      (h : e.process.step (.user t (.retrieve c (e.process.conns c).inputBuffer.readableBytes)) =
        some s) :
      Step e (.user t (.retrieve c (e.process.conns c).inputBuffer.readableBytes))
        ⟨s, Function.update e.pc t (.retrieved c (e.process.conns c).inputBuffer.readable)⟩
  | send (t : ThreadId) (c : ConnId) (msg : List UInt8) (s : Process)
      (hpc : e.pc t = .retrieved c msg) (h : e.process.step (.user t (.send c msg)) = some s) :
      Step e (.user t (.send c msg)) ⟨s, Function.update e.pc t .leaving⟩
  | ret (t : ThreadId) (s : Process) (hpc : e.pc t = .leaving)
      (h : e.process.step (.ret t) = some s) :
      Step e (.ret t) ⟨s, Function.update e.pc t .outside⟩
  | loop (a : Process.Label) (s : Process) (ha : a.ofLoop = true)
      (h : e.process.step a = some s) : Step e a ⟨s, e.pc⟩

theorem of_step (h : e.step a = some e') : Step e a e' := by
  cases a with
  | run t o =>
      obtain ⟨s, hs, rfl⟩ := Option.map_eq_some_iff.mp h
      exact .run t o s hs
  | user t u =>
      simp only [step, nextCall] at h
      cases hpc : e.pc t with
      | message c =>
          simp only [hpc] at h
          obtain ⟨rfl, h⟩ := Option.ite_none_right_eq_some.mp h
          obtain ⟨s, hs, rfl⟩ := Option.map_eq_some_iff.mp h
          rw [(Sending.retrieveAllAsString_spec _).1]
          exact .retrieve t c s hpc hs
      | retrieved c msg =>
          simp only [hpc] at h
          obtain ⟨rfl, h⟩ := Option.ite_none_right_eq_some.mp h
          obtain ⟨s, hs, rfl⟩ := Option.map_eq_some_iff.mp h
          exact .send t c msg s hpc hs
      | outside | leaving => simp only [hpc, reduceCtorEq] at h
  | ret t =>
      obtain ⟨hpc, h⟩ := Option.ite_none_right_eq_some.mp h
      obtain ⟨s, hs, rfl⟩ := Option.map_eq_some_iff.mp h
      exact .ret t s hpc hs
  | loop l b | poll l events | dispatch l | threadEnd l =>
      obtain ⟨s, hs, rfl⟩ := Option.map_eq_some_iff.mp h
      exact .loop _ s rfl hs

/-- A step of the echo server is a step of the program. -/
theorem Step.process (h : Step e a e') : e.process.step a = some e'.process := by
  cases h <;> assumption

/-- The run of the program below. -/
def trace (tr : List (EchoServer × Process.Label)) : List (Process × Process.Label) :=
  tr.map fun p => (p.1.process, p.2)

/-- **A run of the echo server is a run of the program**, started without callbacks but the two. -/
theorem process_run {name : List Char} {addr : InetAddress} {numLoops : Nat}
    {tr : List (EchoServer × Process.Label)} (h : Run step (start name addr numLoops) tr e) :
    Run Process.step (.init name addr numLoops false) (trace tr) e.process := by
  induction h with
  | start => exact .start
  | step tr e a e' _ hs ih => exact .step _ _ _ _ ih (of_step hs).process

/-! ## What is on the stacks -/

/-- **What is on the stack of thread `t`**, which stands at `pc`. -/
inductive Stands (s : Process) (t : ThreadId) : EchoPc → List Instr → Prop where
  | outside (is : List Instr) (h : ∀ i ∈ is, i.system = true) : Stands s t .outside is
  | message (c : ConnId) (rest : List Instr) (ht : t = .loop (s.conns c).loop)
      (h : ∀ i ∈ rest, i.system = true) :
      Stands s t (.message c) (.callback (some c) :: rest)
  /-- About to execute `Retrieve`. -/
  | retrieving (c : ConnId) (msg : List UInt8) (rest : List Instr)
      (ht : t = .loop (s.conns c).loop) (h : ∀ i ∈ rest, i.system = true) :
      Stands s t (.retrieved c msg)
        (.conn c (.retrieve msg.length) :: .callback (some c) :: rest)
  | retrieved (c : ConnId) (msg : List UInt8) (rest : List Instr)
      (ht : t = .loop (s.conns c).loop) (h : ∀ i ∈ rest, i.system = true) :
      Stands s t (.retrieved c msg) (.callback (some c) :: rest)
  /-- About to execute `Send`. -/
  | sending (c : ConnId) (msg : List UInt8) (rest : List Instr)
      (ht : t = .loop (s.conns c).loop) (h : ∀ i ∈ rest, i.system = true) :
      Stands s t .leaving (.conn c (.send msg) :: .release c :: .callback (some c) :: rest)
  /-- About to execute `SendInLoop`. -/
  | sendingInLoop (c : ConnId) (msg : List UInt8) (rest : List Instr)
      (ht : t = .loop (s.conns c).loop) (h : ∀ i ∈ rest, i.system = true) :
      Stands s t .leaving
        (.conn c (.sendInLoop t msg) :: .release c :: .callback (some c) :: rest)
  /-- `Send` is about to return. -/
  | sent (c : ConnId) (rest : List Instr) (h : ∀ i ∈ rest, i.system = true) :
      Stands s t .leaving (.release c :: .callback (some c) :: rest)
  | leaving (c : ConnId) (rest : List Instr) (h : ∀ i ∈ rest, i.system = true) :
      Stands s t .leaving (.callback (some c) :: rest)

theorem system_mem (h : ∀ j ∈ i :: is, j.system = true) :
    i.system = true ∧ ∀ j ∈ is, j.system = true :=
  ⟨h i List.mem_cons_self, fun j hj => h j (List.mem_cons_of_mem _ hj)⟩

theorem system_append (h : ∀ i ∈ is, i.system = true) (hr : ∀ i ∈ rest, i.system = true) :
    ∀ i ∈ is ++ rest, i.system = true :=
  fun i hi => (List.mem_append.mp hi).elim (h i) (hr i)

/-- A connection's loop is for ever. -/
theorem Stands.mono (hg : Process.Grows s s') (hlt : ∀ c, .callback (some c) ∈ is → c < s.created)
    (h : Stands s t pc is) : Stands s' t pc is := by
  have hkeep : ∀ {c}, .callback (some c) ∈ is → t = .loop (s.conns c).loop →
      t = .loop (s'.conns c).loop := by
    intro c hm ht
    rw [hg.loop (hlt c hm)]
    exact ht
  cases h with
  | outside is h => exact .outside _ h
  | message c rest ht h => exact .message c rest (hkeep (by simp) ht) h
  | retrieving c msg rest ht h => exact .retrieving c msg rest (hkeep (by simp) ht) h
  | retrieved c msg rest ht h => exact .retrieved c msg rest (hkeep (by simp) ht) h
  | sending c msg rest ht h => exact .sending c msg rest (hkeep (by simp) ht) h
  | sendingInLoop c msg rest ht h => exact .sendingInLoop c msg rest (hkeep (by simp) ht) h
  | sent c rest h => exact .sent c rest h
  | leaving c rest h => exact .leaving c rest h

/-- Where nothing is to do, the thread is in no callback. -/
theorem Stands.of_nil (h : Stands s t pc []) : pc = .outside := by
  cases h
  rfl

/-- **What is executed next**: the library's own, or a part of the two calls of the callback. -/
theorem Stands.head (h : Stands s t pc (i :: rest)) :
    i.system = true ∨ (∃ c, i = .callback (some c)) ∨
      ∃ c op, i = .conn c op ∧ t = .loop (s.conns c).loop ∧
        ((∃ n, op = .retrieve n) ∨ (∃ msg, op = .send msg) ∨ ∃ msg, op = .sendInLoop t msg) := by
  cases h with
  | outside is h => exact Or.inl (system_mem h).1
  | message c rest ht h => exact Or.inr (Or.inl ⟨c, rfl⟩)
  | retrieving c msg rest ht h =>
      exact Or.inr (Or.inr ⟨c, _, rfl, ht, Or.inl ⟨_, rfl⟩⟩)
  | retrieved c msg rest ht h => exact Or.inr (Or.inl ⟨c, rfl⟩)
  | sending c msg rest ht h =>
      exact Or.inr (Or.inr ⟨c, _, rfl, ht, Or.inr (Or.inl ⟨_, rfl⟩)⟩)
  | sendingInLoop c msg rest ht h =>
      exact Or.inr (Or.inr ⟨c, _, rfl, ht, Or.inr (Or.inr ⟨_, rfl⟩)⟩)
  | sent c rest h => exact Or.inl rfl
  | leaving c rest h => exact Or.inr (Or.inl ⟨c, rfl⟩)

/-- What is executed next, where it is no function of a connection's. -/
theorem Stands.system_head (h : Stands s t pc (i :: rest)) (hc : ∀ c op, i ≠ .conn c op)
    (hcb : ∀ arg, i ≠ .callback arg) : i.system = true := by
  rcases h.head with hi | ⟨c, rfl⟩ | ⟨c, op, rfl, _⟩
  · exact hi
  · exact absurd rfl (hcb _)
  · exact absurd rfl (hc c op)

/-- What the library does by itself leads to the like. -/
theorem system_follows (hi : i.system = true) (hc : ∀ c op, i ≠ .conn c op)
    (h : Process.Follows s t i j) : j.system = true := by
  cases h with
  | conn c op _ hp => exact absurd rfl (hc c op)
  | handler c op hop => cases op <;> first | rfl | cases hop
  | runHere l f => cases f <;> exact hi
  | runThere l f => exact hi
  | entry | taken | entries | thread | acceptor | quit | join | quitWake => cases hi
  | _ => rfl

/-! ## The invariant -/

/-- **The echo server is tame**: nobody ends anything, no notification is asked for, and every
    thread is where its stack says. -/
structure Tame (e : EchoServer) : Prop where
  live : e.process.server.life = .live
  running : ∀ l, (e.process.loops l).quit = false ∧ (e.process.loops l).phase ≠ .left
  threads : ∀ l, e.process.threadDone l = false
  unset : e.process.server.writeCompleteCallback = false
  unasked : ∀ c < e.process.created, (e.process.conns c).writeCompleteCallback = false ∧
    (e.process.conns c).highWaterMarkCallback = false
  stands : ∀ t, Stands e.process t (e.pc t) (e.process.stack t)
  queues : ∀ l, ∀ f ∈ (e.process.loops l).queue, f.system = true

/-- **How a callback is called**: by a connection's `connection_callback_`, or by a `HandleRead`
    that has read something. -/
inductive Calls (s : Process) (t : ThreadId) (o : Outcome) : Instr → List Instr → Prop where
  | none (i : Instr) (is : List Instr) (hc : called s t o = none)
      (hcb : ∀ arg, .callback arg ∉ is)
      (hread : ∀ c b bs, i = .conn c .handleRead → o ≠ .read (.data (b :: bs))) : Calls s t o i is
  | connection (c : ConnId) (hc : called s t o = some .leaving) :
      Calls s t o (.conn c .connectionCallback) [.callback (some c)]
  | message (c : ConnId) (b : UInt8) (bs : List UInt8) (ho : o = .read (.data (b :: bs)))
      (hc : called s t o = some (.message c)) :
      Calls s t o (.conn c .handleRead) [.callback (some c)]

theorem calls_exec (hst : s.stack t = i :: rest) (hi : i.system = true)
    (he : Process.Exec s t o i s₁ is) : Calls s t o i is := by
  by_cases hop : ∃ c op, i = .conn c op
  · obtain ⟨c, op, rfl⟩ := hop
    cases he with
    | conn _ _ k _ h =>
        by_cases hcb : ∃ arg, .callback arg ∈ is
        · obtain ⟨arg, hm⟩ := hcb
          obtain ⟨rfl, rfl | ⟨rfl, b, bs, rfl⟩⟩ := Ctx.exec_callback h hi hm
          · exact .connection c (by simp only [called, hst])
          · exact .message c b bs rfl (by simp only [called, hst])
        · have hread : op = .handleRead → ∀ b bs, o ≠ .read (.data (b :: bs)) := by
            rintro rfl b bs rfl
            have h : (s.ctx c).handleRead c (.data (b :: bs)) = some (k, is) := h
            cases Ctx.of_handleRead h with
            | message => exact hcb ⟨_, List.mem_cons_self⟩
          refine .none _ _ ?_ (fun arg hm => hcb ⟨arg, hm⟩) fun d b bs e => ?_
          · unfold called
            rw [hst]
            cases op with
            | connectionCallback =>
                cases h
                exact absurd ⟨_, List.mem_cons_self⟩ hcb
            | handleRead =>
                split
                · rename_i e
                  cases e
                · rename_i e _
                  exact absurd rfl (hread rfl _ _)
                · rfl
            | _ => rfl
          · cases e
            exact hread rfl b bs
    | quiet _ _ hq => cases hq
    | loop _ _ _ _ _ hl => cases hl
  · refine .none _ _ ?_ (fun arg hm => ?_) fun c b bs e => absurd ⟨c, _, e⟩ hop
    · unfold called
      rw [hst]
      cases i <;> first | rfl | exact absurd ⟨_, _, rfl⟩ hop
    · have hsys := system_follows hi (fun c op e => hop ⟨c, op, e⟩) (Process.exec_follows he _ hm)
      cases hsys

/-! ## The stages of a callback -/

/-- The stage of thread `t`. -/
def stage (e : EchoServer) (t : ThreadId) : EchoStage := .of (e.pc t) (e.process.stack t)

/-- **How a step of its own takes a thread on.** -/
inductive Advance (s : Process) (t : ThreadId) (a : Process.Label) :
    EchoStage → EchoStage → Prop where
  /-- Outside the callbacks; no `HandleRead` that reads something. -/
  | library (hop : ∀ c op, s.executed c a = some op → op.system = true ∧
      (op = .handleRead → ∀ b bs, a.outcome ≠ .read (.data (b :: bs)))) : Advance s t a .idle .idle
  | connection (c : ConnId) (hex : s.executed c a = some .connectionCallback) :
      Advance s t a .idle .leaving
  | message (c : ConnId) (b : UInt8) (bs : List UInt8) (hex : s.executed c a = some .handleRead)
      (ho : a.outcome = .read (.data (b :: bs))) : Advance s t a .idle (.message c)
  | retrieve (c : ConnId) (hno : ∀ d, s.executed d a = none) :
      Advance s t a (.message c) (.retrieving c (s.conns c).inputBuffer.readable)
  | retrieved (c : ConnId) (msg : List UInt8)
      (hex : s.executed c a = some (.retrieve msg.length)) :
      Advance s t a (.retrieving c msg) (.retrieved c msg)
  | send (c : ConnId) (msg : List UInt8) (hno : ∀ d, s.executed d a = none) :
      Advance s t a (.retrieved c msg) (.sending c msg)
  | accepted (c : ConnId) (msg : List UInt8) (hex : s.executed c a = some (.send msg))
      (hs : (s.conns c).state = .kConnected) :
      Advance s t a (.sending c msg) (.sendingInLoop c msg)
  | refused (c : ConnId) (msg : List UInt8) (hex : s.executed c a = some (.send msg))
      (hs : (s.conns c).state ≠ .kConnected) : Advance s t a (.sending c msg) .sent
  | sent (c : ConnId) (msg : List UInt8) (hex : s.executed c a = some (.sendInLoop t msg)) :
      Advance s t a (.sendingInLoop c msg) .sent
  | release (hno : ∀ d, s.executed d a = none) : Advance s t a .sent .leaving
  | ret (hno : ∀ d, s.executed d a = none) : Advance s t a .leaving .idle

/-- No function of a connection's is executed. -/
theorem executed_none (hst : s.stack t = i :: rest) (hc : ∀ c op, i ≠ .conn c op) (d : ConnId) :
    s.executed d (.run t o) = none := by
  refine Process.executed_eq_none fun u o' op rest' e hst' => ?_
  cases e
  rw [hst] at hst'
  exact hc d op (List.cons.inj hst').1

/-- A thread executes one connection's function at a time. -/
theorem of_executed {op op' : ConnOp} {d : ConnId} (hst : s.stack t = .conn c op :: rest)
    (h : s.executed d (.run t o) = some op') : d = c ∧ op' = op := by
  obtain ⟨u, o', rest', e, hst'⟩ := Process.of_executed h
  cases e
  rw [hst] at hst'
  cases hst'
  exact ⟨rfl, rfl⟩

/-- **An instruction of the library's own**, executed outside the callbacks. -/
theorem turn_exec (hw : Process.Wf s) (hun : ∀ c < s.created,
    (s.conns c).writeCompleteCallback = false ∧ (s.conns c).highWaterMarkCallback = false)
    (hst : s.stack t = i :: rest) (hi : i.system = true) (hr : ∀ i ∈ rest, i.system = true)
    (he : Process.Exec s t o i s₁ is) :
    Stands s t ((called s t o).getD .outside) (is ++ rest) ∧
      Advance s t (.run t o) .idle (.of ((called s t o).getD .outside) (is ++ rest)) := by
  have hhome := hw.stack t _ (Process.mem_stack hst)
  cases calls_exec hst hi he with
  | connection c hc =>
      rw [hc]
      exact ⟨.leaving c rest hr, .connection c (Process.executed_of_stack hst)⟩
  | message c b bs ho hc =>
      rw [hc]
      exact ⟨.message c rest (hhome.2.resolve_left Bool.false_ne_true) hr,
        .message c b bs (Process.executed_of_stack hst) ho⟩
  | none _ _ hc hcb hread =>
      rw [hc]
      refine ⟨.outside _ (system_append (fun j hj => ?_) hr), .library fun c op hex => ?_⟩
      · have hno : ∀ arg, j ≠ .callback arg := fun arg e => hcb arg (e ▸ hj)
        by_cases hop : ∃ c op, i = .conn c op
        · obtain ⟨c, op, rfl⟩ := hop
          obtain ⟨hwc, hhw⟩ := hun c hhome.1
          cases he with
          | conn _ _ k _ h => exact Ctx.exec_system (hw.agrees c hhome.1) h hi hwc hhw hj hno
          | quiet _ _ hq => cases hq
          | loop _ _ _ _ _ hl => cases hl
        · exact system_follows hi (fun c op e => hop ⟨c, op, e⟩) (Process.exec_follows he j hj)
      · obtain ⟨u, o', rest', e, hst'⟩ := Process.of_executed hex
        cases e
        rw [hst] at hst'
        cases hst'
        refine ⟨hi, ?_⟩
        rintro rfl b bs
        exact hread c b bs rfl

/-- `SendInLoop` leaves nothing to do where no notification is asked for. -/
theorem sendInLoop_silent {k k' : Ctx} {msg : List UInt8} {own : Bool}
    (hwc : k.conn.writeCompleteCallback = false) (hhw : k.conn.highWaterMarkCallback = false)
    (h : k.exec c t own (.sendInLoop u msg) o = some (k', is)) : is = [] := by
  have hnone : is.filterMap Instr.queued = [] := by
    rw [Ctx.exec_queued h, Ctx.notices, hwc, hhw]
    simp
  cases o with
  | write r =>
      cases Ctx.of_sendInLoop h with
      | complete =>
          unfold Ctx.queueWriteComplete
          rw [if_neg (by rw [hwc]; exact Bool.false_ne_true)]
      | rest _ _ _ _ _ _ _ h | buffered _ _ _ _ _ h =>
          obtain ⟨_, _, rfl | ⟨size, rfl⟩⟩ := Ctx.of_appendOutput h
          · rfl
          · cases hnone
      | _ => rfl
  | _ => cases h

/-! ## Every step -/

/-- A callback is no instruction to execute. -/
theorem not_exec_callback {arg : Option ConnId} : ¬ Process.Exec s t o (.callback arg) s₁ is := by
  intro h
  cases h with
  | quiet _ _ hq => cases hq
  | loop _ _ _ _ _ hl => cases hl

/-- **A thread executes its next instruction**, wherever it stands. -/
theorem turn_run (hw : Process.Wf s) (hun : ∀ c < s.created,
    (s.conns c).writeCompleteCallback = false ∧ (s.conns c).highWaterMarkCallback = false)
    (hst : s.stack t = i :: rest) (h : Stands s t pc (i :: rest))
    (he : Process.Exec s t o i s₁ is) : Stands s t ((called s t o).getD pc) (is ++ rest) ∧
      Advance s t (.run t o) (.of pc (i :: rest))
        (.of ((called s t o).getD pc) (is ++ rest)) := by
  have hown : ∀ {c}, t = .loop (s.conns c).loop →
      s.isInLoopThread (s.conns c).loop t = true := fun ht =>
    (Process.isInLoopThread_iff (hw.threadId _)).mpr ht
  cases h with
  | outside _ h => exact turn_exec hw hun hst (system_mem h).1 (system_mem h).2 he
  | message | retrieved | leaving => exact absurd he not_exec_callback
  | retrieving c msg rest ht h =>
      have hnone : called s t o = none := by simp [called, hst]
      cases he with
      | conn _ _ k _ hex =>
          cases hex
          rw [hnone]
          exact ⟨.retrieved c msg rest ht h, .retrieved c msg (Process.executed_of_stack hst)⟩
      | quiet _ _ hq => cases hq
      | loop _ _ _ _ _ hl => cases hl
  | sending c msg rest ht h =>
      have hnone : called s t o = none := by simp [called, hst]
      cases he with
      | conn _ _ k _ hex =>
          rw [hnone]
          simp only [Ctx.exec, Ctx.send, hown ht] at hex
          split at hex
          · rename_i hs
            cases hex
            exact ⟨.sendingInLoop c msg rest ht h,
              .accepted c msg (Process.executed_of_stack hst) hs⟩
          · rename_i hs
            cases hex
            exact ⟨.sent c rest h, .refused c msg (Process.executed_of_stack hst) hs⟩
      | quiet _ _ hq => cases hq
      | loop _ _ _ _ _ hl => cases hl
  | sendingInLoop c msg rest ht h =>
      have hnone : called s t o = none := by simp [called, hst]
      have hc : c < s.created := (hw.stack t _ (Process.mem_stack hst)).1
      cases he with
      | conn _ _ k _ hex =>
          rw [hnone, sendInLoop_silent (hun c hc).1 (hun c hc).2 hex]
          exact ⟨.sent c rest h, .sent c msg (Process.executed_of_stack hst)⟩
      | quiet _ _ hq => cases hq
      | loop _ _ _ _ _ hl => cases hl
  | sent c rest h =>
      have hnone : called s t o = none := by simp [called, hst]
      cases he with
      | quiet _ _ hq =>
          cases hq
          rw [hnone]
          exact ⟨.leaving c rest h, .release (executed_none hst fun _ _ => Instr.noConfusion)⟩
      | loop _ _ _ _ _ hl => cases hl

/-- A callback that is about to be entered is a connection's that there is. -/
theorem callback_lt (hw : Process.Wf s) (hst : s.stack t = i :: rest)
    (he : Process.Exec s t o i s₁ is) (hm : .callback (some c) ∈ is ++ rest) : c < s.created := by
  rcases List.mem_append.mp hm with hm | hm
  · have hi := hw.stack t i (Process.mem_stack hst)
    obtain ⟨op, rfl⟩ := Process.follows_exposes hw hi (Process.exec_follows he _ hm) rfl
    exact hi.1
  · exact hw.stack t (.callback (some c)) (hst ▸ List.mem_cons_of_mem _ hm) c rfl

/-- **The thread that makes the step.** -/
theorem turn_own (hw : Process.Wf e.process) (h : e.Tame) (hs : Step e a e') :
    Stands e'.process a.thread (e'.pc a.thread) (e'.process.stack a.thread) ∧
      Advance e.process a.thread a (e.stage a.thread) (e'.stage a.thread) := by
  have hp := Process.of_step hs.process
  have hg := (Process.wf_step hw hp).2
  have hst := h.stands a.thread
  have hno : (∀ t o, a ≠ .run t o) → ∀ d, e.process.executed d a = none := fun ha d =>
    Process.executed_eq_none fun t o _ _ e' => absurd e' (ha t o)
  cases hs with
  | run t o s hstep =>
      cases hp with
      | run _ _ i rest s₁ is hst' he =>
          have hst : Stands e.process t (e.pc t) (e.process.stack t) := hst
          rw [hst'] at hst
          obtain ⟨hnew, hadv⟩ := turn_run hw h.unasked hst' hst he
          have hmono := hnew.mono hg fun c hm => callback_lt hw hst' he hm
          simp only [stage, Process.Label.thread, Function.update_self, hst']
          exact ⟨hmono, hadv⟩
  | retrieve t c s hpc hstep =>
      have hst : Stands e.process t (e.pc t) (e.process.stack t) := hst
      rw [hpc] at hst
      cases hp with
      | user _ _ s₁ is hu hcall =>
          cases hcall
          simp only [stage, Process.Label.thread, Function.update_self, hpc]
          refine ⟨?_, .retrieve c (hno fun _ _ => Process.Label.noConfusion)⟩
          generalize e.process.stack t = xs at hst
          cases hst with
          | message c rest ht hr =>
              rw [← Buffer.length_readable]
              exact .retrieving c _ rest ht hr
  | send t c msg s hpc hstep =>
      have hst : Stands e.process t (e.pc t) (e.process.stack t) := hst
      rw [hpc] at hst
      cases hp with
      | user _ _ s₁ is hu hcall =>
          have huser : ∀ op xs, e.process.stack t ≠ .conn c op :: xs := by
            intro op xs e'
            simp [Process.userCode, e'] at hu
          cases hcall
          simp only [stage, Process.Label.thread, Function.update_self, hpc]
          generalize e.process.stack t = xs at hst huser
          cases hst with
          | retrieving c msg rest ht hr => exact absurd rfl (huser _ _)
          | retrieved c msg rest ht hr =>
              exact ⟨.sending c msg rest ht hr,
                .send c msg (hno fun _ _ => Process.Label.noConfusion)⟩
  | ret t s hpc hstep =>
      have hst : Stands e.process t (e.pc t) (e.process.stack t) := hst
      rw [hpc] at hst
      cases hp with
      | ret _ arg rest hst' =>
          simp only [stage, Process.Label.thread, Function.update_self, hpc, hst']
          rw [hst'] at hst
          cases hst with
          | leaving c rest hr =>
              exact ⟨.outside _ hr, .ret (hno fun _ _ => Process.Label.noConfusion)⟩
  | loop a s ha hstep =>
      have hrun : ∀ t o, a ≠ .run t o := by
        rintro t o rfl
        cases ha
      -- the thread is in `Loop()`: what it is given to do is the library's
      have hidle : ∀ {m xs}, e.process.stack (.loop m) = [] → a.thread = .loop m →
          s.stack (.loop m) = xs → (∀ i ∈ xs, i.system = true) →
          Stands s a.thread (e.pc a.thread) (s.stack a.thread) ∧
            Advance e.process a.thread a (e.stage a.thread)
              (.of (e.pc a.thread) (s.stack a.thread)) := by
        intro m xs hnil e' hnew hxs
        rw [e', hnil] at hst
        rw [stage, e', hst.of_nil, hnew]
        exact ⟨.outside _ hxs, .library fun c op hex => by rw [hno hrun c] at hex; cases hex⟩
      have hnone : ∀ i ∈ ([] : List Instr), i.system = true :=
        fun i hi => absurd hi List.not_mem_nil
      cases hp with
      | loop m b m' hnil hact hb hl hm =>
          have hnew : ∀ j ∈ e.process.nextInstr m b, j.system = true := by
            intro j hj
            unfold Process.nextInstr at hj
            split at hj
            · split at hj
              · rename_i f fs hph
                have hq := h.queues m f (by rw [EventLoop.queue, hph]; exact List.mem_cons_self)
                rw [List.mem_singleton.mp hj]
                cases f <;> exact hq
              · exact absurd hj List.not_mem_nil
            · exact absurd hj List.not_mem_nil
          exact hidle hnil rfl (Process.stack_setStack_self _ _ _) hnew
      | poll m events m' hnil hev hnd hl hm => exact hidle hnil rfl hnil hnone
      | dispatch m ch rest hnil hact =>
          have hone : ∀ i ∈ [Instr.handleEvent ch], i.system = true := by
            intro i hi
            rw [List.mem_singleton.mp hi]
            rfl
          exact hidle hnil rfl (Process.stack_setStack_self _ _ _) hone
      | threadEnd m h0 hl hnil hph => exact hidle hnil rfl hnil hnone
      | _ => cases ha

/-- **Every step takes the thread that makes it on.** -/
theorem advance_step (hw : Process.Wf e.process) (h : e.Tame) (hs : Step e a e') :
    Advance e.process a.thread a (e.stage a.thread) (e'.stage a.thread) := (turn_own hw h hs).2

theorem pc_other (hs : Step e a e') (hu : a.thread ≠ u) : e'.pc u = e.pc u := by
  cases hs with
  | loop => rfl
  | _ => exact Function.update_of_ne (Ne.symm hu) _ _

/-- Another thread stays where it is. -/
theorem stage_other (hs : Step e a e') (hu : a.thread ≠ u) : e'.stage u = e.stage u := by
  rw [stage, stage, pc_other hs hu, Process.stack_thread (Process.of_step hs.process) hu]

theorem stands_step (hw : Process.Wf e.process) (h : e.Tame) (hs : Step e a e') (u : ThreadId) :
    Stands e'.process u (e'.pc u) (e'.process.stack u) := by
  by_cases hu : a.thread = u
  · exact hu ▸ (turn_own hw h hs).1
  · have hp := Process.of_step hs.process
    rw [pc_other hs hu, Process.stack_thread hp hu]
    exact (h.stands u).mono (Process.wf_step hw hp).2 fun c hm => hw.stack u _ hm c rfl

theorem queues_step (h : e.Tame) (hs : Step e a e') (l : LoopId) (f : Functor)
    (hf : f ∈ (e'.process.loops l).queue) : f.system = true := by
  rcases Process.queue_grows (Process.of_step hs.process) hf with hf | ⟨t, rest, hst⟩
  · exact h.queues l f hf
  · have hstands := h.stands t
    rw [hst] at hstands
    have hi := hstands.system_head nofun nofun
    exact hi

/-- Nobody calls `Quit`, so `Loop()` goes on. -/
theorem running_loop {loop loop' : EventLoop ThreadId Functor}
    {b : EventLoop.Action ThreadId Functor} (h : loop.quit = false ∧ loop.phase ≠ .left)
    (hb : ∀ t, b ≠ .quitStore t) (hs : loop.step b = some loop') :
    loop'.quit = false ∧ loop'.phase ≠ .left := by
  obtain ⟨hen, rfl⟩ := EventLoop.step_eq_some.mp hs
  cases b with
  | quitStore t => exact absurd rfl (hb t)
  | test =>
      refine ⟨h.1, ?_⟩
      show (if loop.quit then Phase.left else .poll) ≠ .left
      rw [h.1]
      exact nofun
  | enterLoop | pollReturn | handleRead | startFunctors | swap | finish =>
      exact ⟨by first | exact h.1 | rfl, nofun⟩
  | next t =>
      obtain ⟨_, _, f, rest, hp⟩ := EventLoop.enabled_next.mp hen
      show (loop.next t).quit = false ∧ _
      rw [EventLoop.apply, EventLoop.next_of_batch hp]
      exact ⟨h.1, nofun⟩
  | ret =>
      obtain ⟨_, f, rest, hp⟩ := EventLoop.enabled_ret.mp hen
      show loop.ret.quit = false ∧ _
      rw [EventLoop.apply, EventLoop.ret_of_functor hp]
      exact ⟨h.1, nofun⟩
  | runInLoop t f =>
      show (loop.runInLoop t f).quit = false ∧ (loop.runInLoop t f).phase ≠ .left
      unfold EventLoop.runInLoop
      split <;> exact h
  | _ => exact h

theorem running_step (h : e.Tame) (hs : Step e a e') (l : LoopId) :
    (e'.process.loops l).quit = false ∧ (e'.process.loops l).phase ≠ .left := by
  have hset : ∀ {m : LoopId} {b : EventLoop.Action ThreadId Functor}
      {m' : EventLoop ThreadId Functor}, (e.process.loops m).step b = some m' →
      (∀ t, b ≠ .quitStore t) → (Function.update e.process.loops m m' l).quit = false ∧
        (Function.update e.process.loops m m' l).phase ≠ .left := by
    intro m b m' hstep hb
    by_cases el : l = m
    · subst el
      rw [Function.update_self]
      exact running_loop (h.running l) hb hstep
    · rw [Function.update_of_ne el]
      exact h.running l
  have hp := Process.of_step hs.process
  revert hp
  generalize e'.process = s
  intro hp
  cases hp with
  | run t o i rest s₁ is hst he =>
      cases he with
      | loop _ m b m' _ hi hl hstep =>
          refine hset hstep fun u e' => ?_
          subst e'
          cases hi with
          | quit m =>
              have hstands := h.stands t
              rw [hst] at hstands
              cases hstands.system_head nofun nofun
      | _ => exact h.running l
  | user t v s₁ is hu hcall => cases hcall <;> exact h.running l
  | loop m b m' hst hact hb hl hstep =>
      exact hset hstep fun u e' => by subst e'; cases hb
  | poll m events m' hst hev hnd hl hstep => exact hset hstep fun u => nofun
  | _ => exact h.running l

/-- Nothing ends. -/
theorem ends_step (h : e.Tame) (hs : Step e a e') :
    e'.process.server.life = .live ∧ ∀ l, e'.process.threadDone l = false := by
  have hdown : ∀ t i rest, e.process.stack t = i :: rest → i.destroys = true → False := by
    intro t i rest hst hi
    have hstands := h.stands t
    rw [hst] at hstands
    have hsys := hstands.system_head (fun c op e' => by rw [e'] at hi; cases hi)
      fun arg e' => by rw [e'] at hi; cases hi
    cases i <;> first | (cases hi; done) | cases hsys
  have hp := Process.of_step hs.process
  refine ⟨?_, fun l => ?_⟩
  · rcases Process.life_step hp with e' | ⟨ha, _⟩ | ⟨t, o, rest, _, hst, _⟩
    · exact e'.trans h.live
    · subst ha
      cases hs with
      | loop _ _ ha => cases ha
    · exact (hdown t _ rest hst rfl).elim
  · revert hp
    generalize e'.process = s
    intro hp
    cases hp with
    | run t o i rest s₁ is hst he =>
        exact (congrFun (Process.exec_kept he).2.2.2 l).trans (h.threads l)
    | user t v s₁ is hu hcall => cases hcall <;> exact h.threads l
    | threadEnd m h0 hl hst hph => exact absurd hph (h.running m).2
    | _ => exact h.threads l

/-- No notification is asked for. -/
theorem unasked_step (hw : Process.Wf e.process) (h : e.Tame) (hs : Step e a e') :
    e'.process.server.writeCompleteCallback = false ∧ ∀ c < e'.process.created,
      (e'.process.conns c).writeCompleteCallback = false ∧
        (e'.process.conns c).highWaterMarkCallback = false := by
  have hp := Process.of_step hs.process
  have hold : ∀ c < e.process.created, (e'.process.conns c).writeCompleteCallback = false ∧
      (e'.process.conns c).highWaterMarkCallback = false := by
    intro c hc
    refine ⟨((Process.wf_step hw hp).2.same c hc).writeComplete.trans (h.unasked c hc).1, ?_⟩
    cases Process.seen_step hw hc hp with
    | other hno r hctx =>
        have hconn : e'.process.conns c = e.process.conns c := congrArg Ctx.conn hctx
        rw [hconn]
        exact (h.unasked c hc).2
    | run t o op rest is ha hst he =>
        have hflag : (e'.process.conns c).highWaterMarkCallback = _ := Ctx.exec_highWaterMark he
        have hstands := h.stands t
        rw [hst] at hstands
        rw [hflag]
        cases op with
        | setHighWaterMark mark =>
            rcases hstands.head with hi | ⟨d, e'⟩ | ⟨d, op, e', _, ⟨n, ho⟩ | ⟨m, ho⟩ | ⟨m, ho⟩⟩
            · cases hi
            · cases e'
            · cases e'
              cases ho
            · cases e'
              cases ho
            · cases e'
              cases ho
        | _ => exact (h.unasked c hc).2
  revert hp hold
  generalize e'.process = s
  intro hp hold
  cases hp with
  | run t o i rest s₁ is hst he =>
      cases he with
      | create fd ho hlife hf hid =>
          refine ⟨h.unset, fun c hc => ?_⟩
          rcases Nat.lt_succ_iff_lt_or_eq.mp hc with hc | rfl
          · exact hold c hc
          · have hnew : ((e.process.newConnection fd).1.setStack t
                ((e.process.newConnection fd).2 ++ rest)).conns e.process.created =
                e.process.freshConn := Function.update_self _ _ _
            rw [hnew]
            exact ⟨h.unset, rfl⟩
      | _ => exact ⟨h.unset, hold⟩
  | user t v s₁ is hu hcall => cases hcall <;> exact ⟨h.unset, hold⟩
  | _ => exact ⟨h.unset, hold⟩

theorem tame_step (hw : Process.Wf e.process) (h : e.Tame) (hs : Step e a e') : e'.Tame where
  live := (ends_step h hs).1
  running := running_step h hs
  threads := (ends_step h hs).2
  unset := (unasked_step hw h hs).1
  unasked := (unasked_step hw h hs).2
  stands := stands_step hw h hs
  queues := queues_step h hs

theorem tame_run {name : List Char} {addr : InetAddress} {numLoops : Nat}
    {tr : List (EchoServer × Process.Label)} (h : Run step (start name addr numLoops) tr e) :
    e.Tame := by
  induction h with
  | start =>
      exact ⟨rfl, fun l => ⟨rfl, nofun⟩, fun l => rfl, rfl,
        fun c hc => absurd hc (Nat.not_lt_zero c),
        fun t => .outside _ fun i hi => absurd hi List.not_mem_nil,
        fun l f hf => absurd hf List.not_mem_nil⟩
  | step tr e a e' h hs ih => exact tame_step (Process.wf_run (process_run h)) ih (of_step hs)

end EchoServer

end CuteMuduo
