/-
  File:      CuteMuduo/Lib/Run.lean
  Subject:   RUNS of a machine given by a labelled, executable step function.

  A machine is a partial step function `step : σ → α → Option σ`: the label carries every
  choice the environment makes (which thread acts, what a system call answers), so a list of
  labels determines a run. This file is the induction over runs, packaged once:

  * `Run step s₀ tr s` -- the machine goes from `s₀` to `s`; the trace `tr` lists, newest step
    first, the state before each step together with its label;
  * `Run.inv`, `Run.invOn` -- an invariant of every step, or of every step that meets a
    condition, holds wherever a run ends;
  * `Run.split`, `Run.trans` -- a step of the trace cuts the run in two, and back;
  * `Run.exists_lost` -- a property that holds at the start and not at the end is lost in a step;
  * `exec` -- the run a list of labels determines;
  * `Simulates` -- a step of one machine is a run of another, along an abstraction; runs and
    invariants travel along it;
  * `Inevitable` -- whichever steps of a kind are taken, the machine gets to where a property
    holds; such properties chain, and a measure that every step brings down proves them.
-/
import Mathlib.Data.List.Basic

namespace Machine

variable {σ τ α β : Type*}

/-- **A run.** The trace lists the steps taken, the newest first: the state the step was taken
    in and its label. -/
inductive Run (step : σ → α → Option σ) (s₀ : σ) : List (σ × α) → σ → Prop where
  | start : Run step s₀ [] s₀
  | step (tr : List (σ × α)) (s : σ) (a : α) (s' : σ)
      (h : Run step s₀ tr s) (hs : step s a = some s') : Run step s₀ ((s, a) :: tr) s'

/-- The states some run reaches. -/
def Reachable (step : σ → α → Option σ) (s₀ s : σ) : Prop := ∃ tr, Run step s₀ tr s

/-- What is read off the steps, in order: the newest step adds at the end. -/
theorem filterMap_reverse_cons (f : β → Option τ) (x : β) (xs : List β) :
    (x :: xs).reverse.filterMap f = xs.reverse.filterMap f ++ (f x).toList := by
  rw [List.reverse_cons, List.filterMap_append, List.filterMap_cons, List.filterMap_nil]
  cases f x <;> rfl

section Invariants

variable {step : σ → α → Option σ} {s₀ s s' : σ} {tr : List (σ × α)}

/-- **An invariant of every step holds wherever a run ends.** -/
theorem Run.inv {I : σ → Prop} (h0 : I s₀)
    (hI : ∀ s a s', I s → step s a = some s' → I s') (h : Run step s₀ tr s) : I s := by
  induction h with
  | start => exact h0
  | step tr s a s' _ hs ih => exact hI s a s' ih hs

/-- **A conditional invariant**: what every step that meets `C` preserves holds wherever a run
    ends all of whose steps meet `C`. -/
theorem Run.invOn {I : σ → Prop} {C : σ → α → Prop} (h0 : I s₀)
    (hI : ∀ s a s', I s → C s a → step s a = some s' → I s') (h : Run step s₀ tr s)
    (hC : ∀ p ∈ tr, C p.1 p.2) : I s := by
  induction h with
  | start => exact h0
  | step tr s a s' _ hs ih =>
      exact hI s a s' (ih fun p hp => hC p (List.mem_cons_of_mem _ hp))
        (hC (s, a) List.mem_cons_self) hs

/-- An invariant may be assumed of the state before each step of a second induction. -/
theorem Run.invWith {J I : σ → Prop} {C : σ → α → Prop} (hJ0 : J s₀)
    (hJ : ∀ s a s', J s → step s a = some s' → J s') (h0 : I s₀)
    (hI : ∀ s a s', J s → I s → C s a → step s a = some s' → I s') (h : Run step s₀ tr s)
    (hC : ∀ p ∈ tr, C p.1 p.2) : I s := by
  induction h with
  | start => exact h0
  | step tr s a s' h hs ih =>
      exact hI s a s' (h.inv hJ0 hJ) (ih fun p hp => hC p (List.mem_cons_of_mem _ hp))
        (hC (s, a) List.mem_cons_self) hs

/-- Runs compose; the later trace stands in front. -/
theorem Run.trans {tr' : List (σ × α)} (h : Run step s₀ tr s) (h' : Run step s tr' s') :
    Run step s₀ (tr' ++ tr) s' := by
  induction h' with
  | start => exact h
  | step tr' s a s' _ hs ih => exact .step _ _ _ _ ih hs

/-- **A place in the trace cuts the run.** -/
theorem Run.split_append {tr₁ tr₂ : List (σ × α)} {p : σ × α} (h : Run step s₀ tr s)
    (e : tr = tr₂ ++ p :: tr₁) :
    ∃ s', Run step s₀ tr₁ p.1 ∧ step p.1 p.2 = some s' ∧ Run step s' tr₂ s := by
  induction h generalizing tr₂ with
  | start => exact absurd e.symm (List.append_ne_nil_of_right_ne_nil _ (List.cons_ne_nil _ _))
  | step tr s a s' h hs ih =>
      cases tr₂ with
      | nil =>
          obtain ⟨rfl, rfl⟩ := List.cons.inj e
          exact ⟨s', h, hs, .start⟩
      | cons q tr₂ =>
          obtain ⟨rfl, e'⟩ := List.cons.inj e
          obtain ⟨s₁, h₁, hs₁, h₂⟩ := ih e'
          exact ⟨s₁, h₁, hs₁, .step _ _ _ _ h₂ hs⟩

/-- **A step of the trace cuts the run**: a run up to it, the step, and a run after it. -/
theorem Run.split {s₁ : σ} {a : α} (h : Run step s₀ tr s) (hm : (s₁, a) ∈ tr) :
    ∃ tr₁ tr₂ s₂, Run step s₀ tr₁ s₁ ∧ step s₁ a = some s₂ ∧ Run step s₂ tr₂ s ∧
      tr = tr₂ ++ (s₁, a) :: tr₁ := by
  obtain ⟨tr₂, tr₁, e⟩ := List.append_of_mem hm
  obtain ⟨s₂, h₁, hs, h₂⟩ := h.split_append e
  exact ⟨tr₁, tr₂, s₂, h₁, hs, h₂, e⟩

/-- The state a run starts in is in its trace, unless it ends there. -/
theorem Run.start_mem (h : Run step s₀ tr s) : tr = [] ∧ s = s₀ ∨ ∃ a, (s₀, a) ∈ tr := by
  induction h with
  | start => exact Or.inl ⟨rfl, rfl⟩
  | step tr s a s' _ _ ih =>
      right
      rcases ih with ⟨_, rfl⟩ | ⟨b, hb⟩
      · exact ⟨a, List.mem_cons_self⟩
      · exact ⟨b, List.mem_cons_of_mem _ hb⟩

/-- What holds in every state of a run holds right behind each of its steps. -/
theorem Run.all_after {I : σ → Prop} (h : Run step s₀ tr s) (hI : (∀ p ∈ tr, I p.1) ∧ I s)
    {p : σ × α} (hp : p ∈ tr) : ∃ s₂, step p.1 p.2 = some s₂ ∧ I s₂ := by
  obtain ⟨tr₁, tr₂, s₂, _, hs, h₂, rfl⟩ := h.split hp
  refine ⟨s₂, hs, ?_⟩
  rcases h₂.start_mem with ⟨_, rfl⟩ | ⟨b, hb⟩
  · exact hI.2
  · exact hI.1 _ (List.mem_append_left _ hb)

/-- **What is lost on the way is lost in a step.** -/
theorem Run.exists_lost {P : σ → Prop} (h : Run step s₀ tr s) (h0 : P s₀) (hs : ¬ P s) :
    ∃ p ∈ tr, P p.1 ∧ ∃ s', step p.1 p.2 = some s' ∧ ¬ P s' := by
  induction h with
  | start => exact absurd h0 hs
  | step tr s a s' _ hstep ih =>
      by_cases hp : P s
      · exact ⟨(s, a), List.mem_cons_self, hp, s', hstep, hs⟩
      · obtain ⟨p, hm, hlost⟩ := ih hp
        exact ⟨p, List.mem_cons_of_mem _ hm, hlost⟩

/-- Every state of a trace satisfies `I` as soon as every run whose steps meet `C` ends in it. -/
theorem Run.all_of_forall {I : σ → Prop} {C : σ → α → Prop}
    (hI : ∀ tr s, Run step s₀ tr s → (∀ p ∈ tr, C p.1 p.2) → I s)
    (h : Run step s₀ tr s) (hC : ∀ p ∈ tr, C p.1 p.2) : (∀ p ∈ tr, I p.1) ∧ I s := by
  refine ⟨fun p hp => ?_, hI tr s h hC⟩
  obtain ⟨tr₁, tr₂, _, h₁, _, _, e⟩ := h.split hp
  refine hI tr₁ p.1 h₁ fun q hq => hC q ?_
  rw [e]
  exact List.mem_append_right _ (List.mem_cons_of_mem _ hq)

end Invariants

/-! ## Running a list of labels -/

/-- The state a list of labels leads to, `none` where one of them is not enabled. -/
def exec (step : σ → α → Option σ) : σ → List α → Option σ
  | s, [] => some s
  | s, a :: as => (step s a).bind fun s' => exec step s' as

/-- The trace of `exec`, newest step first, behind `tr`. -/
def execTrace (step : σ → α → Option σ) : σ → List α → List (σ × α) → List (σ × α)
  | _, [], tr => tr
  | s, a :: as, tr =>
    match step s a with
    | some s' => execTrace step s' as ((s, a) :: tr)
    | none => tr

/-- **What `exec` computes is a run**, and its trace is `execTrace`. -/
theorem exec_run {step : σ → α → Option σ} {s₀ s s' : σ} {tr : List (σ × α)} {as : List α}
    (h : Run step s₀ tr s) (he : exec step s as = some s') :
    Run step s₀ (execTrace step s as tr) s' := by
  induction as generalizing s tr with
  | nil =>
      simp only [exec, Option.some.injEq] at he
      subst he
      exact h
  | cons a as ih =>
      obtain ⟨s₁, hs, he⟩ := Option.bind_eq_some_iff.mp he
      simp only [execTrace, hs]
      exact ih (.step _ _ _ _ h hs) he

/-- Running on keeps the steps behind it in the trace. -/
theorem mem_execTrace {step : σ → α → Option σ} {p : σ × α} (as : List α) {s : σ}
    {tr : List (σ × α)} (hp : p ∈ tr) : p ∈ execTrace step s as tr := by
  induction as generalizing s tr with
  | nil => exact hp
  | cons a as ih =>
      unfold execTrace
      split
      · exact ih (List.mem_cons_of_mem _ hp)
      · exact hp

/-- The labels of the trace are those that were run. -/
theorem label_mem_execTrace {step : σ → α → Option σ} {p : σ × α} (as : List α) {s : σ}
    {tr : List (σ × α)} (hp : p ∈ execTrace step s as tr) : p ∈ tr ∨ p.2 ∈ as := by
  induction as generalizing s tr with
  | nil => exact Or.inl hp
  | cons a as ih =>
      unfold execTrace at hp
      split at hp
      · rcases ih hp with hp | hp
        · rcases List.mem_cons.mp hp with rfl | hp
          · exact Or.inr List.mem_cons_self
          · exact Or.inl hp
        · exact Or.inr (List.mem_cons_of_mem _ hp)
      · exact Or.inl hp

/-! ## Simulation -/

/-- **Simulation**: along `f`, under the invariant `I`, every concrete step is a run of the
    abstract machine (one step, several, or none). -/
def Simulates (step : σ → α → Option σ) (stepA : τ → β → Option τ) (I : σ → Prop)
    (f : σ → τ) : Prop :=
  ∀ s a s', I s → step s a = some s' → Reachable stepA (f s) (f s')

theorem Reachable.trans {step : σ → α → Option σ} {s₀ s s' : σ} (h : Reachable step s₀ s)
    (h' : Reachable step s s') : Reachable step s₀ s' := by
  obtain ⟨_, h⟩ := h
  obtain ⟨_, h'⟩ := h'
  exact ⟨_, h.trans h'⟩

theorem Reachable.refl (step : σ → α → Option σ) (s : σ) : Reachable step s s := ⟨_, .start⟩

theorem Reachable.single {step : σ → α → Option σ} {s s' : σ} {a : α}
    (h : step s a = some s') : Reachable step s s' := ⟨_, .step _ _ _ _ .start h⟩

/-- **A simulation carries runs**: what the concrete machine reaches, the abstract one reaches. -/
theorem Simulates.reachable {step : σ → α → Option σ} {stepA : τ → β → Option τ} {I : σ → Prop}
    {f : σ → τ} (hsim : Simulates step stepA I f) {s₀ s : σ} (h0 : I s₀)
    (hI : ∀ s a s', I s → step s a = some s' → I s') (h : Reachable step s₀ s) :
    Reachable stepA (f s₀) (f s) := by
  obtain ⟨tr, h⟩ := h
  induction h with
  | start => exact .refl _ _
  | step tr s a s' h hs ih => exact ih.trans (hsim s a s' (h.inv h0 hI) hs)

/-! ## What is bound to come -/

/-- **`P` is bound to come**: as long as only steps that `may` be taken are taken, the machine goes
    on until `P` holds, and gets there whichever of them are taken. -/
inductive Inevitable (step : σ → α → Option σ) (may : σ → α → Prop) (P : σ → Prop) : σ → Prop where
  | now (s : σ) (h : P s) : Inevitable step may P s
  | later (s : σ) (can : ∃ a s', may s a ∧ step s a = some s')
      (next : ∀ a s', may s a → step s a = some s' → Inevitable step may P s') :
      Inevitable step may P s

namespace Inevitable

variable {step : σ → α → Option σ} {may : σ → α → Prop} {P Q I : σ → Prop} {s : σ}

/-- What is bound to come, comes in some run. -/
theorem exists_run (h : Inevitable step may P s) :
    ∃ tr s', Run step s tr s' ∧ (∀ p ∈ tr, may p.1 p.2) ∧ P s' := by
  induction h with
  | now s h => exact ⟨[], s, .start, fun p hp => absurd hp List.not_mem_nil, h⟩
  | later s can _ ih =>
      obtain ⟨a, s₁, ha, hs⟩ := can
      obtain ⟨tr, s', hrun, hall, hP⟩ := ih a s₁ ha hs
      refine ⟨tr ++ [(s, a)], s', .trans (.step _ _ _ _ .start hs) hrun, fun p hp => ?_, hP⟩
      rcases List.mem_append.mp hp with hp | hp
      · exact hall p hp
      · rw [List.mem_singleton.mp hp]
        exact ha

/-- One thing leads to another. -/
theorem trans (h : Inevitable step may P s) (hPQ : ∀ s, P s → Inevitable step may Q s) :
    Inevitable step may Q s := by
  induction h with
  | now s h => exact hPQ s h
  | later s can _ ih => exact .later s can ih

/-- An invariant of the steps that may be taken holds there too. -/
theorem withInv (hI : ∀ s a s', I s → may s a → step s a = some s' → I s') (h0 : I s)
    (h : Inevitable step may P s) : Inevitable step may (fun s => P s ∧ I s) s := by
  induction h with
  | now s h => exact .now s ⟨h, h0⟩
  | later s can _ ih =>
      exact .later s can fun a s' ha hs => ih a s' ha hs (hI s a s' h0 ha hs)

/-- **A measure that every step brings down**: where `P` does not hold, some step may be taken, and
    each leads to `P` or to less. -/
theorem of_wellFounded {r : σ → σ → Prop} (hwf : WellFounded r)
    (can : ∀ s, I s → ¬ P s → ∃ a s', may s a ∧ step s a = some s')
    (next : ∀ s a s', I s → ¬ P s → may s a → step s a = some s' → P s' ∨ I s' ∧ r s' s)
    (h0 : I s) : Inevitable step may P s := by
  induction s using hwf.induction with
  | _ s ih =>
      by_cases hP : P s
      · exact .now s hP
      · refine .later s (can s h0 hP) fun a s' ha hs => ?_
        rcases next s a s' h0 hP ha hs with h | ⟨hI, hr⟩
        · exact .now s' h
        · exact ih s' hr hI

end Inevitable

end Machine
