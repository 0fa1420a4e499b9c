/-
  File:      CuteMuduo/Lib/Fifo.lean
  Subject:   A FIFO QUEUE WITH ITS HISTORY: what has been pushed, what has been popped, and what is
             in between. The queue carries the law `popped ++ content = pushed`, so that a
             component that is shown to behave like one loses nothing, repeats nothing and keeps
             the order.
-/
import Mathlib.Data.List.Basic

/-- **A queue**, with everything that was ever pushed and popped. -/
structure Fifo (α : Type*) where
  pushed : List α
  popped : List α
  content : List α
  law : popped ++ content = pushed

namespace Fifo

variable {α : Type*}

def empty : Fifo α := ⟨[], [], [], rfl⟩

/-- `xs` go in at the end. -/
def push (q : Fifo α) (xs : List α) : Fifo α where
  pushed := q.pushed ++ xs
  popped := q.popped
  content := q.content ++ xs
  law := by rw [← List.append_assoc, q.law]

/-- `n` elements go out at the front, or all there are. -/
def pop (q : Fifo α) (n : Nat) : Fifo α where
  pushed := q.pushed
  popped := q.popped ++ q.content.take n
  content := q.content.drop n
  law := by rw [List.append_assoc, List.take_append_drop, q.law]

@[simp] theorem content_push (q : Fifo α) (xs : List α) :
    (q.push xs).content = q.content ++ xs := rfl

@[simp] theorem pushed_pop (q : Fifo α) (n : Nat) : (q.pop n).pushed = q.pushed := rfl

@[simp] theorem content_pop (q : Fifo α) (n : Nat) : (q.pop n).content = q.content.drop n := rfl

end Fifo
