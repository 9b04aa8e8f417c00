import Mathlib.Tactic.Common
import Mathlib.Data.List.Basic

/-!
# First in, first out

The history of a queue: what was accepted, what was delivered, and what is held in
between. The three always fit together, so whatever is delivered was accepted, once and
in order.
-/

namespace Muk

/-- What has entered and left a queue. -/
structure Fifo (α : Type) where
  accepted : List α
  delivered : List α
  held : List α
  conserved : delivered ++ held = accepted

namespace Fifo

variable {α : Type}

/-- A queue before its first operation. -/
def empty : Fifo α := ⟨[], [], [], rfl⟩

/-- Accept one more item at the end. -/
def push (q : Fifo α) (x : α) : Fifo α where
  accepted := q.accepted ++ [x]
  delivered := q.delivered
  held := q.held ++ [x]
  conserved := by rw [← List.append_assoc, q.conserved]

/-- Deliver the first item held. -/
def pop (q : Fifo α) {x : α} {rest : List α} (h : q.held = x :: rest) : Fifo α where
  accepted := q.accepted
  delivered := q.delivered ++ [x]
  held := rest
  conserved := by rw [List.append_assoc, List.singleton_append, ← h, q.conserved]

/-- What is delivered is the first part of what was accepted. -/
theorem delivered_first (q : Fifo α) : q.delivered <+: q.accepted := ⟨q.held, q.conserved⟩

/-- What was delivered and what is held are as many as were accepted. -/
theorem length_held (q : Fifo α) : q.delivered.length + q.held.length = q.accepted.length := by
  rw [← List.length_append, q.conserved]

end Fifo

end Muk
