import Mathlib.Data.Nat.Notation
import Mathlib.Logic.Function.Basic
import Mathlib.Tactic.Common

/-!
# Copies that overlap

A loop copies the cells at `s 0, s 1, …` to `d 0, d 1, …`, one after the other, in either order.
The cells that are read may be among those that are written. The result is that of a copy which
reads everything first, as long as no cell is written before it is read.
-/

namespace Muk

variable {α β : Type*} {m m' : α → β} {d s : ℕ → α} {n k : ℕ}

/-- Copy `n` cells, the first one first. -/
def copyUp [DecidableEq α] (d s : ℕ → α) : ℕ → (α → β) → (α → β)
  | 0, m => m
  | n + 1, m => Function.update (copyUp d s n m) (d n) (copyUp d s n m (s n))

/-- Copy `n` cells, the last one first. -/
def copyDown [DecidableEq α] (d s : ℕ → α) : ℕ → (α → β) → (α → β)
  | 0, m => m
  | n + 1, m => copyDown d s n (Function.update m (d n) (m (s n)))

/-- What some copies have done: the cells that they wrote hold what was at their sources, and
the others are unchanged. -/
structure Moved (m m' : α → β) (d s : ℕ → α) (made : ℕ → Prop) : Prop where
  copied : ∀ i, made i → m' (d i) = m (s i)
  frame : ∀ x, (∀ i, made i → x ≠ d i) → m' x = m x

namespace Moved

variable {made made' : ℕ → Prop}

/-- Before the first copy nothing was moved. -/
theorem init (m : α → β) (d s : ℕ → α) (hnone : ∀ i, ¬ made i) : Moved m m d s made :=
  ⟨fun i hi => absurd hi (hnone i), fun _ _ => rfl⟩

variable [DecidableEq α]

/-- One more copy, to a cell that was not written yet and from one that was not either. -/
theorem step (h : Moved m m' d s made) (hd : ∀ i, made i → d i ≠ d k)
    (hs : ∀ i, made i → s k ≠ d i) (hmade : ∀ i, made' i ↔ made i ∨ i = k) :
    Moved m (Function.update m' (d k) (m' (s k))) d s made' := by
  refine ⟨fun i hi => ?_, fun x hx => ?_⟩
  · rcases (hmade i).mp hi with hi | rfl
    · rw [Function.update_of_ne (hd i hi)]
      exact h.copied i hi
    · rw [Function.update_self]
      exact h.frame _ hs
  · rw [Function.update_of_ne (hx k ((hmade k).mpr (Or.inr rfl)))]
    exact h.frame x fun i hi => hx i ((hmade i).mpr (Or.inl hi))

end Moved

variable [DecidableEq α]

/-- **Copies upwards** are right if no cell is written before it is read. -/
theorem copyUp_moved (hd : ∀ i < n, ∀ j < n, d i = d j → i = j)
    (hs : ∀ i < n, ∀ j < i, s i ≠ d j) (m : α → β) :
    Moved m (copyUp d s n m) d s (· < n) := by
  induction n with
  | zero => exact Moved.init m d s Nat.not_lt_zero
  | succ n ih =>
    have hbefore := ih (fun i hi j hj => hd i (by omega) j (by omega)) fun i hi => hs i (by omega)
    refine hbefore.step (fun i hi heq => ?_) (hs n (by omega)) fun i => by omega
    exact absurd (hd i (by omega) n (by omega) heq) (by omega)

/-- The copies that a loop downwards has made before it gets to `k`. -/
theorem copyDown_moved_of (hd : ∀ i < n, ∀ j < n, d i = d j → i = j)
    (hs : ∀ i < n, ∀ j < n, i < j → s i ≠ d j) (hk : k ≤ n)
    (h : Moved m m' d s fun i => k ≤ i ∧ i < n) :
    Moved m (copyDown d s k m') d s (· < n) := by
  induction k generalizing m' with
  | zero =>
    simp only [Nat.zero_le, true_and] at h
    exact h
  | succ k ih =>
    refine ih (by omega) (h.step (fun i hi heq => ?_) (fun i hi => ?_) fun i => by omega)
    · exact absurd (hd i hi.2 k (by omega) heq) (by omega)
    · exact hs k (by omega) i hi.2 (by omega)

/-- **Copies downwards** are right if no cell is written before it is read. -/
theorem copyDown_moved (hd : ∀ i < n, ∀ j < n, d i = d j → i = j)
    (hs : ∀ i < n, ∀ j < n, i < j → s i ≠ d j) (m : α → β) :
    Moved m (copyDown d s n m) d s (· < n) :=
  copyDown_moved_of hd hs (Nat.le_refl n) (Moved.init m d s fun i hi => by omega)

end Muk
