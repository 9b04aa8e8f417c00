import Mathlib.Tactic.Common
import Mathlib.Data.Nat.Notation
import Mathlib.Data.Nat.ModEq
import Mathlib.Data.Int.CardIntervalMod
import Mathlib.Data.List.Induction
import Mathlib.Logic.Function.Basic

/-!
# Round robin

`n` parties take turns in a fixed order. What the outgoing one leaves behind is kept
for it and given back to it on its next turn, so the party that comes in gets what
it left `n - 1` switches before, or what it was started with.
-/

namespace Muk

/-- Whose turn it is, and what is kept for each of the parties. -/
structure RoundRobin (κ : Type) where
  running : ℕ
  saved : ℕ → κ

namespace RoundRobin

variable {κ : Type} {n : ℕ} {init : ℕ → κ} {outs : List κ}

/-- Keep what the running party leaves behind, and move on to the next one. -/
def switch (n : ℕ) (r : RoundRobin κ) (out : κ) : RoundRobin κ where
  running := (r.running + 1) % n
  saved := Function.update r.saved r.running out

/-- All switches of a run that starts with party 0. -/
def run (n : ℕ) (init : ℕ → κ) (outs : List κ) : RoundRobin κ :=
  outs.foldl (switch n) { running := 0, saved := init }

/-- At first the round robin runs number 0, and everyone has the context to start with. -/
@[simp] theorem run_nil (n : ℕ) (init : ℕ → κ) : run n init [] = { running := 0, saved := init } :=
  rfl

/-- One turn more is a switch at the end. -/
theorem run_concat (n : ℕ) (init : ℕ → κ) (outs : List κ) (out : κ) :
    run n init (outs ++ [out]) = (run n init outs).switch n out := by
  simp only [run, List.foldl_append, List.foldl_cons, List.foldl_nil]

/-- After any number of turns the party that runs is given by the number of turns, modulo the
parties. -/
theorem run_running (n : ℕ) (init : ℕ → κ) (outs : List κ) :
    (run n init outs).running = outs.length % n := by
  induction outs using List.reverseRecOn with
  | nil => simp
  | append_singleton outs out ih =>
    rw [run_concat, switch, ih, List.length_append, List.length_singleton, Nat.mod_add_mod]

/-- What is kept for a party is what it left last. -/
theorem run_saved_last {i : ℕ} (hi : i < outs.length)
    (hlast : ∀ j, i < j → j < outs.length → j % n ≠ i % n) :
    (run n init outs).saved (i % n) = outs[i] := by
  induction outs using List.reverseRecOn with
  | nil => simp at hi
  | append_singleton outs out ih =>
    rw [List.length_append, List.length_singleton] at hi hlast
    rw [run_concat, switch, run_running]
    by_cases hend : i = outs.length
    · subst i
      simp
    · have hne : i % n ≠ outs.length % n :=
        fun h => hlast outs.length (by omega) (by omega) h.symm
      have hi' : i < outs.length := by omega
      rw [List.getElem_append_left hi']
      simp only [Function.update_of_ne hne]
      exact ih hi' fun j hij hj => hlast j hij (by omega)

/-- A party that has left nothing has what it was started with. -/
theorem run_saved_init {p : ℕ} (hnone : ∀ j < outs.length, j % n ≠ p) :
    (run n init outs).saved p = init p := by
  induction outs using List.reverseRecOn with
  | nil => rfl
  | append_singleton outs out ih =>
    rw [List.length_append, List.length_singleton] at hnone
    rw [run_concat, switch, run_running]
    have hne : p ≠ outs.length % n := fun h => hnone outs.length (by omega) h.symm
    simp only [Function.update_of_ne hne]
    exact ih fun j hj => hnone j (by omega)

/-- Fewer than `n` turns apart, it is the turn of two different ones. -/
theorem mod_ne_of_lt {i j : ℕ} (hij : i < j) (hj : j < i + n) : j % n ≠ i % n := by
  intro h
  have hdvd : n ∣ j - i := (Nat.modEq_iff_dvd' hij.le).mp h.symm
  have := Nat.le_of_dvd (by omega) hdvd
  omega

/-- With two parties or more the next one is another one. -/
theorem mod_succ_ne (hn : 2 ≤ n) {i : ℕ} (hi : i < n) : (i + 1) % n ≠ i := by
  have hne : (i + 1) % n ≠ i % n := mod_ne_of_lt (by omega) (by omega)
  rwa [Nat.mod_eq_of_lt hi] at hne

/-- Among `n` turns in a row every party has exactly one. -/
theorem existsUnique_turn {p : ℕ} (hp : p < n) (first : ℕ) :
    ∃! turn, (first ≤ turn ∧ turn < first + n) ∧ turn % n = p := by
  have hn : 0 < n := by omega
  let turn := first + (p + n - first % n) % n
  have hlt := Nat.mod_lt (p + n - first % n) hn
  have hfirst := Nat.mod_lt first hn
  have hmod : turn % n = p := by
    have : (first + (p + n - first % n)) % n = p := by
      rw [Nat.add_mod, ← Nat.mod_mod first n, ← Nat.add_mod, Nat.mod_mod]
      have hsum : first % n + (p + n - first % n) = p + n := by omega
      rw [hsum, Nat.add_mod_right, Nat.mod_eq_of_lt hp]
    rw [Nat.add_mod_mod, this]
  refine ⟨turn, ⟨⟨by omega, by omega⟩, hmod⟩, ?_⟩
  rintro other ⟨⟨hlow, hhigh⟩, hother⟩
  rcases Nat.lt_trichotomy other turn with h | h | h
  · exact absurd (hmod.trans hother.symm) (mod_ne_of_lt h (by omega))
  · exact h
  · exact absurd (hother.trans hmod.symm) (mod_ne_of_lt h (by omega))

/-- The turns are shared out evenly. -/
theorem count_turns {p : ℕ} (hp : p < n) (first m : ℕ) :
    m / n ≤ Nat.count (fun turn => (first + turn) % n = p) m ∧
      Nat.count (fun turn => (first + turn) % n = p) m ≤ m / n + 1 := by
  have hn : 0 < n := by omega
  obtain ⟨turn, ⟨⟨hlow, -⟩, hturn⟩, -⟩ := existsUnique_turn hp first
  have hiff (j : ℕ) : (first + j) % n = p ↔ j ≡ turn - first [MOD n] := by
    rw [← hturn]
    constructor
    · intro h
      refine Nat.ModEq.add_left_cancel' first ?_
      rw [Nat.add_sub_cancel' hlow]
      exact h
    · intro h
      have hadd := h.add_left first
      rwa [Nat.add_sub_cancel' hlow] at hadd
  simp only [hiff, Nat.count_modEq_card m hn]
  split_ifs <;> omega

end RoundRobin

end Muk
