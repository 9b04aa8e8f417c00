import Mathlib.Data.Nat.Nth
import Mathlib.Data.Set.Card

/-!
# Taking the least element of a set of naturals, again and again

`Nat.nth (· ∈ F) k` is element number `k` of `F` in increasing order. A process
that removes the least element of what is left meets exactly these elements, in
this order, until nothing is left.
-/

namespace Muk

/-- What is left of `F` after its `k` least elements are taken. -/
def dropLeast (F : Set ℕ) (k : ℕ) : Set ℕ :=
  {x | x ∈ F ∧ ∀ j < k, Nat.nth (· ∈ F) j ≠ x}

/-- Without removals the set is as it was. -/
@[simp] theorem dropLeast_zero (F : Set ℕ) : dropLeast F 0 = F := by
  simp [dropLeast]

/-- Taking one more of the least elements takes the next one in the order of the set. -/
theorem dropLeast_succ (F : Set ℕ) (k : ℕ) :
    dropLeast F (k + 1) = dropLeast F k \ {Nat.nth (· ∈ F) k} := by
  ext x
  simp only [dropLeast, Set.mem_ofPred_eq, Set.mem_sdiff, Set.mem_singleton_iff, and_assoc]
  apply and_congr_right
  intro _
  constructor
  · intro h
    exact ⟨fun j hj => h j (by omega), fun hx => h k (by omega) hx.symm⟩
  · rintro ⟨hbefore, hk⟩ j hj
    by_cases hjk : j = k
    · subst j
      exact fun h => hk h.symm
    · exact hbefore j (by omega)

/-- A position below the size of a set is below that of its finite set. -/
private theorem lt_card_toFinset {F : Set ℕ} {k : ℕ} (hk : k < F.ncard)
    (hf : (Set.ofPred (· ∈ F)).Finite) : k < hf.toFinset.card := by
  rwa [← Set.ncard_eq_toFinset_card _ hf]

/-- An element of `F` is its element of some number. -/
theorem exists_nth_eq {F : Set ℕ} (hF : F.Finite) {x : ℕ} (hx : x ∈ F) :
    ∃ m < F.ncard, Nat.nth (· ∈ F) m = x := by
  obtain ⟨m, hm, hnth⟩ := Nat.exists_lt_card_finite_nth_eq (p := (· ∈ F)) hF hx
  refine ⟨m, ?_, hnth⟩
  rwa [Set.ncard_eq_toFinset_card F hF]

/-- Before the set is exhausted, element number `k` is in it. -/
theorem nth_mem_of_lt_ncard {F : Set ℕ} {k : ℕ} (hk : k < F.ncard) : Nat.nth (· ∈ F) k ∈ F :=
  Nat.nth_mem (p := (· ∈ F)) k (lt_card_toFinset hk)

/-- The elements by number increase strictly. -/
theorem nth_lt_nth_of_lt_ncard {F : Set ℕ} {j k : ℕ} (hjk : j < k) (hk : k < F.ncard) :
    Nat.nth (· ∈ F) j < Nat.nth (· ∈ F) k :=
  Nat.nth_lt_nth' (p := (· ∈ F)) hjk (lt_card_toFinset hk)

/-- Before the set is exhausted, its element number `k` is the least one left. -/
theorem isLeast_dropLeast {F : Set ℕ} (hF : F.Finite) {k : ℕ} (hk : k < F.ncard) :
    IsLeast (dropLeast F k) (Nat.nth (· ∈ F) k) := by
  constructor
  · refine ⟨nth_mem_of_lt_ncard hk, fun j hj => ?_⟩
    exact (nth_lt_nth_of_lt_ncard hj hk).ne
  · rintro x ⟨hx, hdropped⟩
    obtain ⟨m, hm, rfl⟩ := exists_nth_eq hF hx
    rcases Nat.lt_trichotomy m k with h | h | h
    · exact absurd rfl (hdropped m h)
    · rw [h]
    · exact (nth_lt_nth_of_lt_ncard h hm).le

/-- After as many steps as the set has elements, nothing is left. -/
theorem dropLeast_eq_empty {F : Set ℕ} (hF : F.Finite) {k : ℕ} (hk : F.ncard ≤ k) :
    dropLeast F k = ∅ := by
  ext x
  simp only [Set.mem_empty_iff_false, iff_false]
  rintro ⟨hx, hdropped⟩
  obtain ⟨m, hm, hnth⟩ := exists_nth_eq hF hx
  exact hdropped m (by omega) hnth

end Muk
