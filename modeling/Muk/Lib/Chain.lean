import Mathlib.Tactic.Common
import Mathlib.Data.List.Nodup
import Mathlib.Data.List.Perm.Subperm
import Mathlib.Data.List.Range
import Mathlib.Data.Nat.Notation
import Mathlib.Dynamics.PeriodicPts.Defs

/-!
# Chains of links

A table that names for each node the next one holds chains: the nodes that are visited
from a first one on, up to a node that is an end mark. A chain visits no node twice, so a
walk of bounded length finds every chain among finitely many nodes.
-/

namespace Muk

open Function

variable {α : Type*} {next next' : α → α} {stop stop' : α → Prop} {a b : α} {nodes : List α}

/-- The nodes from `a` on, up to an end mark. -/
inductive Chain (next : α → α) (stop : α → Prop) : α → List α → Prop
  | nil {a : α} (h : stop a) : Chain next stop a []
  | cons {a : α} {nodes : List α} (h : ¬ stop a) (hnext : Chain next stop (next a) nodes) :
    Chain next stop a (a :: nodes)

namespace Chain

/-- No node of a chain is an end mark. -/
theorem not_stop (h : Chain next stop a nodes) : ∀ b ∈ nodes, ¬ stop b := by
  induction h with
  | nil _ => simp
  | cons hstop _ ih =>
    intro b hb
    rcases List.mem_cons.mp hb with rfl | hb
    · exact hstop
    · exact ih b hb

/-- From a node there is one chain at most. -/
theorem unique {nodes' : List α} (h : Chain next stop a nodes) (h' : Chain next stop a nodes') :
    nodes = nodes' := by
  induction h generalizing nodes' with
  | nil hstop =>
    cases h' with
    | nil _ => rfl
    | cons hstop' _ => exact absurd hstop hstop'
  | cons hstop _ ih =>
    cases h' with
    | nil hstop' => exact absurd hstop' hstop
    | cons _ hnext' => rw [ih hnext']

/-- A chain goes on from each of its nodes as it does in the whole. -/
theorem from_mem (h : Chain next stop a nodes) (hb : b ∈ nodes) :
    ∃ rest, Chain next stop b rest ∧ rest.length ≤ nodes.length := by
  induction h with
  | nil _ => simp at hb
  | cons hstop hnext ih =>
    rcases List.mem_cons.mp hb with rfl | hb
    · exact ⟨_, .cons hstop hnext, le_rfl⟩
    · obtain ⟨rest, hrest, hlength⟩ := ih hb
      exact ⟨rest, hrest, hlength.trans (Nat.le_succ _)⟩

/-- A chain visits no node twice. -/
theorem nodup (h : Chain next stop a nodes) : nodes.Nodup := by
  induction h with
  | nil _ => exact List.nodup_nil
  | cons hstop hnext ih =>
    rw [List.nodup_cons]
    refine ⟨fun hmem => ?_, ih⟩
    -- The chain would go on from its second visit as from its first.
    obtain ⟨rest, hrest, hlength⟩ := hnext.from_mem hmem
    have heq := hrest.unique (.cons hstop hnext)
    rw [heq, List.length_cons] at hlength
    omega

/-- A chain among nodes with numbers below `n` has at most `n` nodes. -/
theorem length_le (h : Chain next stop a nodes) {n : ℕ} {number : α → ℕ}
    (hinj : number.Injective) (hlt : ∀ b ∈ nodes, number b < n) : nodes.length ≤ n := by
  have hsubset : nodes.map number ⊆ List.range n := by
    intro i hi
    obtain ⟨b, hb, rfl⟩ := List.mem_map.mp hi
    exact List.mem_range.mpr (hlt b hb)
  have hle := (List.Nodup.subperm (List.Nodup.map hinj h.nodup) hsubset).length_le
  rwa [List.length_map, List.length_range] at hle

/-- Another table has the same chain, if its links and end marks agree along it. -/
theorem congr (h : Chain next stop a nodes) (hne : nodes ≠ []) (hnode : ∀ b ∈ nodes, ¬ stop' b)
    (hnext : ∀ b ∈ nodes, next b ∈ nodes → next' b = next b)
    (hend : ∀ b ∈ nodes, stop (next b) → stop' (next' b)) : Chain next' stop' a nodes := by
  induction h with
  | nil _ => exact absurd rfl hne
  | cons hstop hchain ih =>
    refine .cons (hnode _ List.mem_cons_self) ?_
    cases hchain with
    | nil hstop' => exact .nil (hend _ List.mem_cons_self hstop')
    | cons hstop' hrest =>
      rw [hnext _ List.mem_cons_self (List.mem_cons_of_mem _ List.mem_cons_self)]
      exact ih (List.cons_ne_nil _ _) (fun b hb => hnode b (List.mem_cons_of_mem _ hb))
        (fun b hb hb' => hnext b (List.mem_cons_of_mem _ hb) (List.mem_cons_of_mem _ hb'))
        (fun b hb => hend b (List.mem_cons_of_mem _ hb))

/-- A chain ends at the node that as many links lead to as it has nodes. -/
theorem stop_iterate (h : Chain next stop a nodes) : stop (next^[nodes.length] a) := by
  induction h with
  | nil hstop => exact hstop
  | cons _ _ ih => rwa [List.length_cons, iterate_succ_apply]

end Chain

/-- There is a chain from every node from which links lead to an end mark. -/
theorem exists_chain {n : ℕ} (h : stop (next^[n] a)) : ∃ nodes, Chain next stop a nodes := by
  induction n generalizing a with
  | zero => exact ⟨[], .nil h⟩
  | succ n ih =>
    by_cases hstop : stop a
    · exact ⟨[], .nil hstop⟩
    · obtain ⟨nodes, hnodes⟩ := ih h
      exact ⟨a :: nodes, .cons hstop hnodes⟩

/-- The links lead from a node into a cycle, past no end mark. -/
def LeadsToCycle (next : α → α) (stop : α → Prop) (a : α) : Prop :=
  ∃ i n, 0 < n ∧ next^[n] (next^[i] a) = next^[i] a ∧ ∀ k < i + n, ¬ stop (next^[k] a)

/-- Links that lead into a cycle lead to no end mark. -/
theorem LeadsToCycle.not_stop (h : LeadsToCycle next stop a) (k : ℕ) : ¬ stop (next^[k] a) := by
  obtain ⟨i, n, hn, hcycle, hnode⟩ := h
  by_cases hk : k < i
  · exact hnode k (by omega)
  · -- around the cycle, as often as it takes
    have hperiod : IsPeriodicPt next n (next^[i] a) := hcycle
    have hmod := Nat.mod_lt (k - i) hn
    have hsame := hperiod.iterate_mod_apply (k - i)
    rw [← iterate_add_apply, ← iterate_add_apply, Nat.sub_add_cancel (by omega)] at hsame
    rw [← hsame]
    exact hnode _ (by omega)

/-- Among nodes with numbers below `n`, links that lead to no end mark lead into a cycle. -/
theorem leadsToCycle_of_not_stop {n : ℕ} {number : α → ℕ} (hinj : number.Injective)
    (hlt : ∀ b, ¬ stop b → number b < n) (h : ∀ k, ¬ stop (next^[k] a)) :
    LeadsToCycle next stop a := by
  -- two of the first `n + 1` nodes are the same one
  have hmaps : ∀ k ∈ Finset.range (n + 1), number (next^[k] a) ∈ Finset.range n :=
    fun k _ => Finset.mem_range.mpr (hlt _ (h k))
  obtain ⟨i, -, j, -, hne, heq⟩ := Finset.exists_ne_map_eq_of_card_lt_of_maps_to
    (by rw [Finset.card_range, Finset.card_range]; omega) hmaps
  have hij := hinj heq
  rcases Nat.lt_or_gt_of_ne hne with hlt | hlt
  · refine ⟨i, j - i, by omega, ?_, fun k _ => h k⟩
    rw [← iterate_add_apply, Nat.sub_add_cancel (by omega), hij]
  · refine ⟨j, i - j, by omega, ?_, fun k _ => h k⟩
    rw [← iterate_add_apply, Nat.sub_add_cancel (by omega), hij]

/-- Among finitely many nodes, there is a chain from a node exactly when its links do not lead
into a cycle. -/
theorem exists_chain_iff {n : ℕ} {number : α → ℕ} (hinj : number.Injective)
    (hlt : ∀ b, ¬ stop b → number b < n) :
    (∃ nodes, Chain next stop a nodes) ↔ ¬ LeadsToCycle next stop a := by
  constructor
  · rintro ⟨nodes, hnodes⟩ hcycle
    exact hcycle.not_stop _ hnodes.stop_iterate
  · intro hcycle
    by_contra hnone
    refine hcycle (leadsToCycle_of_not_stop hinj hlt fun k hstop => ?_)
    exact hnone (exists_chain hstop)

/-- Collect the nodes up to an end mark, unless the walk takes more than `fuel` steps. -/
def follow (next : α → α) (stop : α → Prop) [DecidablePred stop] : ℕ → α → Option (List α)
  | 0, a => if stop a then some [] else none
  | fuel + 1, a => if stop a then some [] else (follow next stop fuel (next a)).map (a :: ·)

/-- A walk with fuel finds the chains that are not longer than it may go. -/
theorem follow_eq_some_iff [DecidablePred stop] {fuel : ℕ} :
    follow next stop fuel a = some nodes ↔ Chain next stop a nodes ∧ nodes.length ≤ fuel := by
  constructor
  · intro h
    induction fuel generalizing a nodes with
    | zero =>
      rw [follow] at h
      split_ifs at h with hstop
      rw [← Option.some.inj h]
      exact ⟨.nil hstop, le_rfl⟩
    | succ fuel ih =>
      rw [follow] at h
      split_ifs at h with hstop
      · rw [← Option.some.inj h]
        exact ⟨.nil hstop, Nat.zero_le _⟩
      · obtain ⟨rest, hrest, rfl⟩ := Option.map_eq_some_iff.mp h
        obtain ⟨hchain, hlength⟩ := ih hrest
        exact ⟨.cons hstop hchain, Nat.succ_le_succ hlength⟩
  · rintro ⟨hchain, hlength⟩
    induction hchain generalizing fuel with
    | nil hstop => cases fuel <;> simp [follow, hstop]
    | cons hstop _ ih =>
      obtain _ | fuel := fuel
      · simp at hlength
      · rw [follow, if_neg hstop, ih (Nat.le_of_succ_le_succ hlength), Option.map_some]

/-- With fuel for all nodes, a walk finds a chain if there is one. -/
theorem follow_eq_some_of_chain [DecidablePred stop] (fuel : ℕ) {n : ℕ} {number : α → ℕ}
    (hinj : number.Injective) (hlt : ∀ b, ¬ stop b → number b < n) (hn : n ≤ fuel) :
    follow next stop fuel a = some nodes ↔ Chain next stop a nodes := by
  rw [follow_eq_some_iff, and_iff_left_iff_imp]
  exact fun h => (h.length_le hinj fun b hb => hlt b (h.not_stop b hb)).trans hn

end Muk
