import Mathlib.Data.List.Dedup
import Mathlib.Data.List.Induction
import Mathlib.Tactic.Common
import Muk.Lib.LastWrite

/-!
# Lists of entries

A list of keys and values in which a key is set where it stands first, or else at the end. Such a
list has every key once, and looks up as a table that is written entry by entry.
-/

namespace Muk

variable {κ β : Type*} [DecidableEq κ] {entries writes : List (κ × β)} {k k' : κ} {b : β}

/-- The value of the first entry with a key. -/
def lookupEntry (k : κ) : List (κ × β) → Option β
  | [] => none
  | e :: entries => if e.1 = k then some e.2 else lookupEntry k entries

/-- Set the first entry with a key, or add one. -/
def setEntry : List (κ × β) → κ × β → List (κ × β)
  | [], w => [w]
  | e :: entries, w => if e.1 = w.1 then w :: entries else e :: setEntry entries w

/-- A key is looked up in the first entry that has it. -/
theorem lookupEntry_cons (e : κ × β) :
    lookupEntry k (e :: entries) = if e.1 = k then some e.2 else lookupEntry k entries := rfl

/-- An entry is set where its key is first found, and else behind the last one. -/
theorem setEntry_cons (e w : κ × β) :
    setEntry (e :: entries) w = if e.1 = w.1 then w :: entries else e :: setEntry entries w := rfl

/-- Looking up a key that no entry has finds nothing. -/
theorem lookupEntry_eq_none (h : k ∉ entries.map Prod.fst) : lookupEntry k entries = none := by
  induction entries with
  | nil => rfl
  | cons e entries ih =>
    rw [List.map_cons, List.mem_cons, not_or] at h
    rw [lookupEntry_cons, if_neg (Ne.symm h.1), ih h.2]

/-- A key that is not there gets an entry of its own, at the end. -/
theorem setEntry_eq_append {w : κ × β} (h : w.1 ∉ entries.map Prod.fst) :
    setEntry entries w = entries ++ [w] := by
  induction entries with
  | nil => rfl
  | cons e entries ih =>
    rw [List.map_cons, List.mem_cons, not_or] at h
    rw [setEntry_cons, if_neg (Ne.symm h.1), ih h.2, List.cons_append]

/-- An entry is the first one with its key. -/
theorem lookupEntry_eq_some {i : ℕ} (hi : i < entries.length) (hkey : entries[i].1 = k)
    (hfirst : ∀ j (hj : j < i), entries[j].1 ≠ k) : lookupEntry k entries = some entries[i].2 := by
  induction entries generalizing i with
  | nil => exact absurd hi (Nat.not_lt_zero i)
  | cons e entries ih =>
    rw [lookupEntry_cons]
    cases i with
    | zero => exact if_pos hkey
    | succ i =>
      have hhead : e.1 ≠ k := hfirst 0 (Nat.zero_lt_succ i)
      rw [if_neg hhead]
      exact ih (Nat.lt_of_succ_lt_succ hi) hkey fun j hj => hfirst (j + 1) (Nat.succ_lt_succ hj)

/-- A key that is there gets its value in the first entry that has it. -/
theorem setEntry_eq_set {w : κ × β} {i : ℕ} (hi : i < entries.length) (hkey : entries[i].1 = w.1)
    (hfirst : ∀ j (hj : j < i), entries[j].1 ≠ w.1) : setEntry entries w = entries.set i w := by
  induction entries generalizing i with
  | nil => exact absurd hi (Nat.not_lt_zero i)
  | cons e entries ih =>
    rw [setEntry_cons]
    cases i with
    | zero => exact if_pos hkey
    | succ i =>
      have hhead : e.1 ≠ w.1 := hfirst 0 (Nat.zero_lt_succ i)
      rw [if_neg hhead, List.set_cons_succ]
      rw [ih (Nat.lt_of_succ_lt_succ hi) hkey fun j hj => hfirst (j + 1) (Nat.succ_lt_succ hj)]

/-- Setting a key changes its own value only. -/
theorem lookupEntry_setEntry (w : κ × β) :
    lookupEntry k (setEntry entries w) = if w.1 = k then some w.2 else lookupEntry k entries := by
  induction entries with
  | nil => rfl
  | cons e entries ih =>
    rw [setEntry_cons]
    by_cases hew : e.1 = w.1
    · rw [if_pos hew, lookupEntry_cons, lookupEntry_cons, hew]
      split_ifs <;> rfl
    · rw [if_neg hew, lookupEntry_cons, lookupEntry_cons, ih]
      by_cases hek : e.1 = k
      · rw [if_pos hek, if_pos hek, if_neg fun hwk => hew (hek.trans hwk.symm)]
      · rw [if_neg hek, if_neg hek]

/-- The keys are those of before and the one set. -/
theorem mem_keys_setEntry {w : κ × β} :
    k ∈ (setEntry entries w).map Prod.fst ↔ k ∈ entries.map Prod.fst ∨ k = w.1 := by
  induction entries with
  | nil => simp [setEntry]
  | cons e entries ih =>
    rw [setEntry_cons]
    split_ifs with h
    · simp only [List.map_cons, List.mem_cons, h]
      tauto
    · simp only [List.map_cons, List.mem_cons, ih]
      tauto

/-- Setting a key leaves every key once. -/
theorem nodup_keys_setEntry {w : κ × β} (h : (entries.map Prod.fst).Nodup) :
    ((setEntry entries w).map Prod.fst).Nodup := by
  induction entries with
  | nil => exact List.nodup_singleton _
  | cons e entries ih =>
    rw [List.map_cons, List.nodup_cons] at h
    rw [setEntry_cons]
    split_ifs with hew
    · rw [List.map_cons, List.nodup_cons, ← hew]
      exact h
    · rw [List.map_cons, List.nodup_cons, mem_keys_setEntry, not_or]
      exact ⟨⟨h.1, hew⟩, ih h.2⟩

/-- The entries after a list of writes. -/
def entriesOf (writes : List (κ × β)) : List (κ × β) := writes.foldl setEntry []

/-- The last write is set in the entries of the writes before it. -/
theorem entriesOf_concat (writes : List (κ × β)) (w : κ × β) :
    entriesOf (writes ++ [w]) = setEntry (entriesOf writes) w := by
  rw [entriesOf, List.foldl_append]
  rfl

/-- The entries that some writes leave have different keys, as a later write replaces an earlier
one. -/
theorem nodup_keys_entriesOf (writes : List (κ × β)) : ((entriesOf writes).map Prod.fst).Nodup := by
  induction writes using List.reverseRecOn with
  | nil => exact List.nodup_nil
  | append_singleton writes w ih =>
    rw [entriesOf_concat]
    exact nodup_keys_setEntry ih

/-- The keys of the entries are those that were written. -/
theorem mem_keys_entriesOf : k ∈ (entriesOf writes).map Prod.fst ↔ k ∈ writes.map Prod.fst := by
  induction writes using List.reverseRecOn with
  | nil => rfl
  | append_singleton writes w ih =>
    rw [entriesOf_concat, mem_keys_setEntry, ih]
    simp

/-- There are as many entries as keys. -/
theorem length_entriesOf (writes : List (κ × β)) :
    (entriesOf writes).length = (writes.map Prod.fst).dedup.length := by
  have hperm : ((entriesOf writes).map Prod.fst).Perm (writes.map Prod.fst).dedup := by
    rw [List.perm_ext_iff_of_nodup (nodup_keys_entriesOf writes) (List.nodup_dedup _)]
    intro k
    rw [List.mem_dedup, mem_keys_entriesOf]
  rw [← hperm.length_eq, List.length_map]

/-- What was written last is what is looked up. -/
theorem lookupEntry_entriesOf (k : κ) (writes : List (κ × β)) :
    lookupEntry k (entriesOf writes) = lastWrite writes k := by
  suffices h : ∀ entries, lookupEntry k (writes.foldl setEntry entries) =
      (lastWrite writes k <|> lookupEntry k entries) by
    rw [entriesOf, h []]
    cases lastWrite writes k <;> rfl
  induction writes with
  | nil => exact fun _ => rfl
  | cons w writes ih =>
    intro entries
    rw [List.foldl_cons, ih, lookupEntry_setEntry, lastWrite_cons]
    cases lastWrite writes k with
    | some b => rfl
    | none => split_ifs <;> rfl

end Muk
