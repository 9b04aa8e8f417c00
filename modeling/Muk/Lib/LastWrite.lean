import Muk.Lib.Run
import Mathlib.Logic.Function.Basic
import Mathlib.Data.Nat.Notation

/-!
# Tables written entry by entry

A table that is filled by writes to its entries, one after the other, holds in each entry
what was written there last.
-/

namespace Muk

variable {κ β : Type*} [DecidableEq κ] {t : κ → β} {writes : List (κ × β)} {k : κ} {w : κ × β}

/-- A table after a list of writes. -/
def writeAll (t : κ → β) (writes : List (κ × β)) : κ → β :=
  writes.foldl (fun t w => Function.update t w.1 w.2) t

/-- What was written last to an entry, if anything was. -/
def lastWrite : List (κ × β) → κ → Option β
  | [], _ => none
  | w :: writes, k => lastWrite writes k <|> if w.1 = k then some w.2 else none

/-- The last write to a key is the last one of the rest, if that has one. -/
theorem lastWrite_cons : lastWrite (w :: writes) k =
    (lastWrite writes k <|> if w.1 = k then some w.2 else none) := rfl

/-- Writes are made one after the other. -/
theorem writeAll_cons :
    writeAll t (w :: writes) = writeAll (Function.update t w.1 w.2) writes := rfl

/-- Each entry holds what was written there last, or what it held before. -/
theorem writeAll_apply : writeAll t writes k = (lastWrite writes k).getD (t k) := by
  induction writes generalizing t with
  | nil => rfl
  | cons w writes ih =>
    rw [writeAll_cons, ih, lastWrite_cons]
    cases lastWrite writes k with
    | some b => rfl
    | none =>
      by_cases h : w.1 = k
      · simp [h]
      · simp [h, Ne.symm h]

/-- An entry that is not written to is kept. -/
theorem writeAll_of_ne (h : ∀ w ∈ writes, w.1 ≠ k) : writeAll t writes k = t k := by
  induction writes generalizing t with
  | nil => rfl
  | cons w writes ih =>
    rw [writeAll_cons, ih fun w' hw' => h w' (List.mem_cons_of_mem w hw'),
      Function.update_of_ne (h w List.mem_cons_self).symm]

/-- Entries may be renamed, if the names of those written stay apart, and values converted. -/
theorem lastWrite_map {κ' β' : Type*} [DecidableEq κ'] {f : κ → κ'} {g : β → β'} {k' : κ'}
    (h : ∀ w ∈ writes, f w.1 = k' ↔ w.1 = k) :
    lastWrite (writes.map fun w => (f w.1, g w.2)) k' = (lastWrite writes k).map g := by
  induction writes with
  | nil => rfl
  | cons w writes ih =>
    rw [List.map_cons, lastWrite_cons, lastWrite_cons,
      ih fun w' hw' => h w' (List.mem_cons_of_mem _ hw')]
    simp only [h w List.mem_cons_self]
    cases lastWrite writes k with
    | some b => rfl
    | none =>
      by_cases hk : w.1 = k
      · simp [hk]
      · simp [hk]

section Run

variable {σ ε : Type} {step : σ → ε → σ} {I : σ → Prop} {s : σ} {es : List ε}

/-- Two lists of writes, one after the other, are the writes of both. -/
theorem writeAll_append {writes' : List (κ × β)} :
    writeAll t (writes ++ writes') = writeAll (writeAll t writes) writes' := List.foldl_append

/-- If each step writes to a table, the run makes all of these writes. -/
theorem runSteps_writeAll {table : σ → κ → β} {written : ε → List (κ × β)}
    (hstep : ∀ s e, I s → I (step s e)) (hs : I s)
    (h : ∀ s e, I s → table (step s e) = writeAll (table s) (written e)) :
    table (runSteps step s es) = writeAll (table s) (es.flatMap written) := by
  induction es generalizing s with
  | nil => rfl
  | cons e es ih =>
    rw [runSteps_cons, ih (hstep s e hs), h s e hs, List.flatMap_cons, writeAll_append]

/-- If each step writes one entry, as seen at `k`, a run leaves there what was written last. -/
theorem runSteps_lastWrite (view : σ → β) (entry : ε → κ × β)
    (hstep : ∀ s e, I s → I (step s e)) (hs : I s)
    (h : ∀ s e, I s → view (step s e) = if (entry e).1 = k then (entry e).2 else view s) :
    view (runSteps step s es) = (lastWrite (es.map entry) k).getD (view s) := by
  induction es generalizing s with
  | nil => rfl
  | cons e es ih =>
    rw [runSteps_cons, ih (hstep s e hs), h s e hs, List.map_cons, lastWrite_cons]
    cases lastWrite (es.map entry) k with
    | some b => rfl
    | none => by_cases hk : (entry e).1 = k <;> simp [hk]

end Run

end Muk
