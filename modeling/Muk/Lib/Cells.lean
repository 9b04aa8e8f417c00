import Muk.Lib.ByteMemory

/-!
# Writing a text with gaps

A list of optional bytes says what is written from an address on: a byte at each place, or
nothing, where memory keeps what it has. What two such lists write one after the other is
what their concatenation writes.
-/

namespace Muk

/-- Write some bytes upwards from an address. -/
def storeText (m : Mem) (a : Word) : List Byte → Mem
  | [] => m
  | b :: text => storeText (store8 m a b) (a + 1#32) text

/-- Write the bytes that are there upwards from an address. -/
def storeCells (m : Mem) (a : Word) : List (Option Byte) → Mem
  | [] => m
  | some b :: cells => storeCells (store8 m a b) (a + 1#32) cells
  | none :: cells => storeCells m (a + 1#32) cells

variable {m : Mem} {a : Word} {b c : Byte} {cells cells' : List (Option Byte)}

/-- A text is stored like cells that all have a byte. -/
theorem storeText_eq (m : Mem) (a : Word) (text : List Byte) :
    storeText m a text = storeCells m a (text.map some) := by
  induction text generalizing m a with
  | nil => rfl
  | cons b text ih => exact ih _ _

/-- Storing two lists one after the other is storing the second one behind the cells of the
first. -/
theorem storeCells_append (m : Mem) (a : Word) (cells cells' : List (Option Byte)) :
    storeCells m a (cells ++ cells') =
      storeCells (storeCells m a cells) (a + BitVec.ofNat 32 cells.length) cells' := by
  induction cells generalizing m a with
  | nil => simp [storeCells]
  | cons c cells ih =>
    have haddr : a + BitVec.ofNat 32 (c :: cells).length =
        a + 1#32 + BitVec.ofNat 32 cells.length := by
      rw [List.length_cons, BitVec.ofNat_add, BitVec.add_assoc, BitVec.add_comm (1#32)]
    rw [haddr]
    cases c <;> exact ih _ _

/-- Storing two texts one after the other is storing the second one behind the characters of the
first. -/
theorem storeText_append (m : Mem) (a : Word) (text text' : List Byte) :
    storeText m a (text ++ text') =
      storeText (storeText m a text) (a + BitVec.ofNat 32 text.length) text' := by
  rw [storeText_eq, storeText_eq, storeText_eq, List.map_append, storeCells_append,
    List.length_map]

/-- Storing cells that are all gaps leaves memory as it is. -/
@[simp] theorem storeCells_replicate_none (m : Mem) (a : Word) (n : ℕ) :
    storeCells m a (List.replicate n none) = m := by
  induction n generalizing a with
  | zero => rfl
  | succ n ih => exact ih _

/-- Of two stores to one address the second one counts. -/
theorem store8_store8 (m : Mem) (a : Word) (b c : Byte) :
    store8 (store8 m a b) a c = store8 m a c := by
  funext x
  simp only [store8]
  split_ifs <;> rfl

/-- The byte at the first place does not matter if another one is written there. -/
theorem storeCells_store8 : storeCells (store8 m a b) a (some c :: cells) =
    storeCells m a (some c :: cells) := by
  rw [storeCells, storeCells, store8_store8]

/-- What is at a place afterwards, by its distance from the address. -/
theorem storeCells_apply (hfit : cells.length ≤ 2 ^ 32) (x : Word) :
    storeCells m a cells x = (cells[(x - a).toNat]?.join).getD (m x) := by
  induction cells generalizing m a with
  | nil => simp [storeCells]
  | cons c cells ih =>
    rw [List.length_cons] at hfit
    have hrest (m' : Mem) := ih (m := m') (a := a + 1#32) (by omega)
    by_cases hxa : x = a
    · subst hxa
      have hzero : (x - x).toNat = 0 := by bv_omega
      have hfar : cells.length ≤ (x - (x + 1#32)).toNat := by
        have : (x - (x + 1#32)).toNat = 2 ^ 32 - 1 := by bv_omega
        omega
      simp only [List.getElem?_eq_none hfar, Option.join_none, Option.getD_none] at hrest
      rw [hzero, List.getElem?_cons_zero]
      cases c with
      | none => exact hrest m
      | some b => exact (hrest _).trans (store8_same m x b)
    · have hdist : (x - a).toNat = (x - (a + 1#32)).toNat + 1 := by
        have hne : (x - a).toNat ≠ 0 := fun h => hxa (by bv_omega)
        bv_omega
      rw [hdist, List.getElem?_cons_succ]
      cases c with
      | none => exact hrest m
      | some b => rw [storeCells, hrest, store8_ne m b hxa]

/-- What is at a place after a text is written. -/
theorem storeText_apply {text : List Byte} (hfit : text.length ≤ 2 ^ 32) (x : Word) :
    storeText m a text x = (text[(x - a).toNat]?).getD (m x) := by
  rw [storeText_eq, storeCells_apply (by rwa [List.length_map]), List.getElem?_map]
  cases text[(x - a).toNat]? <;> rfl

end Muk
