import Mathlib.Logic.Function.Basic
import Muk.Lib.Loop

/-!
# Arrays

Objects with elements live in arrays, which are numbered in the order in which they are
allocated. A cell of an array may hold no element: it has none when the array is new, and after
the element is destroyed. Array zero has no cells, so that its number is the null pointer.
-/

namespace Muk

/-- Ways in which an access to an array fails. -/
inductive ArrayFault where
  | outOfBounds
  | noElement
  | overflow
  deriving DecidableEq

/-- The arrays of a run. -/
structure Arrays (α : Type) where
  count : ℕ
  array : ℕ → List (Option α)

namespace Arrays

variable {α : Type} {s t : Arrays α} {b b' k n : ℕ} {a : α} {xs : List α}

/-- No array but the null pointer. -/
def empty : Arrays α := { count := 1, array := fun _ => [] }

/-- A new array without elements, and its number. -/
def alloc (s : Arrays α) (n : ℕ) : ℕ × Arrays α :=
  (s.count,
    { count := s.count + 1, array := Function.update s.array s.count (List.replicate n none) })

/-- The element in a cell. -/
def read (s : Arrays α) (b k : ℕ) : Except ArrayFault α :=
  match (s.array b)[k]? with
  | none => .error .outOfBounds
  | some none => .error .noElement
  | some (some a) => .ok a

/-- Put something into a cell. -/
def put (s : Arrays α) (b k : ℕ) (c : Option α) : Except ArrayFault (Arrays α) :=
  if k < (s.array b).length then
    .ok { s with array := Function.update s.array b ((s.array b).set k c) }
  else .error .outOfBounds

/-- Assign an element to a cell. -/
def write (s : Arrays α) (b k : ℕ) (a : α) : Except ArrayFault (Arrays α) := s.put b k (some a)

/-- Destroy the element in a cell. -/
def destroy (s : Arrays α) (b k : ℕ) : Except ArrayFault (Arrays α) := s.put b k none

/-- Destroy all elements of an array. -/
def destroyAll (s : Arrays α) (b : ℕ) : Arrays α :=
  { s with array := Function.update s.array b (List.replicate (s.array b).length none) }

/-- Copy the first cells of one array to another one. -/
def copy (s : Arrays α) (b b' n : ℕ) : Except ArrayFault (Arrays α) :=
  forLoop (fun k s => do
    let a ← s.read b k
    s.write b' k a) 0 n s

/-- Copy `n` elements of one array, found through their indices, to a place in another one. -/
def copyAt (s : Arrays α) (dest offset src : ℕ) (index : ℕ → ℕ) (n : ℕ) :
    Except ArrayFault (Arrays α) :=
  forLoop (fun i s => do
    let a ← s.read src (index i)
    s.write dest (offset + i) a) 0 n s

/-- The array starts with the given elements. -/
def Holds (s : Arrays α) (b : ℕ) (xs : List α) : Prop :=
  xs.length ≤ (s.array b).length ∧ ∀ k (hk : k < xs.length), (s.array b)[k]? = some (some xs[k])

/-- Every array holds the empty list at its start. -/
theorem holds_nil (s : Arrays α) (b : ℕ) : s.Holds b [] :=
  ⟨Nat.zero_le _, fun k hk => absurd hk (Nat.not_lt_zero k)⟩

/-- An array with the same cells holds the same. -/
theorem Holds.congr (h : s.Holds b xs) (hsame : t.array b' = s.array b) : t.Holds b' xs := by
  rwa [Holds, hsame]

/-- Reading where something is held gives it. -/
theorem Holds.read (h : s.Holds b xs) (hk : k < xs.length) : s.read b k = .ok xs[k] := by
  rw [Arrays.read, h.2 k hk]

/-- What a cell holds after something is put into an array. -/
theorem put_spec (c : Option α) (hk : k < (s.array b).length) :
    ∃ t, s.put b k c = .ok t ∧ t.count = s.count ∧ t.array b = (s.array b).set k c ∧
      ∀ x ≠ b, t.array x = s.array x :=
  ⟨_, if_pos hk, rfl, Function.update_self .., fun _ hx => Function.update_of_ne hx ..⟩

/-- One more element at the end of those that are held. -/
theorem Holds.write (h : s.Holds b xs) (hroom : xs.length < (s.array b).length) (a : α) :
    ∃ t, s.write b xs.length a = .ok t ∧ t.count = s.count ∧ t.Holds b (xs ++ [a]) ∧
      (t.array b).length = (s.array b).length ∧ ∀ x ≠ b, t.array x = s.array x := by
  obtain ⟨t, hrun, hcount, harray, hother⟩ := put_spec (some a) hroom
  refine ⟨t, hrun, hcount, ⟨?_, fun k hk => ?_⟩, by rw [harray, List.length_set], hother⟩
  · rw [harray, List.length_set, List.length_append, List.length_singleton]
    exact hroom
  · rw [harray]
    rw [List.length_append, List.length_singleton] at hk
    by_cases hlast : k = xs.length
    · subst hlast
      rw [List.getElem?_set_self hroom, List.getElem_concat_length rfl]
    · have hk' : k < xs.length := by omega
      rw [List.getElem?_set_ne (Ne.symm hlast), h.2 k hk', List.getElem_append_left hk']

/-- Copying elements to a place in another array changes the cells there only. -/
theorem copyAt_spec {dest src : ℕ} (offset : ℕ) (index : ℕ → ℕ) (hne : xs ≠ [] → src ≠ dest)
    (hread : ∀ i (hi : i < xs.length), (s.array src)[index i]? = some (some xs[i]))
    (hroom : offset + xs.length ≤ (s.array dest).length) :
    ∃ t, s.copyAt dest offset src index xs.length = .ok t ∧ t.count = s.count ∧
      (t.array dest).length = (s.array dest).length ∧
      (∀ k, (t.array dest)[k]? =
        if offset ≤ k ∧ k < offset + xs.length then xs[k - offset]?.map some
        else (s.array dest)[k]?) ∧
      ∀ x ≠ dest, t.array x = s.array x := by
  refine forLoop_invariant (fun i (t : Arrays α) => t.count = s.count ∧
    (t.array dest).length = (s.array dest).length ∧
    (∀ k, (t.array dest)[k]? = if offset ≤ k ∧ k < offset + i then xs[k - offset]?.map some
      else (s.array dest)[k]?) ∧ ∀ x ≠ dest, t.array x = s.array x)
    ⟨rfl, rfl, fun k => (if_neg (by omega)).symm, fun _ _ => rfl⟩ ?_
  rintro i hi t ⟨hcount, hlength, hcell, hother⟩
  have hsrc : src ≠ dest := hne (List.ne_nil_of_length_pos (by omega))
  have hvalue : t.read src (index i) = .ok xs[i] := by
    rw [Arrays.read, hother src hsrc, hread i hi]
  obtain ⟨t', hwrite, hcount', harray, hother'⟩ := put_spec (s := t) (b := dest) (k := offset + i)
    (some xs[i]) (by omega)
  refine ⟨t', ?_, hcount'.trans hcount, ?_, fun k => ?_, fun x hx => ?_⟩
  · rw [Nat.zero_add, hvalue]
    exact hwrite
  · rw [harray, List.length_set, hlength]
  · rw [harray, List.getElem?_set]
    by_cases hk : offset + i = k
    · have hsub : k - offset = i := by omega
      rw [if_pos hk, if_pos (by omega), if_pos (by omega), hsub, List.getElem?_eq_getElem hi]
      rfl
    · rw [if_neg hk, hcell k]
      by_cases hin : offset ≤ k ∧ k < offset + i
      · rw [if_pos hin, if_pos (by omega)]
      · rw [if_neg hin, if_neg (by omega)]
  · rw [hother' x hx, hother x hx]

/-- Copying elements between two arrays changes the second one only. -/
theorem Holds.copy (h : s.Holds b xs) (hne : b ≠ b') (hroom : xs.length ≤ (s.array b').length) :
    ∃ t, s.copy b b' xs.length = .ok t ∧ t.count = s.count ∧ t.Holds b' xs ∧
      (t.array b').length = (s.array b').length ∧ ∀ x ≠ b', t.array x = s.array x := by
  have hcopy : s.copy b b' xs.length = s.copyAt b' 0 b id xs.length := by
    simp only [Arrays.copy, copyAt, Nat.zero_add, id]
  obtain ⟨t, hrun, hcount, hlength, hcell, hother⟩ :=
    copyAt_spec 0 id (fun _ => hne) h.2 (by omega)
  refine ⟨t, hcopy.trans hrun, hcount, ⟨by omega, fun k hk => ?_⟩, hlength, hother⟩
  rw [hcell k, if_pos (by omega), Nat.sub_zero, List.getElem?_eq_getElem hk]
  rfl

/-! ## Later arrays -/

/-- The sizes of the arrays other than the null pointer, the oldest one first. -/
def sizes (s : Arrays α) : List ℕ :=
  (List.range (s.count - 1)).map fun b => (s.array (b + 1)).length

/-- The arrays of a state are unchanged, and others may follow. -/
structure Extends (s t : Arrays α) : Prop where
  count_le : s.count ≤ t.count
  array : ∀ b < s.count, t.array b = s.array b

/-- Memory extends itself. -/
theorem Extends.refl (s : Arrays α) : Extends s s := ⟨Nat.le_refl _, fun _ _ => rfl⟩

/-- An extension of an extension is one. -/
theorem Extends.trans {u : Arrays α} (h : Extends s t) (h' : Extends t u) : Extends s u :=
  ⟨Nat.le_trans h.count_le h'.count_le, fun b hb =>
    (h'.array b (Nat.lt_of_lt_of_le hb h.count_le)).trans (h.array b hb)⟩

/-- An allocation leaves the arrays that exist as they are. -/
theorem alloc_extends (s : Arrays α) (n : ℕ) : Extends s (s.alloc n).2 :=
  ⟨Nat.le_succ _, fun _ hb => Function.update_of_ne (Nat.ne_of_lt hb) ..⟩

/-- A new array has the asked size, and nothing in it yet. -/
theorem alloc_array (s : Arrays α) (n : ℕ) :
    (s.alloc n).2.array (s.alloc n).1 = List.replicate n none := Function.update_self ..

/-- An allocation adds one array of cells that hold nothing, under a new number, and leaves the
other arrays alone. -/
theorem alloc_spec (hrun : s.alloc n = (b, t)) :
    b = s.count ∧ t.count = s.count + 1 ∧ t.array b = List.replicate n none ∧
      ∀ x ≠ b, t.array x = s.array x := by
  obtain ⟨rfl, rfl⟩ := Prod.mk.inj hrun
  exact ⟨rfl, rfl, Function.update_self .., fun _ hx => Function.update_of_ne hx ..⟩

/-- The lengths of arrays of which one changes, but not in length. -/
theorem length_congr (hlength : (t.array b).length = (s.array b).length)
    (hother : ∀ x ≠ b, t.array x = s.array x) (x : ℕ) :
    (t.array x).length = (s.array x).length := by
  by_cases hx : x = b
  · rw [hx, hlength]
  · rw [hother x hx]

/-- The sizes depend on the number of arrays and their lengths only. -/
theorem sizes_congr (hcount : t.count = s.count)
    (hlength : ∀ b, (t.array b).length = (s.array b).length) : t.sizes = s.sizes := by
  simp only [sizes, hcount, hlength]

/-- An allocation adds its size behind those before. -/
theorem sizes_alloc (hcount : 0 < s.count) : (s.alloc n).2.sizes = s.sizes ++ [n] := by
  have hlast : s.count - 1 + 1 = s.count := by omega
  have hrange : (s.alloc n).2.count - 1 = s.count - 1 + 1 := hlast.symm
  rw [sizes, hrange, List.range_succ, List.map_append, List.map_singleton, hlast]
  congr 1
  · apply List.map_congr_left
    intro b hb
    rw [List.mem_range] at hb
    rw [(alloc_extends s n).array (b + 1) (by omega)]
  · rw [show (s.alloc n).2.array s.count = _ from alloc_array s n, List.length_replicate]

/-- The size of an array, by its number. -/
theorem getElem_sizes (hpos : 0 < b) (hb : b < s.count) :
    ∃ hlt : b - 1 < s.sizes.length, s.sizes[b - 1] = (s.array b).length := by
  have hlt : b - 1 < s.sizes.length := by
    rw [sizes, List.length_map, List.length_range]
    omega
  refine ⟨hlt, ?_⟩
  simp only [sizes, List.getElem_map, List.getElem_range, Nat.sub_add_cancel hpos]

end Arrays

end Muk
