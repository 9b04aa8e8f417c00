import Muk.Lib.Arrays
import Muk.Lib.ByteMemory

/-!
# std::vector

A vector has a capacity, a size and a pointer to a buffer. It is one object among several, whose
buffers are arrays in one memory: growth, copies and assignments take a new array and leave the
old one behind.
-/

namespace Muk

/-- The fields of `std::vector<T>`. -/
structure StdVector where
  capacity : Word
  size : Word
  buffer : ℕ

namespace StdVector

variable {α : Type}

/-- `vector()` -/
def construct : StdVector := { capacity := 0, size := 0, buffer := 0 }

/-- `_capacity*1.5+1`: the product is exact as a `double`, and the conversion to `size_t` drops
its fraction. A result that is no `size_t` is an overflow. -/
def grow (capacity : Word) : Except ArrayFault Word :=
  if capacity.toNat * 3 / 2 + 1 < 2 ^ 32 then .ok (BitVec.ofNat 32 (capacity.toNat * 3 / 2 + 1))
  else .error .overflow

/-- `reserve` -/
def reserve (s : Arrays α) (v : StdVector) (capacity : Word) :
    Except ArrayFault (Arrays α × StdVector) := do
  let (bufferNew, s) := s.alloc capacity.toNat
  let s ← s.copy v.buffer bufferNew v.size.toNat
  .ok (s, { v with capacity := capacity, buffer := bufferNew })

/-- `push_back` -/
def pushBack (s : Arrays α) (v : StdVector) (value : α) :
    Except ArrayFault (Arrays α × StdVector) := do
  let (s, v) ← if v.capacity ≤ v.size then grow v.capacity >>= reserve s v else .ok (s, v)
  let s ← s.write v.buffer v.size.toNat value
  .ok (s, { v with size := v.size + 1#32 })

/-- `pop_back` -/
def popBack (s : Arrays α) (v : StdVector) : Except ArrayFault (Arrays α × StdVector) := do
  let s ← s.destroy v.buffer (v.size - 1#32).toNat
  .ok (s, { v with size := v.size - 1#32 })

/-- `clear` -/
def clear (_ : StdVector) : StdVector := { capacity := 0, size := 0, buffer := 0 }

/-- `vector(const vector&)` -/
def copyConstruct (s : Arrays α) (vec : StdVector) : Except ArrayFault (Arrays α × StdVector) := do
  let (buffer, s) := s.alloc vec.capacity.toNat
  let s ← s.copy vec.buffer buffer vec.size.toNat
  .ok (s, { capacity := vec.capacity, size := vec.size, buffer := buffer })

/-- `operator=` -/
def assign (s : Arrays α) (self v : StdVector) : Except ArrayFault (Arrays α × StdVector) := do
  let s := s.destroyAll self.buffer
  let (buffer, s) := s.alloc v.capacity.toNat
  let s ← s.copy v.buffer buffer v.size.toNat
  .ok (s, { capacity := v.capacity, size := v.size, buffer := buffer })

/-- `operator[]` -/
def get (s : Arrays α) (v : StdVector) (index : ℕ) : Except ArrayFault α := s.read v.buffer index

/-! ## One vector -/

/-- The vector has the elements of a list, in a buffer of as many cells as its capacity. -/
structure Represents (s : Arrays α) (v : StdVector) (xs : List α) : Prop where
  size : v.size.toNat = xs.length
  le : xs.length ≤ v.capacity.toNat
  cells : (s.array v.buffer).length = v.capacity.toNat
  holds : s.Holds v.buffer xs
  live : v.buffer < s.count

/-- What an operation on a vector keeps: the arrays of the other vectors, and the null pointer. -/
structure Keeps (s : Arrays α) (v : StdVector) (s' : Arrays α) (v' : StdVector) : Prop where
  count : s.count ≤ s'.count
  array : ∀ b < s.count, b ≠ v.buffer ∨ b = 0 → s'.array b = s.array b
  buffer : v'.buffer = v.buffer ∨ v'.buffer = 0 ∨ s.count ≤ v'.buffer

variable {s : Arrays α} {v w : StdVector} {xs ys : List α}

/-- The vector is as before where its array is. -/
theorem Represents.congr {s' : Arrays α} (h : v.Represents s xs) (hcount : s.count ≤ s'.count)
    (harray : s'.array v.buffer = s.array v.buffer) : v.Represents s' xs :=
  ⟨h.size, h.le, by rw [harray, h.cells], h.holds.congr harray, Nat.lt_of_lt_of_le h.live hcount⟩

/-- Copying a vector into a new buffer, after which some arrays may have been destroyed. -/
theorem copy_spec {capacity : Word} (h : v.Represents s xs) (hle : xs.length ≤ capacity.toNat) :
    ∃ t, (s.alloc capacity.toNat).2.copy v.buffer s.count v.size.toNat = .ok t ∧
      Represents t { capacity := capacity, size := v.size, buffer := s.count } xs ∧
      t.count = s.count + 1 ∧ ∀ b < s.count, t.array b = s.array b := by
  have hnew : (s.alloc capacity.toNat).2.array s.count = List.replicate capacity.toNat none :=
    Function.update_self ..
  have hold (b : ℕ) (hb : b < s.count) : (s.alloc capacity.toNat).2.array b = s.array b :=
    Function.update_of_ne (Nat.ne_of_lt hb) ..
  obtain ⟨t, hrun, hcount, hheld, hlength, hother⟩ :=
    (h.holds.congr (hold _ h.live)).copy (Nat.ne_of_lt h.live)
      (by rw [hnew, List.length_replicate]; exact hle)
  rw [hnew, List.length_replicate] at hlength
  refine ⟨t, by rw [h.size]; exact hrun, ⟨h.size, hle, hlength, hheld, ?_⟩, hcount, fun b hb => ?_⟩
  · change s.count < t.count
    rw [hcount]
    exact Nat.lt_succ_self _
  · rw [hother b (Nat.ne_of_lt hb), hold b hb]

/-- Writing the next element into a buffer with room. -/
theorem Represents.write (h : v.Represents s xs) (hroom : xs.length < v.capacity.toNat) (a : α) :
    ∃ t, s.write v.buffer v.size.toNat a = .ok t ∧
      Represents t { v with size := v.size + 1#32 } (xs ++ [a]) ∧
      t.count = s.count ∧ ∀ b ≠ v.buffer, t.array b = s.array b := by
  have hcapacity := v.capacity.isLt
  obtain ⟨t, hrun, hcount, hheld, hlength, hother⟩ := h.holds.write (by rw [h.cells]; exact hroom) a
  refine ⟨t, by rw [h.size]; exact hrun, ⟨?_, ?_, ?_, hheld, ?_⟩, hcount, hother⟩
  · simp only [BitVec.toNat_add, h.size, BitVec.toNat_ofNat, List.length_append,
      List.length_singleton]
    omega
  · rw [List.length_append, List.length_singleton]
    exact hroom
  · rw [hlength, h.cells]
  · exact hcount ▸ h.live

/-- The vectors of an operation: its result has the elements, and the others keep theirs. -/
def Updates (s : Arrays α) (v : StdVector) (xs : List α) (r : Arrays α × StdVector) : Prop :=
  r.2.Represents r.1 xs ∧ Keeps s v r.1 r.2

/-- A vector with a buffer of some cells is not at the null pointer. -/
theorem Represents.buffer_ne_zero (h : v.Represents s xs) (hnull : s.array 0 = [])
    (hpos : 0 < v.capacity.toNat) : v.buffer ≠ 0 := by
  intro hzero
  have hcells := h.cells
  rw [hzero, hnull, List.length_nil] at hcells
  omega

/-- Assigning to an element changes that element of the vector and no other array. -/
theorem Represents.set (h : v.Represents s xs) {i : ℕ} (hi : i < xs.length) (a : α) :
    ∃ t, s.write v.buffer i a = .ok t ∧ v.Represents t (xs.set i a) ∧ t.count = s.count ∧
      ∀ b ≠ v.buffer, t.array b = s.array b := by
  have hcell : i < (s.array v.buffer).length := Nat.lt_of_lt_of_le hi (h.cells ▸ h.le)
  obtain ⟨t, hrun, hcount, harray, hother⟩ := Arrays.put_spec (some a) hcell
  refine ⟨t, hrun, ⟨?_, ?_, ?_, ⟨?_, fun k hk => ?_⟩, hcount ▸ h.live⟩, hcount, hother⟩
  · rw [List.length_set]
    exact h.size
  · rw [List.length_set]
    exact h.le
  · rw [harray, List.length_set, h.cells]
  · rw [harray, List.length_set, List.length_set, h.cells]
    exact h.le
  · rw [List.length_set] at hk
    rw [harray, List.getElem_set]
    split_ifs with hik
    · rw [← hik, List.getElem?_set_self hcell]
    · rw [List.getElem?_set_ne hik]
      exact h.holds.2 k hk

/-- There is no capacity to grow to when there are too many elements only. -/
theorem pushBack_spec (h : v.Represents s xs) (hnull : s.array 0 = []) (a : α) :
    Outcome (fun e => e = .overflow ∧ 2 ^ 32 ≤ xs.length * 3 / 2 + 1) (Updates s v (xs ++ [a]))
      (pushBack s v a) := by
  have hsize := h.size
  have hle := h.le
  by_cases hfull : v.capacity ≤ v.size
  · have hfull' : v.capacity.toNat ≤ v.size.toNat := hfull
    rw [pushBack, if_pos hfull, grow]
    split_ifs with hfit
    · let capacity := BitVec.ofNat 32 (v.capacity.toNat * 3 / 2 + 1)
      have hcapacity : capacity.toNat = v.capacity.toNat * 3 / 2 + 1 := by
        rw [BitVec.toNat_ofNat, Nat.mod_eq_of_lt hfit]
      obtain ⟨t, hcopy, hrep, hcount, hsame⟩ :=
        copy_spec h (show xs.length ≤ capacity.toNat by omega)
      obtain ⟨t', hwrite, hrep', hcount', hsame'⟩ := hrep.write
        (show xs.length < capacity.toNat by omega) a
      refine .of_eq_ok (a := (t', _)) ?_
        ⟨hrep', ?_, fun b hb _ => ?_, Or.inr (Or.inr (Nat.le_refl _))⟩
      · have hreserve : reserve s v capacity =
            .ok (t, { capacity := capacity, size := v.size, buffer := s.count }) :=
          bind_eq_ok.mpr ⟨t, hcopy, rfl⟩
        exact bind_eq_ok.mpr ⟨_, hreserve, bind_eq_ok.mpr ⟨t', hwrite, rfl⟩⟩
      · change s.count ≤ t'.count
        omega
      · rw [hsame' b (Nat.ne_of_lt hb), hsame b hb]
    · exact ⟨rfl, by omega⟩
  · have hroom : xs.length < v.capacity.toNat := by
      have hlt : ¬ v.capacity.toNat ≤ v.size.toNat := hfull
      omega
    have hne := h.buffer_ne_zero hnull (by omega)
    obtain ⟨t, hwrite, hrep, hcount, hsame⟩ := h.write hroom a
    refine .of_eq_ok (a := (t, _)) ?_
      ⟨hrep, Nat.le_of_eq hcount.symm, fun b _ hb => hsame b ?_, Or.inl rfl⟩
    · rw [pushBack, if_neg hfull]
      exact bind_eq_ok.mpr ⟨(s, v), rfl, bind_eq_ok.mpr ⟨t, hwrite, rfl⟩⟩
    · rcases hb with hb | rfl
      · exact hb
      · exact hne.symm

/-- `pop_back` takes the last element off. -/
theorem popBack_spec (h : v.Represents s xs) (hnull : s.array 0 = []) (hne : xs ≠ []) :
    ∃ r, popBack s v = .ok r ∧ Updates s v xs.dropLast r := by
  have hsize := h.size
  have hle := h.le
  have hpos := List.length_pos_iff.mpr hne
  have hlast : (v.size - 1#32).toNat = xs.length - 1 := by
    rw [BitVec.toNat_sub, BitVec.toNat_ofNat]
    have := v.size.isLt
    omega
  have hbuffer := h.buffer_ne_zero hnull (by omega)
  obtain ⟨t, hrun, hcount, harray, hother⟩ := Arrays.put_spec (s := s) (b := v.buffer)
    (k := (v.size - 1#32).toNat) none (by rw [h.cells, hlast]; omega)
  refine ⟨(t, { v with size := v.size - 1#32 }), ?_,
    ⟨?_, ?_, ?_, ⟨?_, fun k hk => ?_⟩, hcount ▸ h.live⟩,
    Nat.le_of_eq hcount.symm, fun b _ hb => hother b ?_, Or.inl rfl⟩
  · exact bind_eq_ok.mpr ⟨t, hrun, rfl⟩
  · rw [List.length_dropLast]
    exact hlast
  · rw [List.length_dropLast]
    exact Nat.le_trans (Nat.sub_le _ _) hle
  · rw [harray, List.length_set, h.cells]
  · rw [harray, List.length_set, List.length_dropLast, h.cells]
    omega
  · rw [List.length_dropLast] at hk
    rw [harray, List.getElem?_set_ne (by omega), List.getElem_dropLast]
    exact h.holds.2 k (by omega)
  · rcases hb with hb | rfl
    · exact hb
    · exact hbuffer.symm

/-- `clear` leaves a vector without elements and touches no other array. -/
theorem clear_spec (hnull : s.array 0 = []) (hcount : 0 < s.count) (v : StdVector) :
    Updates s v [] (s, v.clear) := by
  refine ⟨⟨rfl, Nat.zero_le _, ?_, Arrays.holds_nil s 0, hcount⟩, Nat.le_refl _, fun _ _ _ => rfl,
    Or.inr (Or.inl rfl)⟩
  change (s.array 0).length = 0
  rw [hnull]
  rfl

/-- A copy has the same elements, in an array of its own. -/
theorem copyConstruct_spec (h : v.Represents s xs) :
    ∃ t, copyConstruct s v = .ok (t, { v with buffer := s.count }) ∧
      Represents t { v with buffer := s.count } xs ∧
      t.count = s.count + 1 ∧ ∀ b < s.count, t.array b = s.array b := by
  obtain ⟨t, hcopy, hrep, hcount, hsame⟩ := copy_spec h h.le
  exact ⟨t, bind_eq_ok.mpr ⟨t, hcopy, rfl⟩, hrep, hcount, hsame⟩

/-- An assignment copies the elements of the other vector. -/
theorem assign_spec (hnull : s.array 0 = []) (h : w.Represents s ys)
    (hne : v.buffer ≠ w.buffer ∨ v.buffer = 0) :
    ∃ r, assign s v w = .ok r ∧ Updates s v ys r := by
  have hdestroyed (b : ℕ) (hb : b ≠ v.buffer ∨ b = 0) :
      (s.destroyAll v.buffer).array b = s.array b := by
    by_cases heq : b = v.buffer
    · have hzero : b = 0 := hb.resolve_left fun h => h heq
      have hself : (s.destroyAll v.buffer).array v.buffer =
          List.replicate (s.array v.buffer).length none := Function.update_self ..
      rw [heq, hself, ← heq, hzero, hnull]
      rfl
    · exact Function.update_of_ne heq ..
  have hkept : (s.destroyAll v.buffer).array w.buffer = s.array w.buffer := by
    apply hdestroyed
    by_cases heq : w.buffer = v.buffer
    · exact Or.inr (heq.trans (hne.resolve_left fun h => h heq.symm))
    · exact Or.inl heq
  have hrepr : w.Represents (s.destroyAll v.buffer) ys := h.congr (Nat.le_refl _) hkept
  obtain ⟨t, hcopy, hrep, hcount, hsame⟩ := copy_spec hrepr h.le
  refine ⟨(t, { w with buffer := s.count }), ?_, hrep, ?_, fun b hb hother => ?_,
    Or.inr (Or.inr (Nat.le_refl _))⟩
  · exact bind_eq_ok.mpr ⟨t, hcopy, rfl⟩
  · change s.count ≤ t.count
    rw [hcount]
    exact Nat.le_succ _
  · rw [hsame b hb, hdestroyed b hother]

end StdVector

end Muk
