import Muk.Lib.ByteMemory
import Mathlib.Logic.Function.Basic

/-!
# Buffers of rows and their copies

A buffer of pixels is a run of bytes cut into rows of one length. A copy of it may be
brought up to date row by row, and only where a row is marked: the copy is then right
exactly when it was right on all the rows that are not marked.
-/

namespace Muk

/-- The bytes of a buffer, by their distance from its start. -/
abbrev Pixels := ℕ → Byte

/-- Copy `n` bytes from one buffer to another, from the first one upwards. -/
def Pixels.memcpy (dst : Pixels) (d : ℕ) (src : Pixels) (s : ℕ) : ℕ → Pixels
  | 0 => dst
  | n + 1 => Function.update (memcpy dst d src s n) (d + n) (src (s + n))

/-- Copy `n` bytes within a buffer, from the first one upwards. -/
def Pixels.memcpyWithin (buf : Pixels) (d s : ℕ) : ℕ → Pixels
  | 0 => buf
  | n + 1 => Function.update (memcpyWithin buf d s n) (d + n) (memcpyWithin buf d s n (s + n))

/-- What a copy between buffers leaves at each place. -/
theorem Pixels.memcpy_apply (dst : Pixels) (d : ℕ) (src : Pixels) (s n i : ℕ) :
    dst.memcpy d src s n i = if d ≤ i ∧ i < d + n then src (s + (i - d)) else dst i := by
  induction n with
  | zero =>
    rw [if_neg (by omega)]
    rfl
  | succ n ih =>
    rw [memcpy, Function.update_apply, ih]
    by_cases hi : i = d + n
    · rw [if_pos hi, if_pos (by omega), hi, Nat.add_sub_cancel_left]
    · simp only [hi, if_false, show d ≤ i ∧ i < d + (n + 1) ↔ d ≤ i ∧ i < d + n by omega]

/-- A copy downwards within a buffer finds every byte as it was before the copy. -/
theorem Pixels.memcpyWithin_apply (buf : Pixels) {d s : ℕ} (h : d ≤ s) (n i : ℕ) :
    buf.memcpyWithin d s n i = if d ≤ i ∧ i < d + n then buf (s + (i - d)) else buf i := by
  induction n generalizing i with
  | zero =>
    rw [if_neg (by omega)]
    rfl
  | succ n ih =>
    rw [memcpyWithin, Function.update_apply, ih, ih]
    by_cases hi : i = d + n
    · -- the byte copied last lies above all that were written before it
      rw [if_pos hi, if_neg (by omega), if_pos (by omega), hi, Nat.add_sub_cancel_left]
    · simp only [hi, if_false, show d ≤ i ∧ i < d + (n + 1) ↔ d ≤ i ∧ i < d + n by omega]

section Row

variable {pitch : ℕ} {buf buf' src : Pixels} {y y' loc : ℕ} {b : Byte}

/-- The bytes of row `y`. -/
def row (pitch : ℕ) (buf : Pixels) (y : ℕ) : List Byte :=
  (List.range pitch).map fun i => buf (y * pitch + i)

/-- Two rows are equal if they have the same bytes in each place. -/
theorem row_eq_iff : row pitch buf y = row pitch buf' y' ↔
    ∀ i < pitch, buf (y * pitch + i) = buf' (y' * pitch + i) := by
  simp [row]

/-- A byte belongs to one row only. -/
theorem row_update_of_ne (h : loc / pitch ≠ y) :
    row pitch (Function.update buf loc b) y = row pitch buf y := by
  rw [row_eq_iff]
  intro i hi
  apply Function.update_of_ne
  rintro rfl
  apply h
  rw [Nat.mul_comm, Nat.mul_add_div (by omega), Nat.div_eq_of_lt hi, Nat.add_zero]

/-- The end of a row is not after the start of a later one. -/
theorem row_end_le (pitch : ℕ) {y y' : ℕ} (h : y < y') : y * pitch + pitch ≤ y' * pitch := by
  rw [← Nat.succ_mul]
  exact Nat.mul_le_mul_right pitch h

/-- The bytes of the first rows, one after the other. -/
theorem forall_rows_iff {p : ℕ → Prop} {height : ℕ} :
    (∀ y < height, ∀ i < pitch, p (y * pitch + i)) ↔ ∀ loc < height * pitch, p loc := by
  constructor
  · intro h loc hloc
    have hpitch : 0 < pitch := Nat.pos_of_mul_pos_left (Nat.zero_lt_of_lt hloc)
    have := h (loc / pitch) (Nat.div_lt_of_lt_mul (by rwa [Nat.mul_comm])) (loc % pitch)
      (Nat.mod_lt loc hpitch)
    rwa [Nat.mul_comm, Nat.div_add_mod] at this
  · intro h y hy i hi
    have hend := row_end_le pitch hy
    exact h _ (by omega)

/-- A copy of bytes to the start moves the first rows up by `n` exactly when the bytes that it
does not reach are as they are to be. -/
theorem rows_memcpyWithin_iff {n size height : ℕ} :
    (∀ y < height, row pitch (buf.memcpyWithin 0 (n * pitch) size) y = row pitch buf (y + n)) ↔
      ∀ loc < height * pitch, size ≤ loc → buf loc = buf (n * pitch + loc) := by
  rw [← forall_rows_iff]
  simp only [row_eq_iff, Pixels.memcpyWithin_apply _ (Nat.zero_le _), Nat.zero_le, true_and,
    Nat.zero_add, Nat.sub_zero, Nat.add_mul, Nat.add_comm _ (n * pitch), Nat.add_assoc]
  refine forall_congr' fun y => forall_congr' fun _ => forall_congr' fun i =>
    forall_congr' fun _ => ?_
  split
  · exact ⟨fun _ hsize => absurd hsize (by omega), fun _ => rfl⟩
  · exact ⟨fun h _ => h, fun h => h (by omega)⟩

section Cell

variable {size width x x' : ℕ}

/-- Cells of one size, side by side in the rows: a later cell starts after the end of an earlier
one. -/
theorem cell_end_le (hwidth : width * size ≤ pitch) (hx : x < width)
    (h : y < y' ∨ y = y' ∧ x < x') : x * size + y * pitch + size ≤ x' * size + y' * pitch := by
  rcases h with hrow | ⟨rfl, hcolumn⟩
  · have hcell := row_end_le size hx
    have hend := row_end_le pitch hrow
    omega
  · have hcell := row_end_le size hcolumn
    omega

/-- Two different cells of a grid do not overlap in memory, where a row has room for its cells. -/
theorem cell_apart (hwidth : width * size ≤ pitch) (hx : x < width) (hx' : x' < width)
    (h : (x, y) ≠ (x', y')) :
    x * size + y * pitch + size ≤ x' * size + y' * pitch ∨
      x' * size + y' * pitch + size ≤ x * size + y * pitch := by
  rcases Nat.lt_trichotomy y y' with hy | hy | hy
  · exact Or.inl (cell_end_le hwidth hx (Or.inl hy))
  · rcases Nat.lt_or_gt_of_ne fun hxx => h (Prod.ext hxx hy) with hxx | hxx
    · exact Or.inl (cell_end_le hwidth hx (Or.inr ⟨hy, hxx⟩))
    · exact Or.inr (cell_end_le hwidth hx' (Or.inr ⟨hy.symm, hxx⟩))
  · exact Or.inr (cell_end_le hwidth hx' (Or.inl hy))

/-- A cell ends within the buffer. -/
theorem cell_end_le_buffer {height : ℕ} (hwidth : width * size ≤ pitch) (hx : x < width)
    (hy : y < height) : x * size + y * pitch + size ≤ height * pitch := by
  have hend : x * size + y * pitch + size ≤ 0 * size + height * pitch :=
    cell_end_le hwidth hx (Or.inl hy)
  rwa [Nat.zero_mul, Nat.zero_add] at hend

end Cell

/-- Copying one row replaces that row by the one of the source and leaves all other rows as they
are. -/
theorem row_memcpy_row : row pitch (buf.memcpy (y * pitch) src (y * pitch) pitch) y' =
    if y' = y then row pitch src y' else row pitch buf y' := by
  by_cases h : y' = y
  · subst h
    rw [if_pos rfl, row_eq_iff]
    intro i hi
    rw [Pixels.memcpy_apply, if_pos (by omega), Nat.add_sub_cancel_left]
  · rw [if_neg h, row_eq_iff]
    intro i hi
    rw [Pixels.memcpy_apply, if_neg]
    rcases Nat.lt_or_gt_of_ne h with hlt | hlt
    · have := row_end_le pitch hlt
      omega
    · have := row_end_le pitch hlt
      omega

/-- Copying all bytes of the first rows. -/
theorem row_memcpy_all {height : ℕ} (h : y < height) :
    row pitch (buf.memcpy 0 src 0 (pitch * height)) y = row pitch src y := by
  rw [row_eq_iff]
  intro i hi
  have hend := row_end_le pitch h
  rw [Pixels.memcpy_apply, Nat.mul_comm pitch, if_pos (by omega), Nat.zero_add, Nat.sub_zero]

/-- The loop over the first `n` rows that copies the chosen ones. -/
def copyRows (pitch : ℕ) (dst src : Pixels) (chosen : ℕ → Bool) : ℕ → Pixels
  | 0 => dst
  | n + 1 =>
    let dst := copyRows pitch dst src chosen n
    if chosen n then dst.memcpy (n * pitch) src (n * pitch) pitch else dst

/-- A row is copied if it is a chosen one, and stays as it is otherwise. -/
theorem row_copyRows {chosen : ℕ → Bool} {n : ℕ} : row pitch (copyRows pitch buf src chosen n) y =
    if y < n ∧ chosen y then row pitch src y else row pitch buf y := by
  induction n with
  | zero =>
    rw [if_neg (by omega)]
    rfl
  | succ n ih =>
    unfold copyRows
    by_cases hn : chosen n
    · simp only [hn, if_true, row_memcpy_row, ih]
      by_cases hy : y = n
      · simp [hy, hn]
      · simp only [hy, if_false, show y < n + 1 ↔ y < n by omega]
    · simp only [if_neg hn, ih]
      by_cases hy : y = n
      · simp [hy, hn]
      · simp only [show y < n + 1 ↔ y < n by omega]

end Row

section InSync

variable {κ β : Type*} {source source' copy : κ → β} {marked marked' : κ → Prop}

/-- A copy is right wherever it is not marked to be brought up to date. -/
def InSync (source copy : κ → β) (marked : κ → Prop) : Prop :=
  ∀ k, ¬ marked k → copy k = source k

/-- A copy after the marked places are brought up to date. -/
def refresh (source copy : κ → β) (marked : κ → Prop) [DecidablePred marked] : κ → β :=
  fun k => if marked k then source k else copy k

/-- Bringing the marked places up to date gives a right copy exactly when the others were
right. -/
theorem refresh_eq_iff [DecidablePred marked] :
    refresh source copy marked = source ↔ InSync source copy marked := by
  constructor
  · intro h k hk
    have := congrFun h k
    rwa [refresh, if_neg hk] at this
  · intro h
    funext k
    unfold refresh
    split
    · rfl
    · exact h k ‹_›

/-- A copy of the source is in sync with it, whatever is marked. -/
theorem inSync_of_eq (h : copy = source) : InSync source copy marked := fun k _ => congrFun h k

/-- A change of the source is safe if the places that it changes are marked afterwards. -/
theorem InSync.write (h : InSync source copy marked) (hmarked : ∀ k, marked k → marked' k)
    (hsource : ∀ k, ¬ marked' k → source' k = source k) : InSync source' copy marked' := by
  intro k hk
  rw [hsource k hk]
  exact h k fun hm => hk (hmarked k hm)

end InSync

end Muk
