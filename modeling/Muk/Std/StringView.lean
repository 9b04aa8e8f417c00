import Mathlib.Data.List.TakeWhile
import Muk.Lib.Arrays
import Muk.Std.String

/-!
# Searches in a string

`compare`, `find` and `find_last_of` look at a string through `size()` and `data(index)` only, so
that they are functions of these two. A comparison is cut to the shorter one of its two operands,
and one that is cut at the end of the string is not told from one of the whole pattern.
-/

namespace Muk

universe u

/-- `size()` and `data(index)` of a string. -/
structure StringView (ε : Type u) where
  size : Word
  data : Word → Except ε Byte

variable {ε : Type}

/-- The string whose characters are given, and nothing around them. -/
def StringView.ofChars (chars : List Byte) : StringView ArrayFault where
  size := BitVec.ofNat 32 chars.length
  data index :=
    match chars[index.toNat]? with
    | none => .error .outOfBounds
    | some b => .ok b

/-- A string in memory. -/
def StdString.view {σ : Type} (M : PagedMemory σ Fault) (s : σ) (str : StdString) :
    StringView Fault where
  size := str.length
  data index := M.load8 s (str.buff + index)

namespace StringView

/-- Two characters, which are compared as `signed char`s. -/
def compareChars (a b : Byte) : Option ℤ :=
  if b.toInt < a.toInt then some 1 else if a.toInt < b.toInt then some (-1) else none

/-- The loop of `compare`: the first difference decides. -/
def compareLoop (v str : StringView ε) (pos1 : Word) (n : ℕ) : Except ε (Option ℤ) :=
  findLoop (fun p => do
    let a ← v.data (BitVec.ofNat 32 p + pos1)
    let b ← str.data (BitVec.ofNat 32 p)
    .ok (compareChars a b)) 0 n

/-- `compare` -/
def compare (v : StringView ε) (pos1 count1 : Word) (str : StringView ε) : Except ε ℤ := do
  let count1 := if v.size < pos1 + count1 ∨ count1 = StdString.npos then v.size - pos1 else count1
  match ← compareLoop v str pos1 (min count1.toNat str.size.toNat) with
  | some result => .ok result
  | none => .ok 0

/-- A pass of the loops of `find` and `find_last_of`. -/
def findAt (v : StringView ε) (count1 : Word) (str : StringView ε) (i : ℕ) :
    Except ε (Option Word) := do
  let c ← v.compare (BitVec.ofNat 32 i) count1 str
  .ok (if c = 0 then some (BitVec.ofNat 32 i) else none)

/-- `find` -/
def find (v str : StringView ε) (pos : Word) : Except ε Word := do
  match ← findLoop (v.findAt StdString.npos str) pos.toNat (v.size.toNat - pos.toNat) with
  | some i => .ok i
  | none => .ok StdString.npos

/-- `find_last_of`, whose loop does not come to the first character. -/
def findLastOf (v str : StringView ε) (pos : Word) : Except ε Word := do
  let pos := if pos = StdString.npos then v.size else pos
  match ← findDown (v.findAt str.size str) (pos - 1#32).toNat with
  | some i => .ok i
  | none => .ok StdString.npos

/-- The characters of `substr`: those up to the first NUL, which ends the string `dest`. -/
def substr (v : StringView ε) (pos count : Word) : Except ε (List Byte) := do
  let count := if v.size < pos + count ∨ count = StdString.npos then v.size - pos else count
  let dest ← forLoop (fun p dest => do
    let b ← v.data (pos + BitVec.ofNat 32 p)
    .ok (dest ++ [b])) 0 count.toNat []
  .ok (dest.takeWhile (· ≠ 0))

/-- The characters of a string. -/
structure Shows (v : StringView ε) (chars : List Byte) : Prop where
  size : v.size.toNat = chars.length
  data : ∀ i (hi : i < chars.length), v.data (BitVec.ofNat 32 i) = .ok chars[i]

variable {v str : StringView ε} {s t : List Byte} {pos1 count1 pos : Word} {i n : ℕ}

/-- The view of some characters shows them. -/
theorem ofChars_shows {chars : List Byte} (hlength : chars.length < 2 ^ 32) :
    (ofChars chars).Shows chars := by
  refine ⟨toNat_ofNat_of_lt hlength, fun i hi => ?_⟩
  simp only [ofChars, toNat_ofNat_of_lt (Nat.lt_trans hi hlength), List.getElem?_eq_getElem hi]

/-- A string has fewer characters than there are addresses. -/
theorem Shows.length_lt (h : v.Shows s) : s.length < 2 ^ 32 := h.size ▸ v.size.isLt

/-- A character of the string is found at its place from a position on. -/
theorem Shows.data_add (h : v.Shows s) {p : ℕ} (hp : i + p < s.length) :
    v.data (BitVec.ofNat 32 p + BitVec.ofNat 32 i) = .ok s[i + p] := by
  rw [BitVec.add_comm, ← BitVec.ofNat_add]
  exact h.data (i + p) hp

/-- The number of characters from a place on. -/
theorem Shows.toNat_size_sub (h : v.Shows s) (hi : i ≤ s.length) :
    (v.size - BitVec.ofNat 32 i).toNat = s.length - i := by
  have hnat : (BitVec.ofNat 32 i).toNat = i := toNat_ofNat_of_lt (Nat.lt_of_le_of_lt hi h.length_lt)
  rw [BitVec.toNat_sub_of_le, h.size, hnat]
  rwa [BitVec.le_def, h.size, hnat]

/-- The comparison goes on exactly if the two characters are equal. -/
theorem compareChars_eq_none {a b : Byte} : compareChars a b = none ↔ a = b := by
  rw [← BitVec.toInt_inj, compareChars]
  split_ifs <;> simp <;> omega

/-- A comparison that ends says which character is less. -/
theorem compareChars_ne_zero (a b : Byte) : compareChars a b ≠ some 0 := by
  rw [compareChars]
  split_ifs <;> simp

/-- Two strings start with the same characters exactly if they agree at each of these places. -/
theorem take_eq_take_iff {l l' : List Byte} (hl : n ≤ l.length) (hl' : n ≤ l'.length) :
    l.take n = l'.take n ↔ ∀ p < n, l.getD p 0 = l'.getD p 0 := by
  constructor
  · intro h p hp
    have hp' := congrArg (·[p]?) h
    simp only [List.getElem?_take_of_lt hp] at hp'
    rw [List.getD_eq_getElem?_getD, List.getD_eq_getElem?_getD, hp']
  · intro h
    apply List.ext_getElem (by simp only [List.length_take]; omega)
    intro p hp hp'
    rw [List.length_take] at hp hp'
    have heq := h p (by omega)
    rw [List.getD_eq_getElem _ _ (by omega), List.getD_eq_getElem _ _ (by omega)] at heq
    rw [List.getElem_take, List.getElem_take, heq]

/-- The loop of `compare` finds a difference unless there is none. -/
theorem compareLoop_spec (hv : v.Shows s) (hstr : str.Shows t) (hs : i + n ≤ s.length)
    (ht : n ≤ t.length) : ∃ r, compareLoop v str (BitVec.ofNat 32 i) n = .ok r ∧
      (r = none ↔ (s.drop i).take n = t.take n) ∧ r ≠ some 0 := by
  let diff (p : ℕ) : Option ℤ := compareChars ((s.drop i).getD p 0) (t.getD p 0)
  have hpass : ∀ p < n, (do
      let a ← v.data (BitVec.ofNat 32 (0 + p) + BitVec.ofNat 32 i)
      let b ← str.data (BitVec.ofNat 32 (0 + p))
      .ok (compareChars a b)) = (.ok (diff (0 + p)) : Except ε (Option ℤ)) := by
    intro p hp
    have hdrop : (s.drop i).getD p 0 = s[i + p] := by
      rw [List.getD_eq_getElem _ _ (by rw [List.length_drop]; omega), List.getElem_drop]
    have hget : t.getD p 0 = t[p] := List.getD_eq_getElem _ _ (by omega)
    rw [Nat.zero_add, hv.data_add (by omega), hstr.data p (by omega)]
    simp only [diff, hdrop, hget]
    rfl
  refine ⟨_, findLoop_eq hpass, ?_, ?_⟩
  · rw [searchLoop_eq_none, take_eq_take_iff (by rw [List.length_drop]; omega) ht]
    simp only [diff, compareChars_eq_none, Nat.zero_add]
  · intro hzero
    obtain ⟨p, -, hp, -⟩ := searchLoop_eq_some hzero
    exact compareChars_ne_zero _ _ hp

/-- `compare` from a place in the string, cut at its end or not, tells whether the characters are
the same up to the end of the shorter operand. -/
theorem compare_spec (hv : v.Shows s) (hstr : str.Shows t)
    (hcount : (if v.size < BitVec.ofNat 32 i + count1 ∨ count1 = StdString.npos
      then v.size - BitVec.ofNat 32 i else count1).toNat = n) (hs : i + min n t.length ≤ s.length) :
    ∃ c, v.compare (BitVec.ofNat 32 i) count1 str = .ok c ∧
      (c = 0 ↔ (s.drop i).take (min n t.length) = t.take (min n t.length)) := by
  obtain ⟨r, hrun, hnone, hzero⟩ := compareLoop_spec hv hstr hs (Nat.min_le_right _ _)
  simp only [compare, hcount, hstr.size, hrun, ok_bind]
  cases r with
  | none => exact ⟨0, rfl, iff_of_true rfl (hnone.mp rfl)⟩
  | some c =>
    refine ⟨c, rfl, iff_of_false (fun h => hzero (by rw [h])) fun h => ?_⟩
    exact absurd (hnone.mpr h) (by simp)

/-! ## find -/

/-- The pattern occurs at a place in the string. -/
def Occurs (s t : List Byte) (i : ℕ) : Prop :=
  i + t.length ≤ s.length ∧ (s.drop i).take t.length = t

/-- The string ends at the place within an occurrence of the pattern. -/
def EndsIn (s t : List Byte) (i : ℕ) : Prop := i < s.length ∧ s.drop i <+: t

instance (s t : List Byte) (i : ℕ) : Decidable (Occurs s t i) := inferInstanceAs (Decidable (_ ∧ _))

instance (s t : List Byte) (i : ℕ) : Decidable (EndsIn s t i) := inferInstanceAs (Decidable (_ ∧ _))

/-- What `find` takes for an occurrence. -/
def foundAt (s t : List Byte) (i : ℕ) : Option Word :=
  if Occurs s t i ∨ EndsIn s t i then some (BitVec.ofNat 32 i) else none

/-- Nothing is found at a position exactly if the other string neither occurs there nor is cut off
there. -/
theorem foundAt_eq_none : foundAt s t i = none ↔ ¬ Occurs s t i ∧ ¬ EndsIn s t i := by
  rw [foundAt, ite_eq_right_iff, ← not_or]
  simp

/-- A position that is found has the other string, or a first part of it at the end. -/
theorem foundAt_eq_some {r : Word} (h : foundAt s t i = some r) :
    (Occurs s t i ∨ EndsIn s t i) ∧ r = BitVec.ofNat 32 i := by
  rw [foundAt] at h
  split_ifs at h with hfound
  exact ⟨hfound, (Option.some.inj h).symm⟩

/-- A comparison up to the end of the shorter operand does not tell an occurrence from the end of
the string within one. -/
theorem take_min_eq_iff (hi : i < s.length) :
    (s.drop i).take (min (s.length - i) t.length) = t.take (min (s.length - i) t.length) ↔
      Occurs s t i ∨ EndsIn s t i := by
  have hlength : (s.drop i).length = s.length - i := List.length_drop
  by_cases hfit : t.length ≤ s.length - i
  · rw [Nat.min_eq_right hfit, List.take_length]
    constructor
    · exact fun h => Or.inl ⟨by omega, h⟩
    · rintro (h | ⟨-, h⟩)
      · exact h.2
      · rw [h.eq_of_length_le (by omega), List.take_length]
  · rw [Nat.min_eq_left (by omega), List.take_of_length_le (Nat.le_of_eq hlength)]
    constructor
    · intro h
      refine Or.inr ⟨hi, ?_⟩
      rw [h]
      exact List.take_prefix _ _
    · rintro (h | ⟨-, h⟩)
      · exact absurd h.1 (by omega)
      · rw [← hlength]
        exact List.prefix_iff_eq_take.mp h

/-- A pass of the loops, whose comparison is of the whole pattern or cut at the end of the
string. -/
theorem findAt_spec (hv : v.Shows s) (hstr : str.Shows t) (hi : i < s.length)
    (hcount : (if v.size < BitVec.ofNat 32 i + count1 ∨ count1 = StdString.npos
      then v.size - BitVec.ofNat 32 i else count1).toNat = n)
    (hn : min n t.length = min (s.length - i) t.length) :
    v.findAt count1 str i = .ok (foundAt s t i) := by
  obtain ⟨c, hrun, hc⟩ := compare_spec hv hstr hcount (by omega)
  rw [hn, take_min_eq_iff hi] at hc
  simp only [findAt, hrun, ok_bind, hc, foundAt]

/-- A pass of `find` compares the characters at one place, cut off at the end of the string. -/
theorem findAt_npos (hv : v.Shows s) (hstr : str.Shows t) (hi : i < s.length) :
    v.findAt StdString.npos str i = .ok (foundAt s t i) := by
  refine findAt_spec hv hstr hi ?_ rfl
  rw [if_pos (Or.inr rfl), hv.toNat_size_sub (Nat.le_of_lt hi)]

/-- What `find` should return: the least place from `pos` on where the pattern occurs. -/
def FirstFrom (s t : List Byte) (pos : ℕ) (r : Word) : Prop :=
  (∃ i, r = BitVec.ofNat 32 i ∧ pos ≤ i ∧ Occurs s t i ∧ ∀ j, pos ≤ j → j < i → ¬ Occurs s t j) ∨
    (r = StdString.npos ∧ ∀ i, pos ≤ i → ¬ Occurs s t i)

/-- What `find` returns. -/
theorem find_spec (hv : v.Shows s) (hstr : str.Shows t) (pos : Word) :
    ∃ r, v.find str pos = .ok r ∧
      ((∃ i, r = BitVec.ofNat 32 i ∧ pos.toNat ≤ i ∧ i < s.length ∧ (Occurs s t i ∨ EndsIn s t i) ∧
          ∀ j, pos.toNat ≤ j → j < i → ¬ Occurs s t j ∧ ¬ EndsIn s t j) ∨
        (r = StdString.npos ∧ ∀ i, pos.toNat ≤ i → i < s.length →
          ¬ Occurs s t i ∧ ¬ EndsIn s t i)) := by
  have hpass : ∀ k < v.size.toNat - pos.toNat, v.findAt StdString.npos str (pos.toNat + k) =
      .ok (foundAt s t (pos.toNat + k)) := by
    intro k hk
    rw [hv.size] at hk
    exact findAt_npos hv hstr (by omega)
  rw [find, findLoop_eq hpass, ok_bind, hv.size]
  cases hsearch : searchLoop (foundAt s t) pos.toNat (s.length - pos.toNat) with
  | none =>
    refine ⟨StdString.npos, rfl, Or.inr ⟨rfl, fun i hle hlt => ?_⟩⟩
    have hnone := searchLoop_eq_none.mp hsearch (i - pos.toNat) (by omega)
    rw [Nat.add_sub_cancel' hle] at hnone
    exact foundAt_eq_none.mp hnone
  | some r =>
    obtain ⟨k, hk, hfound, hbefore⟩ := searchLoop_eq_some hsearch
    obtain ⟨hocc, hr⟩ := foundAt_eq_some hfound
    refine ⟨r, rfl, Or.inl ⟨pos.toNat + k, hr, by omega, by omega, hocc, fun j hle hlt => ?_⟩⟩
    have hnone := hbefore (j - pos.toNat) (by omega)
    rw [Nat.add_sub_cancel' hle] at hnone
    exact foundAt_eq_none.mp hnone

/-- A place in a string is not `npos`. -/
theorem ofNat_ne_npos (hv : v.Shows s) (hi : i < s.length) :
    BitVec.ofNat 32 i ≠ StdString.npos := by
  have hlt := hv.length_lt
  intro h
  have hnat := congrArg BitVec.toNat h
  rw [toNat_ofNat_of_lt (by omega)] at hnat
  change i = 2 ^ 32 - 1 at hnat
  omega

/-- **`find` finds whole occurrences** exactly if there is one, or the string does not end within
one: the end of the string would be taken for the whole pattern. -/
theorem find_iff (hv : v.Shows s) (hstr : str.Shows t) (ht : t ≠ []) (pos : Word) :
    (∃ r, v.find str pos = .ok r ∧ FirstFrom s t pos.toNat r) ↔
      (∃ i, pos.toNat ≤ i ∧ Occurs s t i) ∨ ∀ i, pos.toNat ≤ i → ¬ EndsIn s t i := by
  have hpos := List.length_pos_of_ne_nil ht
  obtain ⟨r, hrun, hr⟩ := find_spec hv hstr pos
  have hiff : (∃ r, v.find str pos = .ok r ∧ FirstFrom s t pos.toNat r) ↔
      FirstFrom s t pos.toNat r := by
    simp only [hrun, Except.ok.injEq, exists_eq_left']
  rw [hiff]
  rcases hr with ⟨i, rfl, hle, hlt, hfound, hbefore⟩ | ⟨rfl, hnone⟩
  · constructor
    · rintro (⟨j, -, hj⟩ | ⟨hnpos, -⟩)
      · exact Or.inl ⟨j, hj.1, hj.2.1⟩
      · exact absurd hnpos (ofNat_ne_npos hv hlt)
    · intro h
      have hocc : Occurs s t i := by
        rcases hfound with hocc | hends
        · exact hocc
        · rcases h with ⟨j, hj, hocc⟩ | hnone
          · -- A later occurrence is longer than the end of the string that begins the pattern.
            have hji : ¬ j < i := fun hji => (hbefore j hj hji).1 hocc
            have hshort := hends.2.length_le
            rw [List.length_drop] at hshort
            have hlong := hocc.1
            obtain rfl : j = i := by omega
            exact hocc
          · exact absurd hends (hnone i hle)
      exact Or.inl ⟨i, rfl, hle, hocc, fun j hj hji => (hbefore j hj hji).1⟩
  · have hno : ∀ i, pos.toNat ≤ i → ¬ Occurs s t i := fun i hle hocc => by
      have hend := hocc.1
      exact (hnone i hle (by omega)).1 hocc
    exact iff_of_true (Or.inr ⟨rfl, hno⟩) (Or.inr fun i hle hends => (hnone i hle hends.1).2 hends)

/-- The end of `ab` is taken for `bc`, and found at its place. -/
theorem find_partial : (ofChars [0x61, 0x62]).find (ofChars [0x62, 0x63]) 0 = .ok 1#32 ∧
    ¬ ∃ r, (ofChars [0x61, 0x62]).find (ofChars [0x62, 0x63]) 0 = .ok r ∧
      FirstFrom [0x61, 0x62] [0x62, 0x63] 0 r := by
  have hrun : (ofChars [0x61, 0x62]).find (ofChars [0x62, 0x63]) 0 = .ok 1#32 := by decide +kernel
  refine ⟨hrun, ?_⟩
  rintro ⟨r, hr, hfirst⟩
  obtain rfl := Except.ok.inj (hrun.symm.trans hr)
  rcases hfirst with ⟨i, -, -, hocc, -⟩ | ⟨hnpos, -⟩
  · obtain rfl : i = 0 := by
      have hle := hocc.1
      simp only [List.length_cons, List.length_nil] at hle
      omega
    exact absurd hocc (by decide)
  · exact absurd hnpos (by decide)

/-- The string `bc` is found in `abc` at the first place where it is. -/
theorem find_whole : ∃ r, (ofChars [0x61, 0x62, 0x63]).find (ofChars [0x62, 0x63]) 0 = .ok r ∧
    FirstFrom [0x61, 0x62, 0x63] [0x62, 0x63] 0 r :=
  (find_iff (ofChars_shows (by decide)) (ofChars_shows (by decide)) (List.cons_ne_nil _ _) 0).mpr
    (Or.inl ⟨1, by decide, by decide⟩)

/-! ## find_last_of and substr -/

/-- A pass of `find_last_of` compares as many characters as the pattern has, at one place. -/
theorem findAt_size (hv : v.Shows s) (hstr : str.Shows t) (hi : i < s.length)
    (hfit : i + t.length < 2 ^ 32) : v.findAt str.size str i = .ok (foundAt s t i) := by
  have hsum : (BitVec.ofNat 32 i + str.size).toNat = i + t.length := by
    rw [BitVec.toNat_add_of_lt, hstr.size, toNat_ofNat_of_lt (by omega)]
    rwa [hstr.size, toNat_ofNat_of_lt (by omega)]
  by_cases hcut : v.size < BitVec.ofNat 32 i + str.size ∨ str.size = StdString.npos
  · refine findAt_spec hv hstr hi ?_ rfl
    rw [if_pos hcut, hv.toNat_size_sub (Nat.le_of_lt hi)]
  · apply findAt_spec hv hstr hi ((congrArg BitVec.toNat (if_neg hcut)).trans hstr.size)
    rw [not_or, BitVec.lt_def, hv.size, hsum] at hcut
    omega

/-- What `find_last_of` returns: the last place behind the first character. -/
theorem findLastOf_spec (hv : v.Shows s) (hstr : str.Shows t) (hs : s ≠ [])
    (hfit : s.length + t.length ≤ 2 ^ 32) :
    ∃ r, v.findLastOf str StdString.npos = .ok r ∧
      ((∃ i, r = BitVec.ofNat 32 i ∧ 0 < i ∧ i < s.length ∧ (Occurs s t i ∨ EndsIn s t i) ∧
          ∀ j, i < j → j < s.length → ¬ Occurs s t j ∧ ¬ EndsIn s t j) ∨
        (r = StdString.npos ∧ ∀ i, 0 < i → i < s.length → ¬ Occurs s t i ∧ ¬ EndsIn s t i)) := by
  have hpos := List.length_pos_of_ne_nil hs
  have hlast : (v.size - 1#32).toNat = s.length - 1 := hv.toNat_size_sub hpos
  have hpass : ∀ i, 0 < i → i ≤ s.length - 1 → v.findAt str.size str i = .ok (foundAt s t i) :=
    fun i _ hle => findAt_size hv hstr (by omega) (by omega)
  rw [findLastOf, if_pos rfl, hlast]
  rcases findDown_spec hpass with ⟨hrun, hnone⟩ | ⟨i, r, hrun, hi, hle, hfound, hafter⟩
  · rw [hrun]
    refine ⟨StdString.npos, rfl, Or.inr ⟨rfl, fun i hi hlt => ?_⟩⟩
    exact foundAt_eq_none.mp (hnone i hi (by omega))
  · rw [hrun]
    obtain ⟨hocc, hr⟩ := foundAt_eq_some hfound
    refine ⟨r, rfl, Or.inl ⟨i, hr, hi, by omega, hocc, fun j hij hlt => ?_⟩⟩
    exact foundAt_eq_none.mp (hafter j hij (by omega))

/-- `substr` of a string without a NUL, within the string. -/
theorem substr_spec (hv : v.Shows s) (hnul : 0 ∉ s)
    (hcount : (if v.size < BitVec.ofNat 32 i + count1 ∨ count1 = StdString.npos
      then v.size - BitVec.ofNat 32 i else count1).toNat = n) (hn : i + n ≤ s.length) :
    v.substr (BitVec.ofNat 32 i) count1 = .ok ((s.drop i).take n) := by
  obtain ⟨dest, hrun, rfl⟩ : ∃ dest, forLoop (fun p dest => do
      let b ← v.data (BitVec.ofNat 32 i + BitVec.ofNat 32 p)
      .ok (dest ++ [b])) 0 n [] = .ok dest ∧ dest = (s.drop i).take n := by
    refine forLoop_invariant (fun p dest => dest = (s.drop i).take p) rfl ?_
    rintro p hp dest rfl
    have hlt : p < (s.drop i).length := by
      rw [List.length_drop]
      omega
    rw [Nat.zero_add, BitVec.add_comm, hv.data_add (by omega), ok_bind]
    refine ⟨_, rfl, ?_⟩
    rw [List.take_add_one, List.getElem?_eq_getElem hlt, List.getElem_drop]
    rfl
  have hkeep : ((s.drop i).take n).takeWhile (· ≠ 0) = (s.drop i).take n := by
    refine List.takeWhile_eq_self_iff.mpr fun b hb => decide_eq_true ?_
    rintro rfl
    exact hnul (List.mem_of_mem_drop (List.mem_of_mem_take hb))
  simp only [substr, hcount, hrun, ok_bind, hkeep]

end StringView

end Muk
