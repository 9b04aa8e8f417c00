import Muk.Fs.Path
import Muk.Std.StringCopies

/-!
# The path of a file

`readFile` looks for the last slash of a path with `find_last_of`. The search does not come to
the first character, and the search in an empty path starts in front of it. A path whose only
slash is its first character is therefore a file name as a whole, slash included.
-/

namespace Muk

open StringView

/-- A path in memory, as a C string. -/
structure FilePath where
  chars : List Byte
  noNul : 0 ∉ chars
  short : chars.length < 2 ^ 32

namespace FilePath

variable {ε : Type} {v sep : StringView ε} {s : List Byte} {c : Byte} {i : ℕ}

/-- The path element and the file element that `readFile` makes of its argument. -/
def split (path sep : StringView ε) : Except ε (List Byte × List Byte) := do
  let last ← path.findLastOf sep StdString.npos
  let slash := last + 1#32
  let p ← path.substr 0 slash
  let f ← path.substr slash StdString.npos
  .ok (p, f)

/-- The elements of a path, of which nothing but its characters may be read. -/
def readFileElements (path : FilePath) : Except ArrayFault (List Byte × List Byte) :=
  split (ofChars path.chars) (ofChars [slash])

/-- The directory and the file of a path, split at its last slash. -/
def SplitAtLastSlash (path : List Byte) (r : Except ε (List Byte × List Byte)) : Prop :=
  ∃ p f, r = .ok (p, f) ∧ p ++ f = path ∧ slash ∉ f ∧ (p = [] ∨ p.getLast? = some slash)

/-- A single character is found where it stands. -/
theorem found_char (hi : i < s.length) : Occurs s [c] i ∨ EndsIn s [c] i ↔ s[i] = c := by
  have hdrop : s.drop i = s[i] :: s.drop (i + 1) := List.drop_eq_getElem_cons hi
  rw [Occurs, EndsIn, hdrop]
  constructor
  · rintro (⟨-, h⟩ | ⟨-, h⟩)
    · exact List.head_eq_of_cons_eq h
    · exact (List.cons_prefix_cons.mp h).1
  · rintro rfl
    exact Or.inl ⟨hi, rfl⟩

/-- The characters from a place on. -/
theorem mem_drop_iff {k : ℕ} : c ∈ s.drop k ↔ ∃ i, k ≤ i ∧ ∃ hi : i < s.length, s[i] = c := by
  rw [List.mem_drop_iff_getElem]
  constructor
  · rintro ⟨j, hj, h⟩
    exact ⟨k + j, by omega, by omega, h⟩
  · rintro ⟨i, hle, hi, h⟩
    obtain ⟨j, rfl⟩ := Nat.exists_eq_add_of_le hle
    exact ⟨j, by omega, h⟩

/-- The path is cut behind the slash that `find_last_of` returns, or in front of everything. -/
theorem split_eq {last : Word} {k : ℕ} (hv : v.Shows s) (hnul : 0 ∉ s)
    (hfind : v.findLastOf sep StdString.npos = .ok last) (hlast : last + 1#32 = BitVec.ofNat 32 k)
    (hk : k ≤ s.length) : split v sep = .ok (s.take k, s.drop k) := by
  have hnat : (BitVec.ofNat 32 k).toNat = k :=
    toNat_ofNat_of_lt (Nat.lt_of_le_of_lt hk hv.length_lt)
  have hdir : v.substr 0 (BitVec.ofNat 32 k) = .ok (s.take k) := by
    refine substr_spec (i := 0) hv hnul ?_ (by omega)
    split
    next hcut =>
      -- The count is that of all characters, if it is `npos` at all.
      have hall : s.length ≤ k := by
        rcases hcut with hcut | hcut
        · rw [BitVec.zero_add, BitVec.lt_def, hv.size, hnat] at hcut
          omega
        · have hnpos := congrArg BitVec.toNat hcut
          rw [hnat] at hnpos
          rw [hnpos]
          exact Nat.le_of_lt_succ hv.length_lt
      rw [hv.toNat_size_sub (Nat.zero_le _)]
      omega
    next => exact hnat
  have hfile : v.substr (BitVec.ofNat 32 k) StdString.npos = .ok (s.drop k) := by
    have hrest : (s.drop k).take (s.length - k) = s.drop k :=
      List.take_of_length_le (Nat.le_of_eq List.length_drop)
    rw [← hrest]
    refine substr_spec hv hnul ?_ (by omega)
    rw [if_pos (Or.inr rfl), hv.toNat_size_sub hk]
  simp only [split, hfind, ok_bind, hlast, hdir, hfile]

/-- What `readFile` makes of a path that is not empty. -/
theorem split_elements (hv : v.Shows s) (hsep : sep.Shows [slash]) (hnul : 0 ∉ s) (hs : s ≠ []) :
    ∃ p f, split v sep = .ok (p, f) ∧ p ++ f = s ∧
      (p = [] ∧ slash ∉ s.tail ∨ p.getLast? = some slash ∧ slash ∉ f ∧ slash ∈ s.tail) := by
  have hlt := hv.length_lt
  obtain ⟨r, hfind, ⟨i, rfl, hpos, hi, hfound, hafter⟩ | ⟨rfl, hnone⟩⟩ :=
    findLastOf_spec hv hsep hs (by rw [List.length_singleton]; omega)
  · refine ⟨s.take (i + 1), s.drop (i + 1), ?_, List.take_append_drop _ _, Or.inr ?_⟩
    · exact split_eq hv hnul hfind (BitVec.ofNat_add _ _).symm hi
    · have hslash : s[i] = slash := (found_char hi).mp hfound
      refine ⟨?_, ?_, ?_⟩
      · rw [List.take_succ_eq_append_getElem hi, hslash, List.getLast?_concat]
      · rw [mem_drop_iff]
        rintro ⟨j, hle, hj, heq⟩
        exact not_or.mpr (hafter j hle hj) ((found_char hj).mpr heq)
      · rw [← List.drop_one, mem_drop_iff]
        exact ⟨i, hpos, hi, hslash⟩
  · refine ⟨[], s, ?_, rfl, Or.inl ⟨rfl, ?_⟩⟩
    · exact split_eq (k := 0) hv hnul hfind (by decide) (Nat.zero_le _)
    · rw [← List.drop_one, mem_drop_iff]
      rintro ⟨j, hle, hj, heq⟩
      exact not_or.mpr (hnone j hle hj) ((found_char hj).mpr heq)

/-- A path that is not empty is split at its last slash, unless its first character is its only
slash. -/
theorem split_iff (hv : v.Shows s) (hsep : sep.Shows [slash]) (hnul : 0 ∉ s) (hs : s ≠ []) :
    SplitAtLastSlash s (split v sep) ↔ (s.head? = some slash → slash ∈ s.tail) := by
  obtain ⟨p, f, hrun, happend, hcut⟩ := split_elements hv hsep hnul hs
  have hiff : SplitAtLastSlash s (split v sep) ↔
      slash ∉ f ∧ (p = [] ∨ p.getLast? = some slash) := by
    rw [hrun]
    constructor
    · rintro ⟨p, f, hok, -, h⟩
      obtain ⟨rfl, rfl⟩ := Prod.mk.inj (Except.ok.inj hok)
      exact h
    · exact fun h => ⟨p, f, rfl, happend, h⟩
  rw [hiff]
  rcases hcut with ⟨rfl, hrest⟩ | ⟨hlast, hf, hmem⟩
  · obtain rfl : f = s := happend
    cases f with
    | nil => exact absurd rfl hs
    | cons a rest =>
      rw [List.tail_cons] at hrest
      rw [List.mem_cons, List.head?_cons, Option.some.injEq, List.tail_cons]
      constructor
      · exact fun h ha => absurd (Or.inl ha.symm) h.1
      · exact fun h => ⟨not_or.mpr ⟨fun ha => hrest (h ha.symm), hrest⟩, Or.inl rfl⟩
  · exact iff_of_true ⟨hf, Or.inr hlast⟩ fun _ => hmem

/-- The same of the strings that `readFile` makes, in any memory that holds their characters. -/
theorem split_memory {σ : Type} {M : PagedMemory σ Fault} {t : σ} {p sep : StdString}
    (path : FilePath) (hne : path.chars ≠ []) (hsize : p.length.toNat = path.chars.length)
    (hbytes : Bytes (M.cells t) p.buff.toNat path.chars) (hone : sep.length = 1#32)
    (hsep : Bytes (M.cells t) sep.buff.toNat [slash]) :
    SplitAtLastSlash path.chars (split (p.view M t) (sep.view M t)) ↔
      (path.chars.head? = some slash → slash ∈ path.chars.tail) :=
  split_iff (view_shows hsize hbytes) (view_shows (by rw [hone]; rfl) hsep) path.noNul hne

/-- The search in an empty path starts in front of it, where there is nothing to read. -/
theorem split_nil : split (ofChars []) (ofChars [slash]) = .error .outOfBounds := by
  have hstart : ((ofChars []).size - 1#32).toNat = 4294967294 + 1 := by decide
  have hpass : (ofChars []).findAt (ofChars [slash]).size (ofChars [slash]) (4294967294 + 1) =
      .error .outOfBounds := by decide +kernel
  rw [split, findLastOf, if_pos rfl, hstart, findDown, hpass]
  rfl

/-- **A path is split at its last slash** exactly if it is not empty, and its first character is
not its only slash. -/
theorem splitAtLastSlash_iff (path : FilePath) :
    SplitAtLastSlash path.chars path.readFileElements ↔ path.chars ≠ [] ∧
      (path.chars.head? = some slash → slash ∈ path.chars.tail) := by
  rw [readFileElements]
  by_cases hne : path.chars = []
  · rw [hne, split_nil]
    refine iff_of_false ?_ fun h => h.1 rfl
    rintro ⟨p, f, hrun, -⟩
    exact absurd hrun (by simp)
  · rw [split_iff (ofChars_shows path.short) (ofChars_shows (by decide)) path.noNul hne]
    exact (and_iff_right hne).symm

/-- Neither is an empty path split, nor `/etc`. -/
theorem not_splitAtLastSlash_root :
    ¬ SplitAtLastSlash [] (readFileElements ⟨[], by decide, by decide⟩) ∧
      ¬ SplitAtLastSlash [slash, 0x65, 0x74, 0x63]
        (readFileElements ⟨[slash, 0x65, 0x74, 0x63], by decide, by decide⟩) := by
  constructor
  · rintro ⟨p, f, hrun, -⟩
    exact absurd (split_nil.symm.trans hrun) (by simp)
  · have hrun : readFileElements ⟨[slash, 0x65, 0x74, 0x63], by decide, by decide⟩ =
        .ok ([], [slash, 0x65, 0x74, 0x63]) := by decide +kernel
    rintro ⟨p, f, hok, -, hfile, -⟩
    obtain ⟨-, rfl⟩ := Prod.mk.inj (Except.ok.inj (hrun.symm.trans hok))
    exact hfile (List.mem_cons_self ..)

end FilePath

end Muk
