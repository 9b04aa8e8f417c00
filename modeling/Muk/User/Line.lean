import Muk.Fs.Path
import Muk.User.Command

/-!
# The words of a line

`parse` lets `strtok` take a copy of the line apart, and copies each word to the heap before the
next call. The copy of the line has no NUL: what is behind it is part of the last word, if no
space ends that word.
-/

namespace Muk

namespace PathMemory

open Scanner

/-- The words of a copy, which `parse` takes for the arguments. -/
def args (mem : PathMemory) (fuel : ℕ) (str : List Byte) : Except ScanFault (List (List Byte)) :=
  mem.tokensBetween [space] fuel str

variable {mem : PathMemory} {length k p fuel : ℕ} {u : Scanner} {behind : ℕ → List Byte}
  {word gap rest line : List Byte}

/-- A gap is a run of delimiters. -/
theorem gap_delims {m : Cells} (hbytes : Bytes m p gap) (hgap : ∀ b ∈ gap, isSpace b = true) :
    ∀ j < gap.length, ∃ b ∈ [space], m (p + j) = some b := by
  intro j hj
  refine ⟨gap[j], Command.mem_space_iff.mpr (hgap _ (List.getElem_mem hj)), ?_⟩
  rw [bytes_iff.mp hbytes j hj, List.getElem?_eq_getElem hj]

/-! ## A word before the last one -/

/-- The scan of a word with a gap and another word behind it stops on the last space of the gap. -/
theorem Started.scan_gap (h : Started mem length k u p (word ++ (gap ++ rest)))
    (hword : ∀ b ∈ word, b ≠ 0 ∧ b ∉ [space]) (hgap : ∀ b ∈ gap, isSpace b = true)
    (hne : gap ≠ []) (hrest : ∃ b tail, rest = b :: tail ∧ b ∉ [space])
    (hfuel : word.length + gap.length + 3 < fuel) :
    scan [space] fuel u = .ok
      { mem := wipe u.mem (p + word.length) gap.length, nxt := p + word.length + gap.length - 1,
        size := rest.length + 1 } := by
  obtain ⟨b, tail, rfl, hb⟩ := hrest
  obtain ⟨r, hr⟩ := Nat.exists_eq_add_one_of_ne_zero (List.length_pos_iff.mpr hne).ne'
  have hsize := h.size
  obtain ⟨hbytes, htail⟩ := bytes_append.mp h.bytes
  obtain ⟨hspaces, hnext⟩ := bytes_append.mp htail
  simp only [List.length_append, List.length_cons] at hsize
  obtain ⟨f, rfl⟩ : ∃ f, fuel = f + 1 + word.length := ⟨fuel - word.length - 1, by omega⟩
  obtain rfl := h.nxt
  let t : Scanner := { u with nxt := u.nxt + word.length, size := u.size - word.length }
  have hdelims := gap_delims hspaces hgap
  obtain ⟨d, hd, hp⟩ := hdelims 0 (by omega)
  have hd0 : d ≠ 0 := by
    rw [List.mem_singleton.mp hd]
    decide
  rw [hr] at hdelims hnext
  have hpass := pass_run (t := t) hdelims hnext.1 hb (by omega : r + 1 < f)
  rw [if_pos (by simp only [t]; omega)] at hpass
  have hwiped : wipe t.mem t.nxt (r + 1) (t.nxt + r) = some 0 := if_pos (by omega)
  rw [scan_word hbytes hword (by omega), scan_step (t := t) hp hd0 hpass,
    scan_nul hwiped (by omega), hr]
  simp only [Except.ok.injEq, Scanner.mk.injEq, t, List.length_cons]
  exact ⟨trivial, by omega, by omega⟩

end PathMemory

end Muk
