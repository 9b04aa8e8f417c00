import Mathlib.Data.List.Basic
import Muk.Std.FormatText

/-!
# sprintf against vsprintf

The two formatters were copied from one another and edited apart. Where they agree is read off
from what each of them writes for a piece.
-/

namespace Muk

/-- Both formatters leave the same buffer and return the same number. -/
def Agree (m : Mem) (pieces : List Piece) : Prop :=
  ∃ result, sprintf m (formatOf pieces) (argsOf pieces) = .ok result ∧
    vsprintf m (formatOf pieces) (argsOf pieces) = .ok result

/-- Pieces that both formatters write alike: no `%x`, and `%s` only with an empty string or with
the string `%`. -/
def Piece.Alike : Piece → Prop
  | x _ => False
  | s text _ => text = [] ∨ text = [Muk.percent]
  | _ => True

namespace Formatter

variable {p : Piece} {pieces : List Piece}

/-- A piece that both formatters treat alike fills the same cells. -/
theorem cells_alike (h : p.Alike) : sprintf.cells p = vsprintf.cells p := by
  cases p with
  | x => cases h
  | s text => rcases h with rfl | rfl <;> rfl
  | _ => rfl

/-- `sprintf` advances by two characters less for each `%x`. -/
theorem length_cells_le (p : Piece) : (sprintf.cells p).length ≤ (vsprintf.cells p).length := by
  cases p with
  | x v =>
    simp only [cells, sprintf, vsprintf, List.length_map, List.length_append, List.length_nil]
    omega
  | s text => cases text <;> simp [cells, sprintf, vsprintf]
  | _ => exact le_rfl

/-- `sprintf` fills no more cells than `vsprintf`. -/
theorem length_cellsOf_le (pieces : List Piece) :
    (sprintf.cellsOf pieces).length ≤ (vsprintf.cellsOf pieces).length := by
  induction pieces with
  | nil => exact le_rfl
  | cons p pieces ih =>
    simp only [cellsOf, List.flatMap_cons, List.length_append] at ih ⊢
    exact Nat.add_le_add (length_cells_le p) ih

/-- What is written at a place of a zero buffer. -/
def byteOf (cells : List (Option Byte)) (j : ℕ) : Byte := (cells[j]?.join).getD 0

/-- A piece that both write with one length and the same bytes is alike for both. -/
theorem alike_of_cells (hlength : (sprintf.cells p).length = (vsprintf.cells p).length)
    (hbytes : ∀ j < (vsprintf.cells p).length,
      byteOf (sprintf.cells p) j = byteOf (vsprintf.cells p) j) :
    p.Alike := by
  cases p with
  | x v =>
    simp only [cells, sprintf, vsprintf, List.length_map, List.length_append, List.length_nil,
      List.length_cons] at hlength
    omega
  | s text h =>
    cases text with
    | nil => exact Or.inl rfl
    | cons b text =>
      have hfirst := hbytes 0 (by simp [cells, vsprintf])
      obtain rfl : percent = b := by simpa [byteOf, cells, sprintf, vsprintf] using hfirst
      cases text with
      | nil => exact Or.inr rfl
      | cons c text =>
        have hsecond := hbytes 1 (by simp [cells, vsprintf])
        have hzero : 0 = c := by
          simpa [byteOf, cells, sprintf, vsprintf, List.replicate_succ] using hsecond
        exact absurd hzero.symm (h c (by simp))
  | _ => trivial

/-- Texts of one length that leave the same bytes are alike piece for piece. -/
theorem alike_of_cellsOf
    (hlength : (sprintf.cellsOf pieces).length = (vsprintf.cellsOf pieces).length)
    (hbytes : ∀ j < (vsprintf.cellsOf pieces).length,
      byteOf (sprintf.cellsOf pieces) j = byteOf (vsprintf.cellsOf pieces) j) :
    ∀ p ∈ pieces, p.Alike := by
  induction pieces with
  | nil => simp
  | cons p pieces ih =>
    have hp := length_cells_le p
    have hrest := length_cellsOf_le pieces
    simp only [cellsOf, List.flatMap_cons, List.length_append] at hlength hbytes hrest ih
    have hone : (sprintf.cells p).length = (vsprintf.cells p).length := by omega
    refine List.forall_mem_cons.mpr
      ⟨alike_of_cells hone fun j hj => ?_, ih (by omega) fun j hj => ?_⟩
    · have h := hbytes j (by omega)
      rwa [byteOf, byteOf, List.getElem?_append_left (by omega), List.getElem?_append_left hj] at h
    · have h := hbytes ((vsprintf.cells p).length + j) (by omega)
      rw [byteOf, byteOf, List.getElem?_append_right (by omega),
        List.getElem?_append_right (by omega), hone, Nat.add_sub_cancel_left] at h
      exact h

end Formatter

/-- **When the two formatters agree.** For every list of pieces and equal buffers that are zero
where the text and its NUL go: `sprintf` and `vsprintf` leave the same bytes and return the same
length if and only if there is no `%x`, and `%s` only with an empty string or the string `%`. -/
theorem agree_iff {m : Mem} {pieces : List Piece} (hfit : (textOf pieces).length ≤ 0x7FFFFFFF)
    (hzero : ∀ x : Word, x.toNat ≤ (textOf pieces).length → m x = 0) :
    Agree m pieces ↔ ∀ p ∈ pieces, p.Alike := by
  have hcells := congrArg List.length (Formatter.cellsOf_vsprintf pieces)
  have hle := Formatter.length_cellsOf_le pieces
  rw [List.length_map] at hcells
  have hv := Formatter.run_eq (F := .vsprintf) pieces (hzero 0 (Nat.zero_le _)) (by omega)
  have hs := Formatter.run_eq (F := .sprintf) pieces (hzero 0 (Nat.zero_le _)) (by omega)
  rw [Agree, sprintf, vsprintf, hs, hv]
  constructor
  · rintro ⟨result, hfirst, hsecond⟩
    obtain ⟨hlength, hbuffer⟩ := Prod.mk.inj (Except.ok.inj (hfirst.trans hsecond.symm))
    have hlength' : (Formatter.sprintf.cellsOf pieces).length =
        (Formatter.vsprintf.cellsOf pieces).length := by
      have h := congrArg BitVec.toNat hlength
      rw [BitVec.toNat_ofNat, BitVec.toNat_ofNat] at h
      omega
    have htrailing : (trailing pieces).length ≤ 1 := by
      rw [trailing_eq]
      split_ifs <;> simp
    apply Formatter.alike_of_cellsOf hlength'
    intro j hj
    have hzero' : m (BitVec.ofNat 32 j) = 0 := hzero _ (by rw [BitVec.toNat_ofNat]; omega)
    have h := congrFun hbuffer (BitVec.ofNat 32 j)
    rw [Formatter.run_apply (by rw [List.length_append]; omega) (by omega),
      Formatter.run_apply (by rw [List.length_append]; omega) (by omega),
      List.getElem?_append_left (by omega), List.getElem?_append_left (by omega), hzero'] at h
    exact h
  · intro halike
    have hsame : Formatter.sprintf.cellsOf pieces = Formatter.vsprintf.cellsOf pieces :=
      List.flatMap_congr fun p hp => Formatter.cells_alike (halike p hp)
    rw [hsame]
    exact ⟨_, rfl, rfl⟩

/-- Both formatters write `%d%%` with the number 7 alike. -/
theorem agree_number : Agree (fun _ => 0) [.d 7, .percent] := by
  refine (agree_iff (by decide) fun _ _ => rfl).mpr ?_
  simp [Piece.Alike]

/-- For `%s` with the string `a`, `sprintf` leaves the `%`; for `%x` with the number 1 it returns
1, and `vsprintf` returns 3. -/
theorem formatters_differ :
    ¬ Agree (fun _ => 0) [.s [0x61] (by decide)] ∧ ¬ Agree (fun _ => 0) [.x 1] := by
  have hcall (F : Formatter) (p : Piece) (hfit : (F.cellsOf [p]).length ≤ 0x7FFFFFFF) :=
    Formatter.run_eq (F := F) (m := fun _ => 0) [p] rfl hfit
  constructor
  · rintro ⟨result, hfirst, hsecond⟩
    rw [sprintf, hcall _ _ (by decide)] at hfirst
    rw [vsprintf, hcall _ _ (by decide)] at hsecond
    have hbuffer := congrFun (Prod.mk.inj (Except.ok.inj (hfirst.trans hsecond.symm))).2 0
    revert hbuffer
    decide
  · rintro ⟨result, hfirst, hsecond⟩
    rw [sprintf, hcall _ _ (by decide)] at hfirst
    rw [vsprintf, hcall _ _ (by decide)] at hsecond
    have hlength := (Prod.mk.inj (Except.ok.inj (hfirst.trans hsecond.symm))).1
    revert hlength
    decide

end Muk
