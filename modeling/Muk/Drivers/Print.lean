import Muk.Lib.Text
import Muk.Std.FormatBounds
import Muk.Std.Ltoa

/-!
# terminal_printf

`terminal_printf` formats into a buffer of 80 characters on the stack, and prints this buffer up to
a NUL. A text of up to 79 characters is printed as it is.
-/

namespace Muk

/-- What the code must not do, or a loop that does not end. -/
inductive PrintFault where
  | format (fault : FormatFault)
  | scan (fault : ScanFault)
  deriving DecidableEq

/-- Memory from the buffer on. -/
def bufferCells (m : Mem) : Cells := fun i => some (m (BitVec.ofNat 32 i))

/-- What `terminal_printf` and `terminal_printf_rgba` print, for a stack with any contents. -/
def terminalPrintf (m : Mem) (format : List Byte) (args : List Arg) :
    Except PrintFault (List Byte) := do
  let (_, m) ← (vsprintf (printfBuffer.clear m) format args).mapError .format
  (readString (bufferCells m) (2 ^ 32) 0).mapError .scan

/-! ## Texts have no NUL -/

/-- No digit is the character that ends a string. -/
theorem digitChar_ne_zero : ∀ d < 16, digitChar d ≠ 0 := by decide

/-- A number in decimal has no NUL, neither its sign nor its digits. -/
theorem decimal_ne_zero (i : ℤ) : ∀ b ∈ decimal i, b ≠ 0 := by
  intro b hb
  rcases List.mem_append.mp hb with hb | hb
  · split_ifs at hb
    · rw [List.mem_singleton.mp hb]
      decide
    · simp at hb
  · obtain ⟨d, hd, rfl⟩ := mem_numeral (by decide) hb
    exact digitChar_ne_zero d (by omega)

/-- No piece of a format stands for a text with a NUL. -/
theorem Piece.text_ne_zero (p : Piece) : ∀ b ∈ p.text, b ≠ 0 := by
  intro b hb
  cases p with
  | literal c h => exact List.mem_singleton.mp hb ▸ h.1
  | percent =>
    rw [List.mem_singleton.mp hb]
    decide
  | c v h => exact List.mem_singleton.mp hb ▸ h
  | d v => exact decimal_ne_zero _ b hb
  | i v => exact decimal_ne_zero _ b hb
  | x v =>
    rcases List.mem_append.mp hb with hb | hb
    · have hprefix : ∀ b ∈ ([0x30, 0x78] : List Byte), b ≠ 0 := by decide
      exact hprefix b hb
    · obtain ⟨d, hd, rfl⟩ := mem_numeral (by decide) hb
      exact digitChar_ne_zero d hd
  | s text h => exact h b hb

/-- Characters that stand for themselves. -/
def literals (text : List Byte) (h : ∀ b ∈ text, b ≠ 0 ∧ b ≠ percent) : List Piece :=
  text.pmap Piece.literal h

/-- Literal pieces stand for the text that they were made of. -/
theorem textOf_literals (text : List Byte) (h : ∀ b ∈ text, b ≠ 0 ∧ b ≠ percent) :
    textOf (literals text h) = text := by
  induction text with
  | nil => rfl
  | cons b text ih => exact congrArg (b :: ·) (ih fun c hc => h c (List.mem_cons_of_mem _ hc))

/-- A text that leaves room for a NUL is printed. -/
theorem terminalPrintf_eq (m : Mem) {pieces : List Piece} (hne : ¬ EndsEmpty pieces)
    (hlength : (textOf pieces).length ≤ 79) :
    terminalPrintf m (formatOf pieces) (argsOf pieces) = .ok (textOf pieces) := by
  have hcells := Formatter.cellsOf_vsprintf pieces
  have hsize := congrArg List.length hcells
  rw [List.length_map] at hsize
  have hrun := Formatter.run_eq (F := Formatter.vsprintf) (m := printfBuffer.clear m) pieces
    (if_pos (by decide)) (by omega)
  rw [trailing_eq, if_neg hne, List.append_nil, hcells] at hrun
  let m' := storeCells (printfBuffer.clear m) 0 ((textOf pieces).map some)
  have hbyte (j : ℕ) (hj : j < 80) : bufferCells m' j = some ((textOf pieces)[j]?.getD 0) := by
    have hclear : printfBuffer.clear m (BitVec.ofNat 32 j) = 0 :=
      if_pos (by rw [toNat_ofNat_of_lt (by omega)]; exact hj)
    have hstored : m' (BitVec.ofNat 32 j) = _ :=
      Formatter.run_apply (by rw [List.length_map]; omega) (by omega)
    rw [bufferCells, hstored, hclear, List.getElem?_map]
    cases (textOf pieces)[j]? <;> rfl
  have htext : Text (bufferCells m') 0 (textOf pieces) := by
    refine Text.of_bytes (bytes_iff.mpr fun i hi => ?_) (fun b hb => ?_) ?_
    · rw [Nat.zero_add, hbyte i (by omega), List.getElem?_eq_getElem hi]
      rfl
    · obtain ⟨p, -, hp⟩ := List.mem_flatMap.mp hb
      exact p.text_ne_zero b hp
    · rw [Nat.zero_add, hbyte _ (by omega), List.getElem?_eq_none le_rfl]
      rfl
  have hread : readString (bufferCells m') (2 ^ 32) 0 = .ok (textOf pieces) :=
    readString_eq_ok.mpr ⟨htext, by omega⟩
  rw [terminalPrintf, vsprintf, hrun]
  simp only [Except.mapError, ok_bind]
  rw [hread]

/-- A format and its arguments are printed as the pieces that they are made of. -/
theorem terminalPrintf_pieces (m : Mem) {format text : List Byte} {args : List Arg}
    (pieces : List Piece) (hformat : formatOf pieces = format) (hargs : argsOf pieces = args)
    (htext : textOf pieces = text) (hne : ¬ EndsEmpty pieces) (hlength : text.length ≤ 79) :
    terminalPrintf m format args = .ok text := by
  rw [← htext] at hlength
  rw [← hformat, ← hargs, ← htext]
  exact terminalPrintf_eq m hne hlength

/-- A text without directives is printed as it is. -/
theorem terminalPrintf_text (m : Mem) {text : List Byte} (h : ∀ b ∈ text, b ≠ 0 ∧ b ≠ percent)
    (hlength : text.length ≤ 79) : terminalPrintf m text [] = .ok text := by
  have hformat (text : List Byte) (h : ∀ b ∈ text, b ≠ 0 ∧ b ≠ percent) :
      formatOf (literals text h) = text ∧ argsOf (literals text h) = [] := by
    induction text with
    | nil => exact ⟨rfl, rfl⟩
    | cons b text ih =>
      obtain ⟨hrest, hargs⟩ := ih fun c hc => h c (List.mem_cons_of_mem _ hc)
      exact ⟨congrArg (b :: ·) hrest, hargs⟩
  refine terminalPrintf_pieces m (literals text h) (hformat text h).1 (hformat text h).2
    (textOf_literals text h) ?_ hlength
  rintro ⟨p, hp, hempty⟩
  have hmem : p ∈ text.pmap Piece.literal h := List.mem_of_getLast? hp
  obtain ⟨b, _, rfl⟩ := List.mem_pmap.mp hmem
  cases hempty

/-- `"%c"` prints a character, but nothing for a zero byte, which ends the text in the buffer. -/
theorem terminalPrintf_char (stack : Mem) (b : Byte) :
    terminalPrintf stack [percent, 0x63] [.int (b.signExtend 32)] =
      .ok (if b ≠ 0 then [b] else []) := by
  have hwidth : (b.signExtend 32).setWidth 8 = b := by
    revert b
    decide
  split_ifs with hb
  · refine terminalPrintf_pieces stack [.c (b.signExtend 32) (by rwa [hwidth])] rfl rfl ?_ ?_ ?_
    · simp [textOf, Piece.text, hwidth]
    · rintro ⟨p, hp, hempty⟩
      cases hp
      cases hempty
    · rw [List.length_singleton]
      omega
  · obtain rfl := not_not.mp hb
    have hclear : clearBuffer (2 ^ 32 + 1) (printfBuffer.clear stack) 0 =
        .ok (printfBuffer.clear stack) := by
      rw [clearBuffer]
      exact if_neg (not_not.mpr (if_pos (by decide)))
    let m := store8 (store8 (printfBuffer.clear stack) 0 percent) 0 0
    have hrun : vsprintf (printfBuffer.clear stack) [percent, 0x63]
        [.int ((0 : Byte).signExtend 32)] = .ok (1, m) := by
      rw [vsprintf, Formatter.run, hclear]
      rfl
    have hread : readString (bufferCells m) (2 ^ 32) 0 = .ok [] :=
      readString_eq_ok.mpr ⟨congrArg some (if_pos rfl), by decide⟩
    rw [terminalPrintf, hrun]
    simp only [Except.mapError, ok_bind]
    rw [hread]

end Muk
