import Muk.Std.Format

/-!
# What the formatters write

A format string is a list of pieces: characters that stand for themselves, `%%`, and the five
directives, each with its argument. What a formatter writes for the pieces is a text with gaps,
and after a last directive with an empty string the `%` of that directive.
-/

namespace Muk

/-- A piece of a format string, with its argument. -/
inductive Piece where
  | literal (b : Byte) (h : b ≠ 0 ∧ b ≠ percent)
  | percent
  | c (v : Word) (h : v.setWidth 8 ≠ 0#8)
  | d (v : Word)
  | i (v : Word)
  | x (v : Word)
  | s (text : List Byte) (h : ∀ b ∈ text, b ≠ 0)

namespace Piece

/-- The characters of a piece. -/
def format : Piece → List Byte
  | literal b _ => [b]
  | percent => [Muk.percent, Muk.percent]
  | c _ _ => [Muk.percent, 0x63]
  | d _ => [Muk.percent, 0x64]
  | i _ => [Muk.percent, 0x69]
  | x _ => [Muk.percent, 0x78]
  | s _ _ => [Muk.percent, 0x73]

/-- The argument of a piece. -/
def args : Piece → List Arg
  | literal _ _ | percent => []
  | c v _ | d v | i v | x v => [.int v]
  | s text _ => [.string text]

/-- What a piece stands for. -/
def text : Piece → List Byte
  | literal b _ => [b]
  | percent => [Muk.percent]
  | c v _ => [v.setWidth 8]
  | d v | i v => decimal v.toInt
  | x v => [0x30, 0x78] ++ hexadecimal v
  | s text _ => text

/-- A character that stands for itself. -/
def isLiteral : Piece → Bool
  | literal _ _ => true
  | _ => false

/-- The directive `%s` with an empty string. -/
def isEmpty : Piece → Bool
  | s [] _ => true
  | _ => false

end Piece

/-- The format string of some pieces. -/
def formatOf (pieces : List Piece) : List Byte := pieces.flatMap Piece.format

/-- The arguments of some pieces. -/
def argsOf (pieces : List Piece) : List Arg := pieces.flatMap Piece.args

/-- The text that some pieces stand for. -/
def textOf (pieces : List Piece) : List Byte := pieces.flatMap Piece.text

/-- What is left of the last directive, if its string is empty. -/
def trailing : List Piece → List (Option Byte)
  | [] => []
  | [p] => if p.isEmpty then [some percent] else []
  | _ :: q :: pieces => trailing (q :: pieces)

namespace Formatter

variable (F : Formatter)

/-- What a formatter writes for a piece. Without a copy, `%s` leaves its own first character
and skips the length of the string. -/
def cells : Piece → List (Option Byte)
  | .literal b _ => [some b]
  | .percent => [some percent]
  | .c v _ => [some (v.setWidth 8)]
  | .d v | .i v => (decimal v.toInt).map some
  | .x v => (F.hexPrefix ++ hexadecimal v).map some
  | .s [] _ => []
  | .s (b :: text) _ =>
    if F.copiesString then (b :: text).map some else some percent :: List.replicate text.length none

/-- What a formatter writes for some pieces. -/
def cellsOf (pieces : List Piece) : List (Option Byte) := pieces.flatMap F.cells

variable {F} {p : Piece} {pieces : List Piece} {m : Mem} {k : Word} {fuel : ℕ}

/-- A number in decimal has a digit. -/
theorem decimal_ne_nil (i : ℤ) : decimal i ≠ [] := by
  rw [decimal]
  exact List.append_ne_nil_of_right_ne_nil _ (numeral_ne_nil (by omega))

/-- A number in hexadecimal has a digit. -/
theorem hexadecimal_ne_nil (v : Word) : hexadecimal v ≠ [] := numeral_ne_nil (by omega)

/-- A piece writes something at its first place, but for an empty string. -/
theorem cells_head (h : p.isEmpty = false) : ∃ b cells, F.cells p = some b :: cells := by
  have hmap {text : List Byte} (hne : text ≠ []) : ∃ b cells, text.map some = some b :: cells := by
    obtain ⟨b, rest, rfl⟩ := List.exists_cons_of_ne_nil hne
    exact ⟨b, rest.map some, rfl⟩
  cases p with
  | literal b => exact ⟨b, [], rfl⟩
  | percent => exact ⟨_, [], rfl⟩
  | c v => exact ⟨_, [], rfl⟩
  | d v => exact hmap (decimal_ne_nil _)
  | i v => exact hmap (decimal_ne_nil _)
  | x v => exact hmap (List.append_ne_nil_of_right_ne_nil _ (hexadecimal_ne_nil v))
  | s text =>
    cases text with
    | nil => cases h
    | cons b text =>
      rw [cells]
      split_ifs
      · exact ⟨b, _, rfl⟩
      · exact ⟨_, _, rfl⟩

/-- A string without characters fills no cells. -/
theorem cells_empty (h : p.isEmpty = true) : F.cells p = [] := by
  cases p with
  | s text =>
    cases text with
    | nil => rfl
    | cons => cases h
  | _ => cases h

/-- Some pieces write something at their first place. -/
theorem cellsOf_head (hne : pieces ≠ []) :
    ∃ b cells, F.cellsOf pieces ++ trailing pieces = some b :: cells := by
  induction pieces with
  | nil => exact absurd rfl hne
  | cons p pieces ih =>
    rw [cellsOf, List.flatMap_cons]
    cases h : p.isEmpty with
    | false =>
      obtain ⟨b, rest, hp⟩ := cells_head (F := F) h
      exact ⟨b, _, by rw [hp]; rfl⟩
    | true =>
      rw [cells_empty h, List.nil_append]
      cases pieces with
      | nil => exact ⟨percent, [], by simp [trailing, h]⟩
      | cons q pieces => exact ih (List.cons_ne_nil _ _)

/-- What is left behind the text does not depend on a first piece that has a text. -/
theorem trailing_cons (h : p.isEmpty = false) : trailing (p :: pieces) = trailing pieces := by
  cases pieces with
  | nil => simp [trailing, h]
  | cons q pieces => rfl

/-! ## Literals -/

/-- The characters before the first percent sign are the first literals. -/
theorem format_takeWhile (pieces : List Piece) :
    (formatOf pieces).takeWhile (· ≠ percent) = formatOf (pieces.takeWhile Piece.isLiteral) := by
  induction pieces with
  | nil => rfl
  | cons p pieces ih =>
    cases p with
    | literal b h =>
      change (b :: formatOf pieces).takeWhile _ = b :: formatOf (pieces.takeWhile _)
      rw [List.takeWhile_cons_of_pos (by simpa using h.2), ih]
    | _ => rfl

/-- From the first percent sign on the format is that of the other pieces. -/
theorem format_dropWhile (pieces : List Piece) :
    (formatOf pieces).dropWhile (· ≠ percent) = formatOf (pieces.dropWhile Piece.isLiteral) := by
  induction pieces with
  | nil => rfl
  | cons p pieces ih =>
    cases p with
    | literal b h =>
      change (b :: formatOf pieces).dropWhile _ = formatOf (pieces.dropWhile _)
      rw [List.dropWhile_cons_of_pos (by simpa using h.2), ih]
    | _ => rfl

/-- Literals in front of a format take no arguments, so that they may be dropped. -/
theorem args_dropWhile (pieces : List Piece) :
    argsOf (pieces.dropWhile Piece.isLiteral) = argsOf pieces := by
  induction pieces with
  | nil => rfl
  | cons p pieces ih =>
    cases p with
    | literal b h => exact ih
    | _ => rfl

/-- Literals at the start leave nothing behind the text. -/
theorem trailing_dropWhile (pieces : List Piece) :
    trailing (pieces.dropWhile Piece.isLiteral) = trailing pieces := by
  induction pieces with
  | nil => rfl
  | cons p pieces ih =>
    cases p with
    | literal b h => exact ih.trans (trailing_cons rfl).symm
    | _ => rfl

/-- Literals in front of a format write themselves, character by character. -/
theorem cells_takeWhile (pieces : List Piece) :
    F.cellsOf (pieces.takeWhile Piece.isLiteral) =
      (formatOf (pieces.takeWhile Piece.isLiteral)).map some := by
  induction pieces with
  | nil => rfl
  | cons p pieces ih =>
    cases p with
    | literal b h =>
      change some b :: F.cellsOf (pieces.takeWhile _) = some b :: (formatOf _).map some
      rw [ih]
    | _ => rfl

/-- The cells of a format are its first literals, and those of the other pieces. -/
theorem cellsOf_dropWhile (pieces : List Piece) :
    F.cellsOf pieces = (formatOf (pieces.takeWhile Piece.isLiteral)).map some ++
      F.cellsOf (pieces.dropWhile Piece.isLiteral) := by
  rw [← cells_takeWhile, cellsOf, cellsOf, cellsOf, ← List.flatMap_append,
    List.takeWhile_append_dropWhile]

/-! ## The loop -/

/-- What a pass leaves in the buffer for a directive. -/
def stored (F : Formatter) (p : Piece) : List (Option Byte) :=
  if p.isEmpty then [some percent] else F.cells p

/-- A text in place of the percent sign is what a directive leaves that is not empty. -/
theorem storeText_percent {text : List Byte} (hp : p.isEmpty = false)
    (hcells : F.cells p = text.map some) (hne : text ≠ []) :
    storeText (store8 m k percent) k text = storeCells m k (F.stored p) := by
  obtain ⟨b, rest, rfl⟩ := List.exists_cons_of_ne_nil hne
  rw [storeText_eq, stored, hp, hcells]
  exact storeCells_store8

/-- A pass of the loop for a directive. -/
theorem formatLoop_directive (hp : p.isLiteral = false) (hpercent : p ≠ .percent)
    (format : List Byte) (args : List Arg) :
    F.formatLoop (fuel + 1) (p.format ++ format) (p.args ++ args) m k =
      F.formatLoop fuel format args (storeCells m k (F.stored p))
        (k + BitVec.ofNat 32 (F.cells p).length) := by
  cases p with
  | literal => cases hp
  | percent => exact absurd rfl hpercent
  | c v =>
    change F.formatLoop fuel format args (store8 (store8 m k percent) k (v.setWidth 8))
      (k + 1#32) = _
    rw [store8_store8]
    rfl
  | d v =>
    change F.formatLoop fuel format args (storeText (store8 m k percent) k (itoa v 10#32))
      (k + BitVec.ofNat 32 (itoa v 10#32).length) = _
    rw [itoa_decimal, storeText_percent (p := .d v) rfl rfl (decimal_ne_nil _), cells,
      List.length_map]
  | i v =>
    change F.formatLoop fuel format args (storeText (store8 m k percent) k (itoa v 10#32))
      (k + BitVec.ofNat 32 (itoa v 10#32).length) = _
    rw [itoa_decimal, storeText_percent (p := .i v) rfl rfl (decimal_ne_nil _), cells,
      List.length_map]
  | x v =>
    change F.formatLoop fuel format args
      (storeText (store8 m k percent) k (F.hexPrefix ++ ltoa (v.signExtend 64) 16#32))
      (k + BitVec.ofNat 32 (F.hexPrefix ++ ltoa (v.signExtend 64) 16#32).length) = _
    rw [ltoa_hex, storeText_percent (p := .x v) rfl rfl
      (List.append_ne_nil_of_right_ne_nil _ (hexadecimal_ne_nil v)), cells, List.length_map]
  | s text h =>
    change F.formatLoop fuel format args
      (if F.copiesString then storeText (store8 m k percent) k text else store8 m k percent)
      (k + BitVec.ofNat 32 text.length) = _
    cases text with
    | nil =>
      have hsame : (if F.copiesString then storeText (store8 m k percent) k [] else
          store8 m k percent) = store8 m k percent := ite_self _
      rw [hsame]
      rfl
    | cons b text =>
      by_cases hcopies : F.copiesString
      · have hcells : F.cells (.s (b :: text) h) = (b :: text).map some := if_pos hcopies
        rw [if_pos hcopies, storeText_percent rfl hcells (List.cons_ne_nil b text), hcells,
          List.length_map]
      · simp only [stored, Piece.isEmpty, Bool.false_eq_true, if_false, cells, if_neg hcopies,
          List.length_cons, List.length_replicate, storeCells, storeCells_replicate_none]

/-- A pass of the loop for a text, which takes all literals that follow. -/
theorem formatLoop_text (hp : p.isLiteral = true ∨ p = .percent) (pieces : List Piece)
    (args : List Arg) {amount : ℕ}
    (hamount : amount = (formatOf (pieces.takeWhile Piece.isLiteral)).length + 1)
    (hfit : k.toNat + amount ≤ 0x7FFFFFFF) :
    F.formatLoop (fuel + 1) (p.format ++ formatOf pieces) (p.args ++ args) m k =
      F.formatLoop fuel (formatOf (pieces.dropWhile Piece.isLiteral)) args
        (storeCells m k (F.cells p ++ (formatOf (pieces.takeWhile Piece.isLiteral)).map some))
        (k + BitVec.ofNat 32 amount) := by
  have hroom : ¬ 0x7FFFFFFF#32 - k < BitVec.ofNat 32 amount := by
    rw [BitVec.lt_def, BitVec.toNat_sub, BitVec.toNat_ofNat, BitVec.toNat_ofNat]
    omega
  -- Both kinds of pieces leave one character and go on with the rest of the text.
  suffices h : ∀ b, F.cells p = [some b] →
      F.formatLoop (fuel + 1) (p.format ++ formatOf pieces) (p.args ++ args) m k =
        if 0x7FFFFFFF#32 - k <
            BitVec.ofNat 32 (((formatOf pieces).takeWhile (· ≠ percent)).length + 1) then
          .ok (-1, storeText (store8 m k b) (k + 1#32) ((formatOf pieces).takeWhile (· ≠ percent)))
        else F.formatLoop fuel ((formatOf pieces).dropWhile (· ≠ percent)) args
          (storeText (store8 m k b) (k + 1#32) ((formatOf pieces).takeWhile (· ≠ percent)))
          (k + BitVec.ofNat 32 (((formatOf pieces).takeWhile (· ≠ percent)).length + 1)) by
    obtain ⟨b, hb⟩ : ∃ b, F.cells p = [some b] := by
      cases p with
      | literal b => exact ⟨b, rfl⟩
      | percent => exact ⟨percent, rfl⟩
      | _ => rcases hp with hp | hp <;> cases hp
    rw [h b hb, hb, format_takeWhile, format_dropWhile, ← hamount, if_neg hroom, storeText_eq]
    rfl
  intro b hb
  cases p with
  | literal c hc =>
    obtain rfl : c = b := by simpa [cells] using hb
    simp only [Piece.format, Piece.args, List.cons_append, List.nil_append, formatLoop, hc.2, ne_eq,
      not_false_eq_true, true_or, if_true, if_false]
  | percent =>
    obtain rfl : percent = b := by simpa [cells] using hb
    simp only [Piece.format, Piece.args, List.cons_append, List.nil_append, formatLoop,
      List.head?_cons, or_true, if_true, List.tail_cons]
  | _ => rcases hp with hp | hp <;> cases hp

/-- The position in the buffer does not wrap below `0x7FFFFFFF`. -/
theorem toNat_advance {n : ℕ} (hfit : k.toNat + n ≤ 0x7FFFFFFF) :
    (k + BitVec.ofNat 32 n).toNat = k.toNat + n := by
  rw [BitVec.toNat_add, BitVec.toNat_ofNat]
  omega

/-- Every piece has characters in the format. -/
theorem format_ne_nil (p : Piece) : p.format ≠ [] := by
  cases p <;> exact List.cons_ne_nil _ _

/-- The sign that an empty string leaves is overwritten, unless it is the last directive. -/
theorem storeCells_stored (p : Piece) (pieces : List Piece) (m : Mem) (k : Word) :
    storeCells (storeCells m k (F.stored p)) (k + BitVec.ofNat 32 (F.cells p).length)
        (F.cellsOf pieces ++ trailing pieces) =
      storeCells m k (F.cells p ++ F.cellsOf pieces ++ trailing (p :: pieces)) := by
  cases hempty : p.isEmpty with
  | false =>
    rw [trailing_cons hempty, stored, hempty, if_neg Bool.false_ne_true, ← storeCells_append,
      List.append_assoc]
  | true =>
    rw [stored, hempty, if_pos rfl, cells_empty hempty, List.length_nil, BitVec.add_zero,
      List.nil_append]
    cases pieces with
    | nil => simp [cellsOf, trailing, hempty, storeCells]
    | cons q pieces =>
      obtain ⟨b, rest, hhead⟩ := cellsOf_head (F := F) (List.cons_ne_nil q pieces)
      have htrailing : trailing (p :: q :: pieces) = trailing (q :: pieces) := rfl
      rw [htrailing, hhead]
      exact storeCells_store8

/-- The loop writes the cells of the pieces and what is left of the last directive. -/
theorem formatLoop_eq (pieces : List Piece) (hfuel : (formatOf pieces).length ≤ fuel)
    (hfit : k.toNat + (F.cellsOf pieces).length ≤ 0x7FFFFFFF) :
    F.formatLoop fuel (formatOf pieces) (argsOf pieces) m k =
      .ok (k + BitVec.ofNat 32 (F.cellsOf pieces).length,
        storeCells m k (F.cellsOf pieces ++ trailing pieces)) := by
  induction hn : pieces.length using Nat.strong_induction_on generalizing pieces fuel m k with
  | _ n ih =>
  cases pieces with
  | nil => cases fuel <;> simp [formatOf, cellsOf, formatLoop, trailing, storeCells]
  | cons p pieces =>
    have hformat : formatOf (p :: pieces) = p.format ++ formatOf pieces := List.flatMap_cons
    have hargs : argsOf (p :: pieces) = p.args ++ argsOf pieces := List.flatMap_cons
    have hcells : F.cellsOf (p :: pieces) = F.cells p ++ F.cellsOf pieces := List.flatMap_cons
    have hpos := List.length_pos_iff.mpr (format_ne_nil p)
    rw [hformat, List.length_append] at hfuel
    rw [hcells, List.length_append] at hfit
    obtain ⟨fuel, rfl⟩ := Nat.exists_eq_add_one_of_ne_zero (by omega : fuel ≠ 0)
    rw [List.length_cons] at hn
    rw [hformat, hargs, hcells]
    by_cases htext : p.isLiteral = true ∨ p = .percent
    · -- the literals that follow belong to the same pass
      have hone : (F.cells p).length = 1 := by
        cases p <;> first | rfl | (rcases htext with h | h <;> cases h)
      have hempty : p.isEmpty = false := by
        cases p <;> first | rfl | (rcases htext with h | h <;> cases h)
      have hsplit := cellsOf_dropWhile (F := F) pieces
      have hlength := congrArg List.length hsplit
      have hformat' := congrArg List.length (format_dropWhile pieces)
      have hdrop :=
        (List.dropWhile_sublist (l := formatOf pieces) fun b => decide (b ≠ percent)).length_le
      have hshorter := (List.dropWhile_sublist (l := pieces) Piece.isLiteral).length_le
      rw [List.length_append, List.length_map] at hlength
      generalize hrun : formatOf (pieces.takeWhile Piece.isLiteral) = run at hsplit hlength
      rw [formatLoop_text htext pieces _ rfl (by rw [hrun]; omega), hrun, ← args_dropWhile,
        ih _ (by omega) _ (by omega) (by rw [toNat_advance (by omega)]; omega) rfl,
        trailing_dropWhile, trailing_cons hempty]
      have hwritten : (F.cells p ++ run.map some).length = run.length + 1 := by
        rw [List.length_append, List.length_map]
        omega
      have haddr : k + BitVec.ofNat 32 (run.length + 1) +
          BitVec.ofNat 32 (F.cellsOf (pieces.dropWhile Piece.isLiteral)).length =
            k + BitVec.ofNat 32 (F.cells p ++ F.cellsOf pieces).length := by
        rw [BitVec.add_assoc, ← BitVec.ofNat_add, List.length_append, hone, hlength]
        congr 2
        omega
      rw [haddr, ← hwritten, ← storeCells_append, hsplit]
      simp only [List.append_assoc]
    · have hother : p.isLiteral = false ∧ p ≠ .percent := by simpa using htext
      rw [formatLoop_directive hother.1 hother.2,
        ih _ (by omega) _ (by omega) (by rw [toNat_advance (by omega)]; omega) rfl,
        storeCells_stored, BitVec.add_assoc, ← BitVec.ofNat_add, ← List.length_append]

/-- A call of a formatter on a buffer that starts with a zero. -/
theorem run_eq (pieces : List Piece) (hzero : m 0 = 0)
    (hfit : (F.cellsOf pieces).length ≤ 0x7FFFFFFF) :
    F.run m (formatOf pieces) (argsOf pieces) =
      .ok (BitVec.ofNat 32 (F.cellsOf pieces).length,
        storeCells m 0 (F.cellsOf pieces ++ trailing pieces)) := by
  have hclear : clearBuffer (2 ^ 32 + 1) m 0 = .ok m := by
    rw [clearBuffer, if_neg (not_not.mpr hzero)]
  have hloop := formatLoop_eq (F := F) (m := m) (k := 0#32) pieces le_rfl (by simpa using hfit)
  rw [BitVec.zero_add] at hloop
  rw [run, hclear]
  exact hloop

/-- A byte of the buffer after a call. -/
theorem run_apply {cells : List (Option Byte)} (hfit : cells.length ≤ 2 ^ 32) {j : ℕ}
    (hj : j < 2 ^ 32) : storeCells m 0 cells (BitVec.ofNat 32 j) =
      (cells[j]?.join).getD (m (BitVec.ofNat 32 j)) := by
  have hindex : (BitVec.ofNat 32 j - 0).toNat = j := by
    bv_omega
  rw [storeCells_apply hfit, hindex]

/-! ## vsprintf -/

/-- The cells that `vsprintf` writes are those of the text, without gaps. -/
theorem cellsOf_vsprintf (pieces : List Piece) :
    vsprintf.cellsOf pieces = (textOf pieces).map some := by
  induction pieces with
  | nil => rfl
  | cons p pieces ih =>
    have hp : vsprintf.cells p = p.text.map some := by
      cases p with
      | s text => cases text <;> rfl
      | _ => rfl
    rw [cellsOf, textOf, List.flatMap_cons, List.flatMap_cons, List.map_append, hp]
    exact congrArg _ ih

end Formatter

/-- The last piece is `%s` with an empty string. -/
def EndsEmpty (pieces : List Piece) : Prop := ∃ p ∈ pieces.getLast?, p.isEmpty = true

instance (pieces : List Piece) : Decidable (EndsEmpty pieces) :=
  inferInstanceAs (Decidable (∃ p ∈ pieces.getLast?, p.isEmpty = true))

/-- A percent sign is left behind the text exactly if the last piece is an empty string. -/
theorem trailing_eq (pieces : List Piece) :
    trailing pieces = if EndsEmpty pieces then [some percent] else [] := by
  induction pieces with
  | nil => rfl
  | cons p pieces ih =>
    cases pieces with
    | nil => simp [trailing, EndsEmpty]
    | cons q pieces =>
      have hiff : EndsEmpty (p :: q :: pieces) ↔ EndsEmpty (q :: pieces) := by
        simp only [EndsEmpty, List.getLast?_cons_cons]
      rw [trailing, ih]
      simp only [hiff]

/-- `vsprintf` leaves the text of the pieces with a NUL behind it, and returns its length. -/
def Renders (m : Mem) (pieces : List Piece) : Prop :=
  ∃ written m', vsprintf m (formatOf pieces) (argsOf pieces) = .ok (written, m') ∧
    (∀ j (hj : j < (textOf pieces).length), m' (BitVec.ofNat 32 j) = (textOf pieces)[j]) ∧
    m' (BitVec.ofNat 32 (textOf pieces).length) = 0 ∧
    written.toInt = (textOf pieces).length

/-- **`vsprintf` renders its format language but for a last empty string.** For every list of
pieces and every buffer that is zero where the text and its NUL go: `vsprintf` leaves the text
and a NUL and returns the length of the text if and only if that length is an `int` and the
format does not end with a `%s` whose string is empty. -/
theorem vsprintf_iff {m : Mem} {pieces : List Piece}
    (hzero : ∀ x : Word, x.toNat ≤ (textOf pieces).length → m x = 0) :
    Renders m pieces ↔ (textOf pieces).length ≤ 0x7FFFFFFF ∧ ¬ EndsEmpty pieces := by
  constructor
  · rintro ⟨written, m', hrun, -, hnul, hlength⟩
    have hfit : (textOf pieces).length ≤ 0x7FFFFFFF := by
      have := written.toInt_lt
      omega
    refine ⟨hfit, fun hempty => ?_⟩
    have hcells := congrArg List.length (Formatter.cellsOf_vsprintf pieces)
    rw [List.length_map] at hcells
    rw [vsprintf, Formatter.run_eq pieces (hzero 0 (Nat.zero_le _)) (by omega),
      Formatter.cellsOf_vsprintf, trailing_eq, if_pos hempty] at hrun
    obtain ⟨-, rfl⟩ := Prod.mk.inj (Except.ok.inj hrun)
    rw [Formatter.run_apply (by simp; omega) (by omega),
      List.getElem?_append_right (by simp)] at hnul
    simp [percent] at hnul
  · rintro ⟨hfit, hnonempty⟩
    have hcells := congrArg List.length (Formatter.cellsOf_vsprintf pieces)
    rw [List.length_map] at hcells
    refine ⟨_, _, Formatter.run_eq pieces (hzero 0 (Nat.zero_le _)) (by omega), fun j hj => ?_,
      ?_, ?_⟩
    · rw [Formatter.cellsOf_vsprintf, trailing_eq, if_neg hnonempty, List.append_nil,
        Formatter.run_apply (by simp; omega) (by omega)]
      simp [hj]
    · rw [Formatter.cellsOf_vsprintf, trailing_eq, if_neg hnonempty, List.append_nil,
        Formatter.run_apply (by simp; omega) (by omega)]
      have hlast : (BitVec.ofNat 32 (textOf pieces).length).toNat ≤ (textOf pieces).length := by
        rw [BitVec.toNat_ofNat]
        omega
      simp [hzero _ hlast]
    · rw [hcells, BitVec.toInt_eq_toNat_of_lt (by rw [BitVec.toNat_ofNat]; omega),
        BitVec.toNat_ofNat]
      omega

/-- The pieces of the format `n=%d, %x%%`. -/
def numberPieces : List Piece :=
  [.literal 0x6E (by decide), .literal 0x3D (by decide), .d (-12), .literal 0x2C (by decide),
    .literal 0x20 (by decide), .x 0xBEEF, .percent]

/-- The text `n=-12, 0xBEEF%`. -/
theorem vsprintf_numberPieces : Renders (fun _ => 0) numberPieces :=
  (vsprintf_iff fun _ _ => rfl).mpr ⟨by decide, by decide⟩

/-- The format `%s` with an empty string leaves its own `%` in the buffer. -/
theorem vsprintf_emptyString : ¬ Renders (fun _ => 0) [.s [] (by simp)] := by
  rintro ⟨written, m', hrun, -, hnul, -⟩
  have hcall : vsprintf (fun _ => 0) (formatOf [.s [] (by simp)]) (argsOf [.s [] (by simp)]) =
      .ok (0, store8 (fun _ => 0) 0 percent) := by
    have hclear : clearBuffer (2 ^ 32 + 1) (fun _ => 0) 0 = .ok fun _ => 0 := by
      rw [clearBuffer, if_neg (not_not.mpr rfl)]
    rw [vsprintf, Formatter.run, hclear]
    rfl
  rw [hcall] at hrun
  obtain ⟨-, rfl⟩ := Prod.mk.inj (Except.ok.inj hrun)
  have hleft : (store8 (fun _ => 0) 0 percent) 0 = 0 := hnul
  rw [store8_same] at hleft
  cases hleft

end Muk
