import Muk.Lib.Cells
import Muk.Lib.Loop
import Muk.Lib.Numeral

/-!
# sprintf and vsprintf

The two formatters are one interpreter, but for what `%x` starts with and whether `%s` copies
its string. Each pass of its loop puts the next character of the format into the buffer before
it looks whether that character starts a directive. The buffer is memory by the offset from
the pointer `buffer`, and a string is the list of its characters before the NUL.
-/

namespace Muk

/-- `ldiv`: the operands are `unsigned long`, the fields of the result are `long`. -/
def ldiv (numer denom : Word) : Word × Word :=
  let quot := numer / denom
  let rem := numer % denom
  if numer ≠ 0 ∧ rem.slt 0 then (quot + 1, rem - denom) else (quot, rem)

/-- The digit that `ltoa` makes of a remainder. -/
def ltoaDigit (rem : Word) : Byte := (rem + if (9#32).slt rem then 0x37#32 else 0x30#32).setWidth 8

/-- The loop of `ltoa`, which fills the 65 characters of `buf` from their end. -/
def ltoaLoop (base : Word) : ℕ → BitVec 64 → List Byte → List Byte
  | 0, _, tail => tail
  | fuel + 1, uarg, tail =>
    if uarg = 0 then tail
    else
      let res := ldiv (uarg.setWidth 32) base
      ltoaLoop base fuel (res.1.signExtend 64) (ltoaDigit res.2 :: tail)

/-- The string that `ltoa` makes. -/
def ltoa (n : BitVec 64) (base : Word) : List Byte :=
  let base := if (36#32).slt base ∨ base.slt 2#32 then 10#32 else base
  let head : List Byte := if base = 10#32 then [0x2D] else []
  let uarg := if base = 10#32 then -n else n
  head ++ if uarg = 0 then [0x30] else ltoaLoop base 64 uarg []

/-- The digit that `itoa` makes of a remainder. -/
def itoaDigit (i : Word) : Byte := (i + if i.slt 10#32 then 0x30#32 else 0x57#32).setWidth 8

/-- The loop of `itoa`, which pushes the digits on the 16 characters of `tmp`. It makes at
least one. -/
def itoaLoop (radix : Word) : ℕ → Word → List Byte → List Byte
  | 0, _, tmp => tmp
  | fuel + 1, v, tmp =>
    if v ≠ 0 ∨ tmp = [] then itoaLoop radix fuel (v / radix) (itoaDigit (v % radix) :: tmp) else tmp

/-- The string that `itoa` makes. -/
def itoa (value radix : Word) : List Byte :=
  let sign := radix = 10#32 ∧ value.slt 0
  let v := if sign then -value else value
  (if sign then [0x2D] else []) ++ itoaLoop radix 16 v []

/-- `%` -/
def percent : Byte := 0x25

/-- An argument of a formatter. -/
inductive Arg where
  | int (v : Word)
  | string (text : List Byte)
  deriving DecidableEq

/-- Ways in which a formatter does not return: an argument that is not there or of another
type than its directive asks for, or a loop that goes on forever. -/
inductive FormatFault where
  | badArgument
  | diverges
  deriving DecidableEq

/-- `va_arg(parameters, int)` -/
def intArg : List Arg → Except FormatFault (Word × List Arg)
  | .int v :: args => .ok (v, args)
  | _ => .error .badArgument

/-- `va_arg(parameters, char*)` and `va_arg(parameters, std::string)` -/
def stringArg : List Arg → Except FormatFault (List Byte × List Arg)
  | .string text :: args => .ok (text, args)
  | _ => .error .badArgument

/-- The difference between the two formatters: what `%x` starts with, and whether `%s` copies
the string into the buffer. -/
structure Formatter where
  hexPrefix : List Byte
  copiesString : Bool

/-- The loop that sets the buffer to zero before any writing. -/
def clearBuffer : ℕ → Mem → Word → Except FormatFault Mem
  | 0, _, _ => .error .diverges
  | fuel + 1, m, i => if m i ≠ 0 then clearBuffer fuel (store8 m i 0) (i + 1#32) else .ok m

namespace Formatter

variable (F : Formatter)

/-- The loop over the format. -/
def formatLoop : ℕ → List Byte → List Arg → Mem → Word → Except FormatFault (Word × Mem)
  | _, [], _, m, written => .ok (written, m)
  | 0, _ :: _, _, _, _ => .error .diverges
  | fuel + 1, c :: format, args, m, written =>
    let maxrem := 0x7FFFFFFF#32 - written
    let m := store8 m written c
    if c ≠ percent ∨ format.head? = some percent then
      -- The second sign of `%%` counts as the first character of the text.
      let rest := if c = percent then format.tail else format
      let run := rest.takeWhile (· ≠ percent)
      let amount := BitVec.ofNat 32 (run.length + 1)
      let m := storeText m (written + 1#32) run
      if maxrem < amount then .ok (-1, m)
      else formatLoop fuel (rest.dropWhile (· ≠ percent)) args m (written + amount)
    else if format.head? = some 0x63 then do
      let (v, args) ← intArg args
      formatLoop fuel format.tail args (store8 m written (v.setWidth 8)) (written + 1#32)
    else if format.head? = some 0x78 then do
      let (v, args) ← intArg args
      let text := F.hexPrefix ++ ltoa (v.signExtend 64) 16#32
      formatLoop fuel format.tail args (storeText m written text)
        (written + BitVec.ofNat 32 text.length)
    else if format.head? = some 0x64 ∨ format.head? = some 0x69 then do
      let (v, args) ← intArg args
      let text := itoa v 10#32
      formatLoop fuel format.tail args (storeText m written text)
        (written + BitVec.ofNat 32 text.length)
    else if format.head? = some 0x73 then do
      let (text, args) ← stringArg args
      formatLoop fuel format.tail args (if F.copiesString then storeText m written text else m)
        (written + BitVec.ofNat 32 text.length)
    else
      -- No directive: `format` goes to the end of the string.
      .ok (written + BitVec.ofNat 32 (format.length + 1), m)

/-- A call of a formatter: the number that it returns, and the buffer. -/
def run (m : Mem) (format : List Byte) (args : List Arg) : Except FormatFault (Word × Mem) := do
  let m ← clearBuffer (2 ^ 32 + 1) m 0
  F.formatLoop format.length format args m 0

/-- The loop of `vsprintf` -/
def vsprintf : Formatter := { hexPrefix := [0x30, 0x78], copiesString := true }

/-- The loop of `sprintf` -/
def sprintf : Formatter := { hexPrefix := [], copiesString := false }

end Formatter

/-- `vsprintf` -/
def vsprintf : Mem → List Byte → List Arg → Except FormatFault (Word × Mem) :=
  Formatter.vsprintf.run

/-- `sprintf` -/
def sprintf : Mem → List Byte → List Arg → Except FormatFault (Word × Mem) := Formatter.sprintf.run

/-! ## Numbers -/

/-- A digit up to 15, in upper case. -/
def digitChar (d : ℕ) : Byte :=
  if d < 10 then BitVec.ofNat 8 (0x30 + d) else BitVec.ofNat 8 (0x37 + d)

/-- A signed number in decimal. -/
def decimal (i : ℤ) : List Byte :=
  (if i < 0 then [0x2D] else []) ++ numeral digitChar 10 i.natAbs

/-- The bit pattern of a word in hexadecimal. -/
def hexadecimal (v : Word) : List Byte := numeral digitChar 16 v.toNat

/-- The digits of `ltoa` in base sixteen. -/
theorem ltoaDigit_eq : ∀ n < 16, ltoaDigit (BitVec.ofNat 32 n) = digitChar n := by decide

/-- The digits of `itoa` in base ten. -/
theorem itoaDigit_eq : ∀ n < 10, itoaDigit (BitVec.ofNat 32 n) = digitChar n := by decide

/-- Division of words is that of their numbers. -/
theorem udiv_ofNat (v : Word) {n : ℕ} (hn : n < 2 ^ 32) :
    v / BitVec.ofNat 32 n = BitVec.ofNat 32 (v.toNat / n) := by
  apply BitVec.eq_of_toNat_eq
  have := Nat.div_le_self v.toNat n
  rw [BitVec.toNat_udiv, BitVec.toNat_ofNat, BitVec.toNat_ofNat, Nat.mod_eq_of_lt hn,
    Nat.mod_eq_of_lt (by omega)]

/-- The remainder of words is that of their numbers. -/
theorem umod_ofNat (v : Word) {n : ℕ} (hn : n < 2 ^ 32) :
    v % BitVec.ofNat 32 n = BitVec.ofNat 32 (v.toNat % n) := by
  apply BitVec.eq_of_toNat_eq
  have hle := Nat.mod_le v.toNat n
  rw [BitVec.toNat_umod, BitVec.toNat_ofNat, BitVec.toNat_ofNat, Nat.mod_eq_of_lt hn,
    Nat.mod_eq_of_lt (show v.toNat % n < 2 ^ 32 by omega)]

/-- `ldiv` by sixteen. The remainder is not negative. -/
theorem ldiv_sixteen (numer : Word) :
    ldiv numer 16#32 =
      (BitVec.ofNat 32 (numer.toNat / 16), BitVec.ofNat 32 (numer.toNat % 16)) := by
  have hpos : ∀ n < 16, (BitVec.ofNat 32 n).slt 0 = false := by decide
  simp only [ldiv, udiv_ofNat _ (by omega : 16 < 2 ^ 32), umod_ofNat _ (by omega : 16 < 2 ^ 32),
    hpos _ (Nat.mod_lt numer.toNat (by omega : 16 > 0)), Bool.false_eq_true, and_false, if_false]

/-- The quotient is not negative either. -/
theorem signExtend_quotient (w : Word) : (BitVec.ofNat 32 (w.toNat / 16)).signExtend 64 =
    BitVec.ofNat 64 (w.toNat / 16) := by
  have hlt := w.isLt
  rw [BitVec.signExtend_eq_setWidth_of_msb_false]
  · apply BitVec.eq_of_toNat_eq
    rw [BitVec.toNat_setWidth, BitVec.toNat_ofNat, BitVec.toNat_ofNat]
    omega
  · rw [BitVec.msb_eq_decide, decide_eq_false_iff_not, BitVec.toNat_ofNat]
    omega

/-- A pass of the loop of `ltoa`, on a number that is zero only if its lower half is. -/
theorem ltoaLoop_step {fuel : ℕ} {uarg : BitVec 64} {tail : List Byte} (hzero : uarg ≠ 0) :
    ltoaLoop 16#32 (fuel + 1) uarg tail =
      ltoaLoop 16#32 fuel (BitVec.ofNat 64 ((uarg.setWidth 32).toNat / 16))
        (digitChar ((uarg.setWidth 32).toNat % 16) :: tail) := by
  rw [ltoaLoop, if_neg hzero]
  simp only [ldiv_sixteen, signExtend_quotient, ltoaDigit_eq _ (Nat.mod_lt _ (by omega : 16 > 0))]

/-- A number that is not zero, as 64 bits. -/
theorem ofNat_64_ne_zero {n : ℕ} (hzero : n ≠ 0) (hn : n < 2 ^ 32) : BitVec.ofNat 64 n ≠ 0 := by
  intro h
  have hnat := congrArg BitVec.toNat h
  rw [BitVec.toNat_ofNat] at hnat
  change n % 2 ^ 64 = 0 at hnat
  omega

/-- A number of 32 bits survives in 64 bits. -/
theorem setWidth_ofNat_64 {n : ℕ} (hn : n < 2 ^ 32) :
    ((BitVec.ofNat 64 n).setWidth 32).toNat = n := by
  rw [BitVec.toNat_setWidth, BitVec.toNat_ofNat]
  omega

/-- The loop of `ltoa` in base sixteen, on a number below `2 ^ 32`. -/
theorem ltoaLoop_eq (fuel : ℕ) {n : ℕ} (hn : n < 2 ^ 32) (tail : List Byte) :
    ltoaLoop 16#32 fuel (BitVec.ofNat 64 n) tail = digitLoop digitChar 16 fuel n tail := by
  induction fuel generalizing n tail with
  | zero => rfl
  | succ fuel ih =>
    by_cases hzero : n = 0
    · subst hzero
      rfl
    · rw [ltoaLoop_step (ofNat_64_ne_zero hzero hn), setWidth_ofNat_64 hn, ih (by omega), digitLoop,
        if_neg hzero]

/-- The lower half of a number that is extended by its sign. -/
theorem setWidth_signExtend (v : Word) : (v.signExtend 64).setWidth 32 = v := by
  apply BitVec.eq_of_getLsbD_eq
  intro i hi
  have hi' : i < 64 := by omega
  simp only [BitVec.getLsbD_setWidth, BitVec.getLsbD_signExtend, hi, hi', decide_true,
    Bool.true_and, if_true]

/-- A signed extension is zero exactly if the word is. -/
theorem signExtend_eq_zero_iff {v : Word} : v.signExtend 64 = 0 ↔ v.toNat = 0 := by
  constructor
  · intro h
    have hv : v = 0 := by rw [← setWidth_signExtend v, h]; rfl
    rw [hv]
    rfl
  · intro h
    rw [show v = 0 from BitVec.eq_of_toNat_eq h]
    rfl

/-- `ltoa(value, buffer, 16)` for an `int`, which is extended by its sign. -/
theorem ltoa_hex (v : Word) : ltoa (v.signExtend 64) 16#32 = hexadecimal v := by
  have hbase : ltoa (v.signExtend 64) 16#32 =
      if v.signExtend 64 = 0 then [0x30] else ltoaLoop 16#32 64 (v.signExtend 64) [] := rfl
  rw [hbase, hexadecimal]
  by_cases hzero : v.signExtend 64 = 0
  · rw [if_pos hzero, signExtend_eq_zero_iff.mp hzero]
    rfl
  · have hv : v.toNat ≠ 0 := mt signExtend_eq_zero_iff.mpr hzero
    have hlt := v.isLt
    have hrun : digitLoop digitChar 16 64 v.toNat [] = numeral digitChar 16 v.toNat :=
      digitLoop_eq_numeral (by omega) (by omega) hv
    rw [if_neg hzero, ltoaLoop_step hzero, setWidth_signExtend, ltoaLoop_eq _ (by omega), ← hrun]
    conv_rhs => rw [digitLoop, if_neg hv]

/-- The loop of `itoa` in base ten, after its first pass. -/
theorem itoaLoop_eq (fuel : ℕ) {n : ℕ} (hn : n < 2 ^ 32) {tail : List Byte}
    (h : n ≠ 0 ∨ tail ≠ []) :
    itoaLoop 10#32 fuel (BitVec.ofNat 32 n) tail = digitLoop digitChar 10 fuel n tail := by
  induction fuel generalizing n tail with
  | zero => rfl
  | succ fuel ih =>
    have hnat : (BitVec.ofNat 32 n).toNat = n := toNat_ofNat_of_lt (by omega)
    by_cases hzero : n = 0
    · subst hzero
      have htail : tail ≠ [] := h.resolve_left fun hne => hne rfl
      rw [itoaLoop, if_neg fun hmore => hmore.elim (fun hne => hne rfl) htail, digitLoop,
        if_pos rfl]
    · have hne : BitVec.ofNat 32 n ≠ 0 := by
        intro h
        have := congrArg BitVec.toNat h
        rw [hnat] at this
        exact hzero this
      rw [itoaLoop, if_pos (Or.inl hne), digitLoop, if_neg hzero, udiv_ofNat _ (by omega),
        umod_ofNat _ (by omega), hnat, itoaDigit_eq _ (Nat.mod_lt _ (by omega)), ih (by omega)]
      exact Or.inr (List.cons_ne_nil _ _)

/-- The loop of `itoa` makes the decimal numeral of a word, digit by digit from its end. -/
theorem itoaLoop_numeral (v : Word) : itoaLoop 10#32 16 v [] = numeral digitChar 10 v.toNat := by
  have hlt := v.isLt
  by_cases hzero : v.toNat = 0
  · rw [show v = 0 from BitVec.eq_of_toNat_eq hzero]
    rfl
  · have hrun : itoaLoop 10#32 16 (BitVec.ofNat 32 v.toNat) [] =
        digitLoop digitChar 10 16 v.toNat [] := itoaLoop_eq 16 hlt (Or.inl hzero)
    rw [BitVec.ofNat_toNat, BitVec.setWidth_eq] at hrun
    rw [hrun, digitLoop_eq_numeral (by omega) (by omega) hzero]

/-- `itoa(value, buffer, 10)`. The magnitude of the least number is right as an `unsigned`. -/
theorem itoa_decimal (v : Word) : itoa v 10#32 = decimal v.toInt := by
  have hlt := v.isLt
  have hbase : itoa v 10#32 = (if v.slt 0 then [0x2D] else []) ++
      itoaLoop 10#32 16 (if v.slt 0 then -v else v) [] := by
    simp only [itoa, true_and]
  have hsign : v.slt 0 = decide (v.toInt < 0) := BitVec.slt_eq_decide
  rw [hbase, itoaLoop_numeral, decimal, hsign]
  by_cases hneg : v.toInt < 0
  · have habs : (-v).toNat = v.toInt.natAbs := by
      rw [BitVec.toInt_eq_toNat_cond] at hneg ⊢
      split_ifs at hneg ⊢ with hhalf
      · omega
      · rw [BitVec.toNat_neg]
        omega
    simp only [hneg, decide_true, if_true, habs]
  · have habs : v.toNat = v.toInt.natAbs := by
      rw [BitVec.toInt_eq_toNat_cond] at hneg ⊢
      split_ifs at hneg ⊢ with hhalf
      · omega
      · omega
    simp only [hneg, decide_false, Bool.false_eq_true, if_false, habs]

end Muk
