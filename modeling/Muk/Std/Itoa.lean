import Muk.Lib.Arrays
import Muk.Std.Digits
import Muk.Std.Format

/-!
# itoa

`itoa` pushes the digits of its number on 16 characters of scratch, and copies them to the
buffer from the last one down, behind the sign. There is room for the digits of every number
from base four on.
-/

namespace Muk

variable {base room n : ℕ} {tail : List Byte}

/-- The loop of `itoa` with the room that is left on `tmp`, the last character first. It makes
at least one digit. -/
def itoaPush (radix : Word) : ℕ → Word → List Byte → Except ArrayFault (List Byte)
  | 0, v, tmp => if v ≠ 0 ∨ tmp = [] then .error .outOfBounds else .ok tmp
  | room + 1, v, tmp =>
    if v ≠ 0 ∨ tmp = [] then itoaPush radix room (v / radix) (itoaDigit (v % radix) :: tmp)
    else .ok tmp

/-- `itoa`: the length that it returns, and memory. -/
def itoaWrite (m : Mem) (value sp radix : Word) : Except ArrayFault (Word × Mem) := do
  let sign := radix = 10#32 ∧ value.slt 0
  let v := if sign then -value else value
  let tmp ← itoaPush radix 16 v []
  let len := BitVec.ofNat 32 tmp.length
  let len := if sign then len + 1#32 else len
  let (m, sp) := if sign then (store8 m sp 0x2D, sp + 1#32) else (m, sp)
  let m := storeText m sp tmp
  .ok (len, store8 m (sp + BitVec.ofNat 32 tmp.length) 0)

/-! ## The string -/

/-- The sign is written in base ten only. -/
def itoaSigned (value radix : Word) : Prop := radix = 10#32 ∧ value.toInt < 0

instance (value radix : Word) : Decidable (itoaSigned value radix) :=
  inferInstanceAs (Decidable (_ ∧ _))

/-- The number whose digits are written. -/
def itoaMagnitude (value radix : Word) : ℕ :=
  if itoaSigned value radix then value.toInt.natAbs else value.toNat

/-- The digits. -/
def itoaDigits (value radix : Word) : List Byte :=
  numeral lowerDigit radix.toNat (itoaMagnitude value radix)

/-- The sign and the digits. -/
def itoaText (value radix : Word) : List Byte :=
  (if itoaSigned value radix then [0x2D] else []) ++ itoaDigits value radix

/-- The digits of `itoa`. -/
theorem itoaDigit_eq_lowerDigit : ∀ d < 36, itoaDigit (BitVec.ofNat 32 d) = lowerDigit d := by
  decide

/-- The loop of `itoa` makes the digits of a number that has room for them. -/
theorem itoaPush_eq (hbase : 4 ≤ base) (hmax : base ≤ 36) (hn : n < base ^ room)
    (hword : n < 2 ^ 32) (h : n ≠ 0 ∨ tail ≠ []) :
    itoaPush (BitVec.ofNat 32 base) room (BitVec.ofNat 32 n) tail =
      .ok (digitLoop lowerDigit base room n tail) := by
  induction room generalizing n tail with
  | zero =>
    obtain rfl : n = 0 := by simpa using hn
    have htail : tail ≠ [] := h.resolve_left fun hne => hne rfl
    exact if_neg fun hmore => hmore.elim (fun hne => hne rfl) htail
  | succ room ih =>
    by_cases hzero : n = 0
    · subst hzero
      have htail : tail ≠ [] := h.resolve_left fun hne => hne rfl
      exact if_neg fun hmore => hmore.elim (fun hne => hne rfl) htail
    · have hnat : (BitVec.ofNat 32 n).toNat = n := toNat_ofNat_of_lt hword
      have hne : BitVec.ofNat 32 n ≠ 0 := fun heq => hzero (by rw [← hnat, heq]; rfl)
      have hdiv : n / base < base ^ room := by
        rw [Nat.div_lt_iff_lt_mul (by omega)]
        rwa [pow_succ] at hn
      have hless : n / base < 2 ^ 32 := Nat.lt_of_le_of_lt (Nat.div_le_self n base) hword
      have hdigit : n % base < 36 := Nat.lt_of_lt_of_le (Nat.mod_lt n (by omega)) hmax
      rw [itoaPush, if_pos (Or.inl hne), udiv_ofNat _ (by omega), umod_ofNat _ (by omega), hnat,
        itoaDigit_eq_lowerDigit _ hdigit, ih hdiv hless (Or.inr (List.cons_ne_nil _ _)), digitLoop,
        if_neg hzero]

/-- The digits of any number in a base from four on fit into the scratch buffer. -/
theorem itoaPush_numeral {radix : Word} (hlow : 4 ≤ radix.toNat) (hhigh : radix.toNat ≤ 36)
    (v : Word) : itoaPush radix 16 v [] = .ok (numeral lowerDigit radix.toNat v.toNat) := by
  have hword := v.isLt
  have hroom : v.toNat < radix.toNat ^ 16 :=
    Nat.lt_of_lt_of_le hword (Nat.pow_le_pow_left hlow 16)
  by_cases hzero : v.toNat = 0
  · obtain rfl : v = 0 := BitVec.eq_of_toNat_eq hzero
    have hdiv : (0 : Word) / radix = 0 := BitVec.zero_udiv
    have hmod : (0 : Word) % radix = 0 := BitVec.zero_umod
    rw [itoaPush, if_pos (Or.inr rfl), hdiv, hmod]
    rfl
  · have hrun : itoaPush (BitVec.ofNat 32 radix.toNat) 16 (BitVec.ofNat 32 v.toNat) [] = _ :=
      itoaPush_eq hlow hhigh hroom hword (Or.inl hzero)
    rw [BitVec.ofNat_toNat, BitVec.setWidth_eq, BitVec.ofNat_toNat, BitVec.setWidth_eq] at hrun
    rw [hrun, digitLoop_eq_numeral (by omega) hroom hzero]

/-- The code's test of the sign is whether the number is negative in base ten. -/
theorem itoaSigned_iff {value radix : Word} :
    (radix = 10#32 ∧ value.slt 0) ↔ itoaSigned value radix := by
  rw [itoaSigned, BitVec.slt_iff_toInt_lt]
  rfl

/-- The magnitude is right as an `unsigned`, also for the least number. -/
theorem itoaMagnitude_eq (value radix : Word) :
    (if itoaSigned value radix then -value else value).toNat = itoaMagnitude value radix := by
  have hlt := value.isLt
  unfold itoaMagnitude
  split_ifs with hsigned
  · have hneg := hsigned.2
    rw [BitVec.toInt_eq_toNat_cond] at hneg ⊢
    rw [BitVec.toNat_neg]
    split_ifs at hneg ⊢ <;> omega
  · rfl

/-- `itoa` writes its text with a NUL behind it, and returns the length of the text. -/
theorem itoaWrite_eq (m : Mem) (value sp : Word) {radix : Word} (hlow : 4 ≤ radix.toNat)
    (hhigh : radix.toNat ≤ 36) : itoaWrite m value sp radix =
      .ok (BitVec.ofNat 32 (itoaText value radix).length,
        storeText m sp (itoaText value radix ++ [0])) := by
  have hpush := itoaPush_numeral hlow hhigh (if itoaSigned value radix then -value else value)
  rw [itoaMagnitude_eq] at hpush
  simp only [itoaWrite, itoaSigned_iff, hpush, ok_bind, itoaText, itoaDigits]
  generalize numeral lowerDigit radix.toNat (itoaMagnitude value radix) = digits
  split_ifs
  · simp only [List.cons_append, List.nil_append, List.length_cons, BitVec.ofNat_add]
    rw [storeText, storeText_append]
    rfl
  · simp only [List.nil_append]
    rw [storeText_append]
    rfl

/-- The scratch buffer does not stop the loop that makes the string for a formatter. -/
theorem itoaLoop_of_push {radix v : Word} {digits : List Byte}
    (h : itoaPush radix room v tail = .ok digits) : itoaLoop radix room v tail = digits := by
  induction room generalizing v tail with
  | zero =>
    rw [itoaPush] at h
    split_ifs at h
    exact Except.ok.inj h
  | succ room ih =>
    rw [itoaPush] at h
    rw [itoaLoop]
    split_ifs at h ⊢
    · exact ih h
    · exact Except.ok.inj h

/-- The string that a formatter gets is the one that is written. -/
theorem itoa_eq_itoaText {value radix : Word} (hlow : 4 ≤ radix.toNat) (hhigh : radix.toNat ≤ 36) :
    itoa value radix = itoaText value radix := by
  have hloop := itoaLoop_of_push (itoaPush_numeral hlow hhigh
    (if itoaSigned value radix then -value else value))
  rw [itoaMagnitude_eq] at hloop
  simp only [itoa, itoaSigned_iff, hloop, itoaText, itoaDigits]

/-- Reading the digits of `itoa` back in the same base gives the magnitude of the number. -/
theorem ofNumeral_itoaDigits {value radix : Word} (hlow : 4 ≤ radix.toNat)
    (hhigh : radix.toNat ≤ 36) :
    ofNumeral digitNumber radix.toNat (itoaDigits value radix) = itoaMagnitude value radix :=
  ofNumeral_numeral (by omega) (fun d hd => digitNumber_lowerDigit d (by omega)) _

/-- The sign and the magnitude give the number again. -/
theorem ofInt_itoaMagnitude (value radix : Word) : BitVec.ofInt 32
    (if itoaSigned value radix then -(itoaMagnitude value radix : ℤ)
      else itoaMagnitude value radix) = value := by
  unfold itoaMagnitude
  split_ifs with hsigned
  · have habs : -(value.toInt.natAbs : ℤ) = value.toInt := by
      have hneg := hsigned.2
      omega
    rw [habs, BitVec.ofInt_toInt]
  · rw [BitVec.ofInt_natCast, BitVec.ofNat_toNat, BitVec.setWidth_eq]

/-- **`itoa` writes the canonical numeral** of its number, without leaving the scratch buffer, and
returns its length. The first digit is zero for the number zero only, and the digits with their
sign are read as the number again. -/
theorem itoa_canonical (m : Mem) (value sp : Word) {radix : Word} (hlow : 4 ≤ radix.toNat)
    (hhigh : radix.toNat ≤ 36) :
    itoaWrite m value sp radix = .ok (BitVec.ofNat 32 (itoaText value radix).length,
        storeText m sp (itoaText value radix ++ [0])) ∧
      (∀ b ∈ itoaDigits value radix, ∃ d < radix.toNat, b = lowerDigit d) ∧
      (itoaMagnitude value radix = 0 → itoaDigits value radix = [0x30]) ∧
      (itoaMagnitude value radix ≠ 0 → (itoaDigits value radix).head? ≠ some 0x30) ∧
      BitVec.ofInt 32 (if itoaSigned value radix
        then -(ofNumeral digitNumber radix.toNat (itoaDigits value radix) : ℤ)
        else ofNumeral digitNumber radix.toNat (itoaDigits value radix)) = value := by
  refine ⟨itoaWrite_eq m value sp hlow hhigh, fun b hb => mem_numeral (by omega) hb,
    fun hzero => ?_, fun hzero => ?_, ?_⟩
  · rw [itoaDigits, hzero]
    rfl
  · apply head?_numeral_ne (by omega) hzero
    · exact fun d hd => digitNumber_lowerDigit d (by omega)
    · decide
  · rw [ofNumeral_itoaDigits hlow hhigh]
    exact ofInt_itoaMagnitude value radix

/-- The least number, which has no positive counterpart, is written with its sign and its ten
digits. -/
theorem itoa_canonical_least :
    itoaWrite (fun _ => 0) 0x80000000#32 0 10#32 = .ok (11#32, storeText (fun _ => 0) 0
      [0x2D, 0x32, 0x31, 0x34, 0x37, 0x34, 0x38, 0x33, 0x36, 0x34, 0x38, 0]) := by
  have htext : itoaText 0x80000000#32 10#32 =
      [0x2D, 0x32, 0x31, 0x34, 0x37, 0x34, 0x38, 0x33, 0x36, 0x34, 0x38] := by decide +kernel
  have h := (itoa_canonical (fun _ => 0) 0x80000000#32 0 (by decide : 4 ≤ (10#32).toNat)
    (by decide)).1
  rw [htext] at h
  exact h

end Muk
