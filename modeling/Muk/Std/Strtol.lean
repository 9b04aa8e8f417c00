import Mathlib.Data.List.TakeWhile
import Mathlib.Order.Lattice
import Muk.Lib.Text
import Muk.Std.Digits

/-!
# strtol

`strtol` skips white space, takes a sign and a prefix, and accumulates digits as long as the
result is a `long`. The classes of characters are macros, and one of them is used in a place where
it would need parentheses: an upper-case letter ends the numeral.
-/

namespace Muk

/-! ## The function -/

/-- `isspace(c)` -/
def isspace (c : ℤ) : Bool := (9 ≤ c ∧ c ≤ 0x0D) ∨ c = 0x20

/-- `isupper(c) ? 'A' - 10 : 'a' - 10`. The macro ends in `?TRUE:FALSE` and has no parentheses
around it, so that the two constants are the branches of its `FALSE`. -/
def letterOffset (c : ℤ) : ℤ :=
  if 0x41 ≤ c ∧ c ≤ 0x5A then 1 else if (0 : ℤ) ≠ 0 then 0x41 - 10 else 0x61 - 10

/-- What a character counts as: `isdigit` and `isalpha`, which are used where they need no
parentheses. -/
def charDigit (c : ℤ) : Option ℤ :=
  if 0x30 ≤ c ∧ c ≤ 0x39 then some (c - 0x30)
  else if (0x41 ≤ c ∧ c ≤ 0x5A) ∨ (0x61 ≤ c ∧ c ≤ 0x7A) then some (c - letterOffset c)
  else none

/-- `*s`, which is a `signed char`. -/
def charAt (m : Cells) (s : ℕ) : Except ScanFault ℤ :=
  match m s with
  | none => .error .pageFault
  | some b => .ok b.toInt

/-- The loop over the white space: the character that is none, and the address behind it. -/
def skipSpaces (m : Cells) : ℕ → ℕ → Except ScanFault (ℤ × ℕ)
  | 0, _ => .error .diverges
  | fuel + 1, s => do
    let c ← charAt m s
    if isspace c then skipSpaces m fuel (s + 1) else .ok (c, s + 1)

/-- The sign. -/
def skipSign (m : Cells) (c : ℤ) (s : ℕ) : Except ScanFault (ℤ × ℕ) :=
  if c = 0x2D ∨ c = 0x2B then do
    let c ← charAt m s
    .ok (c, s + 1)
  else .ok (c, s)

/-- The prefix, and the base that it or the first digit stands for. -/
def skipPrefix (m : Cells) (base : ℤ) (c : ℤ) (s : ℕ) : Except ScanFault (ℤ × ℕ × ℤ) := do
  let hex ← if (base = 0 ∨ base = 16) ∧ c = 0x30 then do
      let x ← charAt m s
      .ok (decide (x = 0x78 ∨ x = 0x58))
    else .ok false
  if hex then do
    let c ← charAt m (s + 1)
    .ok (c, s + 2, 16)
  else .ok (c, s, if base = 0 then (if c = 0x30 then 8 else 10) else base)

/-- The largest magnitude of a `long` with the sign. -/
def longLimit (neg : Bool) : ℕ := if neg then 2 ^ 31 else 2 ^ 31 - 1

/-- `cutoff` and `cutlim`: the largest magnitude, divided by the base. -/
def cutoff (neg : Bool) (base : ℤ) : Word :=
  BitVec.ofNat 32 (longLimit neg) / BitVec.ofInt 32 base

def cutlim (neg : Bool) (base : ℤ) : ℤ :=
  (BitVec.ofNat 32 (longLimit neg) % BitVec.ofInt 32 base).toInt

/-- The part of the loop over the digits that takes one to `acc` and `any`. -/
def accumulate (neg : Bool) (base : ℤ) (r : Word × ℤ) (d : ℤ) : Word × ℤ :=
  if r.2 < 0 ∨ cutoff neg base < r.1 ∨ (r.1 = cutoff neg base ∧ cutlim neg base < d) then (r.1, -1)
  else (r.1 * BitVec.ofInt 32 base + BitVec.ofInt 32 d, 1)

/-- The loop over the digits: `acc` and `any`, and the address behind the character that is no
digit. -/
def strtolLoop (m : Cells) (neg : Bool) (base : ℤ) :
    ℕ → ℤ → ℕ → Word × ℤ → Except ScanFault ((Word × ℤ) × ℕ)
  | 0, _, _, _ => .error .diverges
  | fuel + 1, c, s, r =>
    match charDigit c with
    | none => .ok (r, s)
    | some d =>
      if base ≤ d then .ok (r, s)
      else do
        let c ← charAt m s
        strtolLoop m neg base fuel c (s + 1) (accumulate neg base r d)

/-- `strtol`: the number that it returns, and `*endptr`. -/
def strtol (m : Cells) (fuel nptr : ℕ) (base : ℤ) : Except ScanFault (Word × ℕ) := do
  let (c, s) ← skipSpaces m fuel nptr
  let neg := decide (c = 0x2D)
  let (c, s) ← skipSign m c s
  let (c, s, base) ← skipPrefix m base c s
  let (r, s) ← strtolLoop m neg base fuel c s (0, 0)
  let acc := if r.2 < 0 then (if neg then 0x80000000#32 else 0x7FFFFFFF#32)
    else if neg then -r.1 else r.1
  .ok (acc, if r.2 ≠ 0 then s - 1 else nptr)

/-! ## Numerals in a string -/

/-- `A` to `Z` -/
def isUpper (b : Byte) : Bool := 0x41 ≤ b ∧ b ≤ 0x5A

/-- The base of a numeral with a prefix, or without one. -/
def numeralBase (base : ℕ) (head digits : List Byte) : ℕ :=
  if head ≠ [] then 16
  else if base = 0 then (if digits.head? = some 0x30 then 8 else 10) else base

/-- A string with a numeral for `strtol`: white space, a sign, a prefix, digits, and a rest that
does not begin with one more digit. A zero is not taken for the numeral where it begins a prefix
with digits behind it. -/
structure NumeralText (base : ℕ) where
  spaces : List Byte
  sign : List Byte
  head : List Byte
  digits : List Byte
  rest : List Byte
  base_ok : base = 0 ∨ 2 ≤ base ∧ base ≤ 36
  spaces_ok : ∀ b ∈ spaces, isspace b.toInt
  sign_ok : sign = [] ∨ sign = [0x2D] ∨ sign = [0x2B]
  head_ok : head = [] ∨ (base = 0 ∨ base = 16) ∧ (head = [0x30, 0x78] ∨ head = [0x30, 0x58])
  digits_ne_nil : digits ≠ []
  digits_ok : ∀ b ∈ digits, ∃ d < numeralBase base head digits, digitValue b = some d
  rest_ok : ∀ b ∈ rest.head?, ∀ d, digitValue b = some d → numeralBase base head digits ≤ d
  longest : head = [] → base = 0 ∨ base = 16 → digits = [0x30] →
    ∀ x b rest', rest = x :: b :: rest' → x = 0x78 ∨ x = 0x58 → ∀ d, digitValue b = some d → 16 ≤ d

namespace NumeralText

variable {base : ℕ} (input : NumeralText base)

/-- The characters. -/
def text : List Byte :=
  input.spaces ++ (input.sign ++ (input.head ++ (input.digits ++ input.rest)))

/-- The base of the digits. -/
def digitBase : ℕ := numeralBase base input.head input.digits

/-- Whether the sign is a minus. -/
def neg : Bool := input.sign = [0x2D]

/-- The number that some digits stand for, with the sign of the numeral, as a `long`. -/
def valueOf (digits : List Byte) : Word :=
  let n : ℤ := ofNumeral digitNumber input.digitBase digits
  BitVec.ofInt 32 (max (-2 ^ 31) (min (if input.neg then -n else n) (2 ^ 31 - 1)))

/-- The digits that the loop takes. -/
def taken : List Byte := input.digits.takeWhile fun b => !isUpper b

end NumeralText

/-! ## Characters -/

variable {m : Cells} {p fuel : ℕ} {b : Byte} {text spaces digits rest : List Byte}

/-- The first character of a string, or the NUL. -/
def firstChar : List Byte → ℤ
  | [] => 0
  | b :: _ => b.toInt

/-- The first character of a text is read, which is a NUL if there is none. -/
theorem Text.charAt (h : Text m p text) : charAt m p = .ok (firstChar text) := by
  cases text with
  | nil => rw [Muk.charAt, text_nil.mp h]; rfl
  | cons b text => rw [Muk.charAt, h.1]; rfl

/-- A digit counts as its number, but for an upper-case letter. -/
theorem charDigit_toInt : ∀ b : Byte, charDigit b.toInt =
    if isUpper b then some ((b.toNat : ℤ) - 1) else (digitValue b).map fun d : ℕ => (d : ℤ) := by
  decide +kernel

/-- An upper-case letter is not below `A`. -/
theorem isUpper_toNat (h : isUpper b = true) : 0x41 ≤ b.toNat := by
  have hle := (of_decide_eq_true h).1
  rwa [BitVec.le_def] at hle

/-- A digit is neither a space nor a sign. -/
theorem ne_space_of_digit : ∀ b : Byte, ∀ d ∈ digitValue b, isspace b.toInt = false ∧
    b.toInt ≠ 0x2D ∧ b.toInt ≠ 0x2B := by
  decide +kernel

/-- The loop over the white space. -/
theorem skipSpaces_text (h : Text m p (spaces ++ text)) (hspaces : ∀ b ∈ spaces, isspace b.toInt)
    (hstop : isspace (firstChar text) = false) (hfuel : spaces.length < fuel) :
    skipSpaces m fuel p = .ok (firstChar text, p + spaces.length + 1) := by
  induction spaces generalizing p fuel with
  | nil =>
    obtain ⟨fuel, rfl⟩ := Nat.exists_eq_add_one_of_ne_zero (Nat.ne_of_gt hfuel)
    rw [skipSpaces, h.charAt, ok_bind]
    exact if_neg (by rw [List.nil_append, hstop]; exact Bool.false_ne_true)
  | cons b spaces ih =>
    rw [List.length_cons] at hfuel
    obtain ⟨fuel, rfl⟩ := Nat.exists_eq_add_one_of_ne_zero (by omega : fuel ≠ 0)
    rw [skipSpaces, h.charAt, ok_bind]
    refine (if_pos (hspaces b List.mem_cons_self)).trans ?_
    rw [ih h.2.2 (fun c hc => hspaces c (List.mem_cons_of_mem _ hc)) (by omega), List.length_cons,
      Nat.add_assoc p, Nat.add_comm 1]

/-- The loop of `strtol` adds up the digits of the base and stops at the first character that is
none. -/
theorem strtolLoop_text {neg : Bool} {base : ℕ} (h : Text m p (digits ++ rest))
    (hdigits : ∀ b ∈ digits, ∃ d < base, charDigit b.toInt = some (d : ℤ) ∧ digitNumber b = d)
    (hstop : ∀ d, charDigit (firstChar rest) = some d → (base : ℤ) ≤ d)
    (hfuel : digits.length < fuel) (r : Word × ℤ) :
    strtolLoop m neg base fuel (firstChar (digits ++ rest)) (p + 1) r =
      .ok (digits.foldl (fun r b => accumulate neg base r (digitNumber b)) r,
        p + digits.length + 1) := by
  induction digits generalizing p fuel r with
  | nil =>
    obtain ⟨fuel, rfl⟩ := Nat.exists_eq_add_one_of_ne_zero (Nat.ne_of_gt hfuel)
    rw [strtolLoop, List.nil_append]
    cases hc : charDigit (firstChar rest) with
    | none => rfl
    | some d => exact if_pos (hstop d hc)
  | cons b digits ih =>
    rw [List.length_cons] at hfuel
    obtain ⟨fuel, rfl⟩ := Nat.exists_eq_add_one_of_ne_zero (by omega : fuel ≠ 0)
    obtain ⟨d, hd, hc, hnumber⟩ := hdigits b List.mem_cons_self
    have htail : Text m (p + 1) (digits ++ rest) := h.2.2
    have hfuel' : digits.length < fuel := by omega
    have hrest := ih htail (fun c hc => hdigits c (List.mem_cons_of_mem _ hc)) hfuel'
      (accumulate neg base r d)
    rw [strtolLoop, List.cons_append, firstChar, hc]
    refine (if_neg (by omega)).trans ?_
    rw [htail.charAt, ok_bind, hrest, List.foldl_cons, hnumber, List.length_cons, Nat.add_assoc p,
      Nat.add_comm 1]

/-! ## Accumulation -/

/-- What `acc` and `any` say after some digits: their number, or that it is no `long`. -/
def Accumulated (neg : Bool) (n : ℕ) (r : Word × ℤ) : Prop :=
  (n ≤ longLimit neg ∧ r.1.toNat = n ∧ 0 ≤ r.2) ∨ (longLimit neg < n ∧ r.2 < 0)

/-- The limit is the greatest magnitude of a signed word. -/
theorem longLimit_le (neg : Bool) : longLimit neg ≤ 2 ^ 31 := by
  cases neg <;> decide

section Accumulate

variable {neg : Bool} {base n d : ℕ} {r : Word × ℤ}

/-- The limit is a 32-bit number. -/
theorem ofNat_longLimit (neg : Bool) : (BitVec.ofNat 32 (longLimit neg)).toNat = longLimit neg := by
  have hle := longLimit_le neg
  exact toNat_ofNat_of_lt (by omega)

/-- The cutoff is the limit divided by the base. -/
theorem cutoff_toNat (hbase : base ≤ 36) : (cutoff neg base).toNat = longLimit neg / base := by
  rw [cutoff, BitVec.ofInt_natCast, BitVec.toNat_udiv, ofNat_longLimit,
    toNat_ofNat_of_lt (by omega)]

/-- The last digit at the cutoff is the remainder of the limit. -/
theorem cutlim_eq (hpos : 0 < base) (hbase : base ≤ 36) :
    cutlim neg base = (longLimit neg % base : ℕ) := by
  have hmod := Nat.mod_lt (longLimit neg) hpos
  have hnat : (BitVec.ofNat 32 (longLimit neg) % BitVec.ofInt 32 (base : ℤ)).toNat =
      longLimit neg % base := by
    rw [BitVec.ofInt_natCast, BitVec.toNat_umod, ofNat_longLimit, toNat_ofNat_of_lt (by omega)]
  rw [cutlim, BitVec.toInt_eq_toNat_of_lt (by omega), hnat]

/-- One more digit keeps the accumulated number right, or remembers that it was out of range. -/
theorem Accumulated.step (h : Accumulated neg n r) (hd : d < base) (hbase : base ≤ 36) :
    Accumulated neg (n * base + d) (accumulate neg base r d) := by
  have hover : longLimit neg < n * base + d ↔ _ := lt_mul_add_iff hd
  have hlimit := longLimit_le neg
  rw [accumulate]
  rcases h with ⟨hn, hacc, hany⟩ | ⟨hn, hany⟩
  · have hcond : (r.2 < 0 ∨ cutoff neg base < r.1 ∨ (r.1 = cutoff neg base ∧ cutlim neg base < d)) ↔
        longLimit neg < n * base + d := by
      rw [hover, BitVec.lt_def, ← BitVec.toNat_inj, cutoff_toNat hbase,
        cutlim_eq (Nat.zero_lt_of_lt hd) hbase, hacc, Int.ofNat_lt]
      exact or_iff_right (by omega)
    by_cases hlarge : longLimit neg < n * base + d
    · rw [if_pos (hcond.mpr hlarge)]
      exact Or.inr ⟨hlarge, (by decide : (-1 : ℤ) < 0)⟩
    · rw [if_neg (mt hcond.mp hlarge)]
      refine Or.inl ⟨by omega, ?_, (by decide : (0 : ℤ) ≤ 1)⟩
      rw [BitVec.ofInt_natCast, BitVec.ofInt_natCast, BitVec.toNat_add, BitVec.toNat_mul, hacc,
        toNat_ofNat_of_lt (by omega : base < 2 ^ 32), toNat_ofNat_of_lt (by omega : d < 2 ^ 32),
        Nat.mod_eq_of_lt (by omega : n * base < 2 ^ 32), Nat.mod_eq_of_lt (by omega)]
  · rw [if_pos (Or.inl hany)]
    have hle := Nat.le_mul_of_pos_right n (Nat.zero_lt_of_lt hd)
    exact Or.inr ⟨by omega, (by decide : (-1 : ℤ) < 0)⟩

/-- Over all digits the loop accumulates the number that they are in the base. -/
theorem accumulated_foldl (hbase : base ≤ 36) (hdigits : ∀ b ∈ digits, digitNumber b < base) :
    Accumulated neg (ofNumeral digitNumber base digits)
      (digits.foldl (fun r b => accumulate neg base r (digitNumber b)) (0, 0)) := by
  induction digits using List.reverseRecOn with
  | nil => exact Or.inl ⟨Nat.zero_le _, rfl, Int.le_refl 0⟩
  | append_singleton digits b ih =>
    rw [List.foldl_append, ofNumeral_append_singleton]
    exact (ih fun c hc => hdigits c (List.mem_append_left _ hc)).step
      (hdigits b (List.mem_append_right _ (List.mem_singleton_self b))) hbase

/-- The number that is returned is the accumulated one with its sign, or the nearest that 32 bits
have. -/
theorem Accumulated.result (h : Accumulated neg n r) :
    (if r.2 < 0 then (if neg then 0x80000000#32 else 0x7FFFFFFF#32)
      else if neg then -r.1 else r.1) =
      BitVec.ofInt 32 (max (-2 ^ 31) (min (if neg then -(n : ℤ) else n) (2 ^ 31 - 1))) := by
  rcases h with ⟨hn, hacc, hany⟩ | ⟨hn, hany⟩
  · have hr : r.1 = BitVec.ofNat 32 n := by
      rw [← hacc, BitVec.ofNat_toNat, BitVec.setWidth_eq]
    rw [if_neg (by omega), hr]
    cases neg
    · have hsmall : max (-2 ^ 31) (min (n : ℤ) (2 ^ 31 - 1)) = n := by
        change n ≤ 2 ^ 31 - 1 at hn
        omega
      simp only [Bool.false_eq_true, if_false, hsmall, BitVec.ofInt_natCast]
    · have hsmall : max (-2 ^ 31) (min (-(n : ℤ)) (2 ^ 31 - 1)) = -n := by
        change n ≤ 2 ^ 31 at hn
        omega
      simp only [if_true, hsmall, BitVec.ofInt_neg, BitVec.ofInt_natCast]
  · rw [if_pos hany]
    cases neg
    · have hlarge : max (-2 ^ 31) (min (n : ℤ) (2 ^ 31 - 1)) = 2 ^ 31 - 1 := by
        change 2 ^ 31 - 1 < n at hn
        omega
      simp only [Bool.false_eq_true, if_false, hlarge]
      rfl
    · have hlarge : max (-2 ^ 31) (min (-(n : ℤ)) (2 ^ 31 - 1)) = -2 ^ 31 := by
        change 2 ^ 31 < n at hn
        omega
      simp only [if_true, hlarge]
      rfl

end Accumulate

/-! ## Parts of the string -/

/-- A character that is no digit of the base ends the loop, and so does an upper-case letter. -/
theorem stop_of_rest {base : ℕ} (hbase : base ≤ 36)
    (h : ∀ b ∈ rest.head?, isUpper b ∨ ∀ d, digitValue b = some d → base ≤ d) :
    ∀ d, charDigit (firstChar rest) = some d → (base : ℤ) ≤ d := by
  intro d hd
  cases rest with
  | nil =>
    have hnone : charDigit (firstChar []) = none := by decide
    rw [hnone] at hd
    exact absurd hd (by simp)
  | cons b rest =>
    rw [firstChar, charDigit_toInt] at hd
    split_ifs at hd with hupper
    · have hlow := isUpper_toNat hupper
      have hvalue := Option.some.inj hd
      omega
    · obtain ⟨e, he, rfl⟩ := Option.map_eq_some_iff.mp hd
      rcases h b rfl with hb | hb
      · exact absurd hb hupper
      · exact Int.ofNat_le.mpr (hb e he)

/-- A sign before the number is skipped, and the loop starts at the character behind it. -/
theorem skipSign_text {sign : List Byte} (h : Text m p (sign ++ text))
    (hsign : sign = [] ∨ sign = [0x2D] ∨ sign = [0x2B])
    (hfirst : firstChar text ≠ 0x2D ∧ firstChar text ≠ 0x2B) :
    skipSign m (firstChar (sign ++ text)) (p + 1) = .ok (firstChar text, p + sign.length + 1) := by
  have hnext : charAt m (p + sign.length) = .ok (firstChar text) := h.of_append.2.charAt
  rcases hsign with rfl | rfl | rfl
  · exact if_neg fun hor => hor.elim hfirst.1 hfirst.2
  · exact (if_pos (Or.inl rfl)).trans (congrArg (· >>= _) hnext)
  · exact (if_pos (Or.inr rfl)).trans (congrArg (· >>= _) hnext)

/-- The loop takes the digits before the first upper-case letter. -/
theorem strtolLoop_taken {neg : Bool} {base : ℕ} (h : Text m p (digits ++ rest)) (hbase : base ≤ 36)
    (hdigits : ∀ b ∈ digits, ∃ d < base, digitValue b = some d)
    (hrest : ∀ b ∈ rest.head?, ∀ d, digitValue b = some d → base ≤ d)
    (hfuel : digits.length < fuel) :
    ∃ r s, strtolLoop m neg base fuel (firstChar (digits ++ rest)) (p + 1) (0, 0) = .ok (r, s) ∧
      Accumulated neg (ofNumeral digitNumber base (digits.takeWhile fun b => !isUpper b)) r := by
  have hsplit : digits ++ rest = (digits.takeWhile fun b => !isUpper b) ++
      ((digits.dropWhile fun b => !isUpper b) ++ rest) := by
    rw [← List.append_assoc, List.takeWhile_append_dropWhile]
  have htaken : ∀ b ∈ digits.takeWhile fun b => !isUpper b,
      ∃ d < base, charDigit b.toInt = some (d : ℤ) ∧ digitNumber b = d := by
    intro b hb
    obtain ⟨d, hd, hvalue⟩ := hdigits b ((List.takeWhile_prefix _).subset hb)
    have hlower : isUpper b = false := by simpa using List.mem_takeWhile_imp hb
    refine ⟨d, hd, ?_, by rw [digitNumber, hvalue]; rfl⟩
    rw [charDigit_toInt, hlower, hvalue]
    rfl
  have hstop : ∀ d, charDigit (firstChar ((digits.dropWhile fun b => !isUpper b) ++ rest)) =
      some d → (base : ℤ) ≤ d := by
    apply stop_of_rest hbase
    intro b hb
    cases hdrop : digits.dropWhile fun b => !isUpper b with
    | nil =>
      rw [hdrop] at hb
      exact Or.inr (hrest b hb)
    | cons c dropped =>
      have hc := List.head?_dropWhile_not (fun b => !isUpper b) digits
      rw [hdrop] at hb hc
      obtain rfl : c = b := Option.some.inj hb
      exact Or.inl (by simpa using hc)
  have hlength : (digits.takeWhile fun b => !isUpper b).length ≤ digits.length :=
    (List.takeWhile_prefix _).length_le
  rw [hsplit] at h ⊢
  refine ⟨_, _, strtolLoop_text h htaken hstop (by omega) (0, 0), ?_⟩
  apply accumulated_foldl hbase
  intro b hb
  obtain ⟨d, hd, -, hnumber⟩ := htaken b hb
  rwa [hnumber]

namespace NumeralText

variable {base : ℕ} {input : NumeralText base}

/-- The base of the digits is one of 2 to 36. -/
theorem digitBase_le (input : NumeralText base) : 2 ≤ input.digitBase ∧ input.digitBase ≤ 36 := by
  have hbase := input.base_ok
  unfold digitBase numeralBase
  split_ifs <;> omega

/-- Without a prefix, the base is the one that the first digit stands for. -/
theorem digitBase_eq (hhead : input.head = []) : (input.digitBase : ℤ) =
    if (base : ℤ) = 0 then
      (if firstChar (input.digits ++ input.rest) = 0x30 then (8 : ℤ) else 10)
    else (base : ℤ) := by
  have hfirst : firstChar (input.digits ++ input.rest) = 0x30 ↔
      input.digits.head? = some 0x30 := by
    cases hdigits : input.digits with
    | nil => exact absurd hdigits input.digits_ne_nil
    | cons b digits =>
      rw [List.head?_cons, Option.some.injEq, ← BitVec.toInt_inj]
      exact Iff.rfl
  simp only [digitBase, numeralBase, hhead, ne_eq, not_true_eq_false, if_false, hfirst,
    Int.natCast_eq_zero]
  split_ifs <;> rfl

/-- The numeral begins with a digit, also where it has a prefix. -/
theorem firstChar_ne (input : NumeralText base) :
    isspace (firstChar (input.head ++ (input.digits ++ input.rest))) = false ∧
      firstChar (input.head ++ (input.digits ++ input.rest)) ≠ 0x2D ∧
      firstChar (input.head ++ (input.digits ++ input.rest)) ≠ 0x2B := by
  rcases input.head_ok with hhead | ⟨-, hhead | hhead⟩
  · rw [hhead, List.nil_append]
    cases hdigits : input.digits with
    | nil => exact absurd hdigits input.digits_ne_nil
    | cons b digits =>
      obtain ⟨d, -, hvalue⟩ := input.digits_ok b (by rw [hdigits]; exact List.mem_cons_self)
      exact ne_space_of_digit b d hvalue
  · rw [hhead]
    exact (by decide : isspace (0x30 : Byte).toInt = false ∧
      (0x30 : Byte).toInt ≠ 0x2D ∧ (0x30 : Byte).toInt ≠ 0x2B)
  · rw [hhead]
    exact (by decide : isspace (0x30 : Byte).toInt = false ∧
      (0x30 : Byte).toInt ≠ 0x2D ∧ (0x30 : Byte).toInt ≠ 0x2B)

/-- What is left for the loop after the prefix: digits whose number is that of the digits that it
takes, and a rest that ends the loop. -/
structure Left (input : NumeralText base) (m : Cells) (p' : ℕ) (digits rest : List Byte)
    (base' : ℕ) : Prop where
  text : Text m p' (digits ++ rest)
  base_le : base' ≤ 36
  digits_ok : ∀ b ∈ digits, ∃ d < base', digitValue b = some d
  rest_ok : ∀ b ∈ rest.head?, ∀ d, digitValue b = some d → base' ≤ d
  length : digits.length ≤ input.digits.length
  number : ofNumeral digitNumber base' (digits.takeWhile fun b => !isUpper b) =
    ofNumeral digitNumber input.digitBase input.taken

/-- All digits are left. -/
theorem left_self (h : Text m p (input.digits ++ input.rest)) :
    input.Left m p input.digits input.rest input.digitBase :=
  ⟨h, input.digitBase_le.2, input.digits_ok, input.rest_ok, Nat.le_refl _, rfl⟩

/-- Without a prefix, the digits are left. -/
theorem skipPrefix_none (hhead : input.head = []) (h : Text m p (input.digits ++ input.rest))
    (hx : ¬ (((base : ℤ) = 0 ∨ (base : ℤ) = 16) ∧
      firstChar (input.digits ++ input.rest) = 0x30 ∧
      ∃ x, charAt m (p + 1) = .ok x ∧ (x = 0x78 ∨ x = 0x58))) :
    skipPrefix m base (firstChar (input.digits ++ input.rest)) (p + 1) =
      .ok (firstChar (input.digits ++ input.rest), p + 1, (input.digitBase : ℤ)) := by
  rw [digitBase_eq hhead, skipPrefix]
  by_cases hzero : ((base : ℤ) = 0 ∨ (base : ℤ) = 16) ∧
      firstChar (input.digits ++ input.rest) = 0x30
  · cases hdigits : input.digits with
    | nil => exact absurd hdigits input.digits_ne_nil
    | cons b digits =>
      rw [hdigits] at h hx hzero
      have hrest : Text m (p + 1) (digits ++ input.rest) := h.2.2
      have hnext := hrest.charAt
      have hno : ¬ (firstChar (digits ++ input.rest) = 0x78 ∨
          firstChar (digits ++ input.rest) = 0x58) :=
        fun hx' => hx ⟨hzero.1, hzero.2, _, hnext, hx'⟩
      rw [if_pos hzero, hnext, ok_bind, ok_bind, decide_eq_false hno]
      rfl
  · rw [if_neg hzero, ok_bind]
    rfl

/-- A zero with an `x` behind it is the only digit, as `x` is no digit up to base sixteen. -/
theorem single_zero (h : Text m p (input.digits ++ input.rest)) (hle : input.digitBase ≤ 16)
    (hzero : firstChar (input.digits ++ input.rest) = 0x30) {x : ℤ}
    (hx : charAt m (p + 1) = .ok x) (hx' : x = 0x78 ∨ x = 0x58) :
    ∃ y rest, input.digits = [0x30] ∧ input.rest = y :: rest ∧ (y = 0x78 ∨ y = 0x58) := by
  have hletter {y : Byte} (hy : x = y.toInt) : y = 0x78 ∨ y = 0x58 := by
    rw [← BitVec.toInt_inj, ← BitVec.toInt_inj, ← hy]
    exact hx'
  cases hdigits : input.digits with
  | nil => exact absurd hdigits input.digits_ne_nil
  | cons b digits =>
    rw [hdigits] at h hzero
    have hb : b = 0x30 := BitVec.toInt_inj.mp hzero
    have hbehind : Text m (p + 1) (digits ++ input.rest) := h.2.2
    have hfirst : x = firstChar (digits ++ input.rest) :=
      Except.ok.inj (hx.symm.trans hbehind.charAt)
    cases digits with
    | nil =>
      cases hrest : input.rest with
      | nil =>
        rw [hrest] at hfirst
        exact absurd hx' (by rw [hfirst]; decide)
      | cons y rest =>
        rw [hrest] at hfirst
        exact ⟨y, rest, by rw [hb], rfl, hletter hfirst⟩
    | cons c digits =>
      obtain ⟨d, hd, hvalue⟩ := input.digits_ok c (by
        rw [hdigits]
        exact List.mem_cons_of_mem _ List.mem_cons_self)
      have hlarge : ∀ c : Byte, c = 0x78 ∨ c = 0x58 → digitValue c = some 33 := by decide
      rw [hlarge c (hletter hfirst)] at hvalue
      have hd' : d < input.digitBase := hd
      have hvalue' := Option.some.inj hvalue
      omega

/-- A zero with an `x` behind it is taken for a prefix, also where no digit of base sixteen
follows. -/
theorem skipPrefix_zero (hhead : input.head = []) (h : Text m p (input.digits ++ input.rest))
    (hbase : base = 0 ∨ base = 16) (hzero : firstChar (input.digits ++ input.rest) = 0x30)
    {x : ℤ} (hx : charAt m (p + 1) = .ok x) (hx' : x = 0x78 ∨ x = 0x58) :
    ∃ rest, skipPrefix m base (firstChar (input.digits ++ input.rest)) (p + 1) =
        .ok (firstChar rest, p + 3, 16) ∧ input.Left m (p + 2) [] rest 16 := by
  have hle : input.digitBase ≤ 16 := by
    unfold digitBase numeralBase
    split_ifs <;> omega
  obtain ⟨y, rest, hdigits, hrest, hy⟩ := single_zero h hle hzero hx hx'
  rw [hdigits, hrest] at h
  have hbase' : (base : ℤ) = 0 ∨ (base : ℤ) = 16 := by omega
  have htext : Text m (p + 2) rest := h.2.2.2.2
  refine ⟨rest, ?_, htext, by omega, fun b hb => absurd hb List.not_mem_nil, fun b hb d hd => ?_,
    Nat.zero_le _, ?_⟩
  · rw [skipPrefix, if_pos ⟨hbase', hzero⟩, hx, ok_bind, ok_bind, decide_eq_true hx']
    exact congrArg (· >>= _) htext.charAt
  · cases rest with
    | nil => exact absurd hb (by simp)
    | cons c rest =>
      obtain rfl : c = b := Option.some.inj hb
      exact input.longest hhead hbase hdigits y c rest hrest hy d hd
  · rw [taken, hdigits]
    have hone : ([0x30] : List Byte).takeWhile (fun b => !isUpper b) = [] ++ [0x30] := by decide
    rw [hone, ofNumeral_append_singleton, ofNumeral_nil, Nat.zero_mul]
    rfl

/-- A prefix that belongs to the base is skipped, and it determines the base where none was
given. -/
theorem skipPrefix_text (h : Text m p (input.head ++ (input.digits ++ input.rest))) :
    ∃ (p' : ℕ) (digits rest : List Byte) (base' : ℕ), skipPrefix m base
        (firstChar (input.head ++ (input.digits ++ input.rest))) (p + 1) =
          .ok (firstChar (digits ++ rest), p' + 1, (base' : ℤ)) ∧
      input.Left m p' digits rest base' := by
  rcases input.head_ok with hhead | ⟨hbase, hhead⟩
  · rw [hhead, List.nil_append] at h ⊢
    by_cases hx : ((base : ℤ) = 0 ∨ (base : ℤ) = 16) ∧
        firstChar (input.digits ++ input.rest) = 0x30 ∧
        ∃ x, charAt m (p + 1) = .ok x ∧ (x = 0x78 ∨ x = 0x58)
    · obtain ⟨hbase, hzero, x, hx, hx'⟩ := hx
      obtain ⟨rest, hrun, hleft⟩ :=
        skipPrefix_zero hhead h (by omega) hzero hx hx'
      exact ⟨p + 2, [], rest, 16, hrun, hleft⟩
    · exact ⟨p, _, _, _, skipPrefix_none hhead h hx, left_self h⟩
  · have hbase' : (base : ℤ) = 0 ∨ (base : ℤ) = 16 := by omega
    have hsixteen : input.digitBase = 16 := by
      apply if_pos
      rcases hhead with hhead | hhead
      · rw [hhead]
        exact List.cons_ne_nil _ _
      · rw [hhead]
        exact List.cons_ne_nil _ _
    have hleft : Text m (p + input.head.length) (input.digits ++ input.rest) := h.of_append.2
    have hx : ∃ x, (x = 0x78 ∨ x = 0x58) ∧ firstChar (input.head ++ (input.digits ++ input.rest)) =
        0x30 ∧ charAt m (p + 1) = .ok x ∧ input.head.length = 2 := by
      rcases hhead with hhead | hhead
      · rw [hhead] at h ⊢
        exact ⟨0x78, Or.inl rfl, rfl, Text.charAt h.2.2, rfl⟩
      · rw [hhead] at h ⊢
        exact ⟨0x58, Or.inr rfl, rfl, Text.charAt h.2.2, rfl⟩
    obtain ⟨x, hx', hzero, hx, hlength⟩ := hx
    rw [hlength] at hleft
    refine ⟨p + 2, input.digits, input.rest, 16, ?_, hsixteen ▸ left_self hleft⟩
    rw [hzero, skipPrefix, if_pos ⟨hbase', rfl⟩, hx, ok_bind, ok_bind, decide_eq_true hx',
      if_pos rfl]
    exact congrArg (· >>= _) hleft.charAt

/-- **What `strtol` returns**: the number of the digits before the first upper-case letter. -/
theorem strtol_taken (input : NumeralText base) (htext : Text m p input.text)
    (hfuel : input.text.length < fuel) :
    ∃ endptr, strtol m fuel p base = .ok (input.valueOf input.taken, endptr) := by
  obtain ⟨hspace, hsign⟩ := input.firstChar_ne
  simp only [text, List.length_append] at hfuel
  have hnoSpace : isspace (firstChar
      (input.sign ++ (input.head ++ (input.digits ++ input.rest)))) = false := by
    rcases input.sign_ok with h | h | h
    · rw [h]
      exact hspace
    · rw [h]
      exact (by decide : isspace (0x2D : Byte).toInt = false)
    · rw [h]
      exact (by decide : isspace (0x2B : Byte).toInt = false)
  have hspaces := skipSpaces_text htext input.spaces_ok hnoSpace (by omega : _ < fuel)
  have hsigned := skipSign_text htext.of_append.2 input.sign_ok hsign
  obtain ⟨p', digits, rest, base', hhead, hleft⟩ := skipPrefix_text htext.of_append.2.of_append.2
  have hlength := hleft.length
  obtain ⟨r, s, hloop, hr⟩ : ∃ r s, strtolLoop m input.neg base' fuel (firstChar (digits ++ rest))
      (p' + 1) (0, 0) = .ok (r, s) ∧ Accumulated input.neg (ofNumeral digitNumber base'
        (digits.takeWhile fun b => !isUpper b)) r :=
    strtolLoop_taken hleft.text hleft.base_le hleft.digits_ok hleft.rest_ok (by omega)
  have hneg : decide (firstChar
      (input.sign ++ (input.head ++ (input.digits ++ input.rest))) = 0x2D) = input.neg := by
    rcases input.sign_ok with h | h | h
    · rw [neg, h, List.nil_append, decide_eq_false hsign.1]
      rfl
    · rw [neg, h]
      rfl
    · rw [neg, h]
      rfl
  rw [hleft.number] at hr
  refine ⟨if r.2 ≠ 0 then s - 1 else p, ?_⟩
  rw [strtol, hspaces, ok_bind]
  simp only [hneg, hsigned, hhead, hloop, ok_bind, hr.result]
  rfl

/-- No digit is an upper-case letter, or the digits before the first one are no `long` already, or
the last one. -/
def Readable (input : NumeralText base) : Prop :=
  (∀ b ∈ input.digits, isUpper b = false) ∨
    longLimit input.neg ≤ ofNumeral digitNumber input.digitBase input.taken

instance (input : NumeralText base) : Decidable input.Readable :=
  inferInstanceAs (Decidable (_ ∨ _))

/-- The digits from an upper-case letter on make the number larger. -/
theorem taken_lt (h : ¬ ∀ b ∈ input.digits, isUpper b = false) :
    ofNumeral digitNumber input.digitBase input.taken <
      ofNumeral digitNumber input.digitBase input.digits := by
  have hbase := input.digitBase_le
  have hsplit : input.taken ++ input.digits.dropWhile (fun b => !isUpper b) = input.digits :=
    List.takeWhile_append_dropWhile
  cases hdrop : input.digits.dropWhile fun b => !isUpper b with
  | nil =>
    refine absurd (fun b hb => ?_) h
    rw [hdrop, List.append_nil] at hsplit
    rw [← hsplit] at hb
    simpa using List.mem_takeWhile_imp hb
  | cons b rest =>
    have hb := List.head?_dropWhile_not (fun b => !isUpper b) input.digits
    rw [hdrop] at hb hsplit
    have hupper : isUpper b = true := by simpa using hb
    have hten : ∀ b, isUpper b = true → 10 ≤ digitNumber b := by decide +kernel
    have hpower := Nat.pow_pos (n := rest.length) (by omega : 0 < input.digitBase)
    calc ofNumeral digitNumber input.digitBase input.taken
        < ofNumeral digitNumber input.digitBase input.taken * input.digitBase + digitNumber b := by
          have hle := Nat.le_mul_of_pos_right
            (ofNumeral digitNumber input.digitBase input.taken) (by omega : 0 < input.digitBase)
          have hb' := hten b hupper
          omega
      _ = ofNumeral digitNumber input.digitBase (input.taken ++ [b]) :=
          (ofNumeral_append_singleton b).symm
      _ ≤ ofNumeral digitNumber input.digitBase (input.taken ++ [b]) *
            input.digitBase ^ rest.length := Nat.le_mul_of_pos_right _ hpower
      _ ≤ ofNumeral digitNumber input.digitBase (input.taken ++ [b] ++ rest) :=
          Nat.le_trans (Nat.le_add_right _ _) (Nat.le_of_eq ofNumeral_append.symm)
      _ = ofNumeral digitNumber input.digitBase input.digits := by
          rw [List.append_assoc, List.singleton_append, hsplit]

/-- Different numbers are the same `long` where both are too large. -/
theorem valueOf_eq_iff {ds es : List Byte} (hlt : ofNumeral digitNumber input.digitBase ds <
    ofNumeral digitNumber input.digitBase es) : input.valueOf ds = input.valueOf es ↔
      longLimit input.neg ≤ ofNumeral digitNumber input.digitBase ds := by
  have hinj (i j : ℤ) : BitVec.ofInt 32 (max (-2 ^ 31) (min i (2 ^ 31 - 1))) =
      BitVec.ofInt 32 (max (-2 ^ 31) (min j (2 ^ 31 - 1))) ↔
        max (-2 ^ 31) (min i (2 ^ 31 - 1)) = max (-2 ^ 31) (min j (2 ^ 31 - 1)) := by
    have hself (i : ℤ) : (BitVec.ofInt 32 (max (-2 ^ 31) (min i (2 ^ 31 - 1)))).toInt =
        max (-2 ^ 31) (min i (2 ^ 31 - 1)) :=
      BitVec.toInt_ofInt_eq_self (by omega) (by omega) (by omega)
    constructor
    · intro h
      rw [← hself i, h, hself j]
    · exact congrArg _
  simp only [valueOf, hinj]
  cases input.neg
  · simp only [Bool.false_eq_true, if_false]
    change _ ↔ 2 ^ 31 - 1 ≤ _
    omega
  · simp only [if_true]
    change _ ↔ 2 ^ 31 ≤ _
    omega

/-- **`strtol` parses a numeral** exactly if none of its digits is an upper-case letter, unless the
digits before the first such letter exhaust the `long`. -/
theorem strtol_iff (input : NumeralText base) (htext : Text m p input.text)
    (hfuel : input.text.length < fuel) :
    (∃ endptr, strtol m fuel p base = .ok (input.valueOf input.digits, endptr)) ↔
      input.Readable := by
  obtain ⟨endptr, hrun⟩ := strtol_taken input htext hfuel
  have hiff : (∃ endptr, strtol m fuel p base = .ok (input.valueOf input.digits, endptr)) ↔
      input.valueOf input.taken = input.valueOf input.digits := by
    simp only [hrun, Except.ok.injEq, Prod.mk.injEq, exists_and_left, exists_eq', and_true]
  rw [hiff]
  by_cases hlower : ∀ b ∈ input.digits, isUpper b = false
  · have hall : input.taken = input.digits :=
      List.takeWhile_eq_self_iff.mpr fun b hb => by rw [hlower b hb]; rfl
    rw [hall]
    exact iff_of_true rfl (Or.inl hlower)
  · rw [valueOf_eq_iff (taken_lt hlower), Readable]
    exact (or_iff_right hlower).symm

/-- ` -0x7f,` -/
def lowerHex : NumeralText 0 where
  spaces := [0x20]
  sign := [0x2D]
  head := [0x30, 0x78]
  digits := [0x37, 0x66]
  rest := [0x2C]
  base_ok := Or.inl rfl
  spaces_ok := by decide
  sign_ok := by decide
  head_ok := by decide
  digits_ne_nil := List.cons_ne_nil _ _
  digits_ok := by decide
  rest_ok := by
    intro b hb d hd
    obtain rfl : 0x2C = b := Option.some.inj hb
    exact absurd hd (by simp [digitValue])
  longest := fun h => absurd h (List.cons_ne_nil _ _)

/-- A numeral in lower case, behind white space, a sign and a prefix. -/
theorem strtol_lowerHex : ∃ endptr,
    strtol (fun k => ([0x20, 0x2D, 0x30, 0x78, 0x37, 0x66, 0x2C, 0] : List Byte)[k]?) 8 0 0 =
      .ok (-127#32, endptr) := by
  have htext : Text (fun k => ([0x20, 0x2D, 0x30, 0x78, 0x37, 0x66, 0x2C, 0] : List Byte)[k]?) 0
      lowerHex.text := by
    simp [lowerHex, text, Text]
  have hvalue : lowerHex.valueOf lowerHex.digits = -127#32 := by decide +kernel
  obtain ⟨endptr, hrun⟩ := (strtol_iff lowerHex htext
    (by decide : lowerHex.text.length < 8)).mpr (by decide +kernel)
  rw [hvalue] at hrun
  exact ⟨endptr, hrun⟩

/-- `1F` -/
def upperHex : NumeralText 16 where
  spaces := []
  sign := []
  head := []
  digits := [0x31, 0x46]
  rest := []
  base_ok := by omega
  spaces_ok := by decide
  sign_ok := by decide
  head_ok := by decide
  digits_ne_nil := List.cons_ne_nil _ _
  digits_ok := by decide
  rest_ok := by
    intro b hb
    exact absurd hb (by simp)
  longest := fun _ _ h => absurd h (by decide)

/-- A numeral in upper case is read up to its first letter. -/
theorem strtol_upperHex : upperHex.valueOf upperHex.digits = 31#32 ∧
    strtol (fun k => ([0x31, 0x46, 0] : List Byte)[k]?) 3 0 16 = .ok (1#32, 1) ∧
    ¬ ∃ endptr, strtol (fun k => ([0x31, 0x46, 0] : List Byte)[k]?) 3 0 16 =
      .ok (upperHex.valueOf upperHex.digits, endptr) := by
  have hvalue : upperHex.valueOf upperHex.digits = 31#32 := by decide +kernel
  have hrun : strtol (fun k => ([0x31, 0x46, 0] : List Byte)[k]?) 3 0 16 = .ok (1#32, 1) := by
    decide +kernel
  refine ⟨hvalue, hrun, ?_⟩
  rintro ⟨endptr, h⟩
  rw [hvalue, hrun] at h
  exact absurd (Prod.mk.inj (Except.ok.inj h)).1 (by decide)

end NumeralText

end Muk
