import Muk.Std.FormatText

/-!
# How far vsprintf writes

`vsprintf` is not told the size of its buffer. What it writes is counted here along the format, for
whatever format and arguments; the buffer is kept if and only if the count fits. The other direction
uses a byte behind the buffer: once it is written, its old content no longer matters.
-/

namespace Muk

/-- What a directive prints of an argument. -/
def directiveText (d : Byte) : Arg → Option (List Byte)
  | .int v =>
    if d = 0x63 then some [v.setWidth 8]
    else if d = 0x78 then some ([0x30, 0x78] ++ hexadecimal v)
    else if d = 0x64 ∨ d = 0x69 then some (decimal v.toInt)
    else none
  | .string text => if d = 0x73 then some text else none

/-- `%c`, `%x`, `%d`, `%i` and `%s` -/
def directives : List Byte := [0x63, 0x78, 0x64, 0x69, 0x73]

/-- How many characters a format prints with some arguments, if they match. A percent sign that
starts no directive is the last one, and a directive that prints nothing leaves its own sign unless
something is printed after it. -/
def extent : List Byte → List Arg → Option ℕ
  | [], _ => some 0
  | c :: format, args =>
    if c ≠ percent then (extent format args).map (1 + ·)
    else match format with
      | [] => some 1
      | d :: format =>
        if d = percent then (extent format args).map (1 + ·)
        else if d ∈ directives then
          match args with
          | [] => none
          | arg :: args => (directiveText d arg).bind fun text =>
            (extent format args).map fun n => max 1 (text.length + n)
        else some 1

/-- An array on the stack. No object has more than `PTRDIFF_MAX` bytes. -/
structure TempBuffer where
  size : ℕ
  size_le : size ≤ 0x7FFFFFFF

namespace TempBuffer

/-- `char temp_buffer[size] = {0}` -/
def clear (b : TempBuffer) (m : Mem) : Mem := fun x => if x.toNat < b.size then 0 else m x

/-- `vsprintf` returns, and leaves everything behind the buffer as it was. -/
def StaysInside (b : TempBuffer) (format : List Byte) (args : List Arg) : Prop :=
  ∀ m, ∃ written m', vsprintf (b.clear m) format args = .ok (written, m') ∧
    ∀ x : Word, b.size ≤ x.toNat → m' x = m x

end TempBuffer

/-- `temp_buffer` of `terminal_printf`, `terminal_printf_rgba` and `bcprintf`. -/
def printfBuffer : TempBuffer := ⟨80, by decide⟩

/-- `"%s: command not found\n"`, the format in `parse`. -/
def commandNotFound : List Byte :=
  [0x25, 0x73, 0x3A, 0x20, 0x63, 0x6F, 0x6D, 0x6D, 0x61, 0x6E, 0x64, 0x20, 0x6E, 0x6F, 0x74, 0x20,
    0x66, 0x6F, 0x75, 0x6E, 0x64, 0x0A]

/-! ## Writing a text -/

section StoreText

variable {m m' : Mem} {k x y : Word} {text : List Byte}

/-- What is behind a text. -/
theorem storeText_frame (hlength : text.length ≤ 2 ^ 32) (h : text.length ≤ (x - k).toNat) :
    storeText m k text x = m x := by
  rw [storeText_eq, storeCells_apply (by rwa [List.length_map]),
    List.getElem?_eq_none (by rwa [List.length_map])]
  rfl

/-- Memories that differ in one byte still do so in no other one. -/
theorem store8_agree (h : ∀ x ≠ y, m x = m' x) (b : Byte) :
    ∀ x ≠ y, store8 m k b x = store8 m' k b x := by
  intro x hx
  unfold store8
  rw [h x hx]

/-- Storing a text keeps two memories equal but for one address. -/
theorem storeText_agree (h : ∀ x ≠ y, m x = m' x) :
    ∀ x ≠ y, storeText m k text x = storeText m' k text x := by
  induction text generalizing m m' k with
  | nil => exact h
  | cons b text ih => exact ih (store8_agree h b)

/-- The byte in which they differ is overwritten. -/
theorem store8_eq (h : ∀ x ≠ k, m x = m' x) (b : Byte) : store8 m k b = store8 m' k b := by
  funext x
  by_cases hx : x = k
  · rw [hx, store8_same, store8_same]
  · exact store8_agree h b x hx

/-- Storing a text over the address in which two memories differ makes them equal. -/
theorem storeText_covers (h : ∀ x ≠ y, m x = m' x) (hy : (y - k).toNat < text.length) :
    storeText m k text = storeText m' k text := by
  induction text generalizing m m' k with
  | nil => exact absurd hy (Nat.not_lt_zero _)
  | cons b text ih =>
    by_cases hyk : y = k
    · subst hyk
      rw [storeText, storeText, store8_eq h]
    · rw [List.length_cons] at hy
      exact ih (store8_agree h b) (by bv_omega)

end StoreText

/-! ## Passes of the loop -/

open Formatter

variable {fuel n w : ℕ} {c : Byte} {format : List Byte} {args : List Arg} {m m' : Mem} {k y : Word}

/-- A literal takes one character of the buffer. -/
theorem extent_literal (hc : c ≠ percent) :
    extent (c :: format) args = (extent format args).map (1 + ·) := by
  cases format with
  | nil => simp [extent, hc]
  | cons d format => simp [extent, hc]

/-- Two percent signs take one character of the buffer. -/
theorem extent_percent : extent (percent :: percent :: format) args =
    (extent format args).map (1 + ·) := by
  simp [extent]

/-- The literals at the start of a format. -/
theorem extent_literals (format : List Byte) (args : List Arg) :
    extent format args = (extent (format.dropWhile (· ≠ percent)) args).map
      ((format.takeWhile (· ≠ percent)).length + ·) := by
  induction format with
  | nil => simp [extent]
  | cons c format ih =>
    by_cases hc : c = percent
    · rw [List.dropWhile_cons_of_neg (by simpa using hc), List.takeWhile_cons_of_neg
        (by simpa using hc)]
      simp
    · rw [extent_literal hc, ih, List.dropWhile_cons_of_pos (by simpa using hc),
        List.takeWhile_cons_of_pos (by simpa using hc), Option.map_map]
      congr 1
      funext n
      simp only [Function.comp, List.length_cons]
      omega

/-- What a pass at a place does, in whatever memory. -/
inductive Passes (fuel : ℕ) (c : Byte) (format : List Byte) (args : List Arg) (k : Word) : Prop
  /-- An argument is missing, or is of another type than the directive asks for. -/
  | fails (hextent : extent (c :: format) args = none)
      (hrun : ∀ m,
        Formatter.vsprintf.formatLoop (fuel + 1) (c :: format) args m k = .error .badArgument)
  /-- The percent sign starts no directive. -/
  | ends (r : Word) (hextent : extent (c :: format) args = some 1)
      (hrun : ∀ m,
        Formatter.vsprintf.formatLoop (fuel + 1) (c :: format) args m k = .ok (r, store8 m k c))
  /-- A text is written, and the loop goes on behind it. -/
  | goesOn (text rest : List Byte) (args' : List Arg) (hrest : rest.length ≤ format.length)
      (hextent : extent (c :: format) args =
        (extent rest args').map fun n => max 1 (text.length + n))
      (hrun : ∀ m, Formatter.vsprintf.formatLoop (fuel + 1) (c :: format) args m k =
        Formatter.vsprintf.formatLoop fuel rest args' (storeText (store8 m k c) k text)
          (k + BitVec.ofNat 32 text.length))
  /-- A text is written that makes the count overflow. -/
  | overflows (text rest : List Byte) (args' : List Arg)
      (hextent : extent (c :: format) args =
        (extent rest args').map fun n => max 1 (text.length + n))
      (hroom : 0x7FFFFFFF#32 - k < BitVec.ofNat 32 text.length)
      (hrun : ∀ m, Formatter.vsprintf.formatLoop (fuel + 1) (c :: format) args m k =
        .ok (-1, storeText (store8 m k c) k text))

/-- A pass over literals. The first one may be a percent sign that stands for itself. -/
theorem passes_text {rest : List Byte}
    (hextent : extent (c :: format) args = (extent rest args).map (1 + ·))
    (hrest : rest.length ≤ format.length)
    (hrun : ∀ m, Formatter.vsprintf.formatLoop (fuel + 1) (c :: format) args m k =
      if 0x7FFFFFFF#32 - k < BitVec.ofNat 32 ((rest.takeWhile (· ≠ percent)).length + 1) then
        .ok (-1, storeText (store8 m k c) (k + 1#32) (rest.takeWhile (· ≠ percent)))
      else Formatter.vsprintf.formatLoop fuel (rest.dropWhile (· ≠ percent)) args
        (storeText (store8 m k c) (k + 1#32) (rest.takeWhile (· ≠ percent)))
        (k + BitVec.ofNat 32 ((rest.takeWhile (· ≠ percent)).length + 1))) :
    Passes fuel c format args k := by
  have hstore : ∀ m, storeText (store8 m k c) (k + 1#32) (rest.takeWhile (· ≠ percent)) =
      storeText (store8 m k c) k (c :: rest.takeWhile (· ≠ percent)) := by
    intro m
    rw [storeText, store8_store8]
  have hextent' : extent (c :: format) args = (extent (rest.dropWhile (· ≠ percent)) args).map
      fun n => max 1 ((c :: rest.takeWhile (· ≠ percent)).length + n) := by
    rw [hextent, extent_literals rest, Option.map_map]
    congr 1
    funext n
    simp only [Function.comp, List.length_cons]
    omega
  have hdrop :=
    (List.dropWhile_sublist (l := rest) fun b => decide (b ≠ percent)).length_le
  by_cases hroom : 0x7FFFFFFF#32 - k <
      BitVec.ofNat 32 ((rest.takeWhile (· ≠ percent)).length + 1)
  · refine .overflows _ _ args hextent' hroom fun m => ?_
    rw [hrun, if_pos hroom, hstore]
  · refine .goesOn _ _ args (hdrop.trans hrest) hextent' fun m => ?_
    rw [hrun, if_neg hroom, hstore]
    rfl

/-- A pass of the loop over a literal. -/
theorem passes_literal (hc : c ≠ percent) : Passes fuel c format args k := by
  apply passes_text (extent_literal hc) le_rfl
  intro m
  simp only [formatLoop, hc, ne_eq, not_false_eq_true, true_or, if_true, if_false]

/-- A pass of the loop over two percent signs. -/
theorem passes_percent : Passes fuel percent (percent :: format) args k := by
  apply passes_text extent_percent (Nat.le_succ _)
  intro m
  simp only [formatLoop, List.head?_cons, or_true, if_true, List.tail_cons]

/-- A directive takes the text of its argument, and at least the percent sign that is
overwritten. -/
theorem extent_directive {d : Byte} (hd : d ∈ directives) (format : List Byte) (arg : Arg)
    (args : List Arg) :
    extent (percent :: d :: format) (arg :: args) = (directiveText d arg).bind fun text =>
      (extent format args).map fun n => max 1 (text.length + n) := by
  have hne : d ≠ percent := by
    rintro rfl
    exact absurd hd (by decide)
  rw [extent, if_neg (not_not.mpr rfl), if_neg hne, if_pos hd]

/-- A directive without an argument has no text. -/
theorem extent_missing {d : Byte} (hd : d ∈ directives) :
    extent (percent :: d :: format) [] = none := by
  have hne : d ≠ percent := by
    rintro rfl
    exact absurd hd (by decide)
  rw [extent, if_neg (not_not.mpr rfl), if_neg hne, if_pos hd]

/-- The directives are `c`, `x`, `d`, `i` and `s`. -/
theorem mem_directives {d : Byte} :
    d ∈ directives ↔ d = 0x63 ∨ d = 0x78 ∨ d = 0x64 ∨ d = 0x69 ∨ d = 0x73 := by
  simp [directives]

/-- A directive prints the text of its argument in place of its percent sign. -/
theorem formatLoop_text_of {d : Byte} (hd : d ∈ directives) {arg : Arg} {text : List Byte}
    (htext : directiveText d arg = some text) (m : Mem) :
    Formatter.vsprintf.formatLoop (fuel + 1) (percent :: d :: format) (arg :: args) m k =
      Formatter.vsprintf.formatLoop fuel format args (storeText (store8 m k percent) k text)
        (k + BitVec.ofNat 32 text.length) := by
  rcases mem_directives.mp hd with rfl | rfl | rfl | rfl | rfl
  · cases arg with
    | int v =>
      obtain rfl := Option.some.inj htext
      rfl
    | string _ => cases htext
  · cases arg with
    | int v =>
      obtain rfl := Option.some.inj htext
      rw [← ltoa_hex]
      rfl
    | string _ => cases htext
  · cases arg with
    | int v =>
      obtain rfl := Option.some.inj htext
      rw [← itoa_decimal]
      rfl
    | string _ => cases htext
  · cases arg with
    | int v =>
      obtain rfl := Option.some.inj htext
      rw [← itoa_decimal]
      rfl
    | string _ => cases htext
  · cases arg with
    | int _ => cases htext
    | string text =>
      obtain rfl := Option.some.inj htext
      rfl

/-- Without such an argument there is no result. -/
theorem formatLoop_bad {d : Byte} (hd : d ∈ directives)
    (hargs : ∀ arg ∈ args.head?, directiveText d arg = none) (m : Mem) :
    Formatter.vsprintf.formatLoop (fuel + 1) (percent :: d :: format) args m k =
      .error .badArgument := by
  cases args with
  | nil => rcases mem_directives.mp hd with rfl | rfl | rfl | rfl | rfl <;> rfl
  | cons arg args =>
    have hnone := hargs arg rfl
    rcases mem_directives.mp hd with rfl | rfl | rfl | rfl | rfl <;>
      cases arg <;> first | rfl | cases hnone

/-- A pass of the loop over a percent sign and a directive ends the call, or writes the argument and
goes on behind it. -/
theorem passes_directive {d : Byte} (hd : d ∈ directives) :
    Passes fuel percent (d :: format) args k := by
  cases args with
  | nil => exact .fails (extent_missing hd) fun m => formatLoop_bad hd (by simp) m
  | cons arg args =>
    have hextent := extent_directive hd format arg args
    cases htext : directiveText d arg with
    | none =>
      rw [htext, Option.bind_none] at hextent
      exact .fails hextent fun m => formatLoop_bad hd (by simpa using htext) m
    | some text =>
      rw [htext, Option.bind_some] at hextent
      exact .goesOn text format args (Nat.le_succ _) hextent fun m => formatLoop_text_of hd htext m

/-- A percent sign that starts no directive ends the loop. -/
theorem passes_other (h : ∀ d ∈ format.head?, d ≠ percent ∧ d ∉ directives) :
    Passes fuel percent format args k := by
  have hhead : ∀ d, d = percent ∨ d ∈ directives → format.head? ≠ some d := by
    intro d hd heq
    obtain ⟨hpercent, hdirective⟩ := h d heq
    exact hd.elim hpercent hdirective
  refine .ends (k + BitVec.ofNat 32 (format.length + 1)) ?_ fun m => ?_
  · cases format with
    | nil => rfl
    | cons d format =>
      obtain ⟨hpercent, hdirective⟩ := h d rfl
      cases args <;> rw [extent, if_neg (not_not.mpr rfl), if_neg hpercent, if_neg hdirective]
  · have hc := hhead 0x63 (by decide)
    have hx := hhead 0x78 (by decide)
    have hd := hhead 0x64 (by decide)
    have hi := hhead 0x69 (by decide)
    have hs := hhead 0x73 (by decide)
    have hp := hhead percent (by decide)
    simp only [formatLoop, ne_eq, not_true_eq_false, false_or, hc, hx, hd, hi, hs, hp, if_false]

/-- What a pass does, for any format. -/
theorem passes (fuel : ℕ) (c : Byte) (format : List Byte) (args : List Arg) (k : Word) :
    Passes fuel c format args k := by
  by_cases hc : c = percent
  · subst hc
    cases format with
    | nil => exact passes_other (by simp)
    | cons d format =>
      by_cases hpercent : d = percent
      · subst hpercent
        exact passes_percent
      by_cases hd : d ∈ directives
      · exact passes_directive hd
      · exact passes_other (by simpa using ⟨hpercent, hd⟩)
  · exact passes_literal hc

/-! ## Formats that fit -/

/-- A format that fits leaves what is behind the buffer. -/
theorem formatLoop_inside (hn : n ≤ 0x7FFFFFFF) (hfuel : format.length ≤ fuel)
    (hextent : extent format args = some w) (hfit : k.toNat + w ≤ n) :
    ∃ r m', Formatter.vsprintf.formatLoop fuel format args m k = .ok (r, m') ∧
      ∀ x : Word, n ≤ x.toNat → m' x = m x := by
  induction fuel generalizing format args m k w with
  | zero =>
    obtain rfl := List.eq_nil_of_length_eq_zero (Nat.le_zero.mp hfuel)
    exact ⟨k, m, rfl, fun _ _ => rfl⟩
  | succ fuel ih =>
    obtain _ | ⟨c, format⟩ := format
    · exact ⟨k, m, rfl, fun _ _ => rfl⟩
    rw [List.length_cons] at hfuel
    have hsign : ∀ x : Word, 1 ≤ w → n ≤ x.toNat → store8 m k c x = m x := by
      intro x hw hx
      exact store8_ne m c (by rintro rfl; omega)
    cases passes fuel c format args k with
    | fails hnone => simp [hnone] at hextent
    | ends r hone hrun =>
      obtain rfl := Option.some.inj (hone.symm.trans hextent)
      exact ⟨r, _, hrun m, fun x => hsign x le_rfl⟩
    | goesOn text rest args' hrest hmap hrun =>
      obtain ⟨w', hw', rfl⟩ := Option.map_eq_some_iff.mp (hmap.symm.trans hextent)
      have hnext : (k + BitVec.ofNat 32 text.length).toNat = k.toNat + text.length :=
        toNat_advance (by omega)
      obtain ⟨r, m', hloop, hframe⟩ := ih (m := storeText (store8 m k c) k text) (by omega) hw'
        (by rw [hnext]; omega)
      refine ⟨r, m', (hrun m).trans hloop, fun x hx => ?_⟩
      have hdist : text.length ≤ (x - k).toNat := by
        rw [BitVec.toNat_sub]
        omega
      rw [hframe x hx, storeText_frame (by omega) hdist, hsign x (le_max_left _ _) hx]
    | overflows text rest args' hmap hroom hrun =>
      obtain ⟨w', -, rfl⟩ := Option.map_eq_some_iff.mp (hmap.symm.trans hextent)
      rw [BitVec.lt_def, BitVec.toNat_sub, BitVec.toNat_ofNat, BitVec.toNat_ofNat] at hroom
      omega

/-! ## Formats that do not fit -/

/-- A format that does not fit writes the first byte behind the buffer: what it was before makes
no difference. -/
theorem formatLoop_covers (hn : y.toNat ≤ 0x7FFFFFFF) (hfuel : format.length ≤ fuel)
    (hk : k.toNat ≤ y.toNat) (hextent : ∀ w, extent format args = some w → y.toNat < k.toNat + w)
    (hagree : ∀ x ≠ y, m x = m' x) :
    (∃ e, Formatter.vsprintf.formatLoop fuel format args m k = .error e) ∨
      Formatter.vsprintf.formatLoop fuel format args m k =
        Formatter.vsprintf.formatLoop fuel format args m' k := by
  have hempty : format ≠ [] := by
    rintro rfl
    have := hextent 0 rfl
    omega
  induction fuel generalizing format args m m' k with
  | zero => exact absurd (List.eq_nil_of_length_eq_zero (Nat.le_zero.mp hfuel)) hempty
  | succ fuel ih =>
    obtain ⟨c, format, rfl⟩ := List.exists_cons_of_ne_nil hempty
    rw [List.length_cons] at hfuel
    have hsign : k = y → store8 m k c = store8 m' k c := by
      rintro rfl
      exact store8_eq hagree c
    have hagree' : ∀ x ≠ y, store8 m k c x = store8 m' k c x := store8_agree hagree c
    have hdist : (y - k).toNat = y.toNat - k.toNat := by
      rw [BitVec.toNat_sub]
      omega
    cases passes fuel c format args k with
    | fails _ hrun => exact Or.inl ⟨_, hrun m⟩
    | ends r hone hrun =>
      have hlt := hextent 1 hone
      have hky : k = y := BitVec.eq_of_toNat_eq (by omega)
      right
      rw [hrun, hrun, hsign hky]
    | goesOn text rest args' hrest hmap hrun =>
      by_cases hky : k = y
      · right
        rw [hrun, hrun, hsign hky]
      by_cases hcovers : (y - k).toNat < text.length
      · right
        rw [hrun, hrun, storeText_covers hagree' hcovers]
      have hlt : k.toNat < y.toNat := Nat.lt_of_le_of_ne hk fun h => hky (BitVec.eq_of_toNat_eq h)
      have hnext : (k + BitVec.ofNat 32 text.length).toNat = k.toNat + text.length :=
        toNat_advance (by omega)
      have hrest' : ∀ w, extent rest args' = some w →
          y.toNat < (k + BitVec.ofNat 32 text.length).toNat + w := by
        intro w hw
        have hbound := hextent (max 1 (text.length + w)) (by rw [hmap, hw]; rfl)
        omega
      have hne : rest ≠ [] := by
        rintro rfl
        have := hrest' 0 rfl
        omega
      rw [hrun, hrun]
      exact ih (by omega) (by omega) hrest' (storeText_agree hagree') hne
    | overflows text rest args' _ hroom hrun =>
      right
      have hcovers : (y - k).toNat < text.length := by
        have hmod := Nat.mod_le text.length (2 ^ 32)
        rw [BitVec.lt_def, BitVec.toNat_sub, BitVec.toNat_ofNat, BitVec.toNat_ofNat] at hroom
        omega
      rw [hrun, hrun, storeText_covers hagree' hcovers]

/-! ## Buffers -/

namespace TempBuffer

variable {b : TempBuffer}

/-- A buffer with a byte at least is clear from its first one on. -/
theorem vsprintf_clear (hpos : 1 ≤ b.size) (m : Mem) (format : List Byte) (args : List Arg) :
    vsprintf (b.clear m) format args =
      Formatter.vsprintf.formatLoop format.length format args (b.clear m) 0 := by
  have hzero : b.clear m 0 = 0 := if_pos hpos
  have hclear : clearBuffer (2 ^ 32 + 1) (b.clear m) 0 = .ok (b.clear m) := by
    rw [clearBuffer, if_neg (not_not.mpr hzero)]
  rw [vsprintf, Formatter.run, hclear]
  rfl

/-- The loop that clears the buffer comes to the same whether its first byte was set or not. -/
theorem clearBuffer_first : clearBuffer (2 ^ 32 + 1) (fun _ => 0) 0 =
    clearBuffer (2 ^ 32 + 1) (store8 (fun _ => 0) 0 1) 0 := by
  have hzero : store8 (store8 (fun _ => 0) 0 1) 0 0 = fun _ => 0 := by
    rw [store8_store8]
    funext x
    exact ite_self _
  have hfuel : 2 ^ 32 + 1 = 4294967295 + 1 + 1 := rfl
  rw [hfuel, clearBuffer, if_neg (not_not.mpr rfl), clearBuffer, if_pos (by decide), hzero,
    clearBuffer, if_neg (not_not.mpr rfl)]

/-- An empty buffer is not kept: the byte behind it is set to zero, or another one is written. -/
theorem pos_of_staysInside (h : b.StaysInside format args) : 1 ≤ b.size := by
  by_contra hsize
  have hclear : ∀ m, b.clear m = m := fun m => funext fun x => if_neg (by omega)
  obtain ⟨r, m', hrun, hkeeps⟩ := h fun _ => 0
  obtain ⟨r', m'', hrun', hkeeps'⟩ := h (store8 (fun _ => 0) 0 1)
  rw [hclear] at hrun hrun'
  rw [vsprintf, Formatter.run, clearBuffer_first] at hrun
  obtain ⟨-, rfl⟩ := Prod.mk.inj (Except.ok.inj (hrun.symm.trans hrun'))
  have hzero := hkeeps 0 (by omega)
  rw [hkeeps' 0 (by omega), store8_same] at hzero
  exact absurd hzero (by decide)

/-- `vsprintf` stays in a buffer if and only if what is printed fits. -/
theorem staysInside_iff_extent (b : TempBuffer) (format : List Byte) (args : List Arg) :
    b.StaysInside format args ↔ 1 ≤ b.size ∧ ∃ w, extent format args = some w ∧ w ≤ b.size := by
  have hsize := b.size_le
  constructor
  · intro h
    have hpos := pos_of_staysInside h
    refine ⟨hpos, ?_⟩
    by_contra! hfit
    let y : Word := BitVec.ofNat 32 b.size
    have hy : y.toNat = b.size := toNat_ofNat_of_lt (by omega)
    let m : Mem := fun _ => 0
    let m' : Mem := store8 m y 1
    have hone : m' y = 1 := store8_same m y 1
    have hagree : ∀ x ≠ y, b.clear m x = b.clear m' x := by
      intro x hx
      have hother : m' x = m x := store8_ne m 1 hx
      unfold clear
      rw [hother]
    have hcovers := formatLoop_covers (k := 0) (by omega) le_rfl (by simp)
      (fun w hw => by simpa [hy] using hfit w hw) hagree
    obtain ⟨r, mr, hrun, hkeeps⟩ := h m
    obtain ⟨r', mr', hrun', hkeeps'⟩ := h m'
    rw [vsprintf_clear hpos] at hrun hrun'
    rcases hcovers with ⟨e, herror⟩ | heq
    · rw [hrun] at herror
      cases herror
    · rw [hrun, hrun'] at heq
      obtain ⟨-, rfl⟩ := Prod.mk.inj (Except.ok.inj heq)
      have hzero := hkeeps y hy.ge
      rw [hkeeps' y hy.ge, hone] at hzero
      exact absurd hzero (by decide)
  · rintro ⟨hpos, w, hextent, hfit⟩ m
    obtain ⟨r, m', hrun, hframe⟩ := formatLoop_inside (m := b.clear m) (k := 0) hsize le_rfl
      hextent (by simpa using hfit)
    refine ⟨r, m', (vsprintf_clear hpos m format args).trans hrun, fun x hx => ?_⟩
    rw [hframe x hx]
    exact if_neg (by omega)

end TempBuffer

/-! ## Formats made of pieces -/

/-- A directive with its argument reaches as far as its text, and to its sign at least. -/
theorem extent_text {d : Byte} (hd : d ∈ directives) {arg : Arg} {text : List Byte}
    (htext : directiveText d arg = some text) (hextent : extent format args = some n) :
    extent (percent :: d :: format) (arg :: args) = some (max 1 (text.length + n)) := by
  rw [extent_directive hd, htext, Option.bind_some, hextent]
  rfl

/-- A piece that prints something reaches as far as its text. -/
theorem extent_printed {p : Piece} {pieces : List Piece} (hempty : p.isEmpty = false)
    (hextent : extent (formatOf pieces) (argsOf pieces) = some n) :
    extent (formatOf (p :: pieces)) (argsOf (p :: pieces)) = some (p.text.length + n) := by
  have hdirective {d : Byte} {arg : Arg} {text : List Byte} (hd : d ∈ directives)
      (htext : directiveText d arg = some text) (hne : text ≠ []) :
      extent (percent :: d :: formatOf pieces) (arg :: argsOf pieces) =
        some (text.length + n) := by
    have hpos := List.length_pos_iff.mpr hne
    rw [extent_text hd htext hextent]
    congr 1
    omega
  cases p with
  | literal b h =>
    have hliteral : extent (b :: formatOf pieces) (argsOf pieces) = _ := extent_literal h.2
    rw [hextent] at hliteral
    exact hliteral
  | percent =>
    have hpercent : extent (percent :: percent :: formatOf pieces) (argsOf pieces) = _ :=
      extent_percent
    rw [hextent] at hpercent
    exact hpercent
  | c v h => exact hdirective (by decide) rfl (List.cons_ne_nil _ _)
  | d v => exact hdirective (by decide) rfl (decimal_ne_nil _)
  | i v => exact hdirective (by decide) rfl (decimal_ne_nil _)
  | x v => exact hdirective (by decide) rfl (List.cons_ne_nil _ _)
  | s text h =>
    cases text with
    | nil => cases hempty
    | cons b text => exact hdirective (by decide) rfl (List.cons_ne_nil b text)

/-- Pieces print something, or leave the sign of the last directive. -/
theorem length_textOf_trailing_pos {pieces : List Piece} (hne : pieces ≠ []) :
    1 ≤ (textOf pieces).length + (trailing pieces).length := by
  obtain ⟨b, cells, hhead⟩ := cellsOf_head (F := Formatter.vsprintf) hne
  have hlength := congrArg List.length hhead
  rw [cellsOf_vsprintf, List.length_append, List.length_map, List.length_cons] at hlength
  omega

/-- What is written is the text of the pieces, and what is left of the last directive. -/
theorem extent_formatOf (pieces : List Piece) : extent (formatOf pieces) (argsOf pieces) =
    some ((textOf pieces).length + (trailing pieces).length) := by
  induction pieces with
  | nil => rfl
  | cons p pieces ih =>
    have htext : (textOf (p :: pieces)).length = p.text.length + (textOf pieces).length := by
      rw [textOf, List.flatMap_cons, List.length_append]
      rfl
    cases hempty : p.isEmpty with
    | false => rw [extent_printed hempty ih, htext, trailing_cons hempty, Nat.add_assoc]
    | true =>
      obtain ⟨h, rfl⟩ : ∃ h, p = .s [] h := by
        cases p with
        | s text h =>
          cases text with
          | nil => exact ⟨h, rfl⟩
          | cons b text => cases hempty
        | _ => cases hempty
      have hsign : extent (percent :: 0x73 :: formatOf pieces) (.string [] :: argsOf pieces) = _ :=
        extent_text (by decide) rfl ih
      refine hsign.trans ?_
      rw [htext]
      cases pieces with
      | nil => rfl
      | cons q pieces =>
        have hpos := length_textOf_trailing_pos (List.cons_ne_nil q pieces)
        have htrailing : trailing (.s [] h :: q :: pieces) = trailing (q :: pieces) := rfl
        rw [htrailing]
        simp only [Piece.text, List.length_nil, Nat.zero_add]
        congr 1
        omega

/-- The message of `parse` has twenty characters after the word. -/
theorem extent_commandNotFound (word : List Byte) :
    extent commandNotFound [.string word] = some (max 1 (word.length + 20)) :=
  extent_text (by decide) rfl rfl

/-- **`vsprintf` keeps the buffers that what it prints fits in.** For every buffer, every format
and all arguments: `vsprintf` returns and writes inside the buffer only, if and only if the buffer
is not empty and the arguments match the format and what is printed fits. The message of `parse`
fits in the 80 bytes of `terminal_printf` if and only if the word has at most 60 characters. -/
theorem printf_staysInside_iff (b : TempBuffer) (format : List Byte) (args : List Arg)
    (word : List Byte) :
    (b.StaysInside format args ↔
      1 ≤ b.size ∧ ∃ w, extent format args = some w ∧ w ≤ b.size) ∧
    (printfBuffer.StaysInside commandNotFound [.string word] ↔ word.length ≤ 60) := by
  refine ⟨b.staysInside_iff_extent format args, ?_⟩
  rw [TempBuffer.staysInside_iff_extent, extent_commandNotFound]
  constructor
  · rintro ⟨-, w, hw, hfit⟩
    obtain rfl := Option.some.inj hw
    simp only [printfBuffer] at hfit
    omega
  · intro hle
    refine ⟨by decide, _, rfl, ?_⟩
    simp only [printfBuffer]
    omega

/-- A command of 61 characters that is not found. -/
theorem commandNotFound_long :
    ¬ printfBuffer.StaysInside commandNotFound [.string (List.replicate 61 0x61)] := by
  rw [TempBuffer.staysInside_iff_extent, extent_commandNotFound]
  rintro ⟨-, w, hw, hfit⟩
  obtain rfl := Option.some.inj hw
  exact absurd hfit (by decide)

end Muk
