import Mathlib.Data.List.Basic
import Mathlib.Data.Nat.Notation
import Mathlib.Tactic.Common
import Muk.Lib.ByteMemory

/-!
# Strings in memory

A string is what memory holds from an address up to a NUL. Memory may be inaccessible at
some addresses, so that not every address has a string.
-/

namespace Muk

/-- The accessible bytes of memory. -/
abbrev Cells := ℕ → Option Byte

/-- How code that follows a string can fail to return. -/
inductive ScanFault where
  | pageFault
  | diverges
  deriving DecidableEq, Repr

variable {m m' : Cells} {p q n : ℕ} {b : Byte} {text text' : List Byte}

/-- The string at an address. -/
def Text (m : Cells) : ℕ → List Byte → Prop
  | p, [] => m p = some 0
  | p, b :: text => m p = some b ∧ b ≠ 0 ∧ Text m (p + 1) text

/-- The empty text is a NUL. -/
@[simp] theorem text_nil : Text m p [] ↔ m p = some 0 := Iff.rfl

/-- A text is its first character, which is not a NUL, and the text behind it. -/
@[simp] theorem text_cons :
    Text m p (b :: text) ↔ m p = some b ∧ b ≠ 0 ∧ Text m (p + 1) text := Iff.rfl

/-- The bytes at an address. -/
def Bytes (m : Cells) : ℕ → List Byte → Prop
  | _, [] => True
  | p, b :: bytes => m p = some b ∧ Bytes m (p + 1) bytes

/-- No bytes are at every address. -/
@[simp] theorem bytes_nil : Bytes m p [] := trivial

/-- Bytes in memory are the first one, and the others behind it. -/
@[simp] theorem bytes_cons : Bytes m p (b :: text) ↔ m p = some b ∧ Bytes m (p + 1) text := Iff.rfl

/-- Bytes are at an address if their first part is, and their second part behind it. -/
theorem bytes_append :
    Bytes m p (text ++ text') ↔ Bytes m p text ∧ Bytes m (p + text.length) text' := by
  induction text generalizing p with
  | nil => simp
  | cons b text ih => simp [ih, and_assoc, Nat.add_assoc, Nat.add_comm 1]

/-- Bytes are at an address if each of them is at its place. -/
theorem bytes_iff : Bytes m p text ↔ ∀ i < text.length, m (p + i) = text[i]? := by
  induction text generalizing p with
  | nil => simp
  | cons b text ih =>
    rw [bytes_cons, ih]
    constructor
    · rintro ⟨hp, hrest⟩ i hi
      cases i with
      | zero => exact hp
      | succ i =>
        rw [List.getElem?_cons_succ, ← hrest i (Nat.lt_of_succ_lt_succ hi), Nat.add_assoc,
          Nat.add_comm 1]
    · intro h
      refine ⟨h 0 (Nat.zero_lt_succ _), fun i hi => ?_⟩
      rw [Nat.add_assoc, Nat.add_comm 1, h (i + 1) (Nat.succ_lt_succ hi), List.getElem?_cons_succ]

/-- The bytes at an address depend on the cells that they take only. -/
theorem Bytes.congr (h : Bytes m p text) (hsame : ∀ x, p ≤ x → x < p + text.length → m' x = m x) :
    Bytes m' p text := by
  induction text generalizing p with
  | nil => trivial
  | cons b text ih =>
    rw [List.length_cons] at hsame
    refine ⟨(hsame p (Nat.le_refl p) (by omega)).trans h.1, ih h.2 fun x hx hlt => ?_⟩
    exact hsame x (by omega) (by omega)

/-- Cells that hold bytes of some kind, as a list. -/
theorem exists_bytes {P : Byte → Prop} (h : ∀ k < n, ∃ b, P b ∧ m (p + k) = some b) :
    ∃ bytes, Bytes m p bytes ∧ (∀ b ∈ bytes, P b) ∧ bytes.length = n := by
  induction n generalizing p with
  | zero => exact ⟨[], trivial, by simp, rfl⟩
  | succ n ih =>
    obtain ⟨b, hb, hp⟩ := h 0 (Nat.zero_lt_succ n)
    obtain ⟨bytes, hbytes, hkind, hlength⟩ := ih (p := p + 1) fun k hk => by
      obtain ⟨c, hc, hpc⟩ := h (k + 1) (Nat.succ_lt_succ hk)
      exact ⟨c, hc, by rwa [Nat.add_assoc, Nat.add_comm 1]⟩
    refine ⟨b :: bytes, ⟨hp, hbytes⟩, fun c hc => ?_, by rw [List.length_cons, hlength]⟩
    rcases List.mem_cons.mp hc with rfl | hc
    · exact hb
    · exact hkind c hc

/-- Bytes other than NUL, with a string behind them, are the first ones of a string. -/
theorem Text.append (h : Bytes m p text) (hne : ∀ b ∈ text, b ≠ 0)
    (h' : Text m (p + text.length) text') : Text m p (text ++ text') := by
  induction text generalizing p with
  | nil => exact h'
  | cons b text ih =>
    refine ⟨h.1, hne b List.mem_cons_self,
      ih h.2 (fun c hc => hne c (List.mem_cons_of_mem _ hc)) ?_⟩
    rwa [Nat.add_assoc, Nat.add_comm 1]

/-- Bytes other than NUL, with a NUL behind them, are a string. -/
theorem Text.of_bytes (h : Bytes m p text) (hne : ∀ b ∈ text, b ≠ 0)
    (hnul : m (p + text.length) = some 0) : Text m p text := by
  rw [← List.append_nil text]
  exact Text.append h hne (text_nil.mpr hnul)

/-- A string begins with the bytes that memory has there. -/
theorem Text.split (h : Text m p text') (hbytes : Bytes m p text) (hne : ∀ b ∈ text, b ≠ 0) :
    ∃ rest, text' = text ++ rest ∧ Text m (p + text.length) rest := by
  induction text generalizing p text' with
  | nil => exact ⟨text', rfl, h⟩
  | cons b text ih =>
    cases text' with
    | nil =>
      rw [text_nil, hbytes.1] at h
      exact absurd (Option.some.inj h) (hne b List.mem_cons_self)
    | cons c text' =>
      obtain ⟨rest, hrest, htail⟩ := ih h.2.2 hbytes.2 fun d hd => hne d (List.mem_cons_of_mem _ hd)
      have hbc : b = c := Option.some.inj (hbytes.1.symm.trans h.1)
      refine ⟨rest, by rw [hrest, hbc]; rfl, ?_⟩
      rwa [Nat.add_assoc, Nat.add_comm 1] at htail

/-- There is a byte where a string starts. -/
theorem Text.exists_byte (h : Text m p text) : ∃ b, m p = some b := by
  cases text with
  | nil => exact ⟨0, h⟩
  | cons b text => exact ⟨b, h.1⟩

/-- A string has its NUL right behind its last character. -/
theorem Text.nul (h : Text m p text) : m (p + text.length) = some 0 := by
  induction text generalizing p with
  | nil => exact h
  | cons b text ih =>
    have hrest := ih h.2.2
    rwa [Nat.add_assoc, Nat.add_comm 1] at hrest

/-- The characters of a string are in memory one after the other, from its address on. -/
theorem Text.bytes (h : Text m p text) : Bytes m p text := by
  induction text generalizing p with
  | nil => trivial
  | cons b text ih => exact ⟨h.1, ih h.2.2⟩

/-- No character of a string is NUL, as the first NUL ends it. -/
theorem Text.ne_zero (h : Text m p text) : ∀ b ∈ text, b ≠ 0 := by
  induction text generalizing p with
  | nil => simp
  | cons c text ih =>
    intro b hb
    rcases List.mem_cons.mp hb with rfl | hb
    · exact h.2.1
    · exact ih h.2.2 b hb

/-- A string in two parts has the bytes of the first part, and the second part is a string behind
them. -/
theorem Text.of_append (h : Text m p (text ++ text')) :
    Bytes m p text ∧ Text m (p + text.length) text' := by
  have hbytes := (bytes_append.mp h.bytes).1
  obtain ⟨rest, hrest, htail⟩ := h.split hbytes fun b hb => h.ne_zero b (List.mem_append_left _ hb)
  rw [List.append_cancel_left hrest]
  exact ⟨hbytes, htail⟩

/-- A string depends on its cells only. -/
theorem Text.congr (h : Text m p text) (hsame : ∀ x, p ≤ x → x ≤ p + text.length → m' x = m x) :
    Text m' p text := by
  induction text generalizing p with
  | nil => exact (hsame p (Nat.le_refl p) (by simp)).trans h
  | cons b text ih =>
    rw [List.length_cons] at hsame
    refine ⟨(hsame p (Nat.le_refl p) (by omega)).trans h.1, h.2.1, ih h.2.2 fun x hx hle => ?_⟩
    exact hsame x (by omega) (by omega)

/-- Read the string at an address, of less than `fuel` bytes. -/
def readString (m : Cells) : ℕ → ℕ → Except ScanFault (List Byte)
  | 0, _ => .error .diverges
  | fuel + 1, p =>
    match m p with
    | none => .error .pageFault
    | some b =>
      if b = 0 then .ok []
      else do
        let rest ← readString m fuel (p + 1)
        .ok (b :: rest)

/-- Reading succeeds where there is a string. -/
theorem readString_eq_ok {fuel : ℕ} :
    readString m fuel p = .ok text ↔ Text m p text ∧ text.length < fuel := by
  induction fuel generalizing p text with
  | zero => simp [readString]
  | succ fuel ih =>
    rw [readString]
    cases hp : m p with
    | none => cases text <;> simp [hp]
    | some b =>
      by_cases hb : b = 0
      · subst hb
        cases text with
        | nil => simp [hp]
        | cons c text =>
          simp only [if_true, Except.ok.injEq, reduceCtorEq, text_cons, hp, Option.some.injEq,
            false_iff]
          rintro ⟨⟨h, hne, -⟩, -⟩
          exact hne h.symm
      · simp only [if_neg hb, bind_eq_ok]
        cases text with
        | nil => simpa [hp] using hb
        | cons c text =>
          simp only [ih, Except.ok.injEq, List.cons.injEq, text_cons, hp, Option.some.injEq,
            List.length_cons]
          constructor
          · rintro ⟨rest, ⟨htext, hlt⟩, rfl, rfl⟩
            exact ⟨⟨rfl, hb, htext⟩, by omega⟩
          · rintro ⟨⟨rfl, -, htext⟩, hlt⟩
            exact ⟨text, ⟨htext, by omega⟩, rfl, rfl⟩

/-- The bound does not matter where reading succeeds. -/
theorem readString_mono {fuel fuel' : ℕ} (h : readString m fuel p = .ok text) (hle : fuel ≤ fuel') :
    readString m fuel' p = .ok text := by
  rw [readString_eq_ok] at h ⊢
  exact ⟨h.1, by omega⟩

end Muk
