import Mathlib.Data.Int.Notation
import Muk.Lib.Text

/-!
# strcmp

The comparison of two strings, which may lie in different memories.
-/

namespace Muk

variable {m m' : Cells} {p p' : ℕ} {text text' : List Byte}

/-- `strcmp`, for strings of less than `fuel` bytes. -/
def strcmp (m m' : Cells) : ℕ → ℕ → ℕ → Except ScanFault ℤ
  | 0, _, _ => .error .diverges
  | fuel + 1, s1, s2 =>
    match m s1, m' s2 with
    | some b, some b' =>
      if b ≠ 0 ∧ b = b' then strcmp m m' fuel (s1 + 1) (s2 + 1) else .ok ((b.toNat : ℤ) - b'.toNat)
    | _, _ => .error .pageFault

/-- The difference of two bytes is zero where they are the same. -/
theorem sub_eq_zero_iff_eq {b b' : Byte} : (b.toNat : ℤ) - b'.toNat = 0 ↔ b = b' := by
  rw [Int.sub_eq_zero, Int.ofNat_inj, BitVec.toNat_inj]

/-- `strcmp` returns zero for equal strings only. -/
theorem strcmp_spec {fuel : ℕ} (h : Text m p text) (h' : Text m' p' text')
    (hfuel : text.length < fuel) :
    ∃ c, strcmp m m' fuel p p' = .ok c ∧ (c = 0 ↔ text = text') := by
  induction text generalizing p p' text' fuel with
  | nil =>
    obtain ⟨fuel, rfl⟩ := Nat.exists_eq_add_one_of_ne_zero (Nat.ne_of_gt hfuel)
    obtain ⟨b', hb'⟩ := h'.exists_byte
    have hp : m p = some 0 := h
    refine ⟨_, by rw [strcmp, hp, hb']; exact if_neg fun hne => hne.1 rfl, ?_⟩
    rw [sub_eq_zero_iff_eq]
    cases text' with
    | nil =>
      rw [text_nil, hb'] at h'
      exact iff_of_true (Option.some.inj h').symm rfl
    | cons c text' =>
      obtain ⟨hc, hne, -⟩ := h'
      rw [hb'] at hc
      exact iff_of_false (fun heq => hne (by rw [heq, Option.some.inj hc]))
        (List.cons_ne_nil _ _).symm
  | cons b text ih =>
    obtain ⟨fuel, rfl⟩ := Nat.exists_eq_add_one_of_ne_zero (Nat.ne_of_gt (Nat.zero_lt_of_lt hfuel))
    obtain ⟨hb, hne, htext⟩ := h
    cases text' with
    | nil =>
      rw [text_nil] at h'
      refine ⟨_, by rw [strcmp, hb, h']; exact if_neg fun heq => hne heq.2, ?_⟩
      rw [sub_eq_zero_iff_eq]
      exact iff_of_false hne (List.cons_ne_nil _ _)
    | cons b' text' =>
      obtain ⟨hb', -, htext'⟩ := h'
      by_cases heq : b = b'
      · subst heq
        obtain ⟨c, hrun, hc⟩ := ih htext htext' (Nat.lt_of_succ_lt_succ hfuel)
        refine ⟨c, by rw [strcmp, hb, hb']; exact (if_pos ⟨hne, rfl⟩).trans hrun, ?_⟩
        rw [hc, List.cons.injEq]
        exact (and_iff_right rfl).symm
      · refine ⟨_, by rw [strcmp, hb, hb']; exact if_neg fun h => heq h.2, ?_⟩
        rw [sub_eq_zero_iff_eq]
        exact iff_of_false heq fun h => heq (List.cons.inj h).1

/-- `strcmp` passes over the bytes that two strings have in common. -/
theorem strcmp_common (hbytes : Bytes m p text) (hbytes' : Bytes m' p' text)
    (hne : ∀ b ∈ text, b ≠ 0) (fuel : ℕ) :
    strcmp m m' (text.length + fuel) p p' =
      strcmp m m' fuel (p + text.length) (p' + text.length) := by
  induction text generalizing p p' with
  | nil => rw [List.length_nil, Nat.zero_add, Nat.add_zero, Nat.add_zero]
  | cons b text ih =>
    have hrest := ih hbytes.2 hbytes'.2 fun c hc => hne c (List.mem_cons_of_mem _ hc)
    have hlength : (b :: text).length + fuel = text.length + fuel + 1 := by
      rw [List.length_cons, Nat.add_right_comm]
    rw [hlength, strcmp, hbytes.1, hbytes'.1]
    refine (if_pos ⟨hne b List.mem_cons_self, rfl⟩).trans ?_
    rw [hrest, List.length_cons, Nat.add_assoc, Nat.add_comm 1, Nat.add_assoc, Nat.add_comm 1]

end Muk
