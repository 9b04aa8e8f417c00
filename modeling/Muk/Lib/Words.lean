import Mathlib.Data.List.TakeWhile
import Mathlib.Tactic.Common

/-!
# Words

The words of a text are the longest runs of characters that are no separators. A word ends at
the first separator behind it, and the separators between two words do not matter.
-/

namespace Muk

variable {α : Type*} {p : α → Bool} {a : α} {text word gap rest : List α}

/-- The longest runs of characters that are no separators, in their order. -/
def words (p : α → Bool) (text : List α) : List (List α) :=
  (text.splitOnP p).filter fun word => !word.isEmpty

/-- The empty text has no words. -/
@[simp] theorem words_nil : words p [] = [] := by
  simp [words]

/-- A separator in front of a text adds no word. -/
theorem words_separator (ha : p a = true) : words p (a :: text) = words p text := by
  rw [words, List.splitOnP_cons_eq_if_modifyHead, if_pos ha]
  exact List.filter_cons_of_neg (by simp)

/-- Separators before the first word do not matter. -/
theorem words_gap (hgap : ∀ a ∈ gap, p a = true) : words p (gap ++ text) = words p text := by
  induction gap with
  | nil => rfl
  | cons a gap ih =>
    rw [List.cons_append, words_separator (hgap a List.mem_cons_self)]
    exact ih fun b hb => hgap b (List.mem_cons_of_mem _ hb)

/-- A text without separators is one word. -/
theorem words_word (hword : ∀ a ∈ word, p a = false) (hne : word ≠ []) :
    words p word = [word] := by
  rw [words, List.splitOnP_eq_singleton hword]
  exact List.filter_cons_of_pos (by simpa using hne)

/-- A word ends at a separator. -/
theorem words_append_separator (hword : ∀ a ∈ word, p a = false) (hne : word ≠ [])
    (ha : p a = true) : words p (word ++ a :: text) = word :: words p text := by
  rw [words, List.splitOnP_append_cons_of_forall_mem hword a ha]
  exact List.filter_cons_of_pos (by simpa using hne)

/-- A word with the gap behind it, which is empty only at the end of the text. -/
theorem words_append_gap (hword : ∀ a ∈ word, p a = false) (hne : word ≠ [])
    (hgap : ∀ a ∈ gap, p a = true) (hend : gap = [] → rest = []) :
    words p (word ++ (gap ++ rest)) = word :: words p rest := by
  cases gap with
  | nil =>
    rw [hend rfl, List.append_nil, List.append_nil, words_word hword hne, words_nil]
  | cons a gap =>
    rw [List.cons_append, words_append_separator hword hne (hgap a List.mem_cons_self),
      words_gap fun b hb => hgap b (List.mem_cons_of_mem _ hb)]

/-- A text is a word, which may be empty, a gap, which is empty only at the end, and a rest,
which starts with another word. -/
theorem exists_word_gap (p : α → Bool) (text : List α) :
    ∃ word gap rest, text = word ++ (gap ++ rest) ∧ (∀ a ∈ word, p a = false) ∧
      (∀ a ∈ gap, p a = true) ∧ (gap = [] → rest = []) ∧ ∀ a ∈ rest.head?, p a = false := by
  refine ⟨text.takeWhile fun a => !p a, (text.dropWhile fun a => !p a).takeWhile p,
    (text.dropWhile fun a => !p a).dropWhile p, ?_, fun a ha => ?_, fun a ha => ?_,
    fun hgap => ?_, fun a ha => ?_⟩
  · rw [List.takeWhile_append_dropWhile, List.takeWhile_append_dropWhile]
  · simpa using List.mem_takeWhile_imp ha
  · exact List.mem_takeWhile_imp ha
  · cases hrest : text.dropWhile fun a => !p a with
    | nil => rfl
    | cons b rest =>
      -- The gap would begin with the character that ended the word.
      have hb := List.head?_dropWhile_not (fun a => !p a) text
      rw [hrest] at hb hgap
      have hsep : p b = true := by simpa using hb
      rw [List.takeWhile_cons_of_pos hsep] at hgap
      exact absurd hgap (List.cons_ne_nil _ _)
  · have h := List.head?_dropWhile_not p (text.dropWhile fun a => !p a)
    rw [Option.mem_def.mp ha] at h
    simpa using h

end Muk
