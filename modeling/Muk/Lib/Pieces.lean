import Mathlib.Data.List.Basic
import Mathlib.Logic.Nontrivial.Basic
import Mathlib.Tactic.Common

/-!
# Texts made of pieces

A text that is put together from pieces of one length determines the pieces, and a list of
places is determined by what is read there, whatever the places contain.
-/

namespace Muk

variable {α β γ : Type*} {f : α → List γ} {g : β → List γ} {n : ℕ} {l : List α} {l' : List β}

/-- A text of pieces of one length is that length times their number. -/
theorem length_flatMap_pieces (hf : ∀ a, (f a).length = n) :
    (l.flatMap f).length = n * l.length := by
  induction l with
  | nil => simp
  | cons a l ih =>
      rw [List.flatMap_cons, List.length_append, hf, ih, List.length_cons, Nat.mul_succ,
      Nat.add_comm]

/-- The first pieces of a text. -/
theorem take_flatMap_pieces (hf : ∀ a, (f a).length = n) (m : ℕ) :
    (l.flatMap f).take (n * m) = (l.take m).flatMap f := by
  induction m generalizing l with
  | zero => simp
  | succ m ih =>
    cases l with
    | nil => simp
    | cons a l =>
      have hsplit : n * (m + 1) = (f a).length + n * m := by rw [hf, Nat.mul_succ, Nat.add_comm]
      rw [List.flatMap_cons, hsplit, List.take_length_add_append, ih, List.take_succ_cons,
        List.flatMap_cons]

/-- Equal texts are made of equal pieces. -/
theorem map_eq_of_flatMap_eq (hn : 0 < n) (hf : ∀ a, (f a).length = n) (hg : ∀ b, (g b).length = n)
    (h : l.flatMap f = l'.flatMap g) : l.map f = l'.map g := by
  have hlength : l.length = l'.length := by
    have hmul := congrArg List.length h
    rw [length_flatMap_pieces hf, length_flatMap_pieces hg] at hmul
    exact Nat.eq_of_mul_eq_mul_left hn hmul
  induction l generalizing l' with
  | nil =>
    cases l' with
    | nil => rfl
    | cons b l' => simp at hlength
  | cons a l ih =>
    cases l' with
    | nil => simp at hlength
    | cons b l' =>
      rw [List.flatMap_cons, List.flatMap_cons] at h
      obtain ⟨hhead, htail⟩ := List.append_inj h (by rw [hf, hg])
      rw [List.map_cons, List.map_cons, hhead, ih htail (Nat.succ.inj hlength)]

/-- Two lists of places are equal if the same is read from them, whatever the free places
contain, and all places of one list are free. -/
theorem places_eq [DecidableEq α] [Nontrivial β] {free : α → Prop} (content : α → β)
    {xs ys : List α} (hfree : ∀ x ∈ xs, free x)
    (h : ∀ content', (∀ a, ¬ free a → content' a = content a) → ys.map content' = xs.map content') :
    ys = xs := by
  have hlength : ys.length = xs.length := by
    simpa using congrArg List.length (h content fun _ _ => rfl)
  apply List.ext_getElem hlength
  intro t hys hxs
  by_contra hne
  -- Let the place contain something else than the other one.
  obtain ⟨b, hb⟩ := exists_ne (content ys[t])
  have hread := h (Function.update content xs[t] b) fun a ha => by
    have hax : a ≠ xs[t] := fun heq => ha (heq ▸ hfree _ (List.getElem_mem hxs))
    exact Function.update_of_ne hax _ _
  have hpiece := congrArg (fun l => l[t]?) hread
  simp only [List.getElem?_map, List.getElem?_eq_getElem hys, List.getElem?_eq_getElem hxs,
    Option.map_some, Function.update_self, Function.update_of_ne hne, Option.some.injEq] at hpiece
  exact hb hpiece.symm

end Muk
