import Muk.Lib.Run
import Mathlib.Data.List.Basic

/-!
# Lines of a stream

A stream is cut after each newline. It may arrive in batches, and a collector that looks
for a newline only after a whole batch hands over everything it has when it finds one.
-/

namespace Muk

variable {α : Type} [DecidableEq α] {nl : α} {p s l : List α} {r : List (List α) × List α} {n : ℕ}

/-- Put more in front of the first line. -/
def extendFirst (p : List α) : List (List α) × List α → List (List α) × List α
  | ([], rest) => ([], p ++ rest)
  | (l :: ls, rest) => ((p ++ l) :: ls, rest)

/-- The lines of a stream, each with its newline, and the unfinished line at the end. -/
def splitLines (nl : α) : List α → List (List α) × List α
  | [] => ([], [])
  | c :: cs =>
    if c = nl then ([c] :: (splitLines nl cs).1, (splitLines nl cs).2)
    else extendFirst [c] (splitLines nl cs)

/-- All lines are shorter than a bound, the unfinished one included. -/
def LinesBelow (n : ℕ) (r : List (List α) × List α) : Prop :=
  (∀ l ∈ r.1, l.length < n) ∧ r.2.length < n

omit [DecidableEq α] in
/-- Nothing is put in front of the first line. -/
@[simp] theorem extendFirst_nil (r : List (List α) × List α) : extendFirst [] r = r := by
  obtain ⟨_ | ⟨l, ls⟩, rest⟩ := r <;> simp [extendFirst]

omit [DecidableEq α] in
/-- Two texts are put in front of the first line one after the other. -/
theorem extendFirst_extendFirst (p s : List α) (r : List (List α) × List α) :
    extendFirst p (extendFirst s r) = extendFirst (p ++ s) r := by
  obtain ⟨_ | ⟨l, ls⟩, rest⟩ := r <;> simp [extendFirst]

/-- Without a newline, the first line only becomes longer. -/
theorem splitLines_append (hp : nl ∉ p) (s : List α) :
    splitLines nl (p ++ s) = extendFirst p (splitLines nl s) := by
  induction p with
  | nil => simp
  | cons c p ih =>
    obtain ⟨hc, hp⟩ := not_or.mp (List.mem_cons.not.mp hp)
    rw [List.cons_append, splitLines, if_neg (Ne.symm hc), ih hp, extendFirst_extendFirst,
      List.singleton_append]

/-- A text without a newline is one unfinished line. -/
theorem splitLines_of_not_mem (hp : nl ∉ p) : splitLines nl p = ([], p) := by
  have happend := splitLines_append hp []
  rwa [List.append_nil, splitLines, extendFirst, List.append_nil] at happend

/-- A newline ends the first line. -/
theorem splitLines_newline (hp : nl ∉ p) (s : List α) : splitLines nl (p ++ nl :: s) =
    ((p ++ [nl]) :: (splitLines nl s).1, (splitLines nl s).2) := by
  rw [splitLines_append hp, splitLines, if_pos rfl, extendFirst]

/-- In a line the newline stands last. -/
theorem newline_last (hl : l ∈ (splitLines nl s).1) : nl ∉ l.dropLast := by
  induction s generalizing l with
  | nil => simp [splitLines] at hl
  | cons c s ih =>
    rw [splitLines] at hl
    split_ifs at hl with hc
    · rcases List.mem_cons.mp hl with rfl | hl
      · simp
      · exact ih hl
    · rcases h : splitLines nl s with ⟨_ | ⟨first, ls⟩, rest⟩
      · simp [extendFirst, h] at hl
      · rw [h] at ih
        simp only [extendFirst, h, List.mem_cons, List.singleton_append] at hl
        rcases hl with rfl | hl
        · have hfirst := ih List.mem_cons_self
          cases first with
          | nil => simp
          | cons d first => simpa [List.dropLast_cons_cons, Ne.symm hc] using hfirst
        · exact ih (List.mem_cons_of_mem _ hl)

/-- A part without a newline belongs to one line, and is as short as lines are. -/
theorem LinesBelow.length_lt (h : LinesBelow n (splitLines nl (p ++ s))) (hp : nl ∉ p) :
    p.length < n := by
  rw [splitLines_append hp] at h
  rcases hs : splitLines nl s with ⟨_ | ⟨l, ls⟩, rest⟩ <;> rw [hs] at h
  · have hrest : (p ++ rest).length < n := h.2
    rw [List.length_append] at hrest
    omega
  · have hline : (p ++ l).length < n := h.1 _ List.mem_cons_self
    rw [List.length_append] at hline
    omega

/-! ## Collecting batches -/

/-- The unfinished line, and the lines that were handed over. -/
structure Collector (α : Type) where
  line : List α
  handed : List (List α)

namespace Collector

variable {c : Collector α} {b : List α} {bs : List (List α)}

def empty : Collector α := ⟨[], []⟩

/-- Take in a batch, and hand over what there is if there is a newline in it. -/
def take (nl : α) (c : Collector α) (b : List α) : Collector α :=
  if nl ∈ b then ⟨[], c.handed ++ [c.line ++ b]⟩ else ⟨c.line ++ b, c.handed⟩

/-- What should have been handed over when the rest of the stream has come in. -/
def lines (nl : α) (c : Collector α) (s : List α) : List (List α) × List α :=
  (c.handed ++ (splitLines nl (c.line ++ s)).1, (splitLines nl (c.line ++ s)).2)

/-- Without further text the lines are those handed over, and the rest is the open line. -/
theorem lines_nil (hline : nl ∉ c.line) : c.lines nl [] = (c.handed, c.line) := by
  rw [lines, List.append_nil, splitLines_of_not_mem hline, List.append_nil]

/-- After each batch the unfinished line is without a newline. -/
theorem take_line (hline : nl ∉ c.line) (b : List α) : nl ∉ (c.take nl b).line := by
  rw [take]
  split_ifs with hb
  · exact List.not_mem_nil
  · exact fun hmem => (List.mem_append.mp hmem).elim hline hb

omit [DecidableEq α] in
/-- A list with a newline in the last place only is a line. -/
theorem exists_body (hmem : nl ∈ b) (hlast : nl ∉ b.dropLast) : ∃ p, nl ∉ p ∧ b = p ++ [nl] := by
  have hb := List.dropLast_concat_getLast (List.ne_nil_of_mem hmem)
  refine ⟨b.dropLast, hlast, ?_⟩
  have hgetLast : nl = b.getLast (List.ne_nil_of_mem hmem) := by
    rw [← hb, List.mem_append, List.mem_singleton] at hmem
    exact hmem.resolve_left hlast
  rw [hgetLast, hb]

/-- A batch with its newline in the last place is cut where the stream is. -/
theorem lines_take (hline : nl ∉ c.line) (hlast : nl ∉ b.dropLast) (s : List α) :
    (c.take nl b).lines nl s = c.lines nl (b ++ s) := by
  by_cases hmem : nl ∈ b
  · obtain ⟨p, hp, rfl⟩ := exists_body hmem hlast
    have hbody : nl ∉ c.line ++ p := fun h => (List.mem_append.mp h).elim hline hp
    have hstream : c.line ++ (p ++ [nl] ++ s) = c.line ++ p ++ nl :: s := by simp
    rw [take, if_pos hmem, lines, lines, hstream, splitLines_newline hbody]
    simp only [List.append_assoc, List.nil_append, List.cons_append]
  · simp only [take, if_neg hmem, lines, List.append_assoc]

/-- A run of batches whose newlines are last ones hands over the lines of all batches together. -/
theorem lines_run (hline : nl ∉ c.line) (hlast : ∀ b ∈ bs, nl ∉ b.dropLast) :
    (runSteps (take nl) c bs).lines nl [] = c.lines nl bs.flatten ∧
      nl ∉ (runSteps (take nl) c bs).line := by
  induction bs generalizing c with
  | nil => exact ⟨rfl, hline⟩
  | cons b bs ih =>
    obtain ⟨hb, hbs⟩ := List.forall_mem_cons.mp hlast
    obtain ⟨hlines, hrun⟩ := ih (take_line hline b) hbs
    exact ⟨by rw [runSteps_cons, hlines, lines_take hline hb, List.flatten_cons], hrun⟩

/-- What has been handed over stays so. -/
theorem handed_run (hl : l ∈ c.handed) (bs : List (List α)) :
    l ∈ (runSteps (take nl) c bs).handed := by
  induction bs generalizing c with
  | nil => exact hl
  | cons b bs ih =>
    apply ih
    rw [take]
    split_ifs
    · exact List.mem_append_left _ hl
    · exact hl

/-- A batch with a newline inside is handed over as it is. -/
theorem exists_handed (hb : b ∈ bs) (hmem : nl ∈ b.dropLast) :
    ∃ l ∈ (runSteps (take nl) c bs).handed, nl ∈ l.dropLast := by
  induction bs generalizing c with
  | nil => exact absurd hb List.not_mem_nil
  | cons first bs ih =>
    rcases List.mem_cons.mp hb with rfl | hb
    · have hne : b ≠ [] := fun h => by simp [h] at hmem
      refine ⟨c.line ++ b, handed_run ?_ bs, ?_⟩
      · rw [take, if_pos (List.dropLast_subset b hmem)]
        exact List.mem_append_right _ List.mem_cons_self
      · rw [List.dropLast_append_of_ne_nil hne]
        exact List.mem_append_right _ hmem
    · exact ih hb

/-- **The lines of the stream are handed over exactly if each newline ends its batch.** -/
theorem collect_iff (nl : α) (bs : List (List α)) :
    ((runSteps (take nl) empty bs).handed, (runSteps (take nl) empty bs).line) =
        splitLines nl bs.flatten ↔ ∀ b ∈ bs, nl ∉ b.dropLast := by
  constructor
  · intro hlines b hb hmem
    obtain ⟨l, hl, hinside⟩ := exists_handed (c := empty) hb hmem
    have hhanded := congrArg Prod.fst hlines
    dsimp only at hhanded
    rw [hhanded] at hl
    exact newline_last hl hinside
  · intro hlast
    obtain ⟨hlines, hline⟩ := lines_run (c := empty) List.not_mem_nil hlast
    rw [← lines_nil hline, hlines]
    rfl

/-- If the lines of the stream are short, so is the line after each batch. -/
theorem along_below (hline : nl ∉ c.line) (hlast : ∀ b ∈ bs, nl ∉ b.dropLast)
    (hbelow : LinesBelow n (c.lines nl bs.flatten)) :
    Along (take nl) (fun c b => (c.line ++ b).length < n) c bs := by
  induction bs generalizing c with
  | nil => trivial
  | cons b bs ih =>
    obtain ⟨hb, hbs⟩ := List.forall_mem_cons.mp hlast
    rw [List.flatten_cons, ← lines_take hline hb] at hbelow
    refine ⟨?_, ih (take_line hline b) hbs hbelow⟩
    by_cases hmem : nl ∈ b
    · rw [take, if_pos hmem] at hbelow
      exact hbelow.1 _ (List.mem_append_left _ (List.mem_append_right _ List.mem_cons_self))
    · have hnot := take_line hline b
      rw [take, if_neg hmem] at hbelow hnot
      exact LinesBelow.length_lt
        ⟨fun l hl => hbelow.1 l (List.mem_append_right _ hl), hbelow.2⟩ hnot

end Collector

end Muk
