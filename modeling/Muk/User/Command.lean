import Muk.Lib.Words
import Muk.Std.Strtok

/-!
# Commands

A command line is split at its spaces by calls of `strtok` until one has no result. The string
of each token is copied before the next call.
-/

namespace Muk

/-- The space, and whether a character is one. -/
def space : Byte := 0x20

def isSpace (b : Byte) : Bool := b = space

namespace Command

/-- The loop `while(s != NULL)`. -/
def splitLoop (bound : ℕ) :
    ℕ → Option ℕ → Scanner → List (List Byte) → Except ScanFault (List (List Byte) × Scanner)
  | 0, _, _, _ => .error .diverges
  | fuel + 1, s, t, commandTokens =>
    match s with
    | none => .ok (commandTokens, t)
    | some s => do
      let token ← readString t.mem bound s
      let (s, t) ← t.strtok [space] bound none
      splitLoop bound fuel s t (commandTokens ++ [token])

/-- `Command::split`, with a bound for the passes of each loop. -/
def split (fuel : ℕ) (command : ℕ) (t : Scanner) :
    Except ScanFault (List (List Byte) × Scanner) := do
  let (s, t) ← t.strtok [space] fuel (some command)
  splitLoop fuel fuel s t []

variable {m : Cells} {t : Scanner} {p fuel : ℕ} {text word gap rest : List Byte}

/-- What the scan of a string leaves behind: the first word is a string of its own, and the next
call starts at the rest, if there is one. -/
structure Scanned (t t' : Scanner) (word rest : List Byte) (n : ℕ) : Prop where
  token : Text t'.mem t.nxt word
  frame : ∀ x, x < t.nxt ∨ t.nxt + n < x → t'.mem x = t.mem x
  last : rest = [] → t'.size = 0
  more : rest ≠ [] → t'.size = rest.length + 1 ∧ t'.nxt + 1 + rest.length = t.nxt + n ∧
    Text t'.mem (t'.nxt + 1) rest

/-- The delimiter of the words is the space. -/
theorem mem_space_iff {b : Byte} : b ∈ [space] ↔ isSpace b = true := by
  simp [isSpace]

/-- A gap is a run of delimiters, with another character behind it. -/
theorem gap_run (htext : Text m p (gap ++ rest)) (hgap : ∀ b ∈ gap, isSpace b = true)
    (hrest : ∀ b ∈ rest.head?, isSpace b = false) :
    (∀ j < gap.length, ∃ b ∈ [space], m (p + j) = some b) ∧
      ∃ c, m (p + gap.length) = some c ∧ c ∉ [space] := by
  obtain ⟨hbytes, htail⟩ := htext.of_append
  constructor
  · intro j hj
    refine ⟨gap[j], mem_space_iff.mpr (hgap _ (List.getElem_mem _)), ?_⟩
    rw [bytes_iff.mp hbytes j hj, List.getElem?_eq_getElem hj]
  · cases rest with
    | nil => exact ⟨0, htail, by decide⟩
    | cons c rest =>
      refine ⟨c, htail.1, fun hmem => ?_⟩
      rw [mem_space_iff, hrest c rfl] at hmem
      exact Bool.false_ne_true hmem

/-- The scan of a gap: it stops on the last space if there is a rest, and behind it otherwise. -/
theorem scan_gap (htext : Text t.mem t.nxt (gap ++ rest)) (hsize : t.size = (gap ++ rest).length)
    (hgap : ∀ b ∈ gap, isSpace b = true) (hend : gap = [] → rest = [])
    (hrest : ∀ b ∈ rest.head?, isSpace b = false) (hfuel : (gap ++ rest).length + 2 ≤ fuel) :
    ∃ t', t.scan [space] fuel = .ok t' ∧ t'.mem = Scanner.wipe t.mem t.nxt gap.length ∧
      (rest = [] → t'.size = 0) ∧
      (rest ≠ [] → t'.size = rest.length + 1 ∧ t'.nxt + 1 = t.nxt + gap.length) := by
  cases gap with
  | nil =>
    obtain rfl := hend rfl
    refine ⟨t, Scanner.scan_nul htext (by omega), ?_, fun _ => hsize, fun h => absurd rfl h⟩
    funext x
    exact (if_neg (by simp)).symm
  | cons d gap =>
    obtain ⟨fuel, rfl⟩ := Nat.exists_eq_add_one_of_ne_zero (by omega : fuel ≠ 0)
    obtain ⟨hrun, c, hc, hplain⟩ := gap_run htext hgap hrest
    have htail := htext.of_append.2
    simp only [List.cons_append, List.length_cons, List.length_append] at hsize hfuel
    have hpass := Scanner.pass_run hrun hc hplain (by omega : gap.length + 1 < fuel)
    have hstep : t.scan [space] (fuel + 1) = _ :=
      Scanner.scan_step htext.1 htext.2.1 hpass
    by_cases hlast : rest = []
    · subst hlast
      rw [List.length_nil, Nat.add_zero] at hsize
      rw [if_neg (by omega)] at hstep
      refine ⟨_, hstep.trans (Scanner.scan_nul ?_ (by omega)), rfl, fun _ => ?_,
        fun h => absurd rfl h⟩
      · exact (if_neg (by simp)).trans htail
      · simp only
        omega
    · have hpos := List.length_pos_of_ne_nil hlast
      rw [if_pos (by omega)] at hstep
      refine ⟨_, hstep.trans (Scanner.scan_nul ?_ (by omega)), rfl, fun h => absurd h hlast,
        fun _ => ⟨?_, rfl⟩⟩
      · exact if_pos (by simp)
      · simp only
        omega

/-- The scan of a word, the gap behind it and a rest. -/
theorem scan_text (htext : Text t.mem t.nxt (word ++ (gap ++ rest)))
    (hsize : t.size = (word ++ (gap ++ rest)).length) (hword : ∀ b ∈ word, isSpace b = false)
    (hgap : ∀ b ∈ gap, isSpace b = true) (hend : gap = [] → rest = [])
    (hrest : ∀ b ∈ rest.head?, isSpace b = false)
    (hfuel : (word ++ (gap ++ rest)).length + 2 ≤ fuel) :
    ∃ t', t.scan [space] fuel = .ok t' ∧
      Scanned t t' word rest (word ++ (gap ++ rest)).length := by
  have hne : ∀ b ∈ word, b ≠ 0 ∧ b ∉ [space] := fun b hb =>
    ⟨htext.ne_zero b (List.mem_append_left _ hb), fun hmem => by
      rw [mem_space_iff, hword b hb] at hmem
      exact Bool.false_ne_true hmem⟩
  obtain ⟨hbytes, htail⟩ := htext.of_append
  simp only [List.length_append] at hsize hfuel
  obtain ⟨fuel, rfl⟩ : ∃ n, fuel = n + word.length := ⟨fuel - word.length, by omega⟩
  have hfuel' : (gap ++ rest).length + 2 ≤ fuel := by
    rw [List.length_append]
    omega
  obtain ⟨t', hrun, hmem, hlast, hmore⟩ := scan_gap
    (t := { t with nxt := t.nxt + word.length, size := t.size - word.length })
    htail (by simp only [List.length_append]; omega) hgap hend hrest hfuel'
  refine ⟨t', (Scanner.scan_word hbytes hne (by omega)).trans hrun, ?_, ?_, hlast, ?_⟩
  · have hnul : t'.mem (t.nxt + word.length) = some 0 := by
      rw [hmem]
      cases gap with
      | nil =>
        obtain rfl := hend rfl
        exact (if_neg (by simp)).trans htail
      | cons d gap => exact if_pos (by simp)
    have hkept : Bytes t'.mem t.nxt word := by
      apply hbytes.congr
      intro x _ hx
      rw [hmem]
      exact if_neg (by simp only; omega)
    exact Text.of_bytes hkept (fun b hb => (hne b hb).1) hnul
  · intro x hx
    rw [hmem]
    apply if_neg
    simp only [List.length_append] at hx ⊢
    omega
  · intro hrest'
    obtain ⟨hcount, hnxt⟩ := hmore hrest'
    simp only at hnxt
    refine ⟨hcount, by simp only [List.length_append]; omega, ?_⟩
    rw [hnxt]
    apply htail.of_append.2.congr
    intro x hx _
    rw [hmem]
    exact if_neg (by simp only; omega)

/-- The scan ends on a NUL. -/
theorem scan_stop {delim : List Byte} {t' : Scanner} (h : t.scan delim fuel = .ok t') :
    t'.mem t'.nxt = some 0 := by
  induction fuel generalizing t with
  | zero => simp [Scanner.scan] at h
  | succ fuel ih =>
    rw [Scanner.scan] at h
    cases hp : t.mem t.nxt with
    | none => simp [hp] at h
    | some b =>
      simp only [hp] at h
      split_ifs at h with hb
      · obtain rfl := Except.ok.inj h
        rw [hp, hb]
      · obtain ⟨u, -, hscan⟩ := bind_eq_ok.mp h
        exact ih hscan

/-- A rest that does not begin with a space begins with a word. -/
theorem word_ne_nil (hne : word ++ (gap ++ rest) ≠ []) (hgap : ∀ b ∈ gap, isSpace b = true)
    (hend : gap = [] → rest = []) (hhead : ∀ b ∈ (word ++ (gap ++ rest)).head?, isSpace b = false) :
    word ≠ [] := by
  rintro rfl
  cases gap with
  | nil => exact hne (by rw [hend rfl]; rfl)
  | cons d gap =>
    have hplain := hhead d rfl
    rw [hgap d List.mem_cons_self] at hplain
    exact Bool.false_ne_true hplain.symm

/-- The loop reads the word at hand, and makes the words of the rest. -/
theorem splitLoop_eq {t' : Scanner} {n bound : ℕ} (h : Scanned t t' word rest n)
    (hstop : t'.mem t'.nxt = some 0) (hn : word.length + rest.length ≤ n)
    (hrest : ∀ b ∈ rest.head?, isSpace b = false) (hbound : n + 2 ≤ bound)
    (hfuel : rest.length + 2 ≤ fuel) (tokens : List (List Byte)) :
    ∃ u, splitLoop bound fuel (some t.nxt) t' tokens =
        .ok (tokens ++ word :: words isSpace rest, u) ∧
      ∀ x, x < t.nxt ∨ t.nxt + n < x → u.mem x = t.mem x := by
  induction hlength : rest.length using Nat.strongRecOn
    generalizing t t' word rest n fuel tokens with
  | ind k ih =>
    obtain ⟨fuel, rfl⟩ := Nat.exists_eq_add_one_of_ne_zero (by omega : fuel ≠ 0)
    have hread : readString t'.mem bound t.nxt = .ok word :=
      readString_eq_ok.mpr ⟨h.token, by omega⟩
    rw [splitLoop, hread, ok_bind]
    by_cases hlast : rest = []
    · -- The count is used up, so the next call has no result.
      have hscan : t'.scan [space] bound = .ok t' := Scanner.scan_nul hstop (by omega)
      have hnext := Scanner.strtok_last (Int.le_of_eq (h.last hlast)) hscan
      obtain ⟨fuel, rfl⟩ := Nat.exists_eq_add_one_of_ne_zero (by omega : fuel ≠ 0)
      rw [hnext, ok_bind, hlast, words_nil]
      exact ⟨t', rfl, h.frame⟩
    · obtain ⟨hsize, hnxt, htext⟩ := h.more hlast
      obtain ⟨word', gap, rest', rfl, hword, hgap, hend, hhead⟩ := exists_word_gap isSpace rest
      have hne := word_ne_nil hlast hgap hend hrest
      have hpos := List.length_pos_of_ne_nil hne
      have hparts : word'.length + rest'.length ≤ (word' ++ (gap ++ rest')).length := by
        simp only [List.length_append]
        omega
      have hroom : (word' ++ (gap ++ rest')).length + 2 ≤ bound := by omega
      obtain ⟨t'', hscan, hscanned⟩ := scan_text (t := t'.advance) htext
        (by simp only [Scanner.advance]; omega) hword hgap hend hhead hroom
      have hnext := Scanner.strtok_more (by omega : 0 < t'.size) hscan
      obtain ⟨u, hrun, hframe⟩ := ih rest'.length (by omega) hscanned (scan_stop hscan) hparts hhead
        (by omega) (by omega : rest'.length + 2 ≤ fuel) (tokens ++ [word]) rfl
      refine ⟨u, ?_, fun x hx => ?_⟩
      · rw [hnext, ok_bind, words_append_gap hword hne hgap hend]
        rw [List.append_assoc, List.singleton_append] at hrun
        exact hrun
      · rw [hframe x (by simp only [Scanner.advance]; omega)]
        exact h.frame x hx

/-- The first token of a line that does not begin with a word: it is empty. -/
def emptyToken (text : List Byte) : List (List Byte) :=
  if text = [] ∨ text.head? = some space then [[]] else []

/-- The token that the first call makes, and the words of the rest. -/
theorem tokens_eq (hword : ∀ b ∈ word, isSpace b = false) (hgap : ∀ b ∈ gap, isSpace b = true)
    (hend : gap = [] → rest = []) :
    emptyToken (word ++ (gap ++ rest)) ++ words isSpace (word ++ (gap ++ rest)) =
      word :: words isSpace rest := by
  cases word with
  | nil =>
    have hempty : emptyToken (gap ++ rest) = [[]] := by
      apply if_pos
      cases gap with
      | nil => exact Or.inl (hend rfl)
      | cons d gap =>
        have hd := hgap d List.mem_cons_self
        exact Or.inr (congrArg some (by simpa [isSpace] using hd))
    rw [List.nil_append, hempty, words_gap hgap, List.singleton_append]
  | cons b word =>
    have hempty : emptyToken (b :: word ++ (gap ++ rest)) = [] := by
      apply if_neg
      rintro (h | h)
      · exact absurd h (List.cons_ne_nil _ _)
      · have hb := hword b List.mem_cons_self
        rw [Option.some.inj h] at hb
        exact absurd hb (by decide)
    rw [hempty, List.nil_append, words_append_gap hword (List.cons_ne_nil _ _) hgap hend]

/-- **A line is split into its words**, with an empty token before them if it is empty or begins
with a space. No cell but those of the line is written, and the others may be inaccessible. -/
theorem split_spec (size : ℤ) (nxt : ℕ) (htext : Text m p text)
    (hfuel : text.length + 2 ≤ fuel) :
    ∃ t, split fuel p { mem := m, nxt := nxt, size := size } =
        .ok (emptyToken text ++ words isSpace text, t) ∧
      emptyToken text ++ words isSpace text ≠ [] ∧
      ∀ x, x < p ∨ p + text.length < x → t.mem x = m x := by
  obtain ⟨word, gap, rest, rfl, hword, hgap, hend, hhead⟩ := exists_word_gap isSpace text
  obtain ⟨t', hscan, hscanned⟩ := scan_text (t := { mem := m, nxt := p, size := _ }) htext rfl hword
    hgap hend hhead hfuel
  have hparts : word.length + rest.length ≤ (word ++ (gap ++ rest)).length := by
    simp only [List.length_append]
    omega
  have hread := readString_eq_ok.mpr ⟨htext, (by omega : _ < fuel)⟩
  obtain ⟨u, hrun, hframe⟩ := splitLoop_eq hscanned (scan_stop hscan) hparts hhead hfuel
    (by omega : rest.length + 2 ≤ fuel) []
  rw [tokens_eq hword hgap hend]
  refine ⟨u, ?_, List.cons_ne_nil _ _, hframe⟩
  rw [split, Scanner.strtok, Scanner.start, hread]
  simp only [ok_bind, hscan]
  exact hrun

/-- A line that begins and ends with a space, in a memory that holds nothing else. -/
theorem split_line :
    ∃ t, split 10 0 { mem := fun x => ([0x20, 0x6C, 0x73, 0x20, 0x20, 0x2D, 0x6C, 0x20, 0] :
          List Byte)[x]?, nxt := 0, size := 0 } = .ok ([[], [0x6C, 0x73], [0x2D, 0x6C]], t) ∧
      ∀ x, 8 < x → t.mem x = none := by
  have htext : Text (fun x => ([0x20, 0x6C, 0x73, 0x20, 0x20, 0x2D, 0x6C, 0x20, 0] :
      List Byte)[x]?) 0 [0x20, 0x6C, 0x73, 0x20, 0x20, 0x2D, 0x6C, 0x20] := by
    simp [Text]
  obtain ⟨t, hrun, -, hframe⟩ := split_spec 0 0 htext (Nat.le_refl _)
  have htokens : emptyToken [0x20, 0x6C, 0x73, 0x20, 0x20, 0x2D, 0x6C, 0x20] ++
      words isSpace [0x20, 0x6C, 0x73, 0x20, 0x20, 0x2D, 0x6C, 0x20] =
      [[], [0x6C, 0x73], [0x2D, 0x6C]] := by decide +kernel
  rw [htokens] at hrun
  refine ⟨t, hrun, fun x hx => ?_⟩
  rw [hframe x (Or.inr hx)]
  exact List.getElem?_eq_none hx

end Command

end Muk
