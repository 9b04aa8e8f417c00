import Mathlib.Data.Int.Notation
import Muk.Lib.Text

/-!
# strtok

`strtok` keeps a pointer and a count in static variables. It replaces delimiters by NULs
and stops on a NUL, which is the one that it just wrote, as long as the count says that
the string goes on, and otherwise the first one in memory.
-/

namespace Muk

/-- Memory and the static variables of `strtok`. -/
structure Scanner where
  mem : Cells
  nxt : ℕ
  size : ℤ

/-- `strspn`, with the characters of `accept` as a list. -/
def strspn (m : Cells) (accept : List Byte) : ℕ → ℕ → Except ScanFault ℕ
  | 0, _ => .error .diverges
  | fuel + 1, p =>
    match m p with
    | none => .error .pageFault
    | some b =>
      if b ∈ accept then do
        let count ← strspn m accept fuel (p + 1)
        .ok (count + 1)
      else .ok 0

namespace Scanner

/-- `*nxt = '\0'`. -/
def clear (t : Scanner) : Scanner :=
  { t with mem := fun x => if x = t.nxt then some 0 else t.mem x }

/-- `nxt++; size--`. -/
def advance (t : Scanner) : Scanner := { t with nxt := t.nxt + 1, size := t.size - 1 }

/-- The loop that turns all delimiters but the last to NULs. -/
def clearRun : ℕ → Scanner → Scanner
  | 0, t => t
  | n + 1, t => clearRun n t.clear.advance

/-- A pass of the loop of `strtok`. -/
def pass (delim : List Byte) (fuel : ℕ) (t : Scanner) : Except ScanFault Scanner := do
  let i ← strspn t.mem delim fuel t.nxt
  let t := clearRun (i - 1) t
  if i ≥ 1 then
    let t := t.clear
    -- If the delimiter is not the last character, `nxt` goes back and stays on it.
    .ok (if t.size > 1 then t else t.advance)
  else .ok t.advance

/-- The loop `while (*nxt)`. -/
def scan (delim : List Byte) : ℕ → Scanner → Except ScanFault Scanner
  | 0, _ => .error .diverges
  | fuel + 1, t =>
    match t.mem t.nxt with
    | none => .error .pageFault
    | some b => if b = 0 then .ok t else pass delim fuel t >>= scan delim fuel

/-- The first part of `strtok`: where the token starts. -/
def start (fuel : ℕ) (str : Option ℕ) (t : Scanner) : Except ScanFault (Option ℕ × Scanner) :=
  match str with
  | some p => do
    let text ← readString t.mem fuel p
    .ok (some p, { t with nxt := p, size := text.length })
  | none => if t.size > 0 then .ok (some (t.nxt + 1), t.advance) else .ok (none, t)

/-- `strtok`. -/
def strtok (delim : List Byte) (fuel : ℕ) (str : Option ℕ) (t : Scanner) :
    Except ScanFault (Option ℕ × Scanner) := do
  let (str, t) ← start fuel str t
  let t ← scan delim fuel t
  .ok (str, t)

end Scanner

variable {m : Cells} {delim : List Byte} {p r fuel : ℕ} {b : Byte} {t t' : Scanner}

/-- `strspn` counts the delimiters before another character. -/
theorem strspn_eq (hrun : ∀ j < r, ∃ b ∈ delim, m (p + j) = some b) (hend : m (p + r) = some b)
    (hb : b ∉ delim) (hfuel : r < fuel) : strspn m delim fuel p = .ok r := by
  induction r generalizing p fuel with
  | zero =>
    obtain ⟨fuel, rfl⟩ := Nat.exists_eq_add_one_of_ne_zero (by omega : fuel ≠ 0)
    rw [Nat.add_zero] at hend
    simp only [strspn, hend, if_neg hb]
  | succ r ih =>
    obtain ⟨fuel, rfl⟩ := Nat.exists_eq_add_one_of_ne_zero (by omega : fuel ≠ 0)
    obtain ⟨c, hc, hp⟩ := hrun 0 (by omega)
    have hrest := @ih (p + 1) fuel (fun j hj => by
      obtain ⟨d, hd, hpd⟩ := hrun (j + 1) (by omega)
      exact ⟨d, hd, by rwa [Nat.add_assoc, Nat.add_comm 1]⟩)
        (by rwa [Nat.add_assoc, Nat.add_comm 1])
      (by omega)
    rw [Nat.add_zero] at hp
    simp only [strspn, hp, if_pos hc, hrest, bind, Except.bind]

/-- What `strspn` counts are delimiters, and the character behind them is none. -/
theorem strspn_spec (h : strspn m delim fuel p = .ok r) :
    (∀ j < r, ∃ b ∈ delim, m (p + j) = some b) ∧ (∃ b ∉ delim, m (p + r) = some b) ∧ r < fuel := by
  induction fuel generalizing p r with
  | zero => simp [strspn] at h
  | succ fuel ih =>
    rw [strspn] at h
    cases hp : m p with
    | none => simp [hp] at h
    | some b =>
      simp only [hp] at h
      by_cases hb : b ∈ delim
      · rw [if_pos hb, bind_eq_ok] at h
        obtain ⟨count, hcount, hr⟩ := h
        obtain rfl := Except.ok.inj hr
        obtain ⟨hrun, ⟨c, hc, hend⟩, hlt⟩ := ih hcount
        refine ⟨fun j hj => ?_, ⟨c, hc, ?_⟩, by omega⟩
        · cases j with
          | zero => exact ⟨b, hb, hp⟩
          | succ j =>
            obtain ⟨d, hd, hpd⟩ := hrun j (by omega)
            exact ⟨d, hd, by rwa [Nat.add_assoc, Nat.add_comm 1] at hpd⟩
        · rwa [Nat.add_assoc, Nat.add_comm 1] at hend
      · rw [if_neg hb] at h
        obtain rfl := Except.ok.inj h
        exact ⟨fun j hj => by omega, ⟨b, hb, hp⟩, by omega⟩

namespace Scanner

/-- Some cells turned to NULs. -/
def wipe (m : Cells) (p n : ℕ) : Cells := fun x => if p ≤ x ∧ x < p + n then some 0 else m x

/-- The loop that clears delimiters moves the pointer past them. -/
theorem clearRun_eq (n : ℕ) (t : Scanner) :
    clearRun n t = { mem := wipe t.mem t.nxt n, nxt := t.nxt + n, size := t.size - n } := by
  induction n generalizing t with
  | zero =>
    have hwipe : wipe t.mem t.nxt 0 = t.mem := by
      funext x
      exact if_neg (by omega)
    simp [clearRun, hwipe]
  | succ n ih =>
    rw [clearRun, ih]
    simp only [clear, advance, Scanner.mk.injEq]
    refine ⟨?_, by omega, by omega⟩
    funext x
    simp only [wipe]
    split_ifs <;> first | rfl | omega

/-- A pass on a character that is no delimiter. -/
theorem pass_plain (hp : t.mem t.nxt = some b) (hb : b ∉ delim) (hfuel : 0 < fuel) :
    pass delim fuel t = .ok t.advance := by
  have hspan : strspn t.mem delim fuel t.nxt = .ok 0 :=
    strspn_eq (by omega) (by simpa using hp) hb hfuel
  simp only [pass, hspan, bind, Except.bind]
  rfl

/-- A pass on a run of delimiters. -/
theorem pass_run (hrun : ∀ j < r + 1, ∃ b ∈ delim, t.mem (t.nxt + j) = some b)
    (hend : t.mem (t.nxt + (r + 1)) = some b) (hb : b ∉ delim) (hfuel : r + 1 < fuel) :
    pass delim fuel t = .ok (if t.size - r > 1
      then { mem := wipe t.mem t.nxt (r + 1), nxt := t.nxt + r, size := t.size - r }
      else { mem := wipe t.mem t.nxt (r + 1), nxt := t.nxt + (r + 1),
             size := t.size - (r + 1) }) := by
  have hwipe : (fun x => if x = t.nxt + r then some 0 else wipe t.mem t.nxt r x) =
      wipe t.mem t.nxt (r + 1) := by
    funext x
    simp only [wipe]
    split_ifs <;> first | rfl | omega
  simp only [pass, strspn_eq hrun hend hb hfuel, bind, Except.bind, clearRun_eq, clear, advance,
    Nat.add_sub_cancel, hwipe]
  rw [if_pos (by omega)]
  congr 1
  split_ifs
  · rfl
  · simp only [Scanner.mk.injEq]
    refine ⟨trivial, by omega, by omega⟩

/-- A call that goes on starts behind where the one before stopped. -/
theorem start_more (h : 0 < t.size) :
    start fuel none t = .ok (some (t.nxt + 1), t.advance) := if_pos h

/-- A call with nothing left has no token. -/
theorem start_last (h : t.size ≤ 0) : start fuel none t = .ok (none, t) :=
  if_neg (Int.not_lt.mpr h)

/-- A call with no string and characters left goes on behind the place where the last call
stopped. -/
theorem strtok_more (h : 0 < t.size) (hscan : scan delim fuel t.advance = .ok t') :
    strtok delim fuel none t = .ok (some (t.nxt + 1), t') := by
  simp only [strtok, start_more h, hscan, ok_bind]

/-- A call with nothing left on a NUL changes nothing. -/
theorem strtok_last (h : t.size ≤ 0) (hscan : scan delim fuel t = .ok t') :
    strtok delim fuel none t = .ok (none, t') := by
  simp only [strtok, start_last h, hscan, ok_bind]

/-- The loop ends on a NUL. -/
theorem scan_nul (hp : t.mem t.nxt = some 0) (hfuel : 0 < fuel) : scan delim fuel t = .ok t := by
  obtain ⟨fuel, rfl⟩ := Nat.exists_eq_add_one_of_ne_zero (by omega : fuel ≠ 0)
  simp only [scan, hp, if_true]

/-- A pass of the loop over a character that is not NUL leaves the rest of the scan to the next
passes. -/
theorem scan_step (hp : t.mem t.nxt = some b) (hb : b ≠ 0) (hpass : pass delim fuel t = .ok t') :
    scan delim (fuel + 1) t = scan delim fuel t' := by
  simp only [scan, hp, if_neg hb, hpass, bind, Except.bind]

/-- The loop passes over a word. -/
theorem scan_word {word : List Byte} (hword : Bytes t.mem t.nxt word)
    (hplain : ∀ b ∈ word, b ≠ 0 ∧ b ∉ delim) (hfuel : 0 < fuel) :
    scan delim (fuel + word.length) t =
      scan delim fuel { t with nxt := t.nxt + word.length, size := t.size - word.length } := by
  induction word generalizing t with
  | nil => simp
  | cons b word ih =>
    obtain ⟨hne, hb⟩ := hplain b List.mem_cons_self
    have hpass := pass_plain hword.1 hb (by omega : 0 < fuel + word.length)
    rw [List.length_cons, ← Nat.add_assoc, scan_step hword.1 hne hpass,
      ih hword.2 fun c hc => hplain c (List.mem_cons_of_mem _ hc)]
    simp only [advance]
    congr 2 <;> omega

/-- The loop ends on a delimiter that it turned to a NUL, if that is not the last character. -/
theorem scan_delim {d : Byte} (hzero : 0 ∉ delim) (hp : t.mem t.nxt = some d) (hd : d ∈ delim)
    (hnext : t.mem (t.nxt + 1) = some b) (hb : b ∉ delim) (hsize : t.size > 1) (hfuel : 2 < fuel) :
    scan delim fuel t = .ok { t with mem := wipe t.mem t.nxt 1 } := by
  obtain ⟨fuel, rfl⟩ := Nat.exists_eq_add_one_of_ne_zero (by omega : fuel ≠ 0)
  have hne : d ≠ 0 := fun h => hzero (h ▸ hd)
  have hrun : ∀ j < 0 + 1, ∃ b ∈ delim, t.mem (t.nxt + j) = some b := by
    intro j hj
    obtain rfl : j = 0 := by omega
    exact ⟨d, hd, hp⟩
  have hpass := pass_run hrun hnext hb (by omega : 0 + 1 < fuel)
  rw [if_pos (by simpa using hsize)] at hpass
  rw [scan_step hp hne hpass, scan_nul (by simp [wipe]) (by omega)]
  simp

/-- From an address with a string, the delimiters up to another character. -/
theorem exists_run {text : List Byte} (hzero : 0 ∉ delim) (htext : Text m p text) :
    ∃ r ≤ text.length, (∀ j < r, ∃ b ∈ delim, m (p + j) = some b) ∧
      (∃ b ∉ delim, m (p + r) = some b) ∧ Text m (p + r) (text.drop r) := by
  induction text generalizing p with
  | nil => exact ⟨0, Nat.le_refl 0, by omega, ⟨0, hzero, htext⟩, htext⟩
  | cons b text ih =>
    by_cases hb : b ∈ delim
    · obtain ⟨r, hr, hrun, ⟨c, hc, hend⟩, htail⟩ := ih htext.2.2
      rw [Nat.add_assoc, Nat.add_comm 1] at hend htail
      refine ⟨r + 1, Nat.succ_le_succ hr, fun j hj => ?_, ⟨c, hc, hend⟩, htail⟩
      cases j with
      | zero => exact ⟨b, hb, htext.1⟩
      | succ j =>
        obtain ⟨d, hd, hpd⟩ := hrun j (by omega)
        exact ⟨d, hd, by rwa [Nat.add_assoc, Nat.add_comm 1] at hpd⟩
    · exact ⟨0, Nat.zero_le _, by omega, ⟨b, hb, htext.1⟩, htext⟩

/-- The delimiters among some cells turned to NULs. -/
def wipeDelims (delim : List Byte) (m : Cells) (p n : ℕ) : Cells := fun x =>
  if p ≤ x ∧ x < p + n ∧ ∃ b ∈ delim, m x = some b then some 0 else m x

/-- Nothing is wiped where there are no characters. -/
theorem wipeDelims_zero (delim : List Byte) (m : Cells) (p : ℕ) : wipeDelims delim m p 0 = m := by
  funext x
  unfold wipeDelims
  split_ifs with h
  · omega
  · rfl

/-- A character that is no delimiter stays. -/
theorem wipeDelims_plain (hp : m p = some b) (hb : b ∉ delim) (n : ℕ) :
    wipeDelims delim m (p + 1) n = wipeDelims delim m p (n + 1) := by
  funext x
  unfold wipeDelims
  split_ifs with h h' h'
  · rfl
  · exact absurd ⟨by omega, by omega, h.2.2⟩ h'
  · obtain ⟨hle, hlt, c, hc, hxc⟩ := h'
    by_cases hx : x = p
    · rw [hx, hp] at hxc
      exact absurd (Option.some.inj hxc ▸ hc) hb
    · exact absurd ⟨by omega, by omega, c, hc, hxc⟩ h
  · rfl

/-- A run of delimiters is turned to NULs. -/
theorem wipeDelims_run (hrun : ∀ j < r, ∃ b ∈ delim, m (p + j) = some b) {n : ℕ} (hr : r ≤ n) :
    wipeDelims delim (wipe m p r) (p + r) (n - r) = wipeDelims delim m p n := by
  funext x
  unfold wipeDelims
  by_cases hx : p ≤ x ∧ x < p + r
  · have hdelim := hrun (x - p) (by omega)
    rw [Nat.add_sub_cancel' hx.1] at hdelim
    have hwipe : wipe m p r x = some 0 := if_pos hx
    split_ifs with h h' h'
    · rfl
    · exact absurd ⟨hx.1, by omega, hdelim⟩ h'
    · exact hwipe
    · exact absurd ⟨hx.1, by omega, hdelim⟩ h'
  · have hwipe : wipe m p r x = m x := if_neg hx
    rw [hwipe]
    split_ifs with h h' h'
    · rfl
    · exact absurd ⟨by omega, by omega, h.2.2⟩ h'
    · exact absurd ⟨by omega, by omega, h'.2.2⟩ h
    · rfl

/-- A string ends at its first delimiter, after the delimiters are turned to NULs. -/
theorem text_wipeDelims {text : List Byte} {q n : ℕ} (htext : Text m q text) (hpq : p ≤ q)
    (hn : p + n = q + text.length) :
    Text (wipeDelims delim m p n) q (text.takeWhile (· ∉ delim)) := by
  induction text generalizing q with
  | nil =>
    rw [List.takeWhile_nil, text_nil, wipeDelims, if_neg]
    · exact htext
    · rw [List.length_nil] at hn
      omega
  | cons b text ih =>
    rw [List.length_cons] at hn
    by_cases hb : b ∈ delim
    · rw [List.takeWhile_cons_of_neg (by simpa using hb), text_nil, wipeDelims, if_pos]
      exact ⟨hpq, by omega, b, hb, htext.1⟩
    · rw [List.takeWhile_cons_of_pos (by simpa using hb)]
      refine ⟨?_, htext.2.1, ih htext.2.2 (by omega) (by omega)⟩
      rw [wipeDelims, if_neg]
      · exact htext.1
      · rintro ⟨-, -, c, hc, hqc⟩
        exact hb (Option.some.inj (htext.1.symm.trans hqc) ▸ hc)

/-- The state after the loop went through a string of `n` bytes. -/
def tailEnd (delim : List Byte) (t : Scanner) (n : ℕ) : Scanner where
  mem := wipeDelims delim t.mem t.nxt n
  nxt := t.nxt + n
  size := t.size - n

/-- When the count is used up, the loop goes on to the next NUL in memory. -/
theorem scan_tail {text : List Byte} (hzero : 0 ∉ delim) (htext : Text t.mem t.nxt text)
    (hsize : t.size ≤ 1) (hfuel : text.length + 1 < fuel) :
    scan delim fuel t = .ok (tailEnd delim t text.length) := by
  induction hn : text.length using Nat.strongRecOn generalizing t text fuel with
  | ind n ih =>
    cases text with
    | nil =>
      rw [scan_nul htext (by omega), ← hn, List.length_nil, tailEnd, wipeDelims_zero]
      simp
    | cons b text =>
      obtain ⟨fuel, rfl⟩ := Nat.exists_eq_add_one_of_ne_zero (by omega : fuel ≠ 0)
      obtain ⟨r, hr, hrun, ⟨c, hc, hend⟩, htail⟩ := exists_run hzero htext
      rw [List.length_cons] at hn hfuel hr
      cases r with
      | zero =>
        rw [Nat.add_zero, htext.1] at hend
        obtain rfl := Option.some.inj hend
        rw [scan_step htext.1 htext.2.1 (pass_plain htext.1 hc (by omega)),
          ih text.length (by omega) htext.2.2 (by simp only [advance]; omega) (by omega) rfl]
        simp only [tailEnd, advance, wipeDelims_plain htext.1 hc, hn, Except.ok.injEq,
          Scanner.mk.injEq]
        exact ⟨trivial, by omega, by omega⟩
      | succ r =>
        have hpass := pass_run hrun hend hc (by omega : r + 1 < fuel)
        rw [if_neg (by omega)] at hpass
        have hmem : Text (wipe t.mem t.nxt (r + 1)) (t.nxt + (r + 1)) ((b :: text).drop (r + 1)) :=
          htail.congr fun x hx _ => if_neg (by omega)
        have hlength : ((b :: text).drop (r + 1)).length = n - (r + 1) := by
          rw [List.length_drop, List.length_cons, hn]
        rw [scan_step htext.1 htext.2.1 hpass,
          ih _ (by omega) hmem (by simp only; omega) (by omega) rfl,
          hlength]
        simp only [tailEnd, wipeDelims_run hrun (by omega : r + 1 ≤ n), Except.ok.injEq,
          Scanner.mk.injEq]
        exact ⟨trivial, by omega, by omega⟩

/-- A pass goes on over accessible characters, and leaves what is behind them alone. -/
theorem pass_spec (hzero : 0 ∉ delim) (hsize : t.size ≤ 1) (hp : t.mem t.nxt = some b) (hb : b ≠ 0)
    (h : pass delim fuel t = .ok t') : t'.size ≤ 1 ∧ (∀ x, t'.nxt ≤ x → t'.mem x = t.mem x) ∧
      ∃ bytes, Bytes t.mem t.nxt bytes ∧ (∀ b ∈ bytes, b ≠ 0) ∧ t'.nxt = t.nxt + bytes.length := by
  cases hspan : strspn t.mem delim fuel t.nxt with
  | error e => simp [pass, hspan, bind, Except.bind] at h
  | ok r =>
    obtain ⟨hrun, ⟨c, hc, hend⟩, hlt⟩ := strspn_spec hspan
    cases r with
    | zero =>
      rw [pass_plain (by simpa using hend) hc hlt] at h
      obtain rfl := Except.ok.inj h
      refine ⟨by simp only [advance]; omega, fun x _ => rfl, [b], ⟨hp, trivial⟩, by simpa using hb,
        rfl⟩
    | succ r =>
      rw [pass_run hrun hend hc hlt, if_neg (by omega)] at h
      obtain rfl := Except.ok.inj h
      obtain ⟨bytes, hbytes, hdelim, hlength⟩ := exists_bytes hrun
      refine ⟨by simp only; omega, fun x hx => if_neg ?_, bytes, hbytes, fun d hd hzero' => ?_,
        by rw [hlength]⟩
      · simp only at hx
        omega
      · exact hzero (hzero' ▸ hdelim d hd)

/-- When the count is used up, the loop ends only if memory has a NUL. -/
theorem text_of_scan (hzero : 0 ∉ delim) (hsize : t.size ≤ 1) (h : scan delim fuel t = .ok t') :
    ∃ text, Text t.mem t.nxt text := by
  induction fuel generalizing t with
  | zero => simp [scan] at h
  | succ fuel ih =>
    rw [scan] at h
    cases hp : t.mem t.nxt with
    | none => simp [hp] at h
    | some b =>
      simp only [hp] at h
      by_cases hb : b = 0
      · subst hb
        exact ⟨[], hp⟩
      · rw [if_neg hb, bind_eq_ok] at h
        obtain ⟨u, hpass, hscan⟩ := h
        obtain ⟨husize, hmem, bytes, hbytes, hne, hnxt⟩ := pass_spec hzero hsize hp hb hpass
        obtain ⟨text, htext⟩ := ih husize hscan
        refine ⟨bytes ++ text, Text.append hbytes hne ?_⟩
        rw [← hnxt]
        exact htext.congr fun x hx _ => (hmem x hx).symm

/-! ## The bound of the loops does not matter -/

variable {fuel' : ℕ}

/-- A pass that ends does so with more fuel, too. -/
theorem pass_mono (h : pass delim fuel t = .ok t') (hle : fuel ≤ fuel') :
    pass delim fuel' t = .ok t' := by
  cases hspan : strspn t.mem delim fuel t.nxt with
  | error e => simp [pass, hspan, bind, Except.bind] at h
  | ok r =>
    obtain ⟨hrun, ⟨c, hc, hend⟩, hlt⟩ := strspn_spec hspan
    have hspan' := strspn_eq hrun hend hc (Nat.lt_of_lt_of_le hlt hle)
    simp only [pass, hspan, hspan', bind, Except.bind] at h ⊢
    exact h

/-- A scan that ends does so with more fuel, too. -/
theorem scan_mono (h : scan delim fuel t = .ok t') (hle : fuel ≤ fuel') :
    scan delim fuel' t = .ok t' := by
  induction fuel generalizing t fuel' with
  | zero => simp [scan] at h
  | succ fuel ih =>
    obtain ⟨fuel', rfl⟩ := Nat.exists_eq_add_one_of_ne_zero (by omega : fuel' ≠ 0)
    rw [scan] at h ⊢
    cases hp : t.mem t.nxt with
    | none => simp [hp] at h
    | some b =>
      simp only [hp] at h ⊢
      split_ifs at h ⊢
      · exact h
      · rw [bind_eq_ok] at h ⊢
        obtain ⟨u, hpass, hscan⟩ := h
        exact ⟨u, pass_mono hpass (by omega), ih hscan (by omega)⟩

/-- A call of `strtok` that ends does so with more fuel, too. -/
theorem strtok_mono {str : Option ℕ} {result : Option ℕ × Scanner}
    (h : strtok delim fuel str t = .ok result) (hle : fuel ≤ fuel') :
    strtok delim fuel' str t = .ok result := by
  simp only [strtok, bind_eq_ok] at h ⊢
  obtain ⟨u, hstart, v, hscan, hresult⟩ := h
  refine ⟨u, ?_, v, scan_mono hscan hle, hresult⟩
  cases str with
  | none => exact hstart
  | some p =>
    simp only [start, bind_eq_ok] at hstart ⊢
    obtain ⟨text, htext, hu⟩ := hstart
    exact ⟨text, readString_mono htext hle, hu⟩

end Scanner

end Muk
