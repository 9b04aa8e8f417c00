import Mathlib.Data.List.TakeWhile
import Muk.Fs.Directory
import Muk.Std.Strtok

/-!
# Paths

`readDirectory(path)` copies the path without its first slash, lets `strtok` take the copy
apart and looks the components up, one directory after the other. The copy is a string of
its exact length, without a NUL: what `strtok` finds behind it is whatever memory has there,
which is another thing at each call, as the tokens are copied to the heap between the calls.
-/

namespace Muk

/-- The separator of path components. -/
def slash : Byte := 0x2F

/-- The characters of a name. -/
def DirectoryEntry.cname (e : DirectoryEntry) : List Byte := e.name.takeWhile (· ≠ 0)

/-- What `readDirectory(sector)` and `walkSectors(location)[0]` return. -/
structure Tree where
  readDirectory : Word → List DirectoryEntry
  firstSector : BitVec 16 → Word

/-- The memory around the copy of a path at each call of `strtok`, the address of the copy,
and the static variables of `strtok`. -/
structure PathMemory where
  outside : ℕ → Cells
  base : ℕ
  nxt : ℕ
  size : ℤ

/-- The copy of the path as earlier calls left it, in memory as it is now. -/
def around (base length : ℕ) (inside outside : Cells) : Cells := fun x =>
  if base ≤ x ∧ x < base + length then inside x else outside x

namespace PathMemory

variable (mem : PathMemory)

/-- The loop over the tokens of a copy, from call `k` of `strtok` on. -/
def tokenLoop (delims : List Byte) (length : ℕ) :
    ℕ → ℕ → Option ℕ → Scanner → Except ScanFault (List (List Byte))
  | 0, _, _, _ => .error .diverges
  | fuel + 1, k, str, t => do
    let (i, t) ← Scanner.strtok delims fuel str
      { t with mem := around mem.base length t.mem (mem.outside k) }
    match i with
    | none => .ok []
    | some p => do
      let token ← readString t.mem fuel p
      let rest ← tokenLoop delims length fuel (k + 1) none t
      .ok (token :: rest)

/-- The tokens of a copy between some delimiters. The buffer of an empty string is `NULL`. -/
def tokensBetween (delims : List Byte) (fuel : ℕ) (body : List Byte) :
    Except ScanFault (List (List Byte)) :=
  mem.tokenLoop delims body.length fuel 0 (if body = [] then none else some mem.base)
    { mem := fun x => body[x - mem.base]?, nxt := mem.nxt, size := mem.size }

/-- The tokens of the copy of a path. -/
def tokenise (fuel : ℕ) (body : List Byte) : Except ScanFault (List (List Byte)) :=
  mem.tokensBetween [slash] fuel body

end PathMemory

namespace Tree

variable (tree : Tree)

/-- The loop of `readDirectory(path)` over the folders, and the directory that it reaches. -/
def descend : Word → List (List Byte) → List DirectoryEntry
  | current, [] => tree.readDirectory current
  | current, folder :: rest =>
    match (tree.readDirectory current).find? fun e => e.cname = folder with
    | some e => descend (tree.firstSector e.location) rest
    | none => []

/-- `FAT16::readDirectory(path)`. -/
def readPath (mem : PathMemory) (fuel : ℕ) (path : List Byte) :
    Except ScanFault (List DirectoryEntry) := do
  let body := if path.head? = some slash then path.tail else path
  let tokens ← mem.tokenise fuel body
  if path.length > 2 then .ok (tree.descend FAT16.rootSector tokens)
  else .ok (tree.readDirectory FAT16.rootSector)

/-- The sector that some components lead to from a sector, by the first entry of each name. -/
def follow (current : Word) (components : List (List Byte)) : Option Word :=
  components.foldlM (fun sector name =>
    ((tree.readDirectory sector).find? fun e => e.cname = name).map
      fun e => tree.firstSector e.location) current

/-- The entries of the directory with the given components, or none. -/
def lookup (components : List (List Byte)) : List DirectoryEntry :=
  match tree.follow FAT16.rootSector components with
  | some sector => tree.readDirectory sector
  | none => []

/-- The loop over the folders takes the first entry of each name. -/
theorem descend_eq (current : Word) (components : List (List Byte)) :
    tree.descend current components =
      match tree.follow current components with
      | some sector => tree.readDirectory sector
      | none => [] := by
  induction components generalizing current with
  | nil => rfl
  | cons name rest ih =>
    simp only [descend, follow, List.foldlM_cons]
    cases (tree.readDirectory current).find? fun e => e.cname = name with
    | none => rfl
    | some e => exact ih _

end Tree

/-- The part of a path after its first slash. -/
def joinPath : List (List Byte) → Bool → List Byte
  | [], trailing => if trailing then [slash] else []
  | [c], trailing => c ++ if trailing then [slash] else []
  | c :: d :: rest, trailing => c ++ slash :: joinPath (d :: rest) trailing

/-- An absolute path. -/
def pathOf (components : List (List Byte)) (trailing : Bool) : List Byte :=
  slash :: joinPath components trailing

/-- The last component with some more characters. -/
def extendLast : List (List Byte) → List Byte → List (List Byte)
  | [], _ => []
  | [c], extra => [c ++ extra]
  | c :: d :: rest, extra => c :: extendLast (d :: rest) extra

/-- A component has no slash and no NUL. -/
def Plain (c : List Byte) : Prop := ∀ b ∈ c, b ≠ 0 ∧ b ∉ [slash]

namespace PathMemory

open Scanner

variable {mem : PathMemory} {length k fuel p : ℕ} {u : Scanner} {rest c delims : List Byte}
  {tokens : List (List Byte)}

/-- A slash is not the character that ends a string. -/
theorem zero_not_mem : (0 : Byte) ∉ [slash] := by decide

/-- The rest of a call of `strtok` that found the start of a token, and the calls after it. -/
def afterStart (mem : PathMemory) (delims : List Byte) (length fuel k p : ℕ) (u : Scanner) :
    Except ScanFault (List (List Byte)) := do
  let t ← scan delims fuel u
  let token ← readString t.mem fuel p
  let rest ← mem.tokenLoop delims length fuel (k + 1) none t
  .ok (token :: rest)

/-- The loop of `readDirectory` over the tokens that the first call of `strtok` finds. -/
theorem tokenLoop_of_start {str : Option ℕ} {t : Scanner}
    (h : start fuel str { t with mem := around mem.base length t.mem (mem.outside k) } =
      .ok (some p, u)) :
    mem.tokenLoop delims length (fuel + 1) k str t = mem.afterStart delims length fuel k p u := by
  simp only [tokenLoop, strtok, h, bind, Except.bind, afterStart]
  cases scan delims fuel u <;> rfl

/-- In call `k`, the token at `p` is about to be scanned: the rest of the path starts there,
and the count is its length. -/
structure Started (mem : PathMemory) (length k : ℕ) (u : Scanner) (p : ℕ) (rest : List Byte) :
    Prop where
  nxt : u.nxt = p
  size : u.size = rest.length
  bytes : Bytes u.mem p rest
  base_le : mem.base ≤ p
  end_eq : p + rest.length = mem.base + length
  outer : ∀ x, mem.base + length ≤ x → u.mem x = mem.outside k x

/-- The string behind the copy is the one that is there now. -/
theorem Started.text_outer (h : Started mem length k u p rest) {text : List Byte} :
    Text u.mem (mem.base + length) text ↔ Text (mem.outside k) (mem.base + length) text := by
  constructor
  · exact fun htext => htext.congr fun x hx _ => (h.outer x hx).symm
  · exact fun htext => htext.congr fun x hx _ => h.outer x hx

/-- The scan of a component before the last one stops on the slash, which is a NUL from then on. -/
theorem Started.scan_slash (h : Started mem length k u p (c ++ slash :: rest)) (hc : Plain c)
    (hrest : ∃ b tail, rest = b :: tail ∧ b ∉ [slash]) (hfuel : c.length + 3 < fuel) :
    scan [slash] fuel u = .ok { mem := wipe u.mem (p + c.length) 1, nxt := p + c.length,
                                size := rest.length + 1 } := by
  have hnxt := h.nxt
  have hsize := h.size
  obtain ⟨hword, hdelim⟩ := bytes_append.mp h.bytes
  obtain ⟨b, tail, rfl, hb⟩ := hrest
  simp only [List.length_append, List.length_cons] at hsize
  obtain ⟨f, rfl⟩ := Nat.exists_eq_add_of_le (by omega : c.length ≤ fuel)
  rw [← hnxt] at hword hdelim ⊢
  rw [Nat.add_comm, scan_word hword hc (by omega), scan_delim zero_not_mem hdelim.1 (by decide)
    hdelim.2.1 hb (by simp only; omega) (by omega)]
  simp only [Except.ok.injEq, Scanner.mk.injEq, List.length_cons, true_and]
  omega

/-- A component before the last one is a token, and the next call starts after it. -/
theorem Started.step (h : Started mem length k u p (c ++ slash :: rest)) (hc : Plain c)
    (hrest : ∃ b tail, rest = b :: tail ∧ b ∉ [slash]) :
    ∃ u', Started mem length (k + 1) u' (p + c.length + 1) rest ∧
      ∀ fuel, c.length + 3 < fuel → mem.afterStart [slash] length fuel k p u = (do
        let tokens ← mem.afterStart [slash] length (fuel - 1) (k + 1) (p + c.length + 1) u'
        .ok (c :: tokens)) := by
  have hlength := h.end_eq
  have hbase := h.base_le
  rw [List.length_append, List.length_cons] at hlength
  obtain ⟨hword, hdelim⟩ := bytes_append.mp h.bytes
  let t : Scanner := { mem := wipe u.mem (p + c.length) 1, nxt := p + c.length,
                       size := rest.length + 1 }
  have hzero : t.mem (p + c.length) = some 0 := if_pos (by omega)
  have hsame : ∀ x, x ≠ p + c.length → t.mem x = u.mem x := fun x hx => if_neg (by omega)
  have htoken : ∀ fuel, c.length + 3 < fuel → readString t.mem fuel p = .ok c := by
    intro fuel hfuel
    have hkept : Bytes t.mem p c := hword.congr fun x _ hx => hsame x (by omega)
    exact readString_eq_ok.mpr
      ⟨Text.of_bytes hkept (fun b hb => (hc b hb).1) hzero, by omega⟩
  let v : Scanner := { t with mem := around mem.base length t.mem (mem.outside (k + 1)) }
  have hstart (fuel : ℕ) : start fuel none v = .ok (some (p + c.length + 1), v.advance) :=
    start_more (by simp only [v, t]; omega)
  refine ⟨v.advance, ⟨rfl, ?_, ?_, by omega, ?_, fun x hx => if_neg (by omega)⟩, ?_⟩
  · simp only [advance, v, t]
    omega
  · apply hdelim.2.congr
    intro x hx hlt
    exact (if_pos (by omega)).trans (hsame x (by omega))
  · omega
  · intro fuel hfuel
    have hloop : mem.tokenLoop [slash] length fuel (k + 1) none t =
        mem.afterStart [slash] length (fuel - 1) (k + 1) (p + c.length + 1) v.advance := by
      obtain ⟨f, rfl⟩ := Nat.exists_eq_add_one_of_ne_zero (by omega : fuel ≠ 0)
      exact tokenLoop_of_start (hstart f)
    have hscan : scan [slash] fuel u = .ok t := h.scan_slash hc hrest hfuel
    simp only [afterStart, hscan, htoken fuel hfuel, hloop, bind, Except.bind]

/-- What is behind the last component: a slash or nothing, and the string behind the copy. -/
theorem Started.text_last {last behind : List Byte} (h : Started mem length k u p (c ++ last))
    (hlast : last = [] ∨ last = [slash]) :
    Text u.mem (p + c.length) (last ++ behind) ↔
      Text (mem.outside k) (mem.base + length) behind := by
  have hlength := h.end_eq
  have hbytes := (bytes_append.mp h.bytes).2
  rw [List.length_append] at hlength
  rcases hlast with rfl | rfl
  · rw [← h.text_outer, List.nil_append, ← hlength]
    rfl
  · rw [← h.text_outer, List.cons_append, text_cons, List.nil_append, Nat.add_assoc, ← hlength]
    exact ⟨fun htext => htext.2.2, fun htext => ⟨hbytes.1, by decide, htext⟩⟩

/-- The scan of the last component goes on to the end of the string behind the copy. -/
theorem Started.scan_last {last behind : List Byte} (h : Started mem length k u p (c ++ last))
    (hlast : last = [] ∨ last = [slash]) (hc : Plain c)
    (hbehind : Text (mem.outside k) (mem.base + length) behind)
    (hfuel : c.length + (last ++ behind).length + 1 < fuel) :
    scan [slash] fuel u =
      .ok { mem := wipeDelims [slash] u.mem (p + c.length) (last ++ behind).length,
                                nxt := p + c.length + (last ++ behind).length,
                                size := -behind.length } := by
  obtain ⟨f, rfl⟩ := Nat.exists_eq_add_of_le (by omega : c.length ≤ fuel)
  have hword := (bytes_append.mp h.bytes).1
  have hsize := h.size
  have hle : last.length ≤ 1 := by rcases hlast with rfl | rfl <;> simp
  have htext := (h.text_last hlast).mpr hbehind
  have hnxt := h.nxt
  rw [List.length_append] at hsize
  rw [← hnxt] at hword htext ⊢
  rw [Nat.add_comm, scan_word hword hc (by omega),
    scan_tail zero_not_mem htext (by simp only; omega) (by omega)]
  simp only [tailEnd, Except.ok.injEq, Scanner.mk.injEq, List.length_append]
  exact ⟨trivial, trivial, by omega⟩

/-- The call of `strtok` after the last token returns `NULL`, after it looked for a NUL. -/
theorem tokenLoop_end {t : Scanner} (hsize : t.size ≤ 0) :
    mem.tokenLoop delims length (fuel + 1) k none t = (do
      let _ ← scan delims fuel { t with mem := around mem.base length t.mem (mem.outside k) }
      .ok []) := by
  have hstart : start fuel none { t with mem := around mem.base length t.mem (mem.outside k) } =
      .ok (none, { t with mem := around mem.base length t.mem (mem.outside k) }) :=
    start_last hsize
  simp only [tokenLoop, strtok, hstart, bind, Except.bind]
  cases scan delims fuel { t with mem := around mem.base length t.mem (mem.outside k) } <;> rfl

/-- There are no tokens after the last one, if a NUL is found. -/
theorem tokenLoop_nil {t : Scanner} {text : List Byte} (hzero : (0 : Byte) ∉ delims)
    (hsize : t.size ≤ 0) (htext : Text (around mem.base length t.mem (mem.outside k)) t.nxt text)
    (hfuel : text.length + 2 < fuel) : mem.tokenLoop delims length fuel k none t = .ok [] := by
  obtain ⟨f, rfl⟩ := Nat.exists_eq_add_one_of_ne_zero (by omega : fuel ≠ 0)
  rw [tokenLoop_end hsize,
    scan_tail (t := { t with mem := around mem.base length t.mem (mem.outside k) }) hzero htext
      (by simp only; omega) (by omega)]
  rfl

/-- The last token, if the strings that are scanned are there. -/
theorem Started.last_ok {last behind text : List Byte} (h : Started mem length k u p (c ++ last))
    (hlast : last = [] ∨ last = [slash]) (hc : Plain c)
    (hbehind : Text (mem.outside k) (mem.base + length) behind)
    (htext : Text (mem.outside (k + 1)) (mem.base + length + behind.length) text)
    (hfuel : c.length + (last ++ behind).length + text.length + 2 < fuel) :
    mem.afterStart [slash] length fuel k p u =
      .ok [c ++ (last ++ behind).takeWhile (· ∉ [slash])] := by
  have hlength := h.end_eq
  rw [List.length_append] at hlength
  have hscan :=
    h.scan_last hlast hc hbehind (by omega : c.length + (last ++ behind).length + 1 < fuel)
  have hword := (bytes_append.mp h.bytes).1
  have hend : p + c.length + (last ++ behind).length = mem.base + length + behind.length := by
    rw [List.length_append]
    omega
  rw [hend] at hscan
  let t : Scanner := { mem := wipeDelims [slash] u.mem (p + c.length) (last ++ behind).length,
                       nxt := mem.base + length + behind.length, size := -behind.length }
  have htoken : readString t.mem fuel p = .ok (c ++ (last ++ behind).takeWhile (· ∉ [slash])) := by
    rw [readString_eq_ok]
    refine ⟨Text.append ?_ (fun b hb => (hc b hb).1) ?_, ?_⟩
    · refine hword.congr fun x _ hx => if_neg fun hmem => ?_
      omega
    · exact text_wipeDelims ((h.text_last hlast).mpr hbehind) le_rfl rfl
    · have hle :=
        (List.takeWhile_sublist (fun b => decide (b ∉ [slash])) (l := last ++ behind)).length_le
      rw [List.length_append]
      omega
  have hloop : mem.tokenLoop [slash] length fuel (k + 1) none t = .ok [] :=
    tokenLoop_nil zero_not_mem (by simp only [t]; omega)
      (htext.congr fun x hx _ => if_neg (by omega)) (by omega)
  simp only [afterStart, hscan, bind, Except.bind]
  simp only [t] at htoken hloop
  simp only [htoken, hloop]

/-- The last token is returned only if the strings that are scanned are there. -/
theorem Started.last_strings {last : List Byte} (h : Started mem length k u p (c ++ last))
    (hlast : last = [] ∨ last = [slash]) (hc : Plain c) {N : ℕ}
    (hok : ∀ fuel, N ≤ fuel → mem.afterStart [slash] length fuel k p u = .ok tokens) :
    ∃ behind, Text (mem.outside k) (mem.base + length) behind ∧
      ∃ text, Text (mem.outside (k + 1)) (mem.base + length + behind.length) text := by
  have hsize := h.size
  have hnxt := h.nxt
  have hlength := h.end_eq
  have hword := (bytes_append.mp h.bytes).1
  have hle : last.length ≤ 1 := by rcases hlast with rfl | rfl <;> simp
  rw [List.length_append] at hsize hlength
  obtain ⟨behind, hbehind⟩ : ∃ behind, Text (mem.outside k) (mem.base + length) behind := by
    have hrun := hok (N + 1 + c.length) (by omega)
    rw [afterStart, bind_eq_ok] at hrun
    obtain ⟨t, hscan, -⟩ := hrun
    rw [scan_word (by rwa [hnxt]) hc (by omega)] at hscan
    obtain ⟨text, htext⟩ := text_of_scan zero_not_mem (by simp only; omega) hscan
    simp only [hnxt] at htext
    rcases hlast with rfl | rfl
    · exact ⟨text, (h.text_last (Or.inl rfl)).mp htext⟩
    · have hslash := (bytes_append.mp h.bytes).2.1
      cases text with
      | nil =>
        rw [text_nil, hslash] at htext
        exact absurd (Option.some.inj htext) (by decide)
      | cons b text =>
        obtain rfl : slash = b := Option.some.inj (hslash.symm.trans htext.1)
        exact ⟨text, (h.text_last (Or.inr rfl)).mp htext⟩
  refine ⟨behind, hbehind, ?_⟩
  have hend : p + c.length + (last ++ behind).length = mem.base + length + behind.length := by
    rw [List.length_append]
    omega
  have hrun := hok (N + (c.length + (last ++ behind).length + 2)) (by omega)
  rw [afterStart, h.scan_last hlast hc hbehind (by omega), bind_eq_ok] at hrun
  obtain ⟨t, ht, hrun⟩ := hrun
  obtain rfl := Except.ok.inj ht
  obtain ⟨token, -, hrun⟩ := bind_eq_ok.mp hrun
  obtain ⟨rest, hloop, -⟩ := bind_eq_ok.mp hrun
  rw [← Nat.add_assoc N, tokenLoop_end (by simp only; omega), bind_eq_ok] at hloop
  obtain ⟨v, hscan, -⟩ := hloop
  obtain ⟨text, htext⟩ := text_of_scan zero_not_mem (by simp only; omega) hscan
  simp only [hend] at htext
  exact ⟨text, htext.congr fun x hx _ => (if_neg (by omega)).symm⟩

/-- The bound of the loops does not matter where the tokens are returned. -/
theorem tokenLoop_mono {fuel' : ℕ} {str : Option ℕ} {t : Scanner}
    (h : mem.tokenLoop delims length fuel k str t = .ok tokens) (hle : fuel ≤ fuel') :
    mem.tokenLoop delims length fuel' k str t = .ok tokens := by
  induction fuel generalizing k str t tokens fuel' with
  | zero => simp [tokenLoop] at h
  | succ fuel ih =>
    obtain ⟨fuel', rfl⟩ := Nat.exists_eq_add_one_of_ne_zero (by omega : fuel' ≠ 0)
    simp only [tokenLoop, bind_eq_ok] at h ⊢
    obtain ⟨⟨i, v⟩, hstrtok, hrest⟩ := h
    refine ⟨(i, v), strtok_mono hstrtok (by omega), ?_⟩
    cases i with
    | none => exact hrest
    | some p =>
      simp only [bind_eq_ok] at hrest ⊢
      obtain ⟨token, htoken, rest, hloop, heq⟩ := hrest
      exact ⟨token, readString_mono htoken (by omega), rest, ih hloop (by omega), heq⟩

/-- What the last token has in addition: the characters behind the copy, unless a slash ends
the path. -/
def extra (trailing : Bool) (behind : List Byte) : List Byte :=
  if trailing then [] else behind.takeWhile (· ∉ [slash])

/-- What gets into the last token is what memory has up to the next slash, unless a slash ends the
path. -/
theorem extra_eq (trailing : Bool) (behind : List Byte) :
    ((if trailing then [slash] else []) ++ behind).takeWhile (· ∉ [slash]) =
      extra trailing behind := by
  cases trailing <;> simp [extra]

/-- What follows a slash inside a path is no slash. -/
theorem joinPath_head (components : List (List Byte)) (trailing : Bool) (hc : Plain c)
    (hne : c ≠ []) :
    ∃ b tail, joinPath (c :: components) trailing = b :: tail ∧ b ∉ [slash] := by
  obtain ⟨b, tail, rfl⟩ := List.exists_cons_of_ne_nil hne
  have hb := (hc b List.mem_cons_self).2
  cases components with
  | nil => exact ⟨b, _, rfl, hb⟩
  | cons d rest => exact ⟨b, _, rfl, hb⟩

/-- Tokens after the first one need one pass less. -/
theorem eventually_cons_iff {ε α : Type} {f g : ℕ → Except ε (List α)} {first : α} {n : ℕ}
    {tokens : List α} (hstep : ∀ fuel, n < fuel → f fuel = (do
      let tokens ← g (fuel - 1)
      .ok (first :: tokens))) :
    (∃ N, ∀ fuel, N ≤ fuel → f fuel = .ok tokens) ↔
      ∃ rest, tokens = first :: rest ∧ ∃ N, ∀ fuel, N ≤ fuel → g fuel = .ok rest := by
  constructor
  · rintro ⟨N, hok⟩
    have hrun (fuel : ℕ) (hfuel : N + n < fuel) :
        ∃ rest, g (fuel - 1) = .ok rest ∧ tokens = first :: rest := by
      have hok := hok fuel (by omega)
      rw [hstep fuel (by omega), bind_eq_ok] at hok
      obtain ⟨rest, hrest, heq⟩ := hok
      exact ⟨rest, hrest, (Except.ok.inj heq).symm⟩
    obtain ⟨rest, -, rfl⟩ := hrun _ (Nat.lt_succ_self _)
    refine ⟨rest, rfl, N + n, fun fuel hfuel => ?_⟩
    obtain ⟨rest', hrest', heq⟩ := hrun (fuel + 1) (by omega)
    rw [(List.cons.inj heq).2]
    exact hrest'
  · rintro ⟨rest, rfl, N, hok⟩
    refine ⟨N + n + 1, fun fuel hfuel => ?_⟩
    rw [hstep fuel (by omega), hok (fuel - 1) (by omega)]
    rfl

/-- The token of the last component, and of what stands behind the path. -/
theorem Started.last_iff {trailing : Bool} (hc : Plain c)
    (h : Started mem length k u p (c ++ if trailing then [slash] else [])) :
    (∃ N, ∀ fuel, N ≤ fuel → mem.afterStart [slash] length fuel k p u = .ok tokens) ↔
      ∃ behind, Text (mem.outside k) (mem.base + length) behind ∧
        (∃ text, Text (mem.outside (k + 1)) (mem.base + length + behind.length) text) ∧
        tokens = [c ++ extra trailing behind] := by
  have hlast : (if trailing then [slash] else []) = [] ∨
      (if trailing then [slash] else []) = [slash] := by
    cases trailing <;> simp
  constructor
  · rintro ⟨N, hok⟩
    obtain ⟨behind, hbehind, text, htext⟩ := h.last_strings hlast hc hok
    refine ⟨behind, hbehind, ⟨text, htext⟩, ?_⟩
    have hrun := hok (N + (c.length + ((if trailing then [slash] else []) ++ behind).length +
      text.length + 3)) (by omega)
    rw [h.last_ok hlast hc hbehind htext (by omega), extra_eq] at hrun
    exact (Except.ok.inj hrun).symm
  · rintro ⟨behind, hbehind, ⟨text, htext⟩, rfl⟩
    refine ⟨c.length + ((if trailing then [slash] else []) ++ behind).length + text.length + 3,
      fun fuel hfuel => ?_⟩
    rw [h.last_ok hlast hc hbehind htext (by omega), extra_eq]

/-- The tokens from a call of `strtok` on, for all sufficiently large bounds of the loops. -/
theorem Started.tokens_iff {components : List (List Byte)} {trailing : Bool} (hne : components ≠ [])
    (hplain : ∀ c ∈ components, Plain c) (hnonempty : ∀ c ∈ components.tail, c ≠ [])
    (h : Started mem length k u p (joinPath components trailing)) :
    (∃ N, ∀ fuel, N ≤ fuel → mem.afterStart [slash] length fuel k p u = .ok tokens) ↔
      ∃ behind, Text (mem.outside (k + components.length - 1)) (mem.base + length) behind ∧
        (∃ text, Text (mem.outside (k + components.length))
          (mem.base + length + behind.length) text) ∧
        tokens = extendLast components (extra trailing behind) := by
  induction components generalizing k u p tokens with
  | nil => exact absurd rfl hne
  | cons c components ih =>
    have hc := hplain c List.mem_cons_self
    cases components with
    | nil => exact h.last_iff hc
    | cons d components =>
      have hd := joinPath_head components trailing
        (hplain d (List.mem_cons_of_mem _ List.mem_cons_self)) (hnonempty d List.mem_cons_self)
      obtain ⟨u', hu', hstep⟩ := h.step hc hd
      have hrest := fun tokens => @ih _ _ _ tokens (List.cons_ne_nil d components)
        (fun c' hc' => hplain c' (List.mem_cons_of_mem _ hc'))
        (fun c' hc' => hnonempty c' (List.mem_cons_of_mem _ hc')) hu'
      have hend : k + 1 + (d :: components).length = k + (c :: d :: components).length := by
        simp only [List.length_cons]
        omega
      simp only [hend] at hrest
      rw [eventually_cons_iff
        (g := fun fuel => mem.afterStart [slash] length fuel (k + 1) (p + c.length + 1) u') hstep]
      simp only [hrest]
      constructor
      · rintro ⟨tokens', rfl, behind, hbehind, htext, htokens⟩
        exact ⟨behind, hbehind, htext, by rw [htokens]; rfl⟩
      · rintro ⟨behind, hbehind, htext, rfl⟩
        exact ⟨_, rfl, behind, hbehind, htext, rfl⟩

/-- The characters of a path are no NULs. -/
theorem joinPath_ne_zero {components : List (List Byte)} {trailing : Bool}
    (hplain : ∀ c ∈ components, Plain c) : ∀ b ∈ joinPath components trailing, b ≠ 0 := by
  have hslash : ∀ b ∈ (if trailing then [slash] else []), b ≠ 0 := by
    cases trailing <;> simp [slash]
  induction components with
  | nil => exact hslash
  | cons c components ih =>
    intro b hb
    cases components with
    | nil =>
      rcases List.mem_append.mp hb with hb | hb
      · exact (hplain c List.mem_cons_self b hb).1
      · exact hslash b hb
    | cons d rest =>
      rcases List.mem_append.mp hb with hb | hb
      · exact (hplain c List.mem_cons_self b hb).1
      · rcases List.mem_cons.mp hb with rfl | hb
        · decide
        · exact ih (fun c' hc' => hplain c' (List.mem_cons_of_mem _ hc')) b hb

/-- The copy of the path `/` has no buffer, and `strtok` goes on where it stopped. -/
theorem tokenise_nil (hidle : mem.size ≤ 0) :
    (∃ N, ∀ fuel, N ≤ fuel → mem.tokenise fuel [] = .ok tokens) ↔
      (∃ text, Text (mem.outside 0) mem.nxt text) ∧ tokens = [] := by
  let t : Scanner := { mem := around mem.base 0 (fun _ => none) (mem.outside 0),
                       nxt := mem.nxt, size := mem.size }
  have hmem : t.mem = mem.outside 0 := by
    funext x
    exact if_neg (by omega)
  have hrun : ∀ fuel, mem.tokenise (fuel + 1) [] = (do
      let _ ← scan [slash] fuel t
      .ok []) := fun fuel => tokenLoop_end hidle
  constructor
  · rintro ⟨N, hok⟩
    have hok := hok (N + 1) (by omega)
    rw [hrun, bind_eq_ok] at hok
    obtain ⟨v, hscan, heq⟩ := hok
    have htext := text_of_scan zero_not_mem (by simp only [t]; omega) hscan
    rw [hmem] at htext
    exact ⟨htext, (Except.ok.inj heq).symm⟩
  · rintro ⟨⟨text, htext⟩, rfl⟩
    refine ⟨text.length + 3, fun fuel hfuel => ?_⟩
    obtain ⟨f, rfl⟩ := Nat.exists_eq_add_one_of_ne_zero (by omega : fuel ≠ 0)
    rw [← hmem] at htext
    rw [hrun, scan_tail zero_not_mem htext (by simp only [t]; omega) (by omega)]
    rfl

/-- Memory at the first call of `strtok`: the copy, and what is around it. -/
def copied (mem : PathMemory) (body : List Byte) : Cells :=
  around mem.base body.length (fun x => body[x - mem.base]?) (mem.outside 0)

/-- The copy of a path, before the first call of `strtok`. -/
theorem started_copied (mem : PathMemory) (body : List Byte) :
    Started mem body.length 0 { mem := mem.copied body, nxt := mem.base, size := body.length }
      mem.base body := by
  refine ⟨rfl, rfl, bytes_iff.mpr fun i hi => ?_, le_rfl, rfl, fun x hx => if_neg (by omega)⟩
  have hin : mem.base ≤ mem.base + i ∧ mem.base + i < mem.base + body.length := by omega
  refine (if_pos hin).trans ?_
  rw [Nat.add_sub_cancel_left]

/-- The first call of `strtok` takes the length of the copy up to a NUL. -/
theorem tokenise_start {body : List Byte} (hbody : body ≠ []) :
    mem.tokenise (fuel + 1) body = (do
      let text ← readString (mem.copied body) fuel mem.base
      mem.afterStart [slash] body.length fuel 0 mem.base
        { mem := mem.copied body, nxt := mem.base, size := text.length }) := by
  rw [tokenise, tokensBetween, if_neg hbody]
  cases hread : readString (mem.copied body) fuel mem.base with
  | error e =>
    have hstart : start fuel (some mem.base)
      { mem := mem.copied body, nxt := mem.nxt, size := mem.size } =
        .error e := by
      simp only [start, hread, bind, Except.bind]
    simp only [tokenLoop, strtok]
    have hcopied : around mem.base body.length (fun x => body[x - mem.base]?) (mem.outside 0) =
        mem.copied body := rfl
    rw [hcopied, hstart]
    rfl
  | ok text =>
    apply tokenLoop_of_start
    change start fuel (some mem.base)
      { mem := mem.copied body, nxt := mem.nxt, size := mem.size } = _
    simp only [start, hread, bind, Except.bind]

/-- The tokens of a copy with a buffer: memory must be accessible behind it, and at first
there is a NUL, as in every byte after the last block of the heap. -/
theorem tokenise_iff {components : List (List Byte)} {trailing : Bool} (hne : components ≠ [])
    (hplain : ∀ c ∈ components, Plain c) (hnonempty : ∀ c ∈ components.tail, c ≠ [])
    (hbody : joinPath components trailing ≠ [])
    (hfresh : ∀ b, mem.outside 0 (mem.base + (joinPath components trailing).length) = some b →
      b = 0) :
    (∃ N, ∀ fuel, N ≤ fuel → mem.tokenise fuel (joinPath components trailing) = .ok tokens) ↔
      mem.outside 0 (mem.base + (joinPath components trailing).length) = some 0 ∧
      ∃ behind, Text (mem.outside (components.length - 1))
          (mem.base + (joinPath components trailing).length) behind ∧
        (∃ text, Text (mem.outside components.length)
          (mem.base + (joinPath components trailing).length + behind.length) text) ∧
        tokens = extendLast components (extra trailing behind) := by
  have hzero : ∀ b ∈ joinPath components trailing, b ≠ 0 := joinPath_ne_zero hplain
  have hstarted := mem.started_copied (joinPath components trailing)
  have htokens := @Started.tokens_iff _ _ _ _ _ tokens _ _ hne hplain hnonempty hstarted
  rw [Nat.zero_add] at htokens
  have hread : mem.outside 0 (mem.base + (joinPath components trailing).length) = some 0 →
      ∀ fuel, (joinPath components trailing).length < fuel →
        readString (mem.copied (joinPath components trailing)) fuel mem.base =
          .ok (joinPath components trailing) := by
    intro hbehind fuel hfuel
    have hnul := (hstarted.outer _ le_rfl).trans hbehind
    exact readString_eq_ok.mpr ⟨Text.of_bytes hstarted.bytes hzero hnul, hfuel⟩
  constructor
  · rintro ⟨N, hok⟩
    have hbehind : mem.outside 0 (mem.base + (joinPath components trailing).length) = some 0 := by
      have hrun := hok (N + 1) (by omega)
      rw [tokenise_start hbody, bind_eq_ok] at hrun
      obtain ⟨text, htext, -⟩ := hrun
      obtain ⟨rest, -, hrest⟩ := (readString_eq_ok.mp htext).1.split hstarted.bytes hzero
      obtain ⟨b, hb⟩ := hrest.exists_byte
      have hb := (hstarted.outer _ le_rfl).symm.trans hb
      rw [hb, hfresh b hb]
    refine ⟨hbehind,
      htokens.mp ⟨N + (joinPath components trailing).length + 1, fun fuel hfuel => ?_⟩⟩
    have hrun := hok (fuel + 1) (by omega)
    rwa [tokenise_start hbody, hread hbehind fuel (by omega)] at hrun
  · rintro ⟨hbehind, hrest⟩
    obtain ⟨N, hok⟩ := htokens.mpr hrest
    refine ⟨N + (joinPath components trailing).length + 2, fun fuel hfuel => ?_⟩
    obtain ⟨f, rfl⟩ := Nat.exists_eq_add_one_of_ne_zero (by omega : fuel ≠ 0)
    rw [tokenise_start hbody, hread hbehind f (by omega)]
    exact hok f (by omega)

end PathMemory

/-! ## Trees that tell tokens apart -/

namespace Tree

/-- An entry with a name and a cluster. -/
def namedEntry (name : List Byte) (location : BitVec 16) : DirectoryEntry where
  name := name
  attributes := FATAttributes.shortName
  location := location
  fsize := 0

/-- The name of an entry without a NUL is its C string. -/
theorem cname_namedEntry {name : List Byte} {location : BitVec 16} (h : ∀ b ∈ name, b ≠ 0) :
    (namedEntry name location).cname = name := by
  rw [DirectoryEntry.cname, namedEntry, List.takeWhile_eq_self_iff]
  exact fun b hb => by simpa using h b hb

/-- The first entry with a listed name is the entry of that name. -/
theorem find?_named {names : List (List Byte)} (hnames : ∀ y ∈ names, ∀ b ∈ y, b ≠ 0)
    {x : List Byte} (hx : x ∈ names) (location : BitVec 16) :
    (names.map (namedEntry · location)).find? (fun e => e.cname = x) =
      some (namedEntry x location) := by
  induction names with
  | nil => simp at hx
  | cons y names ih =>
    have hy := @cname_namedEntry _ location (hnames y List.mem_cons_self)
    rw [List.map_cons]
    by_cases hxy : x = y
    · rw [List.find?_cons_of_pos (by rw [hy, hxy]; simp), hxy]
    · rw [List.find?_cons_of_neg (by rw [hy]; simpa using Ne.symm hxy)]
      refine ih (fun z hz => hnames z (List.mem_cons_of_mem _ hz)) ?_
      exact (List.mem_cons.mp hx).resolve_left hxy

/-- Two directories with the same names: one name leads to the other directory, and all
others lead back. -/
def toggle (names : List (List Byte)) (name : List Byte) : Tree where
  readDirectory sector :=
    namedEntry name (if sector = 512 then 1 else 0) ::
      names.map (namedEntry · (if sector = 512 then 0 else 1))
  firstSector location := if location = 0 then 512 else 513

/-- The directory that a name leads to. -/
def toggled (name x : List Byte) (sector : Word) : Word :=
  if x = name then if sector = 512 then 513 else 512 else if sector = 512 then 512 else 513

variable {names : List (List Byte)} {name x : List Byte}

/-- One step down in the tree that tells two names apart. -/
theorem toggle_descend_cons (hnames : ∀ y ∈ names, ∀ b ∈ y, b ≠ 0) (hname : ∀ b ∈ name, b ≠ 0)
    (hx : x ∈ names ∨ x = name) (sector : Word) (rest : List (List Byte)) :
    (toggle names name).descend sector (x :: rest) =
      (toggle names name).descend (toggled name x sector) rest := by
  have hcname := @cname_namedEntry name (if sector = 512 then 1 else 0) hname
  have hfind : ((toggle names name).readDirectory sector).find? (fun e => e.cname = x) =
      some (if x = name then namedEntry name (if sector = 512 then 1 else 0)
        else namedEntry x (if sector = 512 then 0 else 1)) := by
    simp only [toggle]
    by_cases hxname : x = name
    · rw [List.find?_cons_of_pos (by rw [hcname, hxname]; simp), if_pos hxname]
    · rw [List.find?_cons_of_neg (by rw [hcname]; simpa using Ne.symm hxname), if_neg hxname]
      exact find?_named hnames (hx.resolve_right hxname) _
  simp only [descend, hfind]
  congr 1
  simp only [toggle, toggled, namedEntry]
  split_ifs <;> simp_all

/-- Before the last name, the two directories are passed through in the same way. -/
theorem toggle_descend (hnames : ∀ y ∈ names, ∀ b ∈ y, b ≠ 0) (hname : ∀ b ∈ name, b ≠ 0)
    {before : List (List Byte)} (hbefore : ∀ y ∈ before, y ∈ names) (sector : Word) :
    ∃ sector', ∀ x, x ∈ names ∨ x = name → (toggle names name).descend sector (before ++ [x]) =
      (toggle names name).readDirectory (toggled name x sector') := by
  induction before generalizing sector with
  | nil => exact ⟨sector, fun x hx => toggle_descend_cons hnames hname hx sector []⟩
  | cons y before ih =>
    obtain ⟨sector', hsector'⟩ :=
      ih (fun z hz => hbefore z (List.mem_cons_of_mem _ hz)) (toggled name y sector)
    refine ⟨sector', fun x hx => ?_⟩
    rw [List.cons_append, toggle_descend_cons hnames hname (Or.inl (hbefore y List.mem_cons_self))]
    exact hsector' x hx

/-- Names that differ in the last one only are told apart by a tree. -/
theorem exists_descend_ne {before : List (List Byte)} {c d : List Byte} (hcd : c ≠ d)
    (hbefore : ∀ y ∈ before, ∀ b ∈ y, b ≠ 0) (hc : ∀ b ∈ c, b ≠ 0) (hd : ∀ b ∈ d, b ≠ 0) :
    ∃ tree : Tree, tree.descend FAT16.rootSector (before ++ [c]) ≠
      tree.descend FAT16.rootSector (before ++ [d]) := by
  have hnames : ∀ y ∈ c :: before, ∀ b ∈ y, b ≠ 0 := by
    intro y hy
    rcases List.mem_cons.mp hy with rfl | hy
    · exact hc
    · exact hbefore y hy
  obtain ⟨sector, hsector⟩ := toggle_descend hnames hd
    (fun y hy => List.mem_cons_of_mem c hy) FAT16.rootSector
  refine ⟨toggle (c :: before) d, fun heq => ?_⟩
  rw [hsector c (Or.inl List.mem_cons_self), hsector d (Or.inr rfl)] at heq
  have hhead := congrArg (fun l => l.head?.map DirectoryEntry.location) heq
  simp only [toggle, toggled, if_neg hcd, if_true, List.head?_cons, Option.map_some, namedEntry,
    Option.some.injEq] at hhead
  split_ifs at hhead <;> simp_all

end Tree

namespace PathMemory

variable {mem : PathMemory} {components : List (List Byte)} {trailing : Bool}

/-- `readDirectory(path)` returns the entries of the directory with the components of the
path, or none, for every tree. -/
def Resolves (mem : PathMemory) (components : List (List Byte)) (trailing : Bool) : Prop :=
  ∃ N, ∀ fuel, N ≤ fuel → ∀ tree : Tree,
    tree.readPath mem fuel (pathOf components trailing) = .ok (tree.lookup components)

/-- What is behind the copy does not get into the last token. -/
def Apart (trailing : Bool) (behind : List Byte) : Prop :=
  trailing = true ∨ ∀ b ∈ behind.head?, b = slash

/-- The memory around a copy with a buffer: it is accessible where `strtok` looks for a NUL,
and the path is longer than two characters and ends apart from what is behind it. -/
structure CopyFits (mem : PathMemory) (components : List (List Byte)) (trailing : Bool) : Prop where
  accessible : mem.outside 0 (mem.base + (joinPath components trailing).length) = some 0
  ends : ∃ behind, Text (mem.outside (components.length - 1))
      (mem.base + (joinPath components trailing).length) behind ∧
    (∃ text, Text (mem.outside (max 1 components.length))
      (mem.base + (joinPath components trailing).length + behind.length) text) ∧
    (components ≠ [] → Apart trailing behind)
  long : components ≠ [] → 2 < (pathOf components trailing).length

/-- The memory around the path `/`: there is a NUL after where `strtok` stopped before. -/
def PathFits (mem : PathMemory) (components : List (List Byte)) (trailing : Bool) : Prop :=
  if joinPath components trailing = [] then ∃ text, Text (mem.outside 0) mem.nxt text
  else CopyFits mem components trailing

/-- Nothing gets into the last token exactly if what is behind the copy is set apart from it. -/
theorem extra_eq_nil_iff {behind : List Byte} :
    extra trailing behind = [] ↔ Apart trailing behind := by
  cases trailing with
  | true => simp [extra, Apart]
  | false => cases behind <;> simp [extra, Apart, List.takeWhile_cons]

/-- The directory that is returned, by the tokens of the copy. -/
theorem readPath_pathOf (tree : Tree) (fuel : ℕ) :
    tree.readPath mem fuel (pathOf components trailing) = (do
      let tokens ← mem.tokenise fuel (joinPath components trailing)
      .ok (if 2 < (pathOf components trailing).length
        then tree.descend FAT16.rootSector tokens else tree.readDirectory FAT16.rootSector)) := by
  simp only [Tree.readPath, pathOf, List.head?_cons, if_true, List.tail_cons]
  congr 1
  funext tokens
  exact (apply_ite Except.ok _ _ _).symm

/-- A path resolves if and only if its tokens lead where its components do. -/
theorem resolves_iff_tokens : Resolves mem components trailing ↔
    ∃ tokens,
      (∃ N, ∀ fuel, N ≤ fuel → mem.tokenise fuel (joinPath components trailing) = .ok tokens) ∧
      ∀ tree : Tree, (if 2 < (pathOf components trailing).length
        then tree.descend FAT16.rootSector tokens else tree.readDirectory FAT16.rootSector) =
          tree.lookup components := by
  constructor
  · rintro ⟨N, hok⟩
    have hrun := fun tree => hok N le_rfl tree
    simp only [readPath_pathOf, bind_eq_ok] at hrun
    obtain ⟨tokens, htokens, -⟩ := hrun ⟨fun _ => [], fun _ => 0⟩
    refine ⟨tokens, ⟨N, fun fuel hfuel => tokenLoop_mono htokens hfuel⟩, fun tree => ?_⟩
    obtain ⟨tokens', htokens', heq⟩ := hrun tree
    obtain rfl := Except.ok.inj (htokens.symm.trans htokens')
    exact Except.ok.inj heq
  · rintro ⟨tokens, ⟨N, hok⟩, htree⟩
    refine ⟨N, fun fuel hfuel tree => ?_⟩
    rw [readPath_pathOf, hok fuel hfuel]
    exact congrArg Except.ok (htree tree)

/-- The last component is the one that is extended. -/
theorem extendLast_split (hne : components ≠ []) :
    ∃ before c, components = before ++ [c] ∧ ∀ e, extendLast components e = before ++ [c ++ e] := by
  induction components with
  | nil => exact absurd rfl hne
  | cons c components ih =>
    cases components with
    | nil => exact ⟨[], c, rfl, fun _ => rfl⟩
    | cons d rest =>
      obtain ⟨before, c', heq, hextend⟩ := ih (List.cons_ne_nil d rest)
      refine ⟨c :: before, c', by rw [heq]; rfl, fun e => ?_⟩
      rw [extendLast, hextend]
      rfl

/-- Every tree leads the tokens where it leads the components only if nothing was added. -/
theorem extra_eq_nil {behind : List Byte} (hne : components ≠ [])
    (hplain : ∀ c ∈ components, Plain c) (hbehind : ∀ b ∈ behind, b ≠ 0)
    (h : ∀ tree : Tree,
      tree.descend FAT16.rootSector (extendLast components (extra trailing behind)) =
      tree.descend FAT16.rootSector components) : extra trailing behind = [] := by
  by_contra hextra
  obtain ⟨before, c, rfl, hextend⟩ := extendLast_split hne
  have hzero : ∀ d ∈ before ++ [c], ∀ b ∈ d, b ≠ 0 := fun d hd b hb => (hplain d hd b hb).1
  have hbefore : ∀ y ∈ before, ∀ b ∈ y, b ≠ 0 := fun y hy => hzero y (List.mem_append_left _ hy)
  have hc : ∀ b ∈ c, b ≠ 0 := hzero c (by simp)
  have hadded : ∀ b ∈ extra trailing behind, b ≠ 0 := by
    intro b hb
    apply hbehind b
    rw [extra] at hb
    split_ifs at hb
    · simp at hb
    · exact (List.takeWhile_sublist _).subset hb
  have hne' : c ++ extra trailing behind ≠ c := by simpa using hextra
  obtain ⟨tree, htree⟩ := Tree.exists_descend_ne hne' hbefore
    (fun b hb => (List.mem_append.mp hb).elim (hc b) (hadded b)) hc
  have hsame := h tree
  rw [hextend] at hsame
  exact htree hsame

/-- A name that is not in the root directory. -/
theorem lookup_missing {c : List Byte} {rest : List (List Byte)} (hc : c ≠ []) :
    (⟨fun _ => [Tree.namedEntry [] 0], fun _ => 0⟩ : Tree).lookup (c :: rest) = [] := by
  rw [Tree.lookup, ← Tree.descend_eq, Tree.descend, List.find?_cons_of_neg]
  · rfl
  · simpa [DirectoryEntry.cname, Tree.namedEntry] using hc.symm

/-- Only the path `/` has nothing after its first slash. -/
theorem joinPath_eq_nil (hplain : ∀ c ∈ components, Plain c) (hnonempty : ∀ c ∈ components, c ≠ [])
    (h : joinPath components trailing = []) : components = [] ∧ trailing = false := by
  cases components with
  | nil =>
    cases trailing with
    | true => simp [joinPath] at h
    | false => exact ⟨rfl, rfl⟩
  | cons c rest =>
    obtain ⟨b, tail, heq, -⟩ := joinPath_head rest trailing (hplain c List.mem_cons_self)
      (hnonempty c List.mem_cons_self)
    rw [heq] at h
    exact absurd h (List.cons_ne_nil b tail)

/-- The path `/` leads to the root directory. -/
theorem resolves_root (hidle : mem.size ≤ 0) :
    Resolves mem [] false ↔ ∃ text, Text (mem.outside 0) mem.nxt text := by
  rw [resolves_iff_tokens]
  constructor
  · rintro ⟨tokens, htokens, -⟩
    exact ((tokenise_nil hidle).mp htokens).1
  · intro htext
    exact ⟨[], (tokenise_nil hidle).mpr ⟨htext, rfl⟩, fun tree => rfl⟩

/-- The path `//` leads to the root directory, although it has an empty token. -/
theorem resolves_slash (hfresh : ∀ b, mem.outside 0 (mem.base + 1) = some b → b = 0) :
    Resolves mem [] true ↔ CopyFits mem [] true := by
  have hiff := fun tokens =>
    @tokenise_iff mem tokens [[]] true (by simp) (by simp [Plain]) (by simp)
    (by simp [joinPath]) hfresh
  rw [resolves_iff_tokens]
  constructor
  · rintro ⟨tokens, htokens, -⟩
    obtain ⟨haccessible, behind, hbehind, htext, -⟩ := (hiff tokens).mp htokens
    exact ⟨haccessible, ⟨behind, hbehind, htext, fun h => absurd rfl h⟩, fun h => absurd rfl h⟩
  · rintro ⟨haccessible, ⟨behind, hbehind, htext, -⟩, -⟩
    exact ⟨[[]], (hiff _).mpr ⟨haccessible, behind, hbehind, htext, rfl⟩, fun tree => rfl⟩

/-- A path with components, in a copy that nothing but a NUL follows, resolves exactly if the copy
fits what was allocated. -/
theorem resolves_components (hne : components ≠ []) (hplain : ∀ c ∈ components, Plain c)
    (hnonempty : ∀ c ∈ components, c ≠ []) (hbody : joinPath components trailing ≠ [])
    (hfresh : ∀ b, mem.outside 0 (mem.base + (joinPath components trailing).length) = some b →
      b = 0) :
    Resolves mem components trailing ↔ CopyFits mem components trailing := by
  have hiff := fun tokens => @tokenise_iff mem tokens components trailing hne hplain
    (fun c hc => hnonempty c (List.mem_of_mem_tail hc)) hbody hfresh
  have hmax : max 1 components.length = components.length :=
    Nat.max_eq_right (List.length_pos_iff.mpr hne)
  rw [resolves_iff_tokens]
  constructor
  · rintro ⟨tokens, htokens, htree⟩
    obtain ⟨haccessible, behind, hbehind, htext, rfl⟩ := (hiff tokens).mp htokens
    have hlong : 2 < (pathOf components trailing).length := by
      by_contra hshort
      obtain ⟨c, rest, rfl⟩ := List.exists_cons_of_ne_nil hne
      have hmissing := htree ⟨fun _ => [Tree.namedEntry [] 0], fun _ => 0⟩
      rw [if_neg hshort, lookup_missing (hnonempty c List.mem_cons_self)] at hmissing
      simp at hmissing
    have hextra : extra trailing behind = [] := by
      apply extra_eq_nil hne hplain hbehind.ne_zero
      intro tree
      have hdescend := htree tree
      rw [if_pos hlong] at hdescend
      rw [hdescend, Tree.descend_eq]
      rfl
    refine ⟨haccessible, ⟨behind, hbehind, by rwa [hmax], fun _ => extra_eq_nil_iff.mp hextra⟩,
      fun _ => hlong⟩
  · rintro ⟨haccessible, ⟨behind, hbehind, htext, hapart⟩, hlong⟩
    rw [hmax] at htext
    refine ⟨_, (hiff _).mpr ⟨haccessible, behind, hbehind, htext, rfl⟩, fun tree => ?_⟩
    obtain ⟨before, c, heq, hextend⟩ := extendLast_split hne
    have htokens : extendLast components (extra trailing behind) = components := by
      rw [extra_eq_nil_iff.mpr (hapart hne), hextend, List.append_nil, heq]
    rw [if_pos (hlong hne), htokens, Tree.descend_eq]
    rfl

/-- **Paths resolve where they end apart from what is behind the copy.** For every path and
all memory around its copy: `readDirectory(path)` returns the entries of the directory that
the components lead to, or none if there is no such directory, if and only if memory is
accessible where `strtok` looks for a NUL, and a path with components has more than two
characters and either ends with a slash or is followed by a NUL or a slash when the last
component is taken. -/
theorem resolves_iff (hplain : ∀ c ∈ components, Plain c) (hnonempty : ∀ c ∈ components, c ≠ [])
    (hfresh : ∀ b, mem.outside 0 (mem.base + (joinPath components trailing).length) = some b →
      b = 0)
    (hidle : mem.size ≤ 0) :
    Resolves mem components trailing ↔ PathFits mem components trailing := by
  rw [PathFits]
  by_cases hbody : joinPath components trailing = []
  · obtain ⟨rfl, rfl⟩ := joinPath_eq_nil hplain hnonempty hbody
    rw [if_pos hbody, resolves_root hidle]
  · rw [if_neg hbody]
    by_cases hne : components = []
    · subst hne
      cases trailing with
      | true => exact resolves_slash hfresh
      | false => exact absurd rfl hbody
    · exact resolves_components hne hplain hnonempty hbody hfresh

/-- The copy of a path as the last block of the heap. From the second call on, the block of
the first token follows it, with a header of twelve bytes that starts with its size. -/
def heapMemory (length token : ℕ) : PathMemory where
  outside k x :=
    if 0 < k ∧ x = 0xE0001000 + length then some (BitVec.ofNat 8 (2 * (token + 12) + 1)) else some 0
  base := 0xE0001000
  nxt := 0
  size := 0

/-- The path `/ab/c/`. -/
theorem resolves_heap : Resolves (heapMemory 5 2) [[0x61, 0x62], [0x63]] true := by
  refine (resolves_iff ?_ ?_ ?_ le_rfl).mpr ?_
  · simp [Plain, slash]
  · simp
  · intro b hb
    exact (Option.some.inj hb).symm
  · rw [PathFits, if_neg (by simp [joinPath])]
    refine ⟨rfl, ⟨[0x1D], ?_, ⟨[], rfl⟩, fun _ => Or.inl rfl⟩, fun _ => by decide⟩
    exact ⟨rfl, by decide, rfl⟩

/-- A directory `a` with a directory `b` in it. -/
def smallTree : Tree where
  readDirectory sector :=
    if sector = 512 then [Tree.namedEntry [0x61] 2]
    else if sector = 600 then [Tree.namedEntry [0x62] 3]
    else [Tree.namedEntry [0x63] 4]
  firstSector location := if location = 2 then 600 else 700

/-- The path `/a` leads to the root directory, and the path `/a/b` leads nowhere. -/
theorem readPath_smallTree :
    smallTree.readPath (heapMemory 1 1) 100 (pathOf [[0x61]] false) =
      .ok (smallTree.readDirectory 512) ∧
    smallTree.lookup [[0x61]] ≠ smallTree.readDirectory 512 ∧
    smallTree.readPath (heapMemory 3 1) 100 (pathOf [[0x61], [0x62]] false) = .ok [] ∧
    smallTree.lookup [[0x61], [0x62]] ≠ [] := by
  refine ⟨rfl, ?_, rfl, ?_⟩ <;> decide

end PathMemory

end Muk
