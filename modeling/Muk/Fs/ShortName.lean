import Muk.Fs.DirectoryBytes
import Mathlib.Data.List.Basic

/-!
# Names of eight and three characters

A short slot holds a base of one to eight characters and an extension of up to three, both padded
with spaces. `readDirectory` puts a dot where it finds padding between two characters. After a base
of eight characters there is none, and the dot is missing.
-/

namespace Muk

/-- A printable character other than a space and a dot. -/
def NameChar (c : Byte) : Prop := 0x21 ≤ c ∧ c ≤ 0x7E ∧ c ≠ 0x2E

instance : DecidablePred NameChar := fun c =>
  inferInstanceAs (Decidable (0x21 ≤ c ∧ c ≤ 0x7E ∧ c ≠ 0x2E))

/-- A base and an extension that fit in a short slot. -/
structure ShortFileName where
  base : List Byte
  ext : List Byte
  base_ne : base ≠ []
  base_le : base.length ≤ 8
  ext_le : ext.length ≤ 3
  nameChar : ∀ c ∈ base ++ ext, NameChar c

namespace ShortFileName

/-- The eleven bytes that hold a name. -/
def bytes (n : ShortFileName) : List Byte :=
  n.base ++ (List.replicate (8 - n.base.length) 0x20 ++
    (n.ext ++ List.replicate (3 - n.ext.length) 0x20))

/-- A name in lower case, with a dot before its extension. -/
def text (n : ShortFileName) : List Byte :=
  n.base.map tolower ++ if n.ext = [] then [] else 0x2E :: n.ext.map tolower

/-- What `readDirectory` makes of a name. -/
def listed (n : ShortFileName) : List Byte :=
  n.base.map tolower ++ (if n.base.length < 8 ∧ n.ext ≠ [] then [0x2E] else []) ++
    n.ext.map tolower

/-- The same name up to case. -/
def SameUpToCase (n n' : ShortFileName) : Prop :=
  n.base.map tolower = n'.base.map tolower ∧ n.ext.map tolower = n'.ext.map tolower

end ShortFileName

namespace DirBytes

variable (m : DirBytes)

/-- The slot at an index is a short slot with a name. -/
structure HoldsName (index : ℕ) (n : ShortFileName) : Prop where
  attributes : m (index + 11) = FATAttributes.shortName ∨
    m (index + 11) = FATAttributes.shortNameFile
  bytes : (List.range 11).map (fun offset => m (index + offset)) = n.bytes

end DirBytes

/-! ## The characters of a name -/

section Decode

variable {cs : List Byte}

/-- Characters without padding before them. -/
theorem foldl_decodeChar (name : List Byte) (hcs : ∀ c ∈ cs, NameChar c) :
    cs.foldl decodeChar (name, false) = (name ++ cs.map tolower, false) := by
  induction cs generalizing name with
  | nil => simp
  | cons c cs ih =>
    obtain ⟨⟨hlow, -⟩, hcs⟩ := List.forall_mem_cons.mp hcs
    have hchar : c ≠ 0x20 ∧ c ≠ 0x10 := by
      constructor
      · rintro rfl
        exact absurd hlow (by decide)
      · rintro rfl
        exact absurd hlow (by decide)
    have hpass : decodeChar (name, false) c = (name ++ [tolower c], false) := by
      rw [decodeChar, if_pos hchar]
      simp
    rw [List.foldl_cons, hpass, ih _ hcs]
    simp

/-- Characters that are decoded after padding are appended behind a dot, in lower case. -/
theorem foldl_decodeChar_separator (name : List Byte) (hcs : ∀ c ∈ cs, NameChar c)
    (hne : cs ≠ []) :
    cs.foldl decodeChar (name, true) = (name ++ 0x2E :: cs.map tolower, false) := by
  obtain _ | ⟨c, cs⟩ := cs
  · exact absurd rfl hne
  obtain ⟨⟨hlow, -⟩, hcs⟩ := List.forall_mem_cons.mp hcs
  have hchar : c ≠ 0x20 ∧ c ≠ 0x10 := by
    constructor
    · rintro rfl
      exact absurd hlow (by decide)
    · rintro rfl
      exact absurd hlow (by decide)
  have hpass : decodeChar (name, true) c = (name ++ [0x2E] ++ [tolower c], false) := by
    rw [decodeChar, if_pos hchar]
    rfl
  rw [List.foldl_cons, hpass, foldl_decodeChar _ hcs]
  simp

/-- Padding adds no character to the name, and only remembers that it was seen. -/
theorem foldl_decodeChar_padding (state : List Byte × Bool) (k : ℕ) :
    (List.replicate k 0x20).foldl decodeChar state =
      (state.1, if k = 0 then state.2 else true) := by
  induction k generalizing state with
  | zero => rfl
  | succ k ih =>
    have hpass : decodeChar state 0x20 = (state.1, true) := if_neg (by decide)
    rw [List.replicate_succ, List.foldl_cons, hpass, ih, if_neg (Nat.succ_ne_zero k)]
    simp

/-- The attribute byte of a short slot counts as padding. -/
theorem decodeChar_attributes {state : List Byte × Bool} {b : Byte}
    (h : b = FATAttributes.shortName ∨ b = FATAttributes.shortNameFile) :
    decodeChar state b = (state.1, true) := by
  rcases h with rfl | rfl
  · exact if_neg (by decide)
  · exact if_neg (by decide)

/-- No other character has the dot for its lower case. -/
theorem dot_notMem_map_tolower (hcs : ∀ c ∈ cs, NameChar c) : 0x2E ∉ cs.map tolower := by
  have hdot : ∀ c, tolower c = 0x2E → c = 0x2E := by decide
  rintro hmem
  obtain ⟨c, hc, heq⟩ := List.mem_map.mp hmem
  exact (hcs c hc).2.2 (hdot c heq)

end Decode

namespace ShortFileName

variable {n n' : ShortFileName}

/-- The characters of the base may be in a name. -/
theorem nameChar_base (n : ShortFileName) : ∀ c ∈ n.base, NameChar c :=
  fun c hc => n.nameChar c (List.mem_append_left _ hc)

/-- The characters of the extension may be in a name. -/
theorem nameChar_ext (n : ShortFileName) : ∀ c ∈ n.ext, NameChar c :=
  fun c hc => n.nameChar c (List.mem_append_right _ hc)

/-- The twelve bytes that the loop goes through. -/
theorem foldl_bytes (n : ShortFileName) {attributes : Byte}
    (h : attributes = FATAttributes.shortName ∨ attributes = FATAttributes.shortNameFile) :
    ((n.bytes ++ [attributes]).foldl decodeChar ([], false)).1 = n.listed := by
  rw [List.foldl_append, List.foldl_cons, List.foldl_nil, decodeChar_attributes h, bytes,
    List.foldl_append, foldl_decodeChar _ n.nameChar_base, List.nil_append, List.foldl_append,
    foldl_decodeChar_padding, List.foldl_append, foldl_decodeChar_padding, listed]
  by_cases hext : n.ext = []
  · simp [hext]
  by_cases hbase : n.base.length < 8
  · have hpad : 8 - n.base.length ≠ 0 := by omega
    simp [if_neg hpad, foldl_decodeChar_separator _ n.nameChar_ext hext, hbase, hext]
  · have hpad : 8 - n.base.length = 0 := by omega
    simp [if_pos hpad, foldl_decodeChar _ n.nameChar_ext, hbase]

/-- A name is listed as it should be unless it needs a dot and has no padding before it. -/
theorem listed_eq_text_iff : n.listed = n.text ↔ n.base.length < 8 ∨ n.ext = [] := by
  by_cases hext : n.ext = []
  · simp [listed, text, hext]
  by_cases hbase : n.base.length < 8
  · simp [listed, text, hext, hbase]
  · simp [listed, text, hext, hbase]

/-- Listed names tell the names apart. -/
theorem sameUpToCase_of_listed_eq (h : n.listed = n'.listed) : n.SameUpToCase n' := by
  have hbase := dot_notMem_map_tolower n.nameChar_base
  have hbase' := dot_notMem_map_tolower n'.nameChar_base
  have hext := dot_notMem_map_tolower n.nameChar_ext
  have hext' := dot_notMem_map_tolower n'.nameChar_ext
  unfold listed at h
  by_cases hdot : n.base.length < 8 ∧ n.ext ≠ []
  · rw [if_pos hdot, List.append_assoc, List.singleton_append] at h
    by_cases hdot' : n'.base.length < 8 ∧ n'.ext ≠ []
    · rw [if_pos hdot', List.append_assoc, List.singleton_append] at h
      obtain ⟨hb, -, he⟩ := (List.append_cons_inj_of_notMem hbase' hext').mp h.symm
      exact ⟨hb.symm, he.symm⟩
    · rw [if_neg hdot', List.append_nil] at h
      have hmem : (0x2E : Byte) ∈ n'.base.map tolower ++ n'.ext.map tolower := by
        rw [← h]
        simp
      exact absurd (List.mem_append.mp hmem) (not_or.mpr ⟨hbase', hext'⟩)
  · rw [if_neg hdot, List.append_nil] at h
    by_cases hdot' : n'.base.length < 8 ∧ n'.ext ≠ []
    · rw [if_pos hdot', List.append_assoc, List.singleton_append] at h
      have hmem : (0x2E : Byte) ∈ n.base.map tolower ++ n.ext.map tolower := by
        rw [h]
        simp
      exact absurd (List.mem_append.mp hmem) (not_or.mpr ⟨hbase, hext⟩)
    · rw [if_neg hdot', List.append_nil] at h
      -- without a dot, the base has eight characters or is all there is
      have hlength := congrArg List.length h
      simp only [List.length_append, List.length_map] at hlength
      have hle := n.base_le
      have hle' := n'.base_le
      have hzero : n.base.length = 8 ∨ n.ext.length = 0 := by
        by_contra! hn
        exact hdot ⟨by omega, fun hnil => hn.2 (by rw [hnil]; rfl)⟩
      have hzero' : n'.base.length = 8 ∨ n'.ext.length = 0 := by
        by_contra! hn
        exact hdot' ⟨by omega, fun hnil => hn.2 (by rw [hnil]; rfl)⟩
      exact List.append_inj h (by simp only [List.length_map]; omega)

end ShortFileName

namespace DirBytes

variable {m m' : DirBytes} {index index' : ℕ} {n n' : ShortFileName}

/-- The name of a short slot is decoded from its first eleven bytes. -/
theorem shortName_eq {bytes : List Byte}
    (h : (List.range 11).map (fun offset => m (index + offset)) = bytes) :
    (shortName m index).name =
      ((bytes ++ [m (index + 11)]).foldl decodeChar ([], false)).1 := by
  have hview : (List.range 12).foldl (fun state offset => decodeChar state (m (index + offset)))
      (NameState.view .start) =
        NameState.view ((List.range 12).foldl (shortNamePass m index) .start) :=
    List.foldl_hom NameState.view fun t offset => (view_shortNamePass m index t offset).symm
  have hlast : List.range 12 = List.range 11 ++ [11] := List.range_succ
  have hbytes : (List.range 12).map (fun offset => m (index + offset)) =
      bytes ++ [m (index + 11)] := by
    rw [hlast, List.map_append, h, List.map_singleton]
  rw [← List.foldl_map, hbytes] at hview
  exact (congrArg Prod.fst hview).symm

/-- The name of a short slot. -/
theorem HoldsName.name (h : m.HoldsName index n) : (shortName m index).name = n.listed := by
  rw [shortName_eq h.bytes, n.foldl_bytes h.attributes]

/-- The entry of a short slot. -/
theorem HoldsName.entry (h : m.HoldsName index n) :
    ∃ e, (readSlot m index).entry = some e ∧ e.name = n.listed := by
  rw [readSlot_short h.attributes]
  exact ⟨_, rfl, h.name⟩

/-- The passes come to every slot that no long-name slot stands before. -/
theorem mem_passes {fuel i k : ℕ} (hfuel : k < fuel) (hi : i + k < 16)
    (hattr : ∀ j, i ≤ j → j < i + k → m (32 * j + 11) ≠ FATAttributes.longName) :
    32 * (i + k) ∈ passes m fuel (32 * i) := by
  induction k generalizing fuel i with
  | zero =>
    obtain _ | fuel := fuel
    · omega
    rw [passes, if_pos (by omega)]
    exact List.mem_cons_self
  | succ k ih =>
    obtain _ | fuel := fuel
    · omega
    obtain ⟨hnext, -⟩ := readSlot_inRange (hattr i le_rfl (by omega)) (by omega)
    have hstep : 32 * i + 32 = 32 * (i + 1) := by omega
    have hsum : i + (k + 1) = i + 1 + k := by omega
    rw [passes, if_pos (by omega), hnext, hstep, hsum]
    exact List.mem_cons_of_mem _ (ih (by omega) (by omega) fun j hj hj' => hattr j (by omega)
      (by omega))

/-- **A name is listed with its dot unless its base has eight characters.** What `readDirectory`
lists are the entries of its passes. The entry of a short slot has the base in lower case and,
unless the extension is empty, a dot and the extension in lower case, if and only if the base has
fewer than eight characters or the extension is empty. In all cases, slots whose entries have the
same name hold the same name up to case. -/
theorem holdsName_iff (m : DirBytes) :
    (∃ accesses, m.readDirectory = .ok (m.entries, accesses)) ∧
    (∀ index ∈ m.passes 512 0, ∀ n, m.HoldsName index n →
      ((∃ e, (m.readSlot index).entry = some e ∧ e.name = n.text) ↔
        n.base.length < 8 ∨ n.ext = [])) ∧
    ∀ (m' : DirBytes) (index index' : ℕ) (n n' : ShortFileName) (e e' : DirectoryEntry),
      m.HoldsName index n → m'.HoldsName index' n' → (m.readSlot index).entry = some e →
      (m'.readSlot index').entry = some e' → e.name = e'.name → n.SameUpToCase n' := by
  refine ⟨readDirectory_entries m, ?_, ?_⟩
  · intro index _ n hn
    obtain ⟨e, hentry, hname⟩ := hn.entry
    rw [← ShortFileName.listed_eq_text_iff, hentry]
    constructor
    · rintro ⟨e', heq, htext⟩
      obtain rfl := Option.some.inj heq
      exact hname.symm.trans htext
    · intro htext
      exact ⟨e, rfl, hname.trans htext⟩
  · intro m' index index' n n' e e' hn hn' he he' heq
    obtain ⟨_, hentry, hname⟩ := hn.entry
    obtain ⟨_, hentry', hname'⟩ := hn'.entry
    obtain rfl := Option.some.inj (he.symm.trans hentry)
    obtain rfl := Option.some.inj (he'.symm.trans hentry')
    exact ShortFileName.sameUpToCase_of_listed_eq (hname.symm.trans (heq.trans hname'))

/-- A sector with a file in its first slot. -/
def oneName (n : ShortFileName) : DirBytes := fun i => (n.bytes ++ [0x20]).getD i 0

/-- The name `FILENAME.TXT`. -/
def fileNameTxt : ShortFileName where
  base := [0x46, 0x49, 0x4C, 0x45, 0x4E, 0x41, 0x4D, 0x45]
  ext := [0x54, 0x58, 0x54]
  base_ne := by decide
  base_le := by decide
  ext_le := by decide
  nameChar := by decide

/-- The file `FILENAME.TXT` is listed as `filenametxt`. -/
theorem fileNameTxt_listed : 0 ∈ (oneName fileNameTxt).passes 512 0 ∧
    (oneName fileNameTxt).HoldsName 0 fileNameTxt ∧
    ∃ e, ((oneName fileNameTxt).readSlot 0).entry = some e ∧
      e.name = [0x66, 0x69, 0x6C, 0x65, 0x6E, 0x61, 0x6D, 0x65, 0x74, 0x78, 0x74] ∧
      e.name ≠ fileNameTxt.text := by
  have hholds : (oneName fileNameTxt).HoldsName 0 fileNameTxt := ⟨by decide, by decide⟩
  obtain ⟨e, hentry, hname⟩ := hholds.entry
  refine ⟨mem_passes (i := 0) (k := 0) (by decide) (by decide) fun j _ hj => by omega, hholds, e,
    hentry, ?_⟩
  rw [hname]
  exact ⟨by decide, by decide⟩

end DirBytes

end Muk
