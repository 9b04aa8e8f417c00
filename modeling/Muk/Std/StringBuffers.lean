import Muk.Std.StringCopies

/-!
# Strings and their buffers

The characters of a string lie in an array of their own. No index leaves its array and no
character is read before it is written, as these accesses are errors: only the heap can be too
small for a new array.
-/

namespace Muk

/-- `std::string`, with the number of the array `buff`. -/
structure BufferString where
  length : Word
  buff : ℕ

namespace BufferString

/-- `new char[size]`, which is `NULL` for no characters. The heap ends at `0xF0000000`. -/
def newChars (s : Arrays Byte) (size : Word) : Except ArrayFault (ℕ × Arrays Byte) :=
  if size = 0 then .ok (0, s)
  else if Heap.heapBytes (s.sizes ++ [size.toNat]) ≤ 0x10000000 then .ok (s.alloc size.toNat)
  else .error .overflow

/-- The characters of an array, as the functions that follow a C string find them. -/
def cells (s : Arrays Byte) (ptr : ℕ) : Cells := fun k => (s.array ptr)[k]?.join

/-- `strlen`, whose scan ends with the array at the latest. -/
def strlen (s : Arrays Byte) (ptr : ℕ) : Except ArrayFault Word :=
  match readString (cells s ptr) ((s.array ptr).length + 1) 0 with
  | .ok text => .ok (BitVec.ofNat 32 text.length)
  | .error _ => .error .outOfBounds

/-- `strncpy` to a place in an array. Its parameter `n` is an `int`. -/
def strncpy (s : Arrays Byte) (dest offset src : ℕ) (n : Word) : Except ArrayFault (Arrays Byte) :=
  s.copyAt dest offset src id n.toInt.toNat

/-- A new array with a copy of some characters. -/
def ofArray (s : Arrays Byte) (src : ℕ) (length : Word) :
    Except ArrayFault (BufferString × Arrays Byte) := do
  let (buff, s) ← newChars s length
  let s ← strncpy s buff 0 src length
  .ok ({ length := length, buff := buff }, s)

/-- `string(char* init_val)` -/
def ofChars (s : Arrays Byte) (init_val : ℕ) : Except ArrayFault (BufferString × Arrays Byte) := do
  let length ← strlen s init_val
  ofArray s init_val length

/-- The C string `dest` in `substr`. -/
def substrDest (s : Arrays Byte) (str : BufferString) (pos count : Word) :
    Except ArrayFault (ℕ × Arrays Byte) := do
  let (dest, s) ← newChars s (count + 1#32)
  let s ← s.copyAt dest 0 str.buff (fun p => (pos + BitVec.ofNat 32 p).toNat) count.toNat
  let s ← s.write dest count.toNat 0
  .ok (dest, s)

/-- `substr`. Nothing comes of `delete dest`. -/
def substr (s : Arrays Byte) (str : BufferString) (pos count : Word) :
    Except ArrayFault (BufferString × Arrays Byte) := do
  let count := if str.length < pos + count ∨ count = StdString.npos then str.length - pos else count
  let (dest, s) ← substrDest s str pos count
  ofChars s dest

/-- `operator+=`, with a string. -/
def append (s : Arrays Byte) (str s2 : BufferString) :
    Except ArrayFault (BufferString × Arrays Byte) := do
  let (newBuff, s) ← newChars s (str.length + s2.length)
  let s ← strncpy s newBuff 0 str.buff str.length
  let s ← strncpy s newBuff str.length.toNat s2.buff s2.length
  .ok ({ length := str.length + s2.length, buff := newBuff }, s)

/-- `str.substr(0, k) += str.substr(k)`. Either operand may be the first one to be made. -/
def rejoin (s : Arrays Byte) (str : BufferString) (k : Word) (leftFirst : Bool) :
    Except ArrayFault (BufferString × Arrays Byte) :=
  if leftFirst then do
    let (left, s) ← substr s str 0 k
    let (right, s) ← substr s str k StdString.npos
    append s left right
  else do
    let (right, s) ← substr s str k StdString.npos
    let (left, s) ← substr s str 0 k
    append s left right

variable {s s' : Arrays Byte} {str s2 : BufferString} {chars chars' : List Byte}
  {t u : Arrays Byte} {size pos count : Word} {src dest b n : ℕ} {need need' : List ℕ}

/-! ## Room in the heap -/

/-- The arrays of a heap: there is no array at `NULL`, and the others fit. -/
structure InHeap (s : Arrays Byte) : Prop where
  null : s.array 0 = []
  count_pos : 0 < s.count
  fits : Heap.heapBytes s.sizes ≤ 0x10000000

/-- The string has the given characters, which fill its array. -/
structure Represents (s : Arrays Byte) (str : BufferString) (chars : List Byte) : Prop where
  length : str.length.toNat = chars.length
  array : s.array str.buff = chars.map some
  live : str.buff < s.count

/-- The bytes that new arrays of these sizes take. -/
def arrayBytes (sizes : List ℕ) : ℕ :=
  (sizes.map fun n => if n = 0 then 0 else n + blockHeaderSize).sum

/-- Arrays of the given sizes were made, and the earlier ones are unchanged. -/
structure Made (s : Arrays Byte) (need : List ℕ) (s' : Arrays Byte) : Prop where
  inHeap : InHeap s'
  isExtension : s.Extends s'
  bytes : Heap.heapBytes s'.sizes = Heap.heapBytes s.sizes + arrayBytes need

/-- A run that makes arrays of the given sizes, if the heap has room for them, and nothing else
that stays. -/
structure Allocates {β : Type} (s : Arrays Byte) (need : List ℕ) (P : β → Arrays Byte → Prop)
    (x : Except ArrayFault (β × Arrays Byte)) : Prop where
  outcome : Outcome
    (fun e => e = .overflow ∧ 0x10000000 < Heap.heapBytes s.sizes + arrayBytes need)
    (fun r => Made s need r.2 ∧ P r.1 r.2) x

/-- The bytes of two lists of arrays are added up. -/
theorem arrayBytes_append (sizes more : List ℕ) :
    arrayBytes (sizes ++ more) = arrayBytes sizes + arrayBytes more := by
  simp [arrayBytes]

/-- A single array takes its bytes and a header. -/
theorem arrayBytes_singleton (hn : n ≠ 0) : arrayBytes [n] = n + 12 := by
  simp [arrayBytes, hn, blockHeaderSize]

/-- What two calls make one after the other needs what they need together. -/
theorem Made.trans {s'' : Arrays Byte} (h : Made s need s') (h' : Made s' need' s'') :
    Made s (need ++ need') s'' := by
  refine ⟨h'.inHeap, h.isExtension.trans h'.isExtension, ?_⟩
  rw [h'.bytes, h.bytes, arrayBytes_append, Nat.add_assoc]

/-- The rule for a sequence of two steps. -/
theorem Allocates.bind {β γ : Type} {P : β → Arrays Byte → Prop} {Q : γ → Arrays Byte → Prop}
    {x : Except ArrayFault (β × Arrays Byte)}
    {f : β × Arrays Byte → Except ArrayFault (γ × Arrays Byte)} (h : Allocates s need P x)
    (hf : ∀ b t, Made s need t → P b t → Allocates t need' Q (f (b, t))) :
    Allocates s (need ++ need') Q (x >>= f) := by
  have hbytes := arrayBytes_append need need'
  constructor
  refine (h.outcome.mono_error fun e he => ⟨he.1, by omega⟩).bind fun r ⟨hmade, hr⟩ => ?_
  refine ((hf r.1 r.2 hmade hr).outcome.mono fun r' hr' => ?_).mono_error fun e he => ?_
  · exact ⟨hmade.trans hr'.1, hr'.2⟩
  · have hroom := he.2
    rw [hmade.bytes] at hroom
    exact ⟨he.1, by omega⟩

/-- Only the bytes that the arrays take matter. -/
theorem Allocates.congr {β : Type} (need : List ℕ) {P : β → Arrays Byte → Prop}
    {x : Except ArrayFault (β × Arrays Byte)} (h : Allocates s need P x)
    (hbytes : arrayBytes need = arrayBytes need') : Allocates s need' P x := by
  constructor
  refine (h.outcome.mono fun r hr => ?_).mono_error fun e he => ?_
  · exact ⟨⟨hr.1.inHeap, hr.1.isExtension, hbytes ▸ hr.1.bytes⟩, hr.2⟩
  · exact ⟨he.1, hbytes ▸ he.2⟩

/-- The rule for a step that makes no array, but may change those that were made. -/
theorem Allocates.fill {β γ : Type} {P : β → Arrays Byte → Prop} {Q : γ → Arrays Byte → Prop}
    {x : Except ArrayFault (β × Arrays Byte)}
    {f : β × Arrays Byte → Except ArrayFault (γ × Arrays Byte)} (h : Allocates s need P x)
    (hf : ∀ b t, Made s need t → P b t →
      ∃ c u, f (b, t) = .ok (c, u) ∧ Made s need u ∧ Q c u) :
    Allocates s need Q (x >>= f) := by
  constructor
  refine h.outcome.bind fun r hr => ?_
  obtain ⟨c, u, hrun, hmade, hc⟩ := hf r.1 r.2 hr.1 hr.2
  exact Outcome.of_eq_ok hrun ⟨hmade, hc⟩

/-- With room in the heap, the run succeeds. -/
theorem Allocates.exists_ok {β : Type} {P : β → Arrays Byte → Prop}
    {x : Except ArrayFault (β × Arrays Byte)} (h : Allocates s need P x)
    (hroom : Heap.heapBytes s.sizes + arrayBytes need ≤ 0x10000000) :
    ∃ b t, x = .ok (b, t) ∧ Made s need t ∧ P b t := by
  obtain ⟨r, hrun, hr⟩ := outcome_false_iff.mp
    (h.outcome.mono_error fun e he => absurd he.2 (by omega))
  exact ⟨r.1, r.2, hrun, hr⟩

/-- A string keeps its characters while arrays are made. -/
theorem Represents.mono (h : Represents s str chars) (hextends : s.Extends s') :
    Represents s' str chars :=
  ⟨h.length, (hextends.array _ h.live).trans h.array, Nat.lt_of_lt_of_le h.live hextends.count_le⟩

/-- A run that makes arrays keeps the strings that there were. -/
theorem Allocates.keeps {β : Type} {P : β → Arrays Byte → Prop}
    {x : Except ArrayFault (β × Arrays Byte)} (h : Allocates s need P x)
    (hstr : Represents s str chars) :
    Allocates s need (fun r t => P r t ∧ Represents t str chars) x :=
  ⟨h.outcome.mono fun _ hr => ⟨hr.1, hr.2, hstr.mono hr.1.isExtension⟩⟩

/-- An array is smaller than the heap. -/
theorem InHeap.length_le (hs : InHeap s) (hb : b < s.count) :
    (s.array b).length ≤ 0x0FFFFFF4 := by
  rcases Nat.eq_zero_or_pos b with rfl | hpos
  · rw [hs.null]
    exact Nat.zero_le _
  · obtain ⟨hlt, hsize⟩ := Arrays.getElem_sizes hpos hb
    have hbytes := Heap.blockOffset_add_le hlt
    have hfits := hs.fits
    omega

/-- A string is smaller than the heap. -/
theorem Represents.length_le (h : Represents s str chars) (hs : InHeap s) :
    chars.length ≤ 0x0FFFFFF4 := by
  have hle := hs.length_le h.live
  rwa [h.array, List.length_map] at hle

/-- A character of a string is in its buffer. -/
theorem Represents.getElem (h : Represents s str chars) {i : ℕ} (hi : i < chars.length) :
    (s.array str.buff)[i]? = some (some chars[i]) := by
  rw [h.array, List.getElem?_map, List.getElem?_eq_getElem hi]
  rfl

/-! ## New arrays -/

/-- An array that was not there before, or `NULL`. -/
structure New (s : Arrays Byte) (n b : ℕ) (t : Arrays Byte) : Prop where
  live : b < t.count
  length : (t.array b).length = n
  fresh : t.array b = [] ∨ s.count ≤ b

/-- Changes that keep the lengths of the arrays. -/
theorem InHeap.congr (hs : InHeap s) (hcount : t.count = s.count)
    (hlength : ∀ b, (t.array b).length = (s.array b).length) : InHeap t := by
  refine ⟨?_, hcount ▸ hs.count_pos, Arrays.sizes_congr hcount hlength ▸ hs.fits⟩
  rw [← List.length_eq_zero_iff, hlength, hs.null, List.length_nil]

/-- Writing into the new array changes neither what was made before nor which arrays are new. -/
theorem Made.fill (h : Made s need t) (hnew : New s n b t) (hcount : u.count = t.count)
    (hlength : (u.array b).length = (t.array b).length)
    (hother : ∀ x ≠ b, u.array x = t.array x) : Made s need u ∧ New s n b u := by
  have hlengths := Arrays.length_congr hlength hother
  have hsizes : u.sizes = t.sizes := Arrays.sizes_congr hcount hlengths
  have hnil : t.array b = [] → u.array b = [] := fun hb => by
    rwa [hb, List.length_nil, List.length_eq_zero_iff] at hlength
  refine ⟨⟨h.inHeap.congr hcount hlengths, ⟨hcount ▸ h.isExtension.count_le, fun x hx => ?_⟩,
    hsizes ▸ h.bytes⟩, ⟨hcount ▸ hnew.live, hlength.trans hnew.length, hnew.fresh.imp_left hnil⟩⟩
  by_cases hxb : x = b
  · rw [← h.isExtension.array x hx, hxb]
    rcases hnew.fresh with hb | hb
    · rw [hnil hb, hb]
    · omega
  · rw [hother x hxb, h.isExtension.array x hx]

/-- `new char[size]` makes an array of this size, with nothing in it yet. -/
theorem newChars_spec (hs : InHeap s) (size : Word) :
    Allocates s [size.toNat] (fun b t => New s size.toNat b t ∧
      t.array b = List.replicate size.toNat none) (newChars s size) := by
  rw [newChars]
  by_cases hzero : size = 0
  · subst hzero
    have hlength : (s.array 0).length = 0 := by rw [hs.null, List.length_nil]
    rw [if_pos rfl]
    exact ⟨⟨hs, .refl s, rfl⟩, ⟨hs.count_pos, hlength, Or.inl hs.null⟩, hs.null⟩
  · have hne : size.toNat ≠ 0 := fun h => hzero (BitVec.eq_of_toNat_eq h)
    have hbytes : Heap.heapBytes (s.sizes ++ [size.toNat]) =
        Heap.heapBytes s.sizes + arrayBytes [size.toNat] := by
      rw [Heap.heapBytes_append, arrayBytes_singleton hne, Nat.add_assoc]
    rw [if_neg hzero]
    split_ifs with hfit
    · have harray := Arrays.alloc_array s size.toNat
      have hextends := Arrays.alloc_extends s size.toNat
      have hsizes := Arrays.sizes_alloc (n := size.toNat) hs.count_pos
      refine ⟨⟨⟨?_, Nat.succ_pos _, hsizes ▸ hfit⟩, hextends, hsizes ▸ hbytes⟩,
        ⟨Nat.lt_succ_self _, ?_, Or.inr (Nat.le_refl _)⟩, harray⟩
      · rw [hextends.array 0 hs.count_pos, hs.null]
      · rw [harray, List.length_replicate]
    · exact ⟨rfl, by omega⟩

/-- A copy into a new array. -/
theorem copyAt_made (offset : ℕ) (index : ℕ → ℕ) (h : Made s need t) (hnew : New s n b t)
    (hsrc : src < s.count)
    (hread : ∀ i (hi : i < chars.length), (s.array src)[index i]? = some (some chars[i]))
    (hroom : offset + chars.length ≤ n) :
    ∃ u, t.copyAt b offset src index chars.length = .ok u ∧ Made s need u ∧ New s n b u ∧
      ∀ k, (u.array b)[k]? =
        if offset ≤ k ∧ k < offset + chars.length then chars[k - offset]?.map some
        else (t.array b)[k]? := by
  have hne : chars ≠ [] → src ≠ b := by
    rintro hchars rfl
    have hpos := List.length_pos_of_ne_nil hchars
    rcases hnew.fresh with hb | hb
    · have hlength := hnew.length
      rw [hb, List.length_nil] at hlength
      omega
    · omega
  have hread' : ∀ i (hi : i < chars.length), (t.array src)[index i]? = some (some chars[i]) := by
    intro i hi
    rw [h.isExtension.array src hsrc, hread i hi]
  obtain ⟨u, hrun, hcount, hlength, hcell, hother⟩ :=
    Arrays.copyAt_spec offset index hne hread' (hnew.length.symm ▸ hroom)
  obtain ⟨hmade, hnew'⟩ := h.fill hnew hcount hlength hother
  exact ⟨u, hrun, hmade, hnew', hcell⟩

/-! ## The operations -/

/-- Copying some characters into a new string. -/
theorem ofArray_spec (hs : InHeap s) {length : Word} (hsrc : src < s.count)
    (hread : ∀ i (hi : i < chars.length), (s.array src)[i]? = some (some chars[i]))
    (hlength : length.toNat = chars.length) :
    Allocates s [chars.length] (fun str t => Represents t str chars) (ofArray s src length) := by
  rw [← hlength]
  refine (newChars_spec hs length).fill fun b t hmade ⟨hnew, harray⟩ => ?_
  have hle := hmade.inHeap.length_le hnew.live
  rw [hnew.length] at hle
  obtain ⟨u, hrun, hmade', hnew', hcell⟩ := copyAt_made 0 id hmade hnew hsrc
    hread (by omega)
  refine ⟨⟨length, b⟩, u, ?_, hmade', hlength, ?_, hnew'.live⟩
  · simp only [strncpy, toInt_toNat_of_le (show length.toNat ≤ 0x10000000 by omega), hlength, hrun,
      ok_bind]
  · apply List.ext_getElem?
    intro k
    rw [hcell k, harray, List.getElem?_map]
    by_cases hk : k < chars.length
    · rw [if_pos (by omega), Nat.sub_zero]
    · rw [if_neg (by omega), List.getElem?_eq_none (by rw [List.length_replicate]; omega),
        List.getElem?_eq_none (by omega)]
      rfl

/-- The constructor from a C string, which ends at the first NUL of its array. -/
theorem ofChars_spec (hs : InHeap s) (hsrc : src < s.count)
    (hread : ∀ i (hi : i < chars.length), (s.array src)[i]? = some (some chars[i]))
    (hnul : (s.array src)[chars.length]? = some (some 0)) (hne : 0 ∉ chars) :
    Allocates s [chars.length] (fun str t => Represents t str chars) (ofChars s src) := by
  have hcell : ∀ k c, (s.array src)[k]? = some (some c) → cells s src k = some c := by
    intro k c h
    rw [cells, h]
    rfl
  have htext : Text (cells s src) 0 chars := by
    apply Text.of_bytes
    · refine bytes_iff.mpr fun i hi => ?_
      rw [Nat.zero_add, List.getElem?_eq_getElem hi]
      exact hcell i _ (hread i hi)
    · exact fun c hc h0 => hne (h0 ▸ hc)
    · rw [Nat.zero_add]
      exact hcell _ _ hnul
  have hlt : chars.length < (s.array src).length := (List.getElem?_eq_some_iff.mp hnul).1
  have hle := hs.length_le hsrc
  have hscan : readString (cells s src) ((s.array src).length + 1) 0 = .ok chars :=
    readString_eq_ok.mpr ⟨htext, by omega⟩
  have hrun : strlen s src = .ok (BitVec.ofNat 32 chars.length) := by rw [strlen, hscan]
  rw [ofChars, hrun, ok_bind]
  exact ofArray_spec hs hsrc hread (toNat_ofNat_of_lt (by omega))

/-- The C string that `substr` makes of some characters of a string. -/
theorem substrDest_spec (hs : InHeap s) (hstr : Represents s str chars)
    (hfit : pos.toNat + count.toNat ≤ chars.length) :
    Allocates s [count.toNat + 1] (fun dest t => dest < t.count ∧
      (∀ i (hi : i < ((chars.drop pos.toNat).take count.toNat).length),
        (t.array dest)[i]? = some (some ((chars.drop pos.toNat).take count.toNat)[i])) ∧
      (t.array dest)[count.toNat]? = some (some 0)) (substrDest s str pos count) := by
  have hle := hstr.length_le hs
  have hlength : ((chars.drop pos.toNat).take count.toNat).length = count.toNat := by
    rw [List.length_take, List.length_drop]
    omega
  have hsize : (count + 1#32).toNat = count.toNat + 1 := by bv_omega
  rw [← hsize]
  refine (newChars_spec hs (count + 1#32)).fill fun b t hmade ⟨hnew, harray⟩ => ?_
  have hread : ∀ i (hi : i < ((chars.drop pos.toNat).take count.toNat).length),
      (s.array str.buff)[(pos + BitVec.ofNat 32 i).toNat]? =
        some (some ((chars.drop pos.toNat).take count.toNat)[i]) := by
    intro i hi
    have hindex : (pos + BitVec.ofNat 32 i).toNat = pos.toNat + i := by bv_omega
    rw [hindex, hstr.getElem (by omega), List.getElem_take, List.getElem_drop]
  obtain ⟨u, hrun, hmade', hnew', hcell⟩ := copyAt_made 0 _ hmade hnew hstr.live hread
    (by omega)
  rw [hlength] at hrun hcell
  have hlast : count.toNat < (u.array b).length := by
    rw [hnew'.length]
    omega
  obtain ⟨v, hwrite, hcount, hset, hother⟩ := Arrays.put_spec (some 0) hlast
  obtain ⟨hmade'', hnew''⟩ := hmade'.fill hnew' hcount (by rw [hset, List.length_set]) hother
  refine ⟨b, v, ?_, hmade'', hnew''.live, fun i hi => ?_, ?_⟩
  · simp only [hrun, ok_bind, Arrays.write, hwrite]
  · rw [hset, List.getElem?_set_ne (by omega), hcell i, if_pos (by omega), Nat.sub_zero,
      List.getElem?_eq_getElem hi]
    rfl
  · rw [hset, List.getElem?_set_self hlast]

/-- `substr`, with the count that it takes for its argument. -/
theorem substr_spec (hs : InHeap s) (hstr : Represents s str chars) (hne : 0 ∉ chars)
    (hcount : (if str.length < pos + count ∨ count = StdString.npos then str.length - pos
      else count).toNat = n) (hfit : pos.toNat + n ≤ chars.length) :
    Allocates s [n + 1, n] (fun r t => Represents t r ((chars.drop pos.toNat).take n))
      (substr s str pos count) := by
  subst hcount
  generalize hc : (if str.length < pos + count ∨ count = StdString.npos then str.length - pos
    else count) = c at hfit ⊢
  have hlength : ((chars.drop pos.toNat).take c.toNat).length = c.toNat := by
    rw [List.length_take, List.length_drop]
    omega
  rw [substr, hc]
  refine (substrDest_spec hs hstr hfit).bind fun dest t hmade ⟨hlive, hread, hnul⟩ => ?_
  have hspec := ofChars_spec hmade.inHeap hlive hread (by rwa [hlength]) fun h =>
    hne (List.mem_of_mem_drop (List.mem_of_mem_take h))
  rwa [hlength] at hspec

/-- Appending a string to another one. -/
theorem append_spec (hs : InHeap s) (hstr : Represents s str chars) (hs2 : Represents s s2 chars')
    (hfit : chars.length + chars'.length < 2 ^ 32) :
    Allocates s [chars.length + chars'.length] (fun r t => Represents t r (chars ++ chars'))
      (append s str s2) := by
  have hsize : (str.length + s2.length).toNat = chars.length + chars'.length := by
    rw [BitVec.toNat_add_of_lt (by rwa [hstr.length, hs2.length]), hstr.length, hs2.length]
  have hle := hstr.length_le hs
  have hle' := hs2.length_le hs
  have hn : str.length.toInt.toNat = str.length.toNat :=
    toInt_toNat_of_le (by rw [hstr.length]; omega)
  have hn' : s2.length.toInt.toNat = s2.length.toNat :=
    toInt_toNat_of_le (by rw [hs2.length]; omega)
  rw [← hsize]
  refine (newChars_spec hs _).fill fun b t hmade ⟨hnew, harray⟩ => ?_
  rw [hsize] at harray
  obtain ⟨u, hrun, hmade', hnew', hcell⟩ := copyAt_made 0 id hmade hnew
    hstr.live (fun i hi => hstr.getElem hi) (by omega)
  obtain ⟨v, hrun', hmade'', hnew'', hcell'⟩ := copyAt_made chars.length id
    hmade' hnew' hs2.live (fun i hi => hs2.getElem hi) (by omega)
  refine ⟨⟨str.length + s2.length, b⟩, v, ?_, hmade'', ?_, ?_, hnew''.live⟩
  · simp only [strncpy, hn, hn', hstr.length, hs2.length, hrun, hrun', ok_bind]
  · rw [hsize, List.length_append]
  · apply List.ext_getElem?
    intro k
    rw [hcell' k, List.getElem?_map]
    by_cases hk : chars.length ≤ k
    · rw [List.getElem?_append_right hk]
      by_cases hk' : k < chars.length + chars'.length
      · rw [if_pos ⟨hk, hk'⟩]
      · rw [if_neg (by omega), hcell k, if_neg (by omega), harray,
          List.getElem?_eq_none (by rw [List.length_replicate]; omega),
          List.getElem?_eq_none (by omega)]
        rfl
    · rw [if_neg (by omega), hcell k, if_pos (by omega), Nat.sub_zero,
        List.getElem?_append_left (by omega)]

/-- The count that `substr` takes for its argument reaches the end of the string at most. -/
theorem toNat_count (hs : InHeap s) (hstr : Represents s str chars)
    (hpos : pos.toNat ≤ chars.length)
    (hcount : count = StdString.npos ∨ pos.toNat + count.toNat < 2 ^ 32) :
    (if str.length < pos + count ∨ count = StdString.npos then str.length - pos
      else count).toNat = min (pos.toNat + count.toNat) chars.length - pos.toNat := by
  have hle := hstr.length_le hs
  have hlength := hstr.length
  have hrest : (str.length - pos).toNat = chars.length - pos.toNat := by bv_omega
  by_cases hnpos : count = StdString.npos
  · have hmax : count.toNat = 2 ^ 32 - 1 := by rw [hnpos]; rfl
    rw [if_pos (Or.inr hnpos), hrest, Nat.min_eq_right (by omega)]
  · have hlt : pos.toNat + count.toNat < 2 ^ 32 := hcount.resolve_left hnpos
    have hsum : (pos + count).toNat = pos.toNat + count.toNat := BitVec.toNat_add_of_lt hlt
    simp only [hnpos, or_false, BitVec.lt_def, hsum, hlength]
    split_ifs with hcut
    · rw [hrest, Nat.min_eq_right (by omega)]
    · rw [Nat.min_eq_left (by omega), Nat.add_sub_cancel_left]

/-- A substring is the slice of the characters between its position and its end, cut at the end of
the string. -/
theorem substr_slice (hs : InHeap s) (hstr : Represents s str chars) (hne : 0 ∉ chars)
    {slice : List Byte} (hpos : pos.toNat ≤ chars.length)
    (hcount : count = StdString.npos ∨ pos.toNat + count.toNat < 2 ^ 32)
    (hslice : slice = chars.extract pos.toNat (min (pos.toNat + count.toNat) chars.length)) :
    Allocates s [slice.length + 1, slice.length] (fun r t => Represents t r slice)
      (substr s str pos count) := by
  have hlength : slice.length = min (pos.toNat + count.toNat) chars.length - pos.toNat := by
    rw [hslice, List.extract_eq_take_drop, List.length_take, List.length_drop]
    omega
  have hspec := substr_spec hs hstr hne ((toNat_count hs hstr hpos hcount).trans hlength.symm)
    (by omega)
  have hchars : (chars.drop pos.toNat).take slice.length = slice := by
    rw [hlength, ← List.extract_eq_take_drop, ← hslice]
  rwa [hchars] at hspec

/-- The first part of a string. -/
theorem substr_left (hs : InHeap s) (hstr : Represents s str chars) (hne : 0 ∉ chars) {k : Word}
    (hk : k.toNat ≤ chars.length) :
    Allocates s [k.toNat + 1, k.toNat] (fun r t => Represents t r (chars.take k.toNat))
      (substr s str 0 k) := by
  have hzero : (0 : Word).toNat = 0 := rfl
  have hlength : (chars.take k.toNat).length = k.toNat := List.length_take_of_le hk
  have hslice : chars.take k.toNat =
      chars.extract (0 : Word).toNat (min ((0 : Word).toNat + k.toNat) chars.length) := by
    simp [hk]
  have hspec := substr_slice hs hstr hne (by omega) (Or.inr (by omega)) hslice
  rwa [hlength] at hspec

/-- The substring up to the end is the rest of the string from its position on. -/
theorem substr_right (hs : InHeap s) (hstr : Represents s str chars) (hne : 0 ∉ chars) {k : Word}
    (hk : k.toNat ≤ chars.length) :
    Allocates s [chars.length - k.toNat + 1, chars.length - k.toNat]
      (fun r t => Represents t r (chars.drop k.toNat)) (substr s str k StdString.npos) := by
  have hle := hstr.length_le hs
  have hlength : (chars.drop k.toNat).length = chars.length - k.toNat := List.length_drop
  have hmax : StdString.npos.toNat = 2 ^ 32 - 1 := rfl
  have hslice : chars.drop k.toNat =
      chars.extract k.toNat (min (k.toNat + StdString.npos.toNat) chars.length) := by
    rw [Nat.min_eq_right (by omega), List.extract_eq_take_drop,
      List.take_of_length_le (Nat.le_of_eq hlength)]
  have hspec := substr_slice hs hstr hne hk (Or.inl rfl) hslice
  rwa [hlength] at hspec

/-- The two parts of a string, put together again. -/
theorem rejoin_spec (hs : InHeap s) (hstr : Represents s str chars) (hne : 0 ∉ chars) {k : Word}
    (hk : k.toNat ≤ chars.length) (leftFirst : Bool) :
    Allocates s [k.toNat + 1, k.toNat, chars.length - k.toNat + 1, chars.length - k.toNat,
      chars.length] (fun r t => Represents t r chars) (rejoin s str k leftFirst) := by
  have hle := hstr.length_le hs
  have hsum : (chars.take k.toNat).length + (chars.drop k.toNat).length = chars.length := by
    rw [← List.length_append, List.take_append_drop]
  have hjoin {t : Arrays Byte} {left right : BufferString} (ht : InHeap t)
      (hl : Represents t left (chars.take k.toNat)) (hr : Represents t right (chars.drop k.toNat)) :
      Allocates t [chars.length] (fun r u => Represents u r chars) (append t left right) := by
    have hspec := append_spec ht hl hr (by omega)
    rwa [hsum, List.take_append_drop] at hspec
  have hneed : [k.toNat + 1, k.toNat, chars.length - k.toNat + 1, chars.length - k.toNat,
      chars.length] = [k.toNat + 1, k.toNat] ++
        ([chars.length - k.toNat + 1, chars.length - k.toNat] ++ [chars.length]) := rfl
  rw [rejoin, hneed]
  cases leftFirst with
  | true =>
    rw [if_pos rfl]
    refine (substr_left hs hstr hne hk).bind fun left t ht hl => ?_
    dsimp only
    refine (substr_right ht.inHeap (hstr.mono ht.isExtension) hne hk).bind fun right u hu hr => ?_
    exact hjoin hu.inHeap (hl.mono hu.isExtension) hr
  | false =>
    rw [if_neg Bool.false_ne_true]
    refine Allocates.congr ([chars.length - k.toNat + 1, chars.length - k.toNat] ++
      ([k.toNat + 1, k.toNat] ++ [chars.length])) ?_ ?_
    · refine (substr_right hs hstr hne hk).bind fun right t ht hr => ?_
      refine (substr_left ht.inHeap (hstr.mono ht.isExtension) hne hk).bind fun left u hu hl => ?_
      exact hjoin hu.inHeap hl (hr.mono hu.isExtension)
    · simp only [arrayBytes_append]
      omega

/-- **`substr` and `+=` are slice and append.** A substring of a string without a NUL has exactly
the characters of a slice, and a string that is cut in two and put together again has its
characters back. The string itself is unchanged, and nothing fails but for want of room. -/
theorem substr_append (hs : InHeap s) (hstr : Represents s str chars) (hne : 0 ∉ chars) :
    (∀ pos count : Word, pos.toNat ≤ chars.length →
      (count = StdString.npos ∨ pos.toNat + count.toNat < 2 ^ 32) →
      ∀ slice, slice = chars.extract pos.toNat (min (pos.toNat + count.toNat) chars.length) →
      Allocates s [slice.length + 1, slice.length]
        (fun r t => Represents t r slice ∧ Represents t str chars) (substr s str pos count)) ∧
    ∀ (k : Word) (leftFirst : Bool), k.toNat ≤ chars.length →
      Allocates s [k.toNat + 1, k.toNat, chars.length - k.toNat + 1, chars.length - k.toNat,
          chars.length] (fun r t => Represents t r chars ∧ Represents t str chars)
        (rejoin s str k leftFirst) := by
  constructor
  · intro pos count hpos hcount slice hslice
    exact (substr_slice hs hstr hne hpos hcount hslice).keeps hstr
  · intro k leftFirst hk
    exact (rejoin_spec hs hstr hne hk leftFirst).keeps hstr

/-- A heap with the characters `ab`. -/
def letters : Arrays Byte :=
  { count := 2, array := Function.update (fun _ => []) 1 [some 0x61, some 0x62] }

/-- The two letters are on the heap. -/
theorem letters_inHeap : InHeap letters := ⟨rfl, by decide, by decide⟩

/-- The two letters are the string of both. -/
theorem letters_represents : Represents letters ⟨2, 1⟩ [0x61, 0x62] := ⟨rfl, rfl, by decide⟩

/-- The second letter is cut off and appended again, and the string itself does not change. -/
theorem substr_append_letters :
    (∃ r t, substr letters ⟨2, 1⟩ 1 StdString.npos = .ok (r, t) ∧ Represents t r [0x62]) ∧
      ∃ r t, rejoin letters ⟨2, 1⟩ 1 true = .ok (r, t) ∧ Represents t r [0x61, 0x62] ∧
        Represents t ⟨2, 1⟩ [0x61, 0x62] := by
  obtain ⟨hslice, hrejoin⟩ := substr_append letters_inHeap letters_represents (by decide)
  obtain ⟨r, t, hrun, -, hr, -⟩ :=
    (hslice 1 StdString.npos (by decide) (Or.inl rfl) [0x62] (by decide)).exists_ok (by decide)
  obtain ⟨r', t', hrun', -, hr', hstr⟩ := (hrejoin 1 true (by decide)).exists_ok (by decide)
  exact ⟨⟨r, t, hrun, hr⟩, ⟨r', t', hrun', hr', hstr⟩⟩

end BufferString

end Muk
