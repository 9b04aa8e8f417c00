import Muk.Std.StringScan
import Muk.Std.StringView

/-!
# Strings as C strings

The constructors copy all characters of a text, but not its NUL. So no string is a C string, and
two copies of one text, made one after the other, are not equal, as `operator==` goes on to
compare what follows them.
-/

namespace Muk

open Heap TrackedHeap

variable {σ : Type} {M : PagedMemory σ Fault} {Ok : σ → Prop} {Err : Fault → Prop}
  {h : Heap σ} {g g' : TrackedHeap σ} {s t : σ} {sizes : List ℕ} {str : StdString}
  {strs : List StdString} {src dest length : Word} {text : List Byte} {n : ℕ}

/-- Copying one payload into another that does not overlap it. -/
theorem copyBytes_spec (hM : M.Lawful Ok Err window) (hinv : Inv M Ok h sizes)
    (hsrc : ∀ k < n, InPayload sizes (src + BitVec.ofNat 32 k))
    (hdest : ∀ k < n, InPayload sizes (dest + BitVec.ofNat 32 k)) (hn : n ≤ 0x10000000)
    (hapart : ∀ k < n, n ≤ (src + BitVec.ofNat 32 k - dest).toNat) :
    ∃ t, copyBytes M h.mem dest src n = .ok t ∧ Inv M Ok { h with mem := t } sizes ∧
      ∀ x ∈ window, M.load8 t x =
        if (x - dest).toNat < n then M.load8 h.mem (src + (x - dest)) else M.load8 h.mem x := by
  rw [copyBytes]
  refine forLoop_invariant (fun i t => Inv M Ok { h with mem := t } sizes ∧ ∀ x ∈ window,
    M.load8 t x = if (x - dest).toNat < i then M.load8 h.mem (src + (x - dest))
      else M.load8 h.mem x) ⟨hinv, fun x _ => by simp⟩ ?_
  rintro i hi t ⟨ht, hload⟩
  rw [Nat.zero_add]
  have hwindow := (hsrc i hi).mem_window hinv.heapBytes_le
  obtain ⟨b, hb⟩ := hinv.load (hsrc i hi)
  have hbyte : M.load8 t (src + BitVec.ofNat 32 i) = .ok b := by
    have := hapart i hi
    rw [hload _ hwindow, if_neg (by omega), hb]
  obtain ⟨t', hstore, ht'⟩ := ht.write hM (b := b) (hdest i hi)
  refine ⟨t', by rw [hbyte]; exact hstore, ht', fun x hx => ?_⟩
  rw [ht.load_stored hM (hdest i hi) hstore x hx]
  have hdist : (dest + BitVec.ofNat 32 i - dest).toNat = i := by bv_omega
  by_cases hxi : x = dest + BitVec.ofNat 32 i
  · have hoffset : x - dest = BitVec.ofNat 32 i := by
      rw [hxi]
      bv_omega
    rw [if_pos hxi, hoffset, toNat_ofNat_of_lt (by omega), if_pos (Nat.lt_succ_self i), hb]
  · have hne : (x - dest).toNat ≠ i := fun heq => hxi (by bv_omega)
    rw [if_neg hxi]
    refine (hload x hx).trans ?_
    by_cases hlt : (x - dest).toNat < i
    · rw [if_pos hlt, if_pos (by omega)]
    · rw [if_neg hlt, if_neg (by omega)]

/-- What it means that a new string is a copy of some bytes. -/
structure Copied (M : PagedMemory σ Fault) (Ok : σ → Prop) (g : TrackedHeap σ) (src length : Word)
    (str : StdString) (g' : TrackedHeap σ) : Prop where
  inv : Inv M Ok g'.heap g'.sizes
  sizes : g'.sizes = g.sizes ++ [length.toNat]
  length_eq : str.length = length
  buff : str.buff = payloadAddr g'.sizes g.sizes.length
  /-- The characters of the string are the bytes copied. -/
  bytes : ∀ k < length.toNat, M.load8 g'.heap.mem (str.buff + BitVec.ofNat 32 k) =
    M.load8 g.heap.mem (src + BitVec.ofNat 32 k)
  /-- Earlier payloads are unchanged. -/
  kept : ∀ x, InPayload g.sizes x → M.load8 g'.heap.mem x = M.load8 g.heap.mem x

/-- A length that fits into the heap is a positive `int`. -/
theorem toInt_toNat_of_le (hlength : length.toNat ≤ 0x10000000) :
    length.toInt.toNat = length.toNat := by
  rw [BitVec.toInt_eq_toNat_cond]
  split_ifs <;> omega

/-- Copying from a payload into a new string. -/
theorem ofArray_spec (hM : M.Lawful Ok Err window) (hinv : Inv M Ok g.heap g.sizes)
    (hlength : length ≠ 0) (hfit : heapBytes g.sizes + length.toNat + 12 ≤ 0x10000000)
    (hsrc : ∀ k < length.toNat, InPayload g.sizes (src + BitVec.ofNat 32 k)) :
    Outcome Err (fun r => Copied M Ok g src length r.1 r.2) (StdString.ofArray M g src length) := by
  rw [StdString.ofArray]
  refine (newChars_allocated hM hinv hlength hfit).bind fun ⟨buff, g1⟩ ⟨hsizes, halloc⟩ => ?_
  dsimp only at hsizes halloc ⊢
  have hbuff := halloc.addr_eq
  have hinv1 := halloc.inv
  rw [← hsizes] at hbuff hinv1
  have harray : IsArray g1.sizes buff length := by
    refine Or.inr ⟨hlength, g.sizes.length, by simp [hsizes], hbuff, ?_⟩
    simp only [hsizes]
    exact List.getElem_concat_length rfl _
  have hstart : buff.toNat = 0xE0000000 + heapBytes g.sizes + 12 := by
    have haddr := Heap.toNat_blockAddr (show blockOffset g.sizes g.sizes.length ≤ 0x10000000 by
      rw [← heapBytes]; omega)
    rw [← heapBytes] at haddr
    rw [hbuff, payloadAddr, hsizes, blockAddr_append le_rfl]
    bv_omega
  have hold (x : Word) (hx : InPayload g.sizes x) : InPayload g1.sizes x :=
    hx.mono (hsizes ▸ List.prefix_append _ _)
  have hfar (x : Word) (hx : InPayload g.sizes x) : length.toNat ≤ (x - buff).toNat := by
    have := hx.lt (by omega)
    bv_omega
  obtain ⟨s, hcopy, hinv2, hload⟩ := copyBytes_spec hM hinv1 (fun k hk => hold _ (hsrc k hk))
    (fun k hk => harray.inPayload hk) (by omega) fun k hk => hfar _ (hsrc k hk)
  rw [strncpy, toInt_toNat_of_le (by omega), hcopy]
  refine outcome_ok.mpr ⟨hinv2, hsizes, rfl, hbuff, fun k hk => ?_, fun x hx => ?_⟩
  · have hdist : buff + BitVec.ofNat 32 k - buff = BitVec.ofNat 32 k := by bv_omega
    have hin := (harray.inPayload hk).mem_window hinv1.heapBytes_le
    refine (hload _ hin).trans ?_
    rw [hdist, toNat_ofNat_of_lt (by omega), if_pos hk, halloc.kept _ (hsrc k hk)]
  · refine (hload x ((hold x hx).mem_window hinv1.heapBytes_le)).trans ?_
    have := hfar x hx
    rw [if_neg (by omega), halloc.kept x hx]

/-- The constructor copies the text at its argument. -/
theorem ofChars_spec (hM : M.Lawful Ok Err window) (hinv : Inv M Ok g.heap g.sizes)
    (htext : Text (M.cells g.heap.mem) src.toNat text) (hne : text ≠ [])
    (hfit : heapBytes g.sizes + text.length + 12 ≤ 0x10000000)
    (hsrc : ∀ k < text.length, InPayload g.sizes (src + BitVec.ofNat 32 k)) :
    Outcome Err (fun r => Copied M Ok g src (BitVec.ofNat 32 text.length) r.1 r.2)
      (StdString.ofChars M g src) := by
  have hlength : (BitVec.ofNat 32 text.length).toNat = text.length := toNat_ofNat_of_lt (by omega)
  have hscan : scanNul M g.heap.mem src = .ok text := readString_eq_ok.mpr ⟨htext, by omega⟩
  rw [StdString.ofChars, strlen, hscan]
  refine ofArray_spec hM hinv (fun hzero => hne ?_) (by omega) fun k hk => hsrc k (by omega)
  rw [hzero] at hlength
  exact List.length_eq_zero_iff.mp hlength.symm

/-- The new string has the characters of the one that it was copied from. -/
theorem Copied.bytes_text (hcopy : Copied M Ok g src (BitVec.ofNat 32 text.length) str g')
    (hlength : text.length < 2 ^ 32) (htext : Text (M.cells g.heap.mem) src.toNat text) :
    Bytes (M.cells g'.heap.mem) str.buff.toNat text := by
  apply bytes_iff.mpr
  intro k hk
  have hlt : k < (BitVec.ofNat 32 text.length).toNat := by rwa [toNat_ofNat_of_lt hlength]
  rw [cells_add, hcopy.bytes k hlt, ← cells_add, bytes_iff.mp htext.bytes k hk]

/-- What the searches see of a string in memory. -/
theorem view_shows (hsize : str.length.toNat = text.length)
    (hbytes : Bytes (M.cells s) str.buff.toNat text) : (str.view M s).Shows text := by
  refine ⟨hsize, fun i hi => ?_⟩
  have hcell := bytes_iff.mp hbytes i hi
  rw [List.getElem?_eq_getElem hi] at hcell
  exact cells_add_eq_some.mp hcell

/-- What lies in payloads stays there. -/
theorem Copied.cells (hcopy : Copied M Ok g src length str g') (addr : Word) {k : ℕ}
    (hk : InPayload g.sizes (addr + BitVec.ofNat 32 k)) :
    M.cells g'.heap.mem (addr.toNat + k) = M.cells g.heap.mem (addr.toNat + k) := by
  rw [cells_add, cells_add, hcopy.kept _ hk]

/-- A copy takes a new block of the heap, of the length that it is given. -/
theorem Copied.block (hcopy : Copied M Ok g src length str g') :
    ∃ hi : g.sizes.length < g'.sizes.length, g'.sizes[g.sizes.length] = length.toNat := by
  refine ⟨by simp [hcopy.sizes], ?_⟩
  simp only [hcopy.sizes]
  exact List.getElem_concat_length rfl _

/-- A text that lies in payloads is still there after a copy. -/
theorem Copied.text_kept (hcopy : Copied M Ok g src length str g')
    (htext : Text (M.cells g.heap.mem) src.toNat text)
    (hsrc : ∀ k ≤ text.length, InPayload g.sizes (src + BitVec.ofNat 32 k)) :
    Text (M.cells g'.heap.mem) src.toNat text := by
  apply htext.congr
  intro a hle hge
  obtain ⟨k, rfl⟩ := Nat.exists_eq_add_of_le hle
  exact hcopy.cells src (hsrc k (by omega))

/-- The characters of a copy are still there after another one. -/
theorem Copied.bytes_kept {g1 g2 : TrackedHeap σ} {other : StdString} {src' length' : Word}
    (hcopy : Copied M Ok g src (BitVec.ofNat 32 text.length) str g1)
    (hlater : Copied M Ok g1 src' length' other g2) (hlength : text.length < 2 ^ 32)
    (htext : Text (M.cells g.heap.mem) src.toNat text) :
    Bytes (M.cells g2.heap.mem) str.buff.toNat text := by
  obtain ⟨hi, hsize⟩ := hcopy.block
  apply (hcopy.bytes_text hlength htext).congr
  intro a hle hlt
  obtain ⟨k, rfl⟩ := Nat.exists_eq_add_of_le hle
  refine hlater.cells str.buff ⟨g.sizes.length, hi, k, ?_, by rw [hcopy.buff]⟩
  rw [hsize, toNat_ofNat_of_lt hlength]
  omega

/-- The result of `operator==`, where a NUL follows the characters of one string only. -/
theorem equals_of_common {x y : StdString} {b : Byte}
    (hx : Bytes (M.cells s) x.buff.toNat text) (hy : Bytes (M.cells s) y.buff.toNat text)
    (hfree : ∀ c ∈ text, c ≠ 0) (hlength : text.length < 2 ^ 32) (hb : b ≠ 0)
    (hxend : M.cells s (x.buff.toNat + text.length) = some b)
    (hyend : M.cells s (y.buff.toNat + text.length) = some 0) :
    StdString.equals M s x y = .ok false := by
  obtain ⟨fuel, hfuel⟩ : ∃ fuel, 2 ^ 32 = text.length + (fuel + 1) :=
    ⟨2 ^ 32 - text.length - 1, by omega⟩
  have hdiffer : strcmp (M.cells s) (M.cells s) (fuel + 1) (x.buff.toNat + text.length)
      (y.buff.toNat + text.length) = .ok ((b.toNat : ℤ) - (0 : Byte).toNat) := by
    rw [strcmp, hxend, hyend]
    exact if_neg fun h => hb h.2
  rw [StdString.equals, hfuel, strcmp_common hx hy hfree, hdiffer, ok_bind]
  exact congrArg Except.ok (decide_eq_false fun h => hb (sub_eq_zero_iff_eq.mp h))

/-- Two copies of one text, made one after the other, are not equal. -/
theorem equals_copies {gx gy : TrackedHeap σ} {x y : StdString}
    (hcx : Copied M Ok g src (BitVec.ofNat 32 text.length) x gx)
    (hcy : Copied M Ok gx src (BitVec.ofNat 32 text.length) y gy)
    (htext : Text (M.cells g.heap.mem) src.toNat text) (hlength : text.length < 2 ^ 32)
    (hsrc : ∀ k ≤ text.length, InPayload g.sizes (src + BitVec.ofNat 32 k))
    (hpage : heapBytes gy.sizes % 4096 ≠ 0) : StdString.equals M gy.heap.mem x y = .ok false := by
  have hnat : (BitVec.ofNat 32 text.length).toNat = text.length := toNat_ofNat_of_lt hlength
  obtain ⟨hix, hxsize⟩ := hcx.block
  obtain ⟨hiy, hysize⟩ := hcy.block
  rw [hnat] at hxsize hysize
  have hsizes : gy.sizes.length = gx.sizes.length + 1 := by simp [hcy.sizes]
  have hxbytes := hcx.bytes_kept hcy hlength htext
  have hybytes := hcy.bytes_text hlength (hcx.text_kept htext hsrc)
  obtain ⟨b, hb, hxend⟩ := hcy.inv.byte_followed (i := g.sizes.length) (by omega)
  have hyend := hcy.inv.byte_last hiy (by omega) hpage
  have hxsize' : gy.sizes[g.sizes.length] = text.length := by
    simp only [hcy.sizes, List.getElem_append_left hix, hxsize]
  have hxbuff : payloadAddr gy.sizes g.sizes.length = x.buff := by
    rw [hcx.buff, hcy.sizes, payloadAddr_append hix.le]
  rw [hxsize', hxbuff, ← cells_add_eq_some] at hxend
  rw [hysize, ← hcy.buff, ← cells_add_eq_some] at hyend
  exact equals_of_common hxbytes hybytes htext.ne_zero hlength hb hxend hyend

/-! ## Two copies of a letter -/

/-- The letter `a` and a NUL, in a block of their own. -/
theorem letter_text (hM : M.Lawful Ok (fun _ => False) window) (hok : Ok s) :
    ∃ p g, Lived M Ok s g [] ∧ g.sizes = [2] ∧ Text (M.cells g.heap.mem) p.toNat [0x61] ∧
      ∀ k ≤ 1, InPayload g.sizes (p + BitVec.ofNat 32 k) := by
  have hinv : Inv M Ok (initial s) [] := initial_inv hok
  have hroom : heapBytes [] + (2#32).toNat + 12 ≤ 0x10000000 := by decide
  obtain ⟨⟨p, g⟩, hnew, hsizes, halloc⟩ := outcome_false_iff.mp
    (newChars_allocated (g := ⟨initial s, []⟩) hM hinv (by decide) hroom)
  dsimp only at hsizes halloc
  change g.sizes = [2] at hsizes
  have hp (k : ℕ) (hk : k ≤ 1) : InPayload g.sizes (p + BitVec.ofNat 32 k) := by
    rw [hsizes]
    exact ⟨0, by decide, k, by change k < 2; omega, by rw [halloc.addr_eq]; rfl⟩
  have hp0 := hp 0 (by omega)
  have hinv' : Inv M Ok g.heap g.sizes := by
    rw [hsizes]
    exact halloc.inv
  obtain ⟨t, hstore, hstored⟩ := hinv'.write hM (b := 0x61) hp0
  have hload := hinv'.load_stored hM hp0 hstore
  refine ⟨p, g.withMem t, .write (.allocate .initial hnew) hp0 hstore, hsizes, ?_, hp⟩
  have hwindow (k : ℕ) (hk : k ≤ 1) := (hp k hk).mem_window hinv'.heapBytes_le
  have hzero : M.load8 g.heap.mem (p + BitVec.ofNat 32 1) = .ok 0 := halloc.zero 1 (by decide)
  refine ⟨?_, by decide, ?_⟩
  · rw [← Nat.add_zero p.toNat]
    refine cells_add_eq_some.mpr ((hload _ (hwindow 0 (by omega))).trans ?_)
    exact if_pos rfl
  · refine cells_add_eq_some.mpr ((hload _ (hwindow 1 le_rfl)).trans ?_)
    rw [if_neg (by bv_omega), hzero]

/-- Two copies of the letter `a`, the last blocks of the heap. -/
theorem letter_copies (hM : M.Lawful Ok (fun _ => False) window) (hok : Ok s) :
    ∃ g x y, Lived M Ok s g [y, x] ∧ g.sizes = [2, 1, 1] ∧ x.length = 1 ∧ y.length = 1 ∧
      x.buff = payloadAddr g.sizes 1 ∧ Bytes (M.cells g.heap.mem) x.buff.toNat [0x61] ∧
      Bytes (M.cells g.heap.mem) y.buff.toNat [0x61] ∧
      StdString.equals M g.heap.mem x y = .ok false := by
  obtain ⟨p, g, hlived, hsizes, htext, hp⟩ := letter_text hM hok
  have hbytes : heapBytes g.sizes = 14 := by rw [hsizes]; rfl
  have hg := hlived.sound hM hok (by omega)
  obtain ⟨⟨x, gx⟩, hx, hcx⟩ := outcome_false_iff.mp (ofChars_spec hM hg.inv htext (by decide)
    (by change heapBytes g.sizes + 1 + 12 ≤ _; omega) fun k hk => hp k (Nat.le_of_lt hk))
  have hxsizes : gx.sizes = [2, 1] := by rw [hcx.sizes, hsizes]; rfl
  have hxbytes : heapBytes gx.sizes = 27 := by rw [hxsizes]; rfl
  have hp' (k : ℕ) (hk : k ≤ 1) : InPayload gx.sizes (p + BitVec.ofNat 32 k) :=
    (hp k hk).mono ⟨[1], hcx.sizes.symm⟩
  have htext' := hcx.text_kept htext hp
  obtain ⟨⟨y, gy⟩, hy, hcy⟩ := outcome_false_iff.mp (ofChars_spec hM hcx.inv htext' (by decide)
    (by change heapBytes gx.sizes + 1 + 12 ≤ _; omega) fun k hk => hp' k (Nat.le_of_lt hk))
  have hysizes : gy.sizes = [2, 1, 1] := by rw [hcy.sizes, hxsizes]; rfl
  dsimp only at hcx hcy
  refine ⟨gy, x, y, .obtain (.obtain hlived (.ofChars p hx)) (.ofChars p hy), hysizes,
    hcx.length_eq, hcy.length_eq, ?_, ?_, ?_, ?_⟩
  · rw [hcx.buff, hysizes, hxsizes, hsizes]
    rfl
  · exact hcx.bytes_kept hcy (by decide) htext
  · exact hcy.bytes_text (by decide) htext'
  · exact equals_copies hcx hcy htext (by decide) hp (by rw [hysizes]; decide)
/-! ## No string is a C string -/

/-- **A string is not a C string.** In no run can a string be read as a C string. The scan for the
NUL does not stop at index `size()` once another block follows the string's own, and as long as
none does, it stops there only at a byte that is not the string's. -/
theorem data_not_cString (hM : M.Lawful Ok Err window) (hok : Ok s) (hlived : Lived M Ok s g strs)
    (hfit : heapBytes g.sizes ≤ 0x10000000) (hstr : str ∈ strs) :
    ¬ IsCString M g str ∧ ∀ i < g.sizes.length, str.buff = payloadAddr g.sizes i →
      (i + 1 < g.sizes.length → ¬ StopsAtSize M g.heap.mem str) ∧
      (i + 1 = g.sizes.length → heapBytes g.sizes % 4096 ≠ 0 → NulFree M g.heap.mem str →
        StopsAtSize M g.heap.mem str) := by
  have hg := hlived.sound hM hok hfit
  refine ⟨hg.not_isCString hstr, fun i hi hbuff => ?_⟩
  rcases hg.array str hstr with ⟨-, hnull⟩ | ⟨-, j, hj, haddr, hsize⟩
  · exact absurd (hbuff.symm.trans hnull) (payloadAddr_ne_zero hfit hi)
  · obtain rfl := payloadAddr_inj hfit hj hi (haddr.symm.trans hbuff)
    exact ⟨fun hnext => hg.inv.not_stopsAtSize hnext hbuff hsize,
      fun hlast hpage hfree => hg.inv.stopsAtSize hi hlast hpage hbuff hsize hfree⟩

/-- The first of two strings "a" is not the C string "a". -/
theorem letter_data : ∃ g x y,
    Lived (PagedMemory.flat Fault.pageFault) (fun _ => True) unmappedMemory g [y, x] ∧
      ¬ IsCString (PagedMemory.flat Fault.pageFault) g x ∧
      ¬ StopsAtSize (PagedMemory.flat Fault.pageFault) g.heap.mem x := by
  obtain ⟨g, x, y, hlived, hsizes, -, -, hbuff, -⟩ :=
    letter_copies (PagedMemory.flat_lawful Fault.pageFault window) (s := unmappedMemory) trivial
  obtain ⟨hnot, hblock⟩ := data_not_cString (PagedMemory.flat_lawful Fault.pageFault window)
    trivial hlived (by rw [hsizes]; decide) (List.mem_cons_of_mem y List.mem_cons_self)
  exact ⟨g, x, y, hlived, hnot,
    (hblock 1 (by rw [hsizes]; decide) hbuff).1 (by rw [hsizes]; decide)⟩

/-- Two strings "a" that cannot be read as C strings, and that are not equal. -/
theorem letters_not_equal : ∃ g x y,
    Lived (PagedMemory.flat Fault.pageFault) (fun _ => True) unmappedMemory g [y, x] ∧
      x.length = 1 ∧ y.length = 1 ∧
      Bytes ((PagedMemory.flat Fault.pageFault).cells g.heap.mem) x.buff.toNat [0x61] ∧
      Bytes ((PagedMemory.flat Fault.pageFault).cells g.heap.mem) y.buff.toNat [0x61] ∧
      ¬ IsCString (PagedMemory.flat Fault.pageFault) g x ∧
      ¬ IsCString (PagedMemory.flat Fault.pageFault) g y ∧
      StdString.equals (PagedMemory.flat Fault.pageFault) g.heap.mem x y = .ok false := by
  have hM := PagedMemory.flat_lawful Fault.pageFault window
  obtain ⟨g, x, y, hlived, hsizes, hx, hy, -, hxbytes, hybytes, hequals⟩ :=
    letter_copies hM (s := unmappedMemory) trivial
  have hg := hlived.sound hM trivial (by rw [hsizes]; decide)
  exact ⟨g, x, y, hlived, hx, hy, hxbytes, hybytes,
    hg.not_isCString (List.mem_cons_of_mem y List.mem_cons_self),
    hg.not_isCString List.mem_cons_self, hequals⟩

end Muk
