import Muk.Std.String

/-!
# Strings own their blocks

Every string has a block of the heap with exactly as many bytes as the string has characters, or
no block if it has none. No operation on strings, and nothing else that keeps to the payloads of
the heap, changes this.
-/

namespace Muk

open Heap TrackedHeap

variable {σ : Type} {M : PagedMemory σ Fault} {Ok : σ → Prop} {Err : Fault → Prop}
  {h : Heap σ} {g g' : TrackedHeap σ} {s t : σ} {sizes sizes' : List ℕ} {strs : List StdString}
  {str other : StdString} {addr size dest src length : Word} {n : ℕ}

/-! ## Arrays of characters -/

/-- The address of an array of `size` characters, or `NULL` for none. -/
def IsArray (sizes : List ℕ) (addr size : Word) : Prop :=
  size = 0 ∧ addr = 0 ∨
    size ≠ 0 ∧ ∃ i, ∃ hi : i < sizes.length, addr = payloadAddr sizes i ∧ sizes[i] = size.toNat

/-- An array stays where it is. -/
theorem IsArray.mono (harray : IsArray sizes addr size) (hextends : sizes <+: sizes') :
    IsArray sizes' addr size := by
  obtain ⟨more, rfl⟩ := hextends
  rcases harray with hnone | ⟨hne, i, hi, haddr, hsize⟩
  · exact Or.inl hnone
  · refine Or.inr ⟨hne, i, by rw [List.length_append]; omega, ?_, ?_⟩
    · rw [payloadAddr_append hi.le, haddr]
    · rw [List.getElem_append_left hi, hsize]

/-- A payload stays where it is. -/
theorem Heap.InPayload.mono {x : Word} (hx : InPayload sizes x) (hextends : sizes <+: sizes') :
    InPayload sizes' x := by
  obtain ⟨more, rfl⟩ := hextends
  obtain ⟨i, hi, k, hk, rfl⟩ := hx
  refine ⟨i, by rw [List.length_append]; omega, k, ?_, by rw [payloadAddr_append hi.le]⟩
  rw [List.getElem_append_left hi]
  exact hk

/-- The characters of an array lie in its payload. -/
theorem IsArray.inPayload (harray : IsArray sizes addr size) {k : ℕ} (hk : k < size.toNat) :
    InPayload sizes (addr + BitVec.ofNat 32 k) := by
  rcases harray with ⟨rfl, -⟩ | ⟨-, i, hi, rfl, hsize⟩
  · exact absurd hk (Nat.not_lt_zero k)
  · exact ⟨i, hi, k, by rwa [hsize], rfl⟩

/-- An array is smaller than the heap. -/
theorem IsArray.toNat_le (harray : IsArray sizes addr size)
    (hfit : heapBytes sizes ≤ 0x10000000) : size.toNat ≤ 0x10000000 := by
  rcases harray with ⟨rfl, -⟩ | ⟨-, i, hi, -, hsize⟩
  · exact Nat.zero_le _
  · have := blockOffset_add_le hi
    omega

/-- A heap with blocks in front of others fits if they all do. -/
theorem fits_before (hextends : sizes <+: sizes') (hfit : heapBytes sizes' ≤ 0x10000000) :
    heapBytes sizes ≤ 0x10000000 := by
  obtain ⟨more, rfl⟩ := hextends
  exact (heapBytes_le_append sizes more).trans hfit

/-- After `new char[size]` there is one more block of that size, or none for an array of no
characters. -/
theorem newChars_sizes (hrun : newChars M g size = .ok (addr, g')) :
    g'.sizes = if size = 0 then g.sizes else g.sizes ++ [size.toNat] := by
  obtain ⟨⟨a, h⟩, -, hrun⟩ := bind_eq_ok.mp hrun
  obtain ⟨-, rfl⟩ := Prod.mk.inj (Except.ok.inj hrun)
  rfl

/-- `new char[size]` appends a block at most. -/
theorem newChars_extends (hrun : newChars M g size = .ok (addr, g')) : g.sizes <+: g'.sizes := by
  rw [newChars_sizes hrun]
  split_ifs
  · exact List.prefix_rfl
  · exact List.prefix_append _ _

/-- `new char[size]`, with room for the block. -/
theorem newChars_allocated (hM : M.Lawful Ok Err window) (hinv : Inv M Ok g.heap g.sizes)
    (hsize : size ≠ 0) (hfit : heapBytes g.sizes + size.toNat + 12 ≤ 0x10000000) :
    Outcome Err (fun r => r.2.sizes = g.sizes ++ [size.toNat] ∧
      Allocated M Ok g.heap g.sizes size.toNat r.1 r.2.heap) (newChars M g size) := by
  have hpos : 1 ≤ size.toNat := Nat.one_le_iff_ne_zero.mpr fun h => hsize (BitVec.eq_of_toNat_eq h)
  have hcall := vmalloc_spec hM hinv hpos hfit
  rw [BitVec.ofNat_toNat, BitVec.setWidth_eq] at hcall
  exact hcall.bind fun r halloc => outcome_ok.mpr ⟨if_neg hsize, halloc⟩

/-- `new char[size]` returns an array of that size. -/
theorem newChars_spec (hM : M.Lawful Ok Err window) (hinv : Inv M Ok g.heap g.sizes)
    (hrun : newChars M g size = .ok (addr, g')) (hfit : heapBytes g'.sizes ≤ 0x10000000) :
    Inv M Ok g'.heap g'.sizes ∧ IsArray g'.sizes addr size := by
  by_cases hzero : size = 0
  · subst hzero
    rw [newChars, vmalloc_zero] at hrun
    obtain ⟨rfl, rfl⟩ := Prod.mk.inj (Except.ok.inj hrun)
    exact ⟨hinv.withInterrupts false, Or.inl ⟨rfl, rfl⟩⟩
  · rw [newChars_sizes hrun, if_neg hzero, heapBytes_append] at hfit
    have hcall := newChars_allocated hM hinv hzero hfit
    rw [hrun] at hcall
    obtain ⟨hsizes, halloc⟩ := hcall
    dsimp only at hsizes halloc
    rw [hsizes]
    exact ⟨halloc.inv, Or.inr ⟨hzero, g.sizes.length, by simp, halloc.addr_eq,
      List.getElem_concat_length rfl _⟩⟩

/-- Copying into payloads keeps the heap invariant. -/
theorem copyBytes_inv (hM : M.Lawful Ok Err window) (hinv : Inv M Ok h sizes)
    (hdest : ∀ k < n, InPayload sizes (dest + BitVec.ofNat 32 k))
    (hrun : copyBytes M h.mem dest src n = .ok t) : Inv M Ok { h with mem := t } sizes := by
  refine forLoop_keeps (I := fun t => Inv M Ok { h with mem := t } sizes) hrun hinv
    fun i hi t t' ht hstep => ?_
  obtain ⟨b, -, hstore⟩ := bind_eq_ok.mp hstep
  rw [Nat.zero_add] at hstore
  exact ht.stored hM (hdest i hi) hstore

/-- An `int` is not larger than the number that it is converted from. -/
theorem toInt_toNat_le (n : Word) : n.toInt.toNat ≤ n.toNat := by
  rw [BitVec.toInt_eq_toNat_cond]
  split_ifs <;> omega

/-- `strncpy` into payloads keeps the heap invariant. -/
theorem strncpy_inv (hM : M.Lawful Ok Err window) (hinv : Inv M Ok h sizes)
    (hdest : ∀ k < length.toNat, InPayload sizes (dest + BitVec.ofNat 32 k))
    (hrun : strncpy M h.mem dest src length = .ok t) : Inv M Ok { h with mem := t } sizes :=
  copyBytes_inv hM hinv (fun k hk => hdest k (hk.trans_le (toInt_toNat_le length))) hrun

/-! ## The operations -/

/-- The heap invariant, and an array for each string. -/
structure Sound (M : PagedMemory σ Fault) (Ok : σ → Prop) (g : TrackedHeap σ)
    (strs : List StdString) : Prop where
  inv : Inv M Ok g.heap g.sizes
  array : ∀ str ∈ strs, IsArray g.sizes str.buff str.length

/-- Nothing is given back, and as long as the heap fits, the string made owns an array. -/
structure Makes (M : PagedMemory σ Fault) (Ok : σ → Prop) (strs : List StdString)
    (g : TrackedHeap σ) (str : StdString) (g' : TrackedHeap σ) : Prop where
  isPrefix : g.sizes <+: g'.sizes
  sound : Sound M Ok g strs → heapBytes g'.sizes ≤ 0x10000000 → Sound M Ok g' [str]

/-- A string and the heap after it was made. -/
theorem Makes.intro (hextends : g.sizes <+: g'.sizes)
    (hsound : Sound M Ok g strs → heapBytes g'.sizes ≤ 0x10000000 →
      Inv M Ok g'.heap g'.sizes ∧ IsArray g'.sizes str.buff str.length) :
    Makes M Ok strs g str g' := by
  refine ⟨hextends, fun hg hfit => ?_⟩
  obtain ⟨hinv, harray⟩ := hsound hg hfit
  refine ⟨hinv, fun other hother => ?_⟩
  rw [List.mem_singleton.mp hother]
  exact harray

/-- A string with the address and the size of a new array, in which something is written. -/
theorem Makes.of_new {buff : Word} {g1 : TrackedHeap σ} (hM : M.Lawful Ok Err window)
    (hnew : newChars M g length = .ok (buff, g1))
    (hwrite : Sound M Ok g strs → heapBytes g.sizes ≤ 0x10000000 → Inv M Ok g1.heap g1.sizes →
      (∀ k < length.toNat, InPayload g1.sizes (buff + BitVec.ofNat 32 k)) →
      Inv M Ok { g1.heap with mem := s } g1.sizes) :
    Makes M Ok strs g { length := length, buff := buff } (g1.withMem s) := by
  have hextends := newChars_extends hnew
  refine .intro hextends fun hg hfit => ?_
  obtain ⟨hinv, harray⟩ := newChars_spec hM hg.inv hnew hfit
  exact ⟨hwrite hg (fits_before hextends hfit) hinv fun k hk => harray.inPayload hk, harray⟩

/-- The string without characters owns nothing. -/
theorem construct_makes : Makes M Ok strs g .construct g :=
  .intro List.prefix_rfl fun hg _ => ⟨hg.inv, Or.inl ⟨rfl, rfl⟩⟩

/-- The string of an array is in a block of its own. -/
theorem ofArray_makes (hM : M.Lawful Ok Err window)
    (hrun : StdString.ofArray M g src length = .ok (str, g')) : Makes M Ok strs g str g' := by
  obtain ⟨⟨buff, g1⟩, hnew, hrun⟩ := bind_eq_ok.mp hrun
  obtain ⟨s, hcopy, hrun⟩ := bind_eq_ok.mp hrun
  obtain ⟨rfl, rfl⟩ := Prod.mk.inj (Except.ok.inj hrun)
  exact .of_new hM hnew fun _ _ hinv hbuff => strncpy_inv hM hinv hbuff hcopy

/-- The string of a C string is in a block of its own. -/
theorem ofChars_makes (hM : M.Lawful Ok Err window)
    (hrun : StdString.ofChars M g src = .ok (str, g')) : Makes M Ok strs g str g' := by
  obtain ⟨length, -, hrun⟩ := bind_eq_ok.mp hrun
  exact ofArray_makes hM hrun

/-- The string of a character is in a block of its own. -/
theorem ofChar_makes (hM : M.Lawful Ok Err window) {b : Byte}
    (hrun : StdString.ofChar M g b = .ok (str, g')) : Makes M Ok strs g str g' := by
  obtain ⟨⟨buff, g1⟩, hnew, hrun⟩ := bind_eq_ok.mp hrun
  obtain ⟨s, hstore, hrun⟩ := bind_eq_ok.mp hrun
  obtain ⟨rfl, rfl⟩ := Prod.mk.inj (Except.ok.inj hrun)
  refine .of_new hM hnew fun _ _ hinv hbuff => ?_
  have hfirst := hbuff 0 (by decide)
  rw [BitVec.add_zero] at hfirst
  exact hinv.stored hM hfirst hstore

/-- `substr` with a position one past the end would ask for no bytes, and write from `NULL` on. -/
theorem substr_makes (hM : M.Lawful Ok Err window) {pos count : Word}
    (hpos : pos ≠ str.length + 1#32)
    (hrun : StdString.substr M g str pos count = .ok (other, g')) : Makes M Ok strs g other g' := by
  rw [StdString.substr] at hrun
  generalize hcount : (if str.length < pos + count ∨ count = StdString.npos
    then str.length - pos else count) = c at hrun
  have hc : c ≠ StdString.npos := by
    rintro rfl
    split_ifs at hcount with hcond
    · rw [StdString.npos] at hcount
      exact hpos (by bv_omega)
    · exact hcond (Or.inr hcount)
  have hcsucc : (c + 1#32).toNat = c.toNat + 1 := by
    rw [StdString.npos] at hc
    bv_omega
  obtain ⟨⟨dest, g1⟩, hnew, hrun⟩ := bind_eq_ok.mp hrun
  obtain ⟨s, hcopy, hrun⟩ := bind_eq_ok.mp hrun
  obtain ⟨s', hstore, hrun⟩ := bind_eq_ok.mp hrun
  have hmade : Makes M Ok [] (g1.withMem s') other g' := ofChars_makes hM hrun
  refine ⟨(newChars_extends hnew).trans hmade.isPrefix,
    fun hg hfit => hmade.sound ⟨?_, by simp⟩ hfit⟩
  obtain ⟨hinv, harray⟩ := newChars_spec hM hg.inv hnew (fits_before hmade.isPrefix hfit)
  have hcopied := copyBytes_inv hM hinv (fun k hk => harray.inPayload (by omega)) hcopy
  have hlast := harray.inPayload (k := c.toNat) (by omega)
  rw [BitVec.ofNat_toNat, BitVec.setWidth_eq] at hlast
  exact hcopied.stored hM hlast hstore

/-- Two strings side by side are no longer than memory. -/
theorem toNat_add_length (hfit : heapBytes sizes ≤ 0x10000000)
    (hstr : IsArray sizes str.buff str.length) {m : Word} (hm : m.toNat ≤ 0x10000000) :
    (str.length + m).toNat = str.length.toNat + m.toNat := by
  have := hstr.toNat_le hfit
  bv_omega

/-- The string that is made by appending is in a block of its own. -/
theorem append_makes (hM : M.Lawful Ok Err window) {s2 : StdString} (hstr : str ∈ strs)
    (hs2 : s2 ∈ strs) (hrun : StdString.append M g str s2 = .ok (other, g')) :
    Makes M Ok strs g other g' := by
  obtain ⟨⟨newBuff, g1⟩, hnew, hrun⟩ := bind_eq_ok.mp hrun
  obtain ⟨s, hcopy, hrun⟩ := bind_eq_ok.mp hrun
  obtain ⟨s', hcopy', hrun⟩ := bind_eq_ok.mp hrun
  obtain ⟨rfl, rfl⟩ := Prod.mk.inj (Except.ok.inj hrun)
  refine .of_new hM hnew fun hg hfit hinv hbuff => ?_
  have hsum := toNat_add_length hfit (hg.array str hstr) ((hg.array s2 hs2).toNat_le hfit)
  have hcopied := strncpy_inv hM hinv (fun k hk => hbuff k (by omega)) hcopy
  have hrest (k : ℕ) (hk : k < s2.length.toNat) :
      InPayload g1.sizes (newBuff + str.length + BitVec.ofNat 32 k) := by
    have hin := hbuff (str.length.toNat + k) (by omega)
    rwa [BitVec.ofNat_add, BitVec.ofNat_toNat, BitVec.setWidth_eq, ← BitVec.add_assoc] at hin
  exact strncpy_inv (h := { g1.heap with mem := s }) hM hcopied hrest hcopy'

/-- The string that is made by appending a character is in a block of its own. -/
theorem appendChar_makes (hM : M.Lawful Ok Err window) {b : Byte} (hstr : str ∈ strs)
    (hrun : StdString.appendChar M g str b = .ok (other, g')) : Makes M Ok strs g other g' := by
  obtain ⟨⟨newBuff, g1⟩, hnew, hrun⟩ := bind_eq_ok.mp hrun
  obtain ⟨s, hcopy, hrun⟩ := bind_eq_ok.mp hrun
  obtain ⟨s', hstore, hrun⟩ := bind_eq_ok.mp hrun
  obtain ⟨rfl, rfl⟩ := Prod.mk.inj (Except.ok.inj hrun)
  refine .of_new hM hnew fun hg hfit hinv hbuff => ?_
  have hsum := toNat_add_length hfit (hg.array str hstr) (m := 1#32) (by decide)
  have hone : (1#32).toNat = 1 := rfl
  have hcopied := strncpy_inv hM hinv (fun k hk => hbuff k (by omega)) hcopy
  have hlast := hbuff str.length.toNat (by omega)
  rw [BitVec.ofNat_toNat, BitVec.setWidth_eq] at hlast
  exact hcopied.stored hM hlast hstore

/-! ## Runs -/

/-- The string that a constructor or an operator makes from the given ones. -/
inductive Obtained (M : PagedMemory σ Fault) (strs : List StdString) (g : TrackedHeap σ) :
    StdString → TrackedHeap σ → Prop
  | construct : Obtained M strs g .construct g
  | ofChars {str : StdString} {g' : TrackedHeap σ} (init_val : Word) :
      StdString.ofChars M g init_val = .ok (str, g') → Obtained M strs g str g'
  | ofChar {str : StdString} {g' : TrackedHeap σ} (init_val : Byte) :
      StdString.ofChar M g init_val = .ok (str, g') → Obtained M strs g str g'
  | ofString {str other : StdString} {g' : TrackedHeap σ} : other ∈ strs →
      StdString.ofString M g other = .ok (str, g') → Obtained M strs g str g'
  | assign {str other : StdString} {g' : TrackedHeap σ} : other ∈ strs →
      StdString.assign M g other = .ok (str, g') → Obtained M strs g str g'
  | assignChars {str : StdString} {g' : TrackedHeap σ} (other : Word) :
      StdString.assignChars M g other = .ok (str, g') → Obtained M strs g str g'
  | substr {str self : StdString} {g' : TrackedHeap σ} {pos count : Word} : self ∈ strs →
      pos ≠ self.length + 1#32 → StdString.substr M g self pos count = .ok (str, g') →
      Obtained M strs g str g'
  | append {str self s2 : StdString} {g' : TrackedHeap σ} : self ∈ strs → s2 ∈ strs →
      StdString.append M g self s2 = .ok (str, g') → Obtained M strs g str g'
  | appendChar {str self : StdString} {g' : TrackedHeap σ} (s2 : Byte) : self ∈ strs →
      StdString.appendChar M g self s2 = .ok (str, g') → Obtained M strs g str g'

/-- The heaps of all runs, with the values that strings have had so far. Between two strings, any
code may allocate, write into payloads, and change memory outside the heap. -/
inductive Lived (M : PagedMemory σ Fault) (Ok : σ → Prop) (s : σ) :
    TrackedHeap σ → List StdString → Prop
  | initial : Lived M Ok s { heap := Heap.initial s, sizes := [] } []
  | interrupts {g : TrackedHeap σ} {strs : List StdString} (on : Bool) : Lived M Ok s g strs →
      Lived M Ok s { g with heap := { g.heap with interrupts := on } } strs
  | outside {g : TrackedHeap σ} {strs : List StdString} {t : σ} : Lived M Ok s g strs → Ok t →
      (∀ x ∈ window, M.load8 t x = M.load8 g.heap.mem x) → Lived M Ok s (g.withMem t) strs
  | write {g : TrackedHeap σ} {strs : List StdString} {x : Word} {b : Byte} {t : σ} :
      Lived M Ok s g strs → InPayload g.sizes x → M.store8 g.heap.mem x b = .ok t →
      Lived M Ok s (g.withMem t) strs
  | allocate {g g' : TrackedHeap σ} {strs : List StdString} {addr size : Word} :
      Lived M Ok s g strs → newChars M g size = .ok (addr, g') → Lived M Ok s g' strs
  | obtain {g g' : TrackedHeap σ} {strs : List StdString} {str : StdString} :
      Lived M Ok s g strs → Obtained M strs g str g' → Lived M Ok s g' (str :: strs)

/-- Whatever makes a string gives it an array. -/
theorem Obtained.makes (hM : M.Lawful Ok Err window) (h : Obtained M strs g str g') :
    Makes M Ok strs g str g' := by
  cases h with
  | construct => exact construct_makes
  | ofChars init_val hrun => exact ofChars_makes hM hrun
  | ofChar init_val hrun => exact ofChar_makes hM hrun
  | ofString _ hrun => exact ofArray_makes hM hrun
  | assign _ hrun => exact ofArray_makes hM hrun
  | assignChars other hrun => exact ofChars_makes hM hrun
  | substr _ hpos hrun => exact substr_makes hM hpos hrun
  | append hstr hs2 hrun => exact append_makes hM hstr hs2 hrun
  | appendChar s2 hstr hrun => exact appendChar_makes hM hstr hrun

/-- Strings keep their arrays when blocks are appended. -/
theorem Sound.mono (hg : Sound M Ok g strs) (hinv : Inv M Ok g'.heap g'.sizes)
    (hextends : g.sizes <+: g'.sizes) : Sound M Ok g' strs :=
  ⟨hinv, fun str hstr => (hg.array str hstr).mono hextends⟩

/-- As long as its blocks fit, the heap of a run has an array for each string. -/
theorem Lived.sound (hM : M.Lawful Ok Err window) (hok : Ok s) (hlived : Lived M Ok s g strs)
    (hfit : heapBytes g.sizes ≤ 0x10000000) : Sound M Ok g strs := by
  induction hlived with
  | initial => exact ⟨initial_inv hok, by simp⟩
  | interrupts on _ ih =>
    have hg := ih hfit
    exact ⟨hg.inv.withInterrupts on, hg.array⟩
  | outside _ ht hsame ih =>
    have hg := ih hfit
    exact ⟨hg.inv.extend ht fun x hx b hb => (hsame x hx).trans hb, hg.array⟩
  | write _ hx hstore ih =>
    have hg := ih hfit
    exact ⟨hg.inv.stored hM hx hstore, hg.array⟩
  | allocate _ hrun ih =>
    have hextends := newChars_extends hrun
    have hg := ih (fits_before hextends hfit)
    exact hg.mono (newChars_spec hM hg.inv hrun hfit).1 hextends
  | @obtain g g' strs str _ hobtained ih =>
    obtain ⟨hextends, hmade⟩ := hobtained.makes hM
    have hg := ih (fits_before hextends hfit)
    have hnew := hmade hg hfit
    refine ⟨hnew.inv, List.forall_mem_cons.mpr ⟨hnew.array str List.mem_cons_self, ?_⟩⟩
    exact (hg.mono hnew.inv hextends).array

end Muk
