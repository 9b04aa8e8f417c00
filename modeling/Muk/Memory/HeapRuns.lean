import Muk.Memory.HeapInvariant

/-!
# Runs of the kernel heap

Calls of `vmalloc` and writes into the payloads returned, in any order. Every
event keeps the heap invariant, so it holds at the end of every run; what callers
of the heap rely on is read off from it.
-/

namespace Muk

namespace Heap

variable {σ : Type} {M : PagedMemory σ Fault} {Ok : σ → Prop} {Err : Fault → Prop}
  {h : Heap σ} {s : σ} {sizes : List ℕ} {size : ℕ}

/-- What happens to the heap: a call of `vmalloc`, or a write of byte `k` of the
payload that call number `i` returned. -/
inductive Event
  | vmalloc (size : Word)
  | write (i k : ℕ) (b : Byte)

/-- The heap, and the addresses returned so far. -/
structure Run (σ : Type) where
  heap : Heap σ
  returned : List Word

/-- One event. -/
def step (M : PagedMemory σ Fault) (r : Run σ) : Event → Except Fault (Run σ)
  | .vmalloc size => do
    let (addr, h) ← vmalloc M r.heap size
    .ok { heap := h, returned := r.returned ++ [addr] }
  | .write i k b =>
    match r.returned[i]? with
    | none => .error .outOfBounds
    | some addr => do
      let s ← M.store8 r.heap.mem (addr + BitVec.ofNat 32 k) b
      .ok { r with heap := { r.heap with mem := s } }

/-- The payload sizes asked for. -/
def sizesOf (events : List Event) : List ℕ :=
  events.filterMap fun
    | .vmalloc size => some size.toNat
    | .write .. => none

/-- An event that keeps to the rules after the given ones: no empty allocation, and
no write outside the payloads returned. -/
def Event.Allowed (before : List Event) : Event → Prop
  | .vmalloc size => 1 ≤ size.toNat
  | .write i k _ => ∃ hi : i < (sizesOf before).length, k < (sizesOf before)[i]

/-- A run that keeps to the rules and that fits between `kHeapStart` and `0xF0000000`. -/
structure Admissible (events : List Event) : Prop where
  allowed : ∀ before e after, events = before ++ e :: after → e.Allowed before
  fits : heapBytes (sizesOf events) ≤ 0x10000000

/-- The sizes of two lists of events are those of the first one, and then those of the second
one. -/
@[simp] theorem sizesOf_append (before after : List Event) :
    sizesOf (before ++ after) = sizesOf before ++ sizesOf after := by
  simp [sizesOf]

/-- A call of `vmalloc` adds its size. -/
@[simp] theorem sizesOf_vmalloc (size : Word) : sizesOf [.vmalloc size] = [size.toNat] := rfl

/-- A write to a payload adds no block, and so no size. -/
@[simp] theorem sizesOf_write (i k : ℕ) (b : Byte) : sizesOf [.write i k b] = [] := rfl

/-- The first part of a run needs no more of the heap than the whole run. -/
theorem heapBytes_le_append (before after : List ℕ) :
    heapBytes before ≤ heapBytes (before ++ after) := by
  have h := blockOffset_le (show before.length ≤ (before ++ after).length by simp)
  simpa [heapBytes, blockOffset] using h

/-- A run of no events is admissible. -/
theorem Admissible.nil : Admissible [] :=
  ⟨fun before e after h => by simp at h, by decide⟩

/-- An admissible run, continued by an event that keeps to the rules. -/
theorem Admissible.concat {events : List Event} {e : Event} (h : Admissible events)
    (he : e.Allowed events) (hfits : heapBytes (sizesOf (events ++ [e])) ≤ 0x10000000) :
    Admissible (events ++ [e]) := by
  refine ⟨fun before e' after heq => ?_, hfits⟩
  rcases List.eq_nil_or_concat after with rfl | ⟨after, last, rfl⟩
  · obtain ⟨rfl, hlast⟩ := List.append_inj' heq rfl
    obtain ⟨rfl, -⟩ := List.cons.inj hlast
    exact he
  · rw [List.concat_eq_append, ← List.cons_append, ← List.append_assoc] at heq
    exact h.allowed before e' after (List.append_inj' heq rfl).1

/-- The run invariant: the heap invariant, and every call returned its payload. -/
structure RunInv (M : PagedMemory σ Fault) (Ok : σ → Prop) (r : Run σ) (sizes : List ℕ) : Prop where
  inv : Inv M Ok r.heap sizes
  returned : r.returned = (List.range sizes.length).map (payloadAddr sizes)

/-- The run invariant asks of memory as a whole no more than the condition that it is given. -/
theorem RunInv.of_ok {Ok' : σ → Prop} {r : Run σ} (hr : RunInv M Ok r sizes)
    (hok : Ok' r.heap.mem) : RunInv M Ok' r sizes := by
  obtain ⟨⟨⟨hregion, hheader⟩, hstart⟩, hreturned⟩ := hr
  exact ⟨⟨⟨⟨hok, hregion.top_aligned, hregion.used_le, hregion.top_le, hregion.mapped,
    hregion.fresh⟩, hheader⟩, hstart⟩, hreturned⟩

/-- Further blocks do not move the payloads of those that exist. -/
theorem payloadAddr_append {more : List ℕ} {i : ℕ} (hi : i ≤ sizes.length) :
    payloadAddr (sizes ++ more) i = payloadAddr sizes i := by
  rw [payloadAddr, blockAddr_append hi, payloadAddr]

/-- The step lemma for a call. -/
theorem step_vmalloc (hM : M.Lawful Ok Err window) {r : Run σ} (hr : RunInv M Ok r sizes)
    {size : Word} (hsize : 1 ≤ size.toNat) (hfit : heapBytes sizes + size.toNat + 12 ≤ 0x10000000) :
    Outcome Err (fun r' => RunInv M Ok r' (sizes ++ [size.toNat]) ∧
        ∃ addr, r'.returned = r.returned ++ [addr] ∧
          Allocated M Ok r.heap sizes size.toNat addr r'.heap)
      (step M r (.vmalloc size)) := by
  have hcall := vmalloc_spec hM hr.inv hsize hfit
  rw [BitVec.ofNat_toNat, BitVec.setWidth_eq] at hcall
  refine hcall.bind fun ⟨addr, h'⟩ halloc => outcome_ok.mpr ⟨⟨halloc.inv, ?_⟩, addr, rfl, halloc⟩
  have haddr : addr = payloadAddr (sizes ++ [size.toNat]) sizes.length := halloc.addr_eq
  have hlist : (List.range sizes.length).map (payloadAddr (sizes ++ [size.toNat])) =
      (List.range sizes.length).map (payloadAddr sizes) :=
    List.map_congr_left fun i hi => payloadAddr_append (List.mem_range.mp hi).le
  simp only [hr.returned, haddr, List.length_append, List.length_singleton,
    List.range_succ, List.map_append, List.map_cons, List.map_nil, hlist]

/-- The step lemma for a write. -/
theorem step_write (hM : M.Lawful Ok Err window) {r : Run σ} (hr : RunInv M Ok r sizes)
    {i k : ℕ} (hi : i < sizes.length) (hk : k < sizes[i]) (b : Byte) :
    Outcome Err (fun r' => RunInv M Ok r' sizes) (step M r (.write i k b)) := by
  have haddr : r.returned[i]? = some (payloadAddr sizes i) := by
    simp [hr.returned, hi]
  obtain ⟨s', hrun, hinv⟩ := hr.inv.write hM (b := b) ⟨i, hi, k, hk, rfl⟩
  simp only [step, haddr, hrun, bind, Except.bind, outcome_ok]
  exact ⟨hinv, hr.returned⟩

/-- The step lemma for an event of an admissible run. -/
theorem step_inv (hM : M.Lawful Ok Err window) {events before after : List Event} {e : Event}
    (hevents : Admissible events) (heq : events = before ++ e :: after) {r : Run σ}
    (hr : RunInv M Ok r (sizesOf before)) :
    Outcome Err (fun r' => RunInv M Ok r' (sizesOf (before ++ [e]))) (step M r e) := by
  have hallowed := hevents.allowed before e after heq
  have hfit := hevents.fits
  cases e with
  | vmalloc size =>
    have hle := heapBytes_le_append (sizesOf before ++ [size.toNat]) (sizesOf after)
    have hsizes : sizesOf events = sizesOf before ++ [size.toNat] ++ sizesOf after := by
      simp [heq, sizesOf]
    rw [← hsizes, heapBytes_append] at hle
    rw [sizesOf_append, sizesOf_vmalloc]
    exact (step_vmalloc hM hr hallowed (by omega)).mono fun r' h => h.1
  | write i k b =>
    obtain ⟨hi, hk⟩ := hallowed
    rw [sizesOf_append, sizesOf_write, List.append_nil]
    exact step_write hM hr hi hk b

/-- The run lemma: every admissible run keeps the run invariant. -/
theorem run_inv (hM : M.Lawful Ok Err window) (hok : Ok s) {events : List Event}
    (hevents : Admissible events) :
    Outcome Err (fun r => RunInv M Ok r (sizesOf events))
      (runEvents (step M) { heap := initial s, returned := [] } events) :=
  runEvents_outcome (fun before r => RunInv M Ok r (sizesOf before)) ⟨initial_inv hok, rfl⟩
    fun _ _ _ _ heq hr => step_inv hM hevents heq hr

/-! ## What callers rely on -/

/-- The heap after calls for payloads of the given sizes, as its callers see it. -/
structure Specified (M : PagedMemory σ Fault) (r : Run σ) (sizes : List ℕ) : Prop where
  /-- Call number `i` returned the address after the blocks before it and its header. -/
  returned : r.returned = (List.range sizes.length).map (payloadAddr sizes)
  address : ∀ i < sizes.length, (payloadAddr sizes i).toNat =
    0xE0000000 + ((sizes.take i).map (· + 12)).sum + 12
  /-- The traversal visits all blocks in their order and stops at the last one. -/
  traverse : sizes ≠ [] → traverse M r.heap.mem r.heap.kheapStart (2 ^ 32) =
    .ok ((List.range sizes.length).map (blockAddr sizes))
  found : sizes ≠ [] → foundBlock M r.heap.mem r.heap.kheapStart =
    .ok (blockAddr sizes (sizes.length - 1))
  size : ∀ i (hi : i < sizes.length), blockSize M r.heap.mem (blockAddr sizes i) =
    .ok (BitVec.ofNat 32 (sizes[i] + 12))
  /-- A block that is alone is linked to itself. -/
  alone : sizes.length = 1 → M.load32 r.heap.mem (kHeapStart + 4#32) = .ok kHeapStart ∧
    M.load32 r.heap.mem (kHeapStart + 8#32) = .ok kHeapStart
  /-- Payloads are disjoint, also from every header. -/
  disjoint : ∀ i j (hi : i < sizes.length) (hj : j < sizes.length), ∀ k < sizes[i],
    ∀ l < sizes[j], payloadAddr sizes i + BitVec.ofNat 32 k =
      payloadAddr sizes j + BitVec.ofNat 32 l → i = j ∧ k = l
  not_header : ∀ i j (hi : i < sizes.length), j < sizes.length → ∀ k < sizes[i], ∀ l < 12,
    payloadAddr sizes i + BitVec.ofNat 32 k ≠ blockAddr sizes j + BitVec.ofNat 32 l
  /-- Everything up to `kheap_top` can be read and written. -/
  mapped : ∀ x : Word, 0xE0000000 ≤ x.toNat → x.toNat < r.heap.kheapTop.toNat →
    (∃ b, M.load8 r.heap.mem x = .ok b) ∧ ∀ b, ∃ s', M.store8 r.heap.mem x b = .ok s'
  top : 0xE0000000 + (sizes.map (· + 12)).sum ≤ r.heap.kheapTop.toNat ∧
    r.heap.kheapTop.toNat % 4096 = 0

/-- The heap invariant says what callers rely on. -/
theorem RunInv.specified (hM : M.Lawful Ok Err window) {r : Run σ} (hr : RunInv M Ok r sizes) :
    Specified M r sizes := by
  have hfit := hr.inv.heapBytes_le
  have hpayload (i k : ℕ) (hi : i < sizes.length) (hk : k ≤ sizes[i]) :
      (payloadAddr sizes i + BitVec.ofNat 32 k).toNat =
        0xE0000000 + blockOffset sizes i + 12 + k := by
    have hend := blockOffset_add_le hi
    have haddr := hr.inv.toNat_blockAddr hi.le
    rw [payloadAddr]
    bv_omega
  refine ⟨hr.returned, fun i hi => ?_, fun hne => ?_, fun hne => ?_, fun i hi => ?_, fun hone => ?_,
    fun i j hi hj k hk l hl heq => ?_, fun i j hi hj k hk l hl heq => ?_, fun x hstart htop => ?_,
    ?_, hr.inv.region.top_aligned⟩
  · have h := hpayload i 0 hi (by omega)
    rw [BitVec.add_zero] at h
    exact h
  · have hlen := List.length_pos_iff.mpr hne
    have hmany := length_le_heapBytes sizes
    have hrun := hr.inv.traverse (2 ^ 32) hlen (by omega)
    rw [blockAddr_zero, Nat.sub_zero, ← List.range_eq_range'] at hrun
    rw [hr.inv.start, if_neg hne, hrun]
  · rw [hr.inv.start, if_neg hne]
    exact hr.inv.foundBlock hne
  · have hend := blockOffset_add_le hi
    exact (hr.inv.header i hi).blockSize (by rw [toNat_ofNat_of_lt (by omega)]; omega)
  · have hheader := hr.inv.header 0 (by omega)
    rw [nextAddr, if_neg (by omega), if_pos rfl, Nat.zero_sub, blockAddr_zero] at hheader
    exact ⟨hheader.next.load32, hheader.prev.load32⟩
  · have hnat := congrArg BitVec.toNat heq
    rw [hpayload i k hi hk.le, hpayload j l hj hl.le] at hnat
    rcases Nat.lt_trichotomy i j with h | h | h
    · have := blockOffset_lt h hj.le
      omega
    · subst h
      exact ⟨rfl, by omega⟩
    · have := blockOffset_lt h hi.le
      omega
  · have hfar := InPayload.not_header ⟨i, hi, k, hk, rfl⟩ hfit hj
    rw [heq] at hfar
    bv_omega
  · have hx : x ∈ window := mem_window.mpr ⟨hstart, by have := hr.inv.region.top_le; omega⟩
    obtain ⟨old, hold⟩ := hr.inv.region.mapped x hx htop
    refine ⟨⟨old, hold⟩, fun b => ?_⟩
    obtain ⟨s', hrun, -⟩ := hM.store8 (b := b) hr.inv.region.ok hx hold
    exact ⟨s', hrun⟩
  · have h := hr.inv.region.used_le
    simpa [heapBytes, blockOffset, blockHeaderSize] using h

/-- **The heap over whole runs.** Over any memory in which mapping a page makes it
accessible and leaves accessible bytes alone, every admissible run succeeds and
leaves the heap as its callers expect it; one more call returns a payload of zeroes
and changes no byte of an earlier payload. -/
theorem heap_run (hM : M.Lawful Ok (fun _ => False) window) (hok : Ok s) {events : List Event}
    (hevents : Admissible events) :
    ∃ r, runEvents (step M) { heap := initial s, returned := [] } events = .ok r ∧
      Specified M r (sizesOf events) ∧
      ∀ size, Admissible (events ++ [.vmalloc size]) →
        ∃ r' addr, step M r (.vmalloc size) = .ok r' ∧ r'.returned = r.returned ++ [addr] ∧
          (∀ k < size.toNat, M.load8 r'.heap.mem (addr + BitVec.ofNat 32 k) = .ok 0) ∧
          ∀ x, InPayload (sizesOf events) x →
            M.load8 r'.heap.mem x = M.load8 r.heap.mem x := by
  obtain ⟨r, hrun, hr⟩ := outcome_false_iff.mp (run_inv hM hok hevents)
  refine ⟨r, hrun, hr.specified hM, fun size hmore => ?_⟩
  have hsize : 1 ≤ size.toNat := hmore.allowed events (.vmalloc size) [] rfl
  have hfit := hmore.fits
  rw [sizesOf_append, sizesOf_vmalloc, heapBytes_append] at hfit
  obtain ⟨r', hstep, -, addr, hreturned, halloc⟩ :=
    outcome_false_iff.mp (step_vmalloc hM hr hsize hfit)
  exact ⟨r', addr, hstep, hreturned, halloc.zero, halloc.kept⟩

/-- Two allocations with a write to the last byte of the first payload in between. -/
theorem heap_run_flat : ∃ r,
    runEvents (step (PagedMemory.flat Fault.pageFault))
        { heap := initial ⟨fun _ => 0xAA, fun _ => false⟩, returned := [] }
        [.vmalloc 6, .write 0 5 0xFF, .vmalloc 4090] = .ok r ∧
      Specified (PagedMemory.flat Fault.pageFault) r [6, 4090] := by
  have hevents : Admissible [.vmalloc 6, .write 0 5 0xFF, .vmalloc 4090] :=
    ((Admissible.nil.concat (e := .vmalloc 6) (show 1 ≤ 6 by omega) (by decide)).concat
      (e := .write 0 5 0xFF) ⟨by decide, by decide⟩ (by decide)).concat
      (e := .vmalloc 4090) (show 1 ≤ 4090 by omega) (by decide)
  obtain ⟨r, hrun, hspec, -⟩ := heap_run (PagedMemory.flat_lawful Fault.pageFault window)
    (s := ⟨fun _ => 0xAA, fun _ => false⟩) trivial hevents
  exact ⟨r, hrun, hspec⟩

end Heap

end Muk
