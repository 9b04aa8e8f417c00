import Muk.Memory.HeapFrames

/-!
# The heap on the machine's page tables

The heap, `MapPage` and the bitmap of physical pages together. Each byte that the heap
accesses is translated by the machine's page tables, and in the states in which the frames
of the heap are its own the machine is a lawful memory for it. A run of the heap among
other calls of `MapPage` keeps these states, unless it runs out of frames.
-/

namespace Muk

namespace Machine

variable {s t : Machine} {kernelEnd : Word}

/-- The machine as a memory: each byte access is translated, and a page is mapped by
`MapPage` with a frame of the allocator. -/
def memory (alloc : FrameAllocator) : PagedMemory Machine Fault where
  mapPage s va := mapPageWith alloc s va 0
  load8 s a :=
    match s.translate a with
    | some p => .ok (s.ram p)
    | none => .error .pageFault
  store8 s a b :=
    match s.translate a with
    | some p => .ok { s with ram := store8 s.ram p b }
    | none => .error .pageFault

variable {alloc : FrameAllocator}

/-- A byte is read exactly if its address is mapped and memory has it there. -/
theorem memory_load8_eq_ok {a : Word} {b : Byte} :
    (memory alloc).load8 s a = .ok b ↔ ∃ p, s.translate a = some p ∧ s.ram p = b := by
  simp only [memory]
  cases s.translate a with
  | none => simp
  | some p => simp

/-- A byte at a mapped address is read from its frame. -/
theorem memory_load8 {a p : Word} (h : s.translate a = some p) :
    (memory alloc).load8 s a = .ok (s.ram p) := memory_load8_eq_ok.mpr ⟨p, h, rfl⟩

/-- Two addresses of the heap that meet in one physical byte are one address. -/
theorem Private.translate_inj (h : s.Private kernelEnd) {va va' p : Word} (hva : va ∈ Heap.window)
    (hva' : va' ∈ Heap.window) (hp : s.translate va = some p) (hp' : s.translate va' = some p) :
    va = va' := by
  have hpage := congrArg BitVec.toNat (h.inj va hva va' hva' p p hp hp' rfl)
  rw [toNat_frameOf, toNat_frameOf] at hpage
  have hoffset := offset_of_translate hp
  have hoffset' := offset_of_translate hp'
  apply BitVec.eq_of_toNat_eq
  omega

/-- A byte written to the heap changes no other byte of the heap. -/
theorem memory_store8 (h : s.Private kernelEnd) {a : Word} {b old : Byte} (ha : a ∈ Heap.window)
    (hold : (memory alloc).load8 s a = .ok old) :
    ∃ s', (memory alloc).store8 s a b = .ok s' ∧ s'.Private kernelEnd ∧ ∀ x ∈ Heap.window,
      (memory alloc).load8 s' x = if x = a then .ok b else (memory alloc).load8 s x := by
  obtain ⟨p, hp, -⟩ := memory_load8_eq_ok.mp hold
  have hentry := h.entry_store8 ha hp b
  have htranslate := translate_of_entries hentry
  refine ⟨{ s with ram := store8 s.ram p b }, ?_, h.of_entries hentry, fun x hx => ?_⟩
  · simp only [memory, hp]
  · by_cases hxa : x = a
    · subst x
      rw [if_pos rfl, memory_load8 ((htranslate a).trans hp)]
      simp
    · rw [if_neg hxa]
      cases hx' : s.translate x with
      | none => simp only [memory, htranslate x, hx']
      | some q =>
        have hne : q ≠ p := by
          rintro rfl
          exact hxa (h.translate_inj hx ha hx' hp)
        rw [memory_load8 ((htranslate x).trans hx'), memory_load8 hx']
        simp only [store8_ne _ _ hne]

/-- The bytes of the heap survive both steps of `MapPage`. -/
theorem memory_load8_of_steps {i j : EntryIndex} {pa : Word} {s' : Machine}
    (h : s.Private kernelEnd) (hi : i ≠ 1023) (htable : TableStep s i t)
    (hpage : PageStep t i j pa s') {x : Word} (hx : x ∈ Heap.window) {b : Byte}
    (hb : (memory alloc).load8 s x = .ok b) : (memory alloc).load8 s' x = .ok b := by
  obtain ⟨p, hp, rfl⟩ := memory_load8_eq_ok.mp hb
  have hdata := h.data x hx p hp
  have hdata' := htable.dataFrame h.good hdata
  have hp' : t.translate x = some p := by
    rwa [htable.translate h.good (pdIndex_of_window hx).1]
  have hp'' : s'.translate x = some p := hpage.translate_some hp'
  rw [memory_load8 hp'', hpage.ram (htable.good h.good hi).2 hdata'.not_table,
    htable.ram hdata.not_table hdata.taken]

/-- **The machine is a lawful memory for the heap.** Mapping a page of the heap can
only fail for want of a frame. -/
theorem memory_lawful (kernelEnd : Word) : (memory allocateChecked).Lawful (Private kernelEnd)
    (fun e => e = .outOfPages) Heap.window where
  store8 := fun h ha hold => memory_store8 h ha hold
  mapPage := by
    intro s va h hva
    obtain ⟨hi, hi'⟩ := pdIndex_of_window hva
    rcases mapPageWith_steps 0 allocateChecked_honest h.good h.zero_not_free hi
      (h.not_large _ hi') with ⟨hfail, -⟩ | ⟨t, s', htable, hpage, hrun⟩
    · simp only [memory, hfail, outcome_error]
    · have ht := h.tableStep htable hi
      obtain ⟨hs', hmapped⟩ := ht.pageStep_heap hva hpage (htable.good h.good hi).2
      refine .of_eq_ok hrun ⟨hs', fun x hx hsame => ?_, fun x hx b hb => ?_⟩
      · have hframe : frameOf x = frameOf va := by
          apply BitVec.eq_of_toNat_eq
          rw [toNat_frameOf, toNat_frameOf, hsame]
        obtain ⟨p, hp⟩ := hmapped x hx hframe
        exact ⟨_, memory_load8 hp⟩
      · exact memory_load8_of_steps h hi htable hpage hx hb

/-! ## Runs -/

/-- What happens to the machine: an event of the heap, or a call of `MapPage` such as
the one that maps the frame buffer. -/
inductive Event
  | heap (e : Heap.Event)
  | mapPage (va pa : Word)

/-- One event, over the allocator that `MapPage` takes its frames from. -/
def step (alloc : FrameAllocator) (r : Heap.Run Machine) : Event → Except Fault (Heap.Run Machine)
  | .heap e => Heap.step (memory alloc) r e
  | .mapPage va pa => do
    let s ← mapPageWith alloc r.heap.mem va pa
    .ok { r with heap := { r.heap with mem := s } }

/-- The events of the heap. -/
def heapEvents (events : List Event) : List Heap.Event :=
  events.filterMap fun
    | .heap e => some e
    | .mapPage .. => none

/-- The heap keeps to its rules, and other pages are mapped outside the heap, the 4 MiB
of the kernel and the recursive window. Nothing is asked of the frames they are mapped to. -/
structure Admissible (events : List Event) : Prop where
  heap : Heap.Admissible (heapEvents events)
  outside : ∀ va pa, .mapPage va pa ∈ events →
    va ∉ Heap.window ∧ pdIndex va ≠ 768 ∧ pdIndex va ≠ 1023

/-- The heap events of two lists are those of the first one, and then those of the second one. -/
@[simp] theorem heapEvents_append (before after : List Event) :
    heapEvents (before ++ after) = heapEvents before ++ heapEvents after := by
  simp [heapEvents]

/-- Directory entries belong to the heap as a whole or not at all. -/
theorem pdIndex_ne_of_not_mem_window {va x : Word} (hva : va ∉ Heap.window)
    (hx : x ∈ Heap.window) : pdIndex x ≠ pdIndex va := by
  intro h
  have hnat := congrArg BitVec.toNat h
  rw [toNat_pdIndex, toNat_pdIndex] at hnat
  rw [Heap.mem_window] at hva hx
  omega

/-- The step lemma for `MapPage` outside the heap. -/
theorem step_mapPage {r : Heap.Run Machine} {sizes : List ℕ}
    (hr : Heap.RunInv (memory allocateChecked) (Private kernelEnd) r sizes) {va pa : Word}
    (hva : va ∉ Heap.window) (hkernel : pdIndex va ≠ 768) (hi : pdIndex va ≠ 1023) :
    Outcome (fun e => e = .outOfPages)
      (fun r' => Heap.RunInv (memory allocateChecked) (Private kernelEnd) r' sizes)
      (step allocateChecked r (.mapPage va pa)) := by
  have h := hr.inv.region.ok
  rcases mapPageWith_steps pa allocateChecked_honest h.good h.zero_not_free hi
    (h.not_large _ hkernel) with ⟨hfail, -⟩ | ⟨t, s', htable, hpage, hrun⟩
  · simp only [step, hfail, bind, Except.bind, outcome_error]
  · have hs' := (h.tableStep htable hi).pageStep_outside hi hpage (htable.good h.good hi).2
      fun x hx => pdIndex_ne_of_not_mem_window hva hx
    simp only [step, hrun, bind, Except.bind, outcome_ok]
    exact ⟨hr.inv.extend hs' fun x hx b hb => memory_load8_of_steps h hi htable hpage hx hb,
      hr.returned⟩

/-- The state `Memory::Setup` builds maps no page of the heap. -/
theorem SetupState.heapPrivate (h : s.SetupState kernelEnd) : s.Private kernelEnd := by
  have hnone (va : Word) (hva : va ∈ Heap.window) : s.translate va = none := by
    obtain ⟨hi, hi'⟩ := pdIndex_of_window hva
    have habsent := h.others_absent _ hi hi'
    rw [pde] at habsent
    simp [translate, Muk.translate, habsent]
  refine ⟨h.good, h.free_above, fun i hi hlarge => ?_, fun va hva p hp => ?_,
    fun va hva va' _ p p' hp => ?_⟩
  · by_cases h1023 : i = 1023
    · subst i
      exact h.recursive.2 hlarge.2
    · exact h.others_absent i h1023 hi hlarge.1
  · rw [hnone va hva] at hp
    cases hp
  · rw [hnone va hva] at hp
    cases hp

/-- The run lemma: an admissible run keeps the heap's frames private, unless it runs
out of frames. -/
theorem run_inv (hs : s.Private kernelEnd) {events : List Event} (hevents : Admissible events) :
    Outcome (fun e => e = .outOfPages)
      (fun r => Heap.RunInv (memory allocateChecked) (Private kernelEnd) r
        (Heap.sizesOf (heapEvents events)))
      (runEvents (step allocateChecked) { heap := Heap.initial s, returned := [] } events) := by
  refine runEvents_outcome (fun before r => Heap.RunInv (memory allocateChecked)
    (Private kernelEnd) r (Heap.sizesOf (heapEvents before))) ⟨Heap.initial_inv hs, rfl⟩
    fun before e after r heq hr => ?_
  cases e with
  | heap e =>
    have hsplit : heapEvents events = heapEvents before ++ e :: heapEvents after := by
      simp [heq, heapEvents]
    rw [heapEvents_append]
    exact Heap.step_inv (memory_lawful kernelEnd) hevents.heap hsplit hr
  | mapPage va pa =>
    obtain ⟨hva, hkernel, hi⟩ := hevents.outside va pa (by simp [heq])
    rw [heapEvents_append, show heapEvents [.mapPage va pa] = [] from rfl, List.append_nil]
    exact step_mapPage hr hva hkernel hi

end Machine

end Muk
