import Muk.Proc.Thread
import Mathlib.Data.Fintype.Card

/-!
# The ring of threads

`start_thread` leaves a thread that looks as if it had been switched out at its entry
point, and a ring in which `next` visits the threads in the order in which they were
started. Both are facts about the bytes of the `Thread` objects alone, so they survive
every write outside these objects.
-/

namespace Muk

open Thread (field)

variable {m m' : Mem} {thread x v : Word} {t : NewThread} {threads : ℕ → NewThread} {n : ℕ}

/-! ## Objects -/

/-- A byte of the object at an address. -/
def InObject (thread x : Word) : Prop := (x - thread).toNat < Thread.size

/-- Where `new` puts the threads and their titles: objects of their own. -/
structure Placed (threads : ℕ → NewThread) (n : ℕ) : Prop where
  ne_zero : ∀ i < n, (threads i).addr ≠ 0
  fits : ∀ i < n, (threads i).addr.toNat + Thread.size ≤ 2 ^ 32
  disjoint : ∀ i < n, ∀ j < n, i ≠ j →
    (threads i).addr.toNat + Thread.size ≤ (threads j).addr.toNat ∨
      (threads j).addr.toNat + Thread.size ≤ (threads i).addr.toNat
  title_length : ∀ i < n, (threads i).title.length < 255
  buffer_fits : ∀ i < n, (threads i).titleBuffer.toNat + 255 ≤ 2 ^ 32
  buffer : ∀ i < n, ∀ j < n, (threads i).titleBuffer.toNat + 255 ≤ (threads j).addr.toNat ∨
    (threads j).addr.toNat + Thread.size ≤ (threads i).titleBuffer.toNat

/-- The objects of two threads have no byte in common. -/
theorem Placed.not_inObject (h : Placed threads n) {i j : ℕ} (hi : i < n) (hj : j < n)
    (hij : i ≠ j) (hx : InObject (threads i).addr x) : ¬ InObject (threads j).addr x := by
  have hfits := h.fits i hi
  have hfits' := h.fits j hj
  have hdisjoint := h.disjoint i hi j hj hij
  simp only [InObject, Thread.size] at *
  bv_omega

/-- Different threads of the ring have different addresses. -/
theorem Placed.addr_inj (h : Placed threads n) {i j : ℕ} (hi : i < n) (hj : j < n)
    (haddr : (threads i).addr = (threads j).addr) : i = j := by
  by_contra hij
  have hdisjoint := h.disjoint i hi j hj hij
  rw [haddr, Thread.size] at hdisjoint
  omega

/-- There are at most as many threads as addresses. -/
theorem Placed.le (h : Placed threads n) : n ≤ 2 ^ 32 := by
  let f : Fin n → Fin (2 ^ 32) := fun i => (threads i).addr.toFin
  have hf : Function.Injective f := by
    intro i j hij
    exact Fin.ext (h.addr_inj i.isLt j.isLt (BitVec.toFin_inj.mp hij))
  simpa using Fintype.card_le_of_injective f hf

/-- A field of an object lies in the object. -/
theorem inObject_of_field {offset : ℕ} (hoffset : offset + 4 ≤ Thread.size)
    (hx : (x - field thread offset).toNat < 4) : InObject thread x := by
  simp only [InObject, Thread.size, field] at *
  bv_omega

/-- A field of a thread depends on the bytes of the thread only. -/
theorem load32_field_congr {offset : ℕ} (hoffset : offset + 4 ≤ Thread.size)
    (h : ∀ x, InObject thread x → m' x = m x) :
    load32 m' (field thread offset) = load32 m (field thread offset) :=
  load32_congr fun x hx => h x (inObject_of_field hoffset hx)

/-! ## Suspended threads -/

/-- What a thread continues with when it is switched to. -/
structure Context where
  ebx : Word
  esi : Word
  edi : Word
  ebp : Word
  esp : Word
  eip : Word
  deriving DecidableEq

/-- A thread waits on its own stack to be switched to: `state_reg.esp` points to the
five words that `switch_context` pops. -/
structure Suspended (m : Mem) (thread : Word) (c : Context) : Prop where
  low : thread.toNat + Thread.stack + 20 ≤ c.esp.toNat
  high : c.esp.toNat ≤ thread.toNat + Thread.tStatus
  esp : load32 m (field thread (Thread.stateReg + Registers.esp)) = c.esp - 20#32
  edi : load32 m (c.esp - 20#32 + BitVec.ofNat 32 0) = c.edi
  esi : load32 m (c.esp - 20#32 + BitVec.ofNat 32 4) = c.esi
  ebx : load32 m (c.esp - 20#32 + BitVec.ofNat 32 8) = c.ebx
  ebp : load32 m (c.esp - 20#32 + BitVec.ofNat 32 12) = c.ebp
  eip : load32 m (c.esp - 20#32 + BitVec.ofNat 32 16) = c.eip

/-- A byte of the stack of a thread, or of its `state_reg.esp`. -/
def InSaved (thread x : Word) : Prop :=
  (40 ≤ (x - thread).toNat ∧ (x - thread).toNat < 44) ∨
    (Thread.stack ≤ (x - thread).toNat ∧ (x - thread).toNat < Thread.tStatus)

/-- What is saved of a thread is inside it. -/
theorem InSaved.inObject (h : InSaved thread x) : InObject thread x := by
  simp only [InSaved, InObject, Thread.stack, Thread.tStatus, Thread.size] at *
  omega

/-- A suspended thread depends on its stack and its `state_reg.esp` only. -/
theorem Suspended.congr {c : Context} (h : Suspended m thread c)
    (hsame : ∀ x, InSaved thread x → m' x = m x) : Suspended m' thread c := by
  have hlow := h.low
  have hhigh := h.high
  have hword (offset : ℕ) (hoffset : offset ≤ 16) :
      load32 m' (c.esp - 20#32 + BitVec.ofNat 32 offset) =
        load32 m (c.esp - 20#32 + BitVec.ofNat 32 offset) := by
    refine load32_congr fun x hx => hsame x ?_
    simp only [InSaved, Thread.stack, Thread.tStatus] at *
    bv_omega
  have hesp : load32 m' (field thread (Thread.stateReg + Registers.esp)) =
      load32 m (field thread (Thread.stateReg + Registers.esp)) := by
    refine load32_congr fun x hx => hsame x ?_
    simp only [InSaved, field, Thread.stateReg, Registers.esp] at *
    bv_omega
  exact ⟨hlow, hhigh, hesp.trans h.esp, (hword 0 (by omega)).trans h.edi,
    (hword 4 (by omega)).trans h.esi, (hword 8 (by omega)).trans h.ebx,
    (hword 12 (by omega)).trans h.ebp, (hword 16 (by omega)).trans h.eip⟩

/-- The links of a thread are neither on its stack nor part of `state_reg.esp`. -/
theorem not_inSaved_of_link {offset : ℕ} (hoffset : offset = Thread.prev ∨ offset = Thread.next)
    (hx : InSaved thread x) : 4 ≤ (x - field thread offset).toNat := by
  rcases hoffset with rfl | rfl
  · simp only [InSaved, field, Thread.stack, Thread.tStatus, Thread.prev] at *
    bv_omega
  · simp only [InSaved, field, Thread.stack, Thread.tStatus, Thread.next] at *
    bv_omega

/-! ## A new thread -/

/-- A new thread starts at its entry point, with zeroes in its registers. -/
def startContext (t : NewThread) : Context where
  ebx := 0
  esi := 0
  edi := 0
  ebp := 0
  esp := field t.addr (Thread.stack + 4096)
  eip := t.entry

/-- The field before another one is four bytes below it. -/
theorem field_sub_four (thread : Word) (offset : ℕ) :
    field thread (offset + 4) - 4#32 = field thread offset := offset_sub_four thread offset

/-- One `PUSH` after other stores into the object: two more stores. -/
theorem pushWord_storeFields {fields : List (ℕ × Word)} {offset : ℕ}
    (hfields : ∀ f ∈ fields, FieldOffset f.1)
    (h : readField fields Thread.stackPtr (load32 m (field thread Thread.stackPtr)) =
      field thread (offset + 4)) :
    Kernel.pushWord (storeFields m thread fields) thread v = storeFields m thread
      (fields ++ [(Thread.stackPtr, field thread offset), (offset, v)]) := by
  have hload : load32 (storeFields m thread fields) (field thread Thread.stackPtr) =
      field thread (offset + 4) := (load32_storeFields (by decide) hfields).trans h
  rw [storeFields_append]
  simp only [Kernel.pushWord, hload, field_sub_four, load32_store32_same]
  rfl

/-- The stores of the five `PUSH`es. -/
def seedFields (thread entry : Word) : List (ℕ × Word) :=
  [(Thread.stackPtr, field thread 4196), (4196, entry),
    (Thread.stackPtr, field thread 4192), (4192, 0),
    (Thread.stackPtr, field thread 4188), (4188, 0),
    (Thread.stackPtr, field thread 4184), (4184, 0),
    (Thread.stackPtr, field thread 4180), (4180, 0)]

/-- The seeded stack has the entry of the thread and its arguments. -/
theorem seedStack_eq {entry : Word} (hentry : load32 m (field thread Thread.entryPtr) = entry)
    (hsp : load32 m (field thread Thread.stackPtr) = field thread 4200) :
    Kernel.seedStack m thread = storeFields m thread (seedFields thread entry) := by
  have hm : m = storeFields m thread [] := rfl
  have hpush (fields : List (ℕ × Word)) (offset : ℕ) (v : Word)
      (hfields : ∀ f ∈ fields, FieldOffset f.1)
      (h : readField fields Thread.stackPtr (field thread 4200) = field thread (offset + 4)) :
      Kernel.pushWord (storeFields m thread fields) thread v = storeFields m thread
        (fields ++ [(Thread.stackPtr, field thread offset), (offset, v)]) :=
    pushWord_storeFields hfields (by rw [hsp]; exact h)
  rw [Kernel.seedStack, hentry]
  conv_lhs => rw [hm]
  rw [hpush [] 4196 _ (by simp) (by simp [readField]),
    hpush _ 4192 _ (by simp [FieldOffset, Thread.stackPtr]) (by simp [readField, Thread.stackPtr]),
    hpush _ 4188 _ (by simp [FieldOffset, Thread.stackPtr]) (by simp [readField, Thread.stackPtr]),
    hpush _ 4184 _ (by simp [FieldOffset, Thread.stackPtr]) (by simp [readField, Thread.stackPtr]),
    hpush _ 4180 _ (by simp [FieldOffset, Thread.stackPtr]) (by simp [readField, Thread.stackPtr])]
  simp [seedFields]

/-- The stores to the saved registers. -/
def registerFields (thread entry : Word) : List (ℕ × Word) :=
  [(Thread.stateReg + Registers.eax, 0), (Thread.stateReg + Registers.ebx, 0),
    (Thread.stateReg + Registers.ecx, 0), (Thread.stateReg + Registers.edx, 0),
    (Thread.stateReg + Registers.esi, 0), (Thread.stateReg + Registers.edi, 0),
    (Thread.stateReg + Registers.useresp, 0), (Thread.stateReg + Registers.ebp, 0),
    (Thread.stateReg + Registers.eip, entry),
    (Thread.stateReg + Registers.esp, field thread 4180),
    (Thread.stateReg + Registers.eflags, (1#32 <<< 9) ||| 1#32)]

/-- The register fields are whole fields of the thread. -/
theorem registerFields_offset {entry : Word} {f : ℕ × Word}
    (hf : f ∈ registerFields thread entry) : FieldOffset f.1 := by
  have hall : ∀ offset ∈ (registerFields thread entry).map Prod.fst, FieldOffset offset := by
    change ∀ offset ∈ ([56, 44, 52, 48, 32, 28, 80, 36, 68, 40, 76] : List ℕ), _
    decide
  exact hall f.1 (List.mem_map_of_mem hf)

/-- The seeded registers are those that the first switch loads. -/
theorem seedRegisters_eq {entry : Word} (hentry : load32 m (field thread Thread.entryPtr) = entry)
    (hsp : load32 m (field thread Thread.stackPtr) = field thread 4180) :
    Kernel.seedRegisters m thread = storeFields m thread (registerFields thread entry) := by
  let zeroed := (registerFields thread entry).take 8
  have hload (offset : ℕ) (hoffset : FieldOffset offset) :
      load32 (storeFields m thread zeroed) (field thread offset) =
        readField zeroed offset (load32 m (field thread offset)) :=
    load32_storeFields hoffset fun f hf => registerFields_offset (List.mem_of_mem_take hf)
  have hentry' := (hload Thread.entryPtr (by decide)).trans hentry
  have hsp' := (hload Thread.stackPtr (by decide)).trans hsp
  have hsplit : registerFields thread entry =
      zeroed ++ (registerFields thread entry).drop 8 := (List.take_append_drop 8 _).symm
  rw [hsplit, storeFields_append]
  simp only [zeroed, registerFields, List.take_succ_cons, List.take_zero] at hentry' hsp'
  simp only [Kernel.seedRegisters, hentry', hsp', zeroed, registerFields, List.take_succ_cons,
    List.take_zero, List.drop_succ_cons, List.drop_zero]

/-- All stores of `start_thread` into the object, from the copy of the title until it
is linked. -/
def initFields (tid : Word) (t : NewThread) : List (ℕ × Word) :=
  (Thread.threadId, tid) :: (Thread.entryPtr, t.entry) :: (Thread.stackPtr, field t.addr 4200) ::
    (seedFields t.addr t.entry ++ registerFields t.addr t.entry)

/-- The fields that `start_thread` writes are whole fields of the thread. -/
theorem initFields_offset {tid : Word} {f : ℕ × Word} (hf : f ∈ initFields tid t) :
    FieldOffset f.1 ∧ f.1 + 4 ≤ Thread.size := by
  have hall : ∀ offset ∈ (initFields tid t).map Prod.fst,
      FieldOffset offset ∧ offset + 4 ≤ Thread.size := by
    change ∀ offset ∈ ([0, 88, 92, 92, 4196, 92, 4192, 92, 4188, 92, 4184, 92, 4180, 56, 44, 52, 48,
      32, 28, 80, 36, 68, 40, 76] : List ℕ), _
    decide
  exact hall f.1 (List.mem_map_of_mem hf)

/-- The stores of the constructor. -/
def constructorFields (titleBuffer : Word) : List (ℕ × Word) :=
  [(Thread.procId, 1), (Thread.title, titleBuffer), (Thread.prev, 0), (Thread.next, 0),
    (Thread.tStatus, 0)]

/-- The fields that the constructor writes are whole fields of the thread. -/
theorem constructorFields_offset {titleBuffer : Word} {f : ℕ × Word}
    (hf : f ∈ constructorFields titleBuffer) : FieldOffset f.1 ∧ f.1 + 4 ≤ Thread.size := by
  have hall : ∀ offset ∈ (constructorFields titleBuffer).map Prod.fst,
      FieldOffset offset ∧ offset + 4 ≤ Thread.size := by
    change ∀ offset ∈ ([4, 8, 96, 100, 65640] : List ℕ), _
    decide
  exact hall f.1 (List.mem_map_of_mem hf)

/-- Memory after the constructor and the copy of the title. -/
def withTitle (m : Mem) (t : NewThread) : Mem :=
  storeList (storeFields m t.addr (constructorFields t.titleBuffer)) t.titleBuffer (t.title ++ [0])

/-- `initThread` as stores into the object after the title is copied. -/
theorem initThread_eq (m : Mem) (tid : Word) (t : NewThread) :
    Kernel.initThread m tid t = storeFields (withTitle m t) t.addr (initFields tid t) := by
  have htitle : load32 (Kernel.threadConstructor m t.addr t.titleBuffer)
      (field t.addr Thread.title) = t.titleBuffer :=
    load32_storeFields (by decide) fun f hf => (constructorFields_offset hf).1
  have hlocal : field t.addr Thread.stack + 4096#32 = field t.addr 4200 := by
    simp only [field, Thread.stack]
    bv_omega
  rw [Kernel.initThread, htitle, hlocal]
  change Kernel.seedRegisters (Kernel.seedStack (storeFields (withTitle m t) t.addr
    [(Thread.threadId, tid), (Thread.entryPtr, t.entry), (Thread.stackPtr, field t.addr 4200)])
    t.addr) t.addr = _
  generalize withTitle m t = m2
  let head : List (ℕ × Word) := [(Thread.threadId, tid), (Thread.entryPtr, t.entry),
    (Thread.stackPtr, field t.addr 4200)]
  have hload (offset : ℕ) (fields : List (ℕ × Word)) (hoffset : FieldOffset offset)
      (hfields : ∀ f ∈ fields, f ∈ initFields tid t) :
      load32 (storeFields m2 t.addr fields) (field t.addr offset) =
        readField fields offset (load32 m2 (field t.addr offset)) :=
    load32_storeFields hoffset fun f hf => (initFields_offset (hfields f hf)).1
  have hhead : ∀ f ∈ head, f ∈ initFields tid t := by
    intro f hf
    simp only [head, initFields, List.mem_cons, List.not_mem_nil, or_false] at hf ⊢
    tauto
  have hseed : ∀ f ∈ head ++ seedFields t.addr t.entry, f ∈ initFields tid t := by
    intro f hf
    rcases List.mem_append.mp hf with hf | hf
    · exact hhead f hf
    · simp only [initFields, List.mem_cons, List.mem_append, hf, true_or, or_true]
  have hentry : load32 (storeFields m2 t.addr head) (field t.addr Thread.entryPtr) = t.entry :=
    hload Thread.entryPtr head (by decide) hhead
  have hsp : load32 (storeFields m2 t.addr head) (field t.addr Thread.stackPtr) =
      field t.addr 4200 := hload Thread.stackPtr head (by decide) hhead
  have hentry' : load32 (storeFields m2 t.addr (head ++ seedFields t.addr t.entry))
      (field t.addr Thread.entryPtr) = t.entry := hload Thread.entryPtr _ (by decide) hseed
  have hsp' : load32 (storeFields m2 t.addr (head ++ seedFields t.addr t.entry))
      (field t.addr Thread.stackPtr) = field t.addr 4180 :=
    hload Thread.stackPtr _ (by decide) hseed
  rw [seedStack_eq hentry hsp, ← storeFields_append, seedRegisters_eq hentry' hsp',
    ← storeFields_append]
  rfl

/-- A byte that is neither in the object nor in the buffer of the title is unchanged. -/
theorem initThread_frame (m : Mem) (tid : Word) (t : NewThread) (htitle : t.title.length < 255)
    (hobject : ¬ InObject t.addr x) (hbuffer : 255 ≤ (x - t.titleBuffer).toNat) :
    Kernel.initThread m tid t x = m x := by
  have hout : Thread.size ≤ (x - t.addr).toNat := Nat.le_of_not_lt hobject
  have hlen : (t.title ++ [0]).length ≤ 255 := by
    rw [List.length_append, List.length_singleton]
    omega
  rw [initThread_eq, storeFields_frame (fun f hf => (initFields_offset hf).2) hout, withTitle,
    storeList_frame (by omega) (by omega),
    storeFields_frame (fun f hf => (constructorFields_offset hf).2) hout]

/-- A new thread is suspended at its entry point. -/
theorem initThread_spec (m : Mem) (tid : Word) (t : NewThread)
    (hfits : t.addr.toNat + Thread.size ≤ 2 ^ 32) :
    Suspended (Kernel.initThread m tid t) t.addr (startContext t) ∧
      load32 (Kernel.initThread m tid t) (field t.addr Thread.stackPtr) =
        (startContext t).esp - 20#32 := by
  have hload (offset : ℕ) (hoffset : FieldOffset offset) :
      load32 (Kernel.initThread m tid t) (field t.addr offset) =
        readField (initFields tid t) offset (load32 (withTitle m t) (field t.addr offset)) := by
    rw [initThread_eq]
    exact load32_storeFields hoffset fun f hf => (initFields_offset hf).1
  have hsp : (startContext t).esp - 20#32 = field t.addr 4180 := by
    simp only [startContext, field, Thread.stack]
    bv_omega
  have hword (offset : ℕ) : (startContext t).esp - 20#32 + BitVec.ofNat 32 offset =
      field t.addr (4180 + offset) := by
    rw [hsp, field, field, BitVec.ofNat_add, BitVec.add_assoc]
  have hesp : (startContext t).esp.toNat = t.addr.toNat + 4200 := by
    simp only [startContext, field, Thread.stack, Thread.size] at *
    bv_omega
  refine ⟨⟨?_, ?_, ?_, ?_, ?_, ?_, ?_, ?_⟩, ?_⟩
  · rw [hesp, Thread.stack]
    omega
  · rw [hesp, Thread.tStatus]
    omega
  · rw [hload _ (by decide), hsp]
    rfl
  · rw [hword, hload _ (by decide)]
    rfl
  · rw [hword, hload _ (by decide)]
    rfl
  · rw [hword, hload _ (by decide)]
    rfl
  · rw [hword, hload _ (by decide)]
    rfl
  · rw [hword, hload _ (by decide)]
    rfl
  · rw [hload _ (by decide), hsp]
    rfl

/-! ## The ring -/

/-- Storing a field of one thread changes that field of that thread only. -/
theorem Placed.load32_store32 (h : Placed threads n) {i j offset offset' : ℕ} (hi : i < n)
    (hj : j < n) (ho : FieldOffset offset) (ho' : FieldOffset offset')
    (hs : offset + 4 ≤ Thread.size) (hs' : offset' + 4 ≤ Thread.size) :
    load32 (store32 m (field (threads j).addr offset') v) (field (threads i).addr offset) =
      if j = i ∧ offset' = offset then v else load32 m (field (threads i).addr offset) := by
  by_cases hij : j = i
  · subst j
    simp only [true_and]
    exact load32_store32_field ho ho'
  · rw [if_neg fun heq => hij heq.1]
    refine load32_field_congr hs fun x hx => store32_frame _ _ ?_
    by_contra hnear
    exact h.not_inObject hi hj (Ne.symm hij) hx (inObject_of_field hs' (by omega))

/-- The state of the ring after `count` calls of `start_thread`. -/
structure Ring (m : Mem) (threads : ℕ → NewThread) (count : ℕ) : Prop where
  next : ∀ i < count, load32 m (field (threads i).addr Thread.next) =
    (threads ((i + 1) % count)).addr
  prev : ∀ i < count, 0 < i → load32 m (field (threads i).addr Thread.prev) =
    (threads (i - 1)).addr
  prev_first : 2 ≤ count → load32 m (field (threads 0).addr Thread.prev) =
    (threads (count - 1)).addr

/-- The ring depends on the links of its threads only. -/
theorem Ring.congr {count : ℕ} (h : Ring m threads count)
    (hsame : ∀ i < count, ∀ offset, offset = Thread.prev ∨ offset = Thread.next →
      load32 m' (field (threads i).addr offset) = load32 m (field (threads i).addr offset)) :
    Ring m' threads count :=
  ⟨fun i hi => (hsame i hi _ (Or.inr rfl)).trans (h.next i hi),
    fun i hi hpos => (hsame i hi _ (Or.inl rfl)).trans (h.prev i hi hpos),
    fun htwo => (hsame 0 (by omega) _ (Or.inl rfl)).trans (h.prev_first htwo)⟩

/-- The walk to the last thread of the ring. -/
theorem Placed.lastThread (h : Placed threads n) {count : ℕ} (hcount : count ≤ n)
    (hring : Ring m threads count) {fuel i : ℕ} (hi : i < count) (hfuel : count - i ≤ fuel) :
    Kernel.lastThread m (threads 0).addr (threads i).addr fuel =
      .ok (threads (count - 1)).addr := by
  induction fuel generalizing i with
  | zero => omega
  | succ fuel ih =>
    simp only [Kernel.lastThread, hring.next i hi]
    by_cases hlast : i + 1 = count
    · have hi' : count - 1 = i := by omega
      rw [hlast, Nat.mod_self, hi']
      simp
    · have hmod : (i + 1) % count = i + 1 := Nat.mod_eq_of_lt (by omega)
      have hne : (threads (i + 1)).addr ≠ (threads 0).addr := fun heq => by
        have := h.addr_inj (show i + 1 < n by omega) (by omega) heq
        omega
      rw [hmod, if_pos hne]
      exact ih (by omega) (by omega)

/-- The stores that link thread number `count` into the ring of the threads before it. -/
def linkThread (m : Mem) (threads : ℕ → NewThread) (count : ℕ) : Mem :=
  let m := store32 m (field (threads count).addr Thread.prev) (threads (count - 1)).addr
  let m := store32 m (field (threads (count - 1)).addr Thread.next) (threads count).addr
  let m := store32 m (field (threads count).addr Thread.next) (threads 0).addr
  store32 m (field (threads 0).addr Thread.prev) (threads count).addr

/-- The links after thread number `count` is linked into the ring. -/
theorem Placed.load32_linkThread (h : Placed threads n) {count i offset : ℕ} (hcount : count < n)
    (hi : i ≤ count) (hoffset : offset = Thread.prev ∨ offset = Thread.next) :
    load32 (linkThread m threads count) (field (threads i).addr offset) =
      if 0 = i ∧ Thread.prev = offset then (threads count).addr
      else if count = i ∧ Thread.next = offset then (threads 0).addr
      else if count - 1 = i ∧ Thread.next = offset then (threads count).addr
      else if count = i ∧ Thread.prev = offset then (threads (count - 1)).addr
      else load32 m (field (threads i).addr offset) := by
  have ho : FieldOffset offset ∧ offset + 4 ≤ Thread.size := by
    rcases hoffset with rfl | rfl <;> decide
  have hstore {m : Mem} {v : Word} {j offset' : ℕ} (hj : j < n)
      (ho' : FieldOffset offset' ∧ offset' + 4 ≤ Thread.size) :
      load32 (store32 m (field (threads j).addr offset') v) (field (threads i).addr offset) =
        if j = i ∧ offset' = offset then v else load32 m (field (threads i).addr offset) :=
    h.load32_store32 (by omega) hj ho.1 ho'.1 ho.2 ho'.2
  rw [linkThread, hstore (by omega) (by decide), hstore hcount (by decide),
    hstore (by omega) (by decide), hstore hcount (by decide)]

/-- Linking the next thread extends the ring. -/
theorem Ring.link (h : Placed threads n) {count : ℕ} (hpos : 0 < count) (hcount : count < n)
    (hring : Ring m threads count) : Ring (linkThread m threads count) threads (count + 1) := by
  have hne : Thread.prev ≠ Thread.next := by decide
  refine ⟨fun i hi => ?_, fun i hi hpos' => ?_, fun _ => ?_⟩
  · rw [h.load32_linkThread hcount (by omega) (Or.inr rfl)]
    simp only [hne, and_false, if_false, and_true]
    by_cases hlast : count = i
    · rw [if_pos hlast, ← hlast, Nat.mod_self]
    · have hmod : (i + 1) % (count + 1) = i + 1 := Nat.mod_eq_of_lt (by omega)
      rw [if_neg hlast, hmod]
      by_cases hbefore : count - 1 = i
      · have hi' : i + 1 = count := by omega
        rw [if_pos hbefore, hi']
      · have hmod' : (i + 1) % count = i + 1 := Nat.mod_eq_of_lt (by omega)
        rw [if_neg hbefore, hring.next i (by omega), hmod']
  · have hzero : ¬ 0 = i := by omega
    rw [h.load32_linkThread hcount (by omega) (Or.inl rfl)]
    simp only [hne.symm, hzero, and_false, if_false, and_true]
    by_cases hlast : count = i
    · rw [if_pos hlast, hlast]
    · rw [if_neg hlast]
      exact hring.prev i (by omega) hpos'
  · rw [h.load32_linkThread hcount (by omega) (Or.inl rfl), if_pos ⟨rfl, rfl⟩]
    rfl

/-- Linking threads leaves all suspended threads alone. -/
theorem Placed.suspended_linkThread (h : Placed threads n) {count i : ℕ} (hcount : count < n)
    (hi : i < n) {c : Context} (hsus : Suspended m (threads i).addr c) :
    Suspended (linkThread m threads count) (threads i).addr c := by
  have hstore {m : Mem} {v : Word} {j offset : ℕ} (hj : j < n)
      (ho : offset = Thread.prev ∨ offset = Thread.next)
      (hsus : Suspended m (threads i).addr c) :
      Suspended (store32 m (field (threads j).addr offset) v) (threads i).addr c := by
    refine hsus.congr fun x hx => store32_frame _ _ ?_
    by_cases hij : i = j
    · subst j
      exact not_inSaved_of_link ho hx
    · by_contra hnear
      have hsize : offset + 4 ≤ Thread.size := by rcases ho with rfl | rfl <;> decide
      exact h.not_inObject hi hj hij hx.inObject (inObject_of_field hsize (by omega))
  exact hstore (by omega) (Or.inl rfl) (hstore hcount (Or.inr rfl)
    (hstore (by omega) (Or.inr rfl) (hstore hcount (Or.inl rfl) hsus)))

/-- Linking a thread into the ring leaves the stack pointers as they are. -/
theorem Placed.load32_linkThread_stackPtr (h : Placed threads n) {count i : ℕ} (hcount : count < n)
    (hi : i < n) : load32 (linkThread m threads count) (field (threads i).addr Thread.stackPtr) =
      load32 m (field (threads i).addr Thread.stackPtr) := by
  have hstore {m : Mem} {v : Word} {j offset : ℕ} (hj : j < n)
      (ho : offset = Thread.prev ∨ offset = Thread.next) :
      load32 (store32 m (field (threads j).addr offset) v)
        (field (threads i).addr Thread.stackPtr) =
          load32 m (field (threads i).addr Thread.stackPtr) := by
    have hfield : FieldOffset offset ∧ offset + 4 ≤ Thread.size ∧ offset ≠ Thread.stackPtr := by
      rcases ho with rfl | rfl <;> decide
    rw [h.load32_store32 hi hj (by decide) hfield.1 (by decide) hfield.2.1,
      if_neg fun heq => hfield.2.2 heq.2]
  rw [linkThread, hstore (by omega) (Or.inl rfl), hstore hcount (Or.inr rfl),
    hstore (by omega) (Or.inr rfl), hstore hcount (Or.inl rfl)]

/-! ## Starting all threads -/

/-- The kernel after `count` calls of `start_thread`. -/
structure Started (k : Kernel) (threads : ℕ → NewThread) (count : ℕ) : Prop where
  root : k.threadRoot = if count = 0 then 0 else (threads 0).addr
  ring : Ring k.mem threads count
  suspended : ∀ i < count, Suspended k.mem (threads i).addr (startContext (threads i))
  stackPtr : ∀ i < count, load32 k.mem (field (threads i).addr Thread.stackPtr) =
    (startContext (threads i)).esp - 20#32

/-- The objects of the threads started before are left alone by a new one. -/
theorem Placed.initThread_other (h : Placed threads n) {count i : ℕ} (hcount : count < n)
    (hi : i < n) (hne : i ≠ count) (m : Mem) (tid : Word) (hx : InObject (threads i).addr x) :
    Kernel.initThread m tid (threads count) x = m x := by
  have hbuffer := h.buffer count hcount i hi
  have hfits := h.fits i hi
  have hfits' := h.buffer_fits count hcount
  refine initThread_frame m tid _ (h.title_length count hcount)
    (h.not_inObject hi hcount hne hx) ?_
  simp only [InObject, Thread.size] at *
  bv_omega

/-- `start_thread` extends the ring by a thread suspended at its entry point. -/
theorem Started.startThread (h : Placed threads n) {count : ℕ} (hcount : count < n) {k : Kernel}
    (hk : Started k threads count) :
    ∃ k', k.startThread (threads count) = .ok k' ∧ Started k' threads (count + 1) ∧
      ∃ m root tid, k' = { k with mem := m, threadRoot := root, nextTid := tid } := by
  let m := Kernel.initThread k.mem k.nextTid (threads count)
  have hother {i : ℕ} (hi : i < count) (x : Word) (hx : InObject (threads i).addr x) :
      m x = k.mem x := h.initThread_other hcount (by omega) (by omega) k.mem k.nextTid hx
  obtain ⟨hnew, hsp⟩ := initThread_spec k.mem k.nextTid (threads count) (h.fits count hcount)
  have hsuspended {i : ℕ} (hi : i ≤ count) :
      Suspended m (threads i).addr (startContext (threads i)) := by
    by_cases hlast : i = count
    · rw [hlast]
      exact hnew
    · exact (hk.suspended i (by omega)).congr fun x hx => hother (by omega) x hx.inObject
  have hstackPtr {i : ℕ} (hi : i ≤ count) : load32 m (field (threads i).addr Thread.stackPtr) =
      (startContext (threads i)).esp - 20#32 := by
    by_cases hlast : i = count
    · rw [hlast]
      exact hsp
    · exact (load32_field_congr (by decide) (hother (by omega))).trans
        (hk.stackPtr i (by omega))
  by_cases hzero : count = 0
  · have hroot : k.threadRoot = 0 := by rw [hk.root, if_pos hzero]
    refine ⟨_, if_pos hroot, ?_, _, _, _, rfl⟩
    subst hzero
    refine ⟨rfl, ⟨fun i hi => ?_, fun i hi hpos => by omega, fun htwo => by omega⟩,
      fun i hi => ?_, fun i hi => ?_⟩
    · obtain rfl : i = 0 := by omega
      exact load32_store32_same ..
    · obtain rfl : i = 0 := by omega
      exact hnew.congr fun x hx => store32_frame _ _ (not_inSaved_of_link (Or.inr rfl) hx)
    · obtain rfl : i = 0 := by omega
      exact (load32_store32_field (by decide) (by decide)).trans hsp
  · have hroot : k.threadRoot = (threads 0).addr := by rw [hk.root, if_neg hzero]
    have hring : Ring m threads count := hk.ring.congr fun i hi offset ho =>
      load32_field_congr (by rcases ho with rfl | rfl <;> decide) (hother hi)
    have hwalk := h.lastThread hcount.le hring (show 0 < count by omega)
      (show count - 0 ≤ 2 ^ 32 by have := h.le; omega)
    refine ⟨{ k with mem := linkThread m threads count, nextTid := k.nextTid + 1 }, ?_,
      ⟨?_, hring.link h (by omega) hcount, fun i hi => ?_, fun i hi => ?_⟩, _, _, _, rfl⟩
    · have hne : ¬ (threads 0).addr = 0 := h.ne_zero 0 (by omega)
      simp only [Kernel.startThread, hroot, if_neg hne]
      change (Kernel.lastThread m _ _ _ >>= _) = _
      rw [hwalk]
      rfl
    · rw [if_neg (by omega)]
      exact hroot
    · exact h.suspended_linkThread hcount (by omega) (hsuspended (by omega))
    · refine Eq.trans ?_ (hstackPtr (show i ≤ count by omega))
      exact h.load32_linkThread_stackPtr hcount (by omega)

/-- Any number of calls of `start_thread`, one after the other. -/
theorem startThreads_spec (h : Placed threads n) {k : Kernel} (hroot : k.threadRoot = 0) :
    ∃ k', forLoop (fun i k => k.startThread (threads i)) 0 n k = .ok k' ∧ Started k' threads n ∧
      ∃ m root tid, k' = { k with mem := m, threadRoot := root, nextTid := tid } := by
  refine forLoop_invariant (fun i k' => Started k' threads i ∧
    ∃ m root tid, k' = { k with mem := m, threadRoot := root, nextTid := tid }) ?_ ?_
  · exact ⟨⟨hroot, ⟨fun i hi => by omega, fun i hi => by omega, fun h => by omega⟩,
      fun i hi => by omega, fun i hi => by omega⟩, _, _, _, rfl⟩
  · rintro i hi t ⟨ht, m, root, tid, rfl⟩
    obtain ⟨t', hcall, ht', m', root', tid', hsame⟩ := ht.startThread h hi
    rw [Nat.zero_add]
    exact ⟨t', hcall, ht', m', root', tid', hsame⟩

/-- **`init_kthreads`** leaves the ring of all threads, each suspended at its entry
point, with the first one as the running thread. -/
theorem initKthreads_spec (h : Placed threads n) {k : Kernel} (hroot : k.threadRoot = 0) :
    ∃ k', k.initKthreads threads n = .ok k' ∧ Started k' threads n ∧
      ∃ m root tid, k' =
        { k with mem := m, threadRoot := root, threadRunning := root, nextTid := tid } := by
  obtain ⟨k', hrun, hstarted, m, root, tid, hk'⟩ := startThreads_spec h hroot
  refine ⟨{ k' with threadRunning := k'.threadRoot }, ?_,
    ⟨hstarted.root, hstarted.ring, hstarted.suspended, hstarted.stackPtr⟩, m, root, tid, ?_⟩
  · rw [Kernel.initKthreads, hrun]
    rfl
  · rw [hk']

end Muk
