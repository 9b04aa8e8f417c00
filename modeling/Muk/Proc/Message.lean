import Muk.Lib.Record
import Mathlib.Algebra.Order.Floor.Ring
import Mathlib.Data.Rat.Floor

/-!
# Messages and message lists

A `MessageList` is an array of 32 messages on the heap, used as a ring: the oldest
message is in slot `head_index`, and `wrap` is to bring an index back into the array. The
methods are modelled on byte memory, so that a slot outside the array is whatever lies
there.
-/

namespace Muk

namespace Process

/-- `floor`. A quotient of an `int` by 32 is exact in a `double`, so the rationals do. -/
def floor (x : ℚ) : ℤ :=
  let xi := Int.tdiv x.num x.den -- (int)x
  if x < xi then xi - 1 else xi

/-- The detour over the truncated value ends at the floor. -/
theorem floor_eq (x : ℚ) : floor x = ⌊x⌋ := by
  have hfloor : ⌊x⌋ = x.num / x.den := Rat.floor_def'
  have hsign : (x.den : ℤ).sign = 1 := Int.sign_eq_one_of_pos (by exact_mod_cast x.den_pos)
  have hle : ¬ x < ⌊x⌋ := not_lt.mpr (Int.floor_le x)
  have hlt : x < (⌊x⌋ + 1 : ℤ) := by exact_mod_cast Int.lt_floor_add_one x
  by_cases hexact : 0 ≤ x.num ∨ (x.den : ℤ) ∣ x.num
  · simp only [floor, Int.tdiv_eq_ediv, ← hfloor, if_pos hexact, add_zero, if_neg hle]
  · simp only [floor, Int.tdiv_eq_ediv, ← hfloor, hsign, if_neg hexact, if_pos hlt,
      add_sub_cancel_right]

end Process

/-! ## Messages -/

structure Message where
  sourceThread : Word
  data : Byte
  deriving DecidableEq

/-- `Process::kMessageNull` -/
def kMessageNull : Message := ⟨0, 0⟩

namespace Message

/-- `sizeof(Message)` -/
def size : ℕ := 8

def load (m : Mem) (a : Word) : Message := ⟨load32 m a, m (a + 4#32)⟩

def store (m : Mem) (a : Word) (msg : Message) : Mem :=
  store8 (store32 m a msg.sourceThread) (a + 4#32) msg.data

variable {m m' : Mem} {a b x : Word} {msg : Message}

/-- A message is five bytes and three bytes of padding that are never written. -/
theorem store_frame (h : 5 ≤ (x - a).toNat) : store m a msg x = m x := by
  rw [store, store8_ne _ _ (by bv_omega), store32_frame _ _ (by omega)]

/-- A message depends on its five bytes only. -/
theorem load_congr (h : ∀ x, (x - a).toNat < 5 → m' x = m x) : load m' a = load m a := by
  rw [load, load, load32_congr fun x hx => h x (by omega), h (a + 4#32) (by bv_omega)]

/-- A message that was stored is loaded again. -/
@[simp] theorem load_store_same (m : Mem) (a : Word) (msg : Message) :
    load (store m a msg) a = msg := by
  have hsource : load32 (store m a msg) a = msg.sourceThread := by
    rw [store, load32_congr fun x hx => store8_ne _ _ (by bv_omega), load32_store32_same]
  rw [load, hsource, store, store8_same]

/-- Storing a message leaves another one alone if the two do not overlap. -/
theorem load_store_disjoint (hab : 5 ≤ (b - a).toNat) (hba : 5 ≤ (a - b).toNat) :
    load (store m a msg) b = load m b :=
  load_congr fun x hx => store_frame (by bv_omega)

/-- Storing a message leaves a word alone that does not overlap it. -/
theorem load32_store_disjoint (hab : 5 ≤ (b - a).toNat) (hba : 4 ≤ (a - b).toNat) :
    load32 (store m a msg) b = load32 m b :=
  load32_congr fun x hx => store_frame (by bv_omega)

end Message

/-! ## Message lists -/

namespace MessageList

def kMaxMessages : ℕ := 32

/-- `head_index`, `list_size` and `list` of the object at an address. -/
def headIndex (m : Mem) (this : Word) : ℤ := (load32 m this).toInt

/-- `size()` -/
def size (m : Mem) (this : Word) : ℤ := (load32 m (this + 4#32)).toInt

def list (m : Mem) (this : Word) : Word := load32 m (this + 8#32)

/-- `&list[slot]`, whether or not the slot is one of the array. -/
def slotAddr (m : Mem) (this : Word) (slot : ℤ) : Word :=
  list m this + BitVec.ofInt 32 (Message.size * slot)

/-- `wrap` -/
def wrap (index : ℤ) : ℤ := index - Process.floor ((index : ℚ) / (kMaxMessages : ℚ))

/-- The slot that `push` stores to. -/
def pushSlot (m : Mem) (this : Word) : ℤ := wrap (headIndex m this + size m this)

/-- `MessageList::push` -/
def push (m : Mem) (this : Word) (msg : Message) : Bool × Mem :=
  if size m this < kMaxMessages then
    let m := Message.store m (slotAddr m this (pushSlot m this)) msg
    (true, store32 m (this + 4#32) (load32 m (this + 4#32) + 1))
  else (false, m) -- there's not enough space to fit the message in

/-- `MessageList::pop` -/
def pop (m : Mem) (this : Word) : Message × Mem :=
  let pop := Message.load m (slotAddr m this (headIndex m this))
  let m := store32 m this (BitVec.ofInt 32 (wrap (headIndex m this + 1)))
  (pop, store32 m (this + 4#32) (load32 m (this + 4#32) - 1))

/-- The constructor of each message of a new array. -/
def newMessages (m : Mem) (array : Word) : ℕ → Mem
  | 0 => m
  | n + 1 => Message.store (newMessages m array n) (array + BitVec.ofNat 32 (Message.size * n))
      ⟨0, 0⟩

/-- The constructor of `MessageList`. The array that `new` returns is preceded by the
number of its messages. -/
def construct (m : Mem) (this array : Word) : Mem :=
  let m := store32 m this 0
  let m := store32 m (this + 4#32) 0
  let m := store32 m (array - 4#32) (BitVec.ofNat 32 kMaxMessages)
  let m := newMessages m array kMaxMessages
  store32 m (this + 8#32) array

/-- `wrap` takes off the quotient by 32, where the remainder would be right. -/
theorem wrap_eq (index : ℤ) : wrap index = index - index / 32 := by
  rw [wrap, Process.floor_eq]
  exact congrArg (index - ·) (by exact_mod_cast Rat.floor_intCast_div_natCast index 32)

/-- `wrap` on the indices that occur. -/
def wrapped (index : ℕ) : ℕ := index - index / 32

/-- The code's wrap of a slot number is that of the model. -/
theorem wrap_natCast (index : ℕ) : wrap index = wrapped index := by
  rw [wrap_eq, wrapped]
  omega

/-- The address of a slot of the array at an address. -/
def slotOf (array : Word) (slot : ℕ) : Word := array + BitVec.ofNat 32 (Message.size * slot)

/-! ## What the methods do to the fields -/

variable {m m' : Mem} {this array x : Word} {head count : ℕ} {msg : Message}

/-- The values of the three fields. -/
structure Fields (m : Mem) (this : Word) (head count : ℕ) (array : Word) : Prop where
  head : load32 m this = BitVec.ofNat 32 head
  count : load32 m (this + 4#32) = BitVec.ofNat 32 count
  array : load32 m (this + 8#32) = array

/-- The fields of a list depend on its twelve bytes only. -/
theorem Fields.congr (h : Fields m this head count array)
    (hsame : ∀ x, (x - this).toNat < 12 → m' x = m x) : Fields m' this head count array := by
  refine ⟨?_, ?_, ?_⟩
  · rw [load32_congr fun x hx => hsame x (by omega), h.head]
  · rw [load32_congr fun x hx => hsame x (by bv_omega), h.count]
  · rw [load32_congr fun x hx => hsame x (by bv_omega), h.array]

/-- A number up to 32 is not negative as a signed word. -/
theorem toInt_ofNat {i : ℕ} (hi : i ≤ 32) : (BitVec.ofNat 32 i).toInt = i := by
  have hnat : (BitVec.ofNat 32 i).toNat = i := Nat.mod_eq_of_lt (by omega)
  rw [BitVec.toInt_eq_toNat_cond, hnat, if_pos (by omega)]

/-- The number of messages is read from its field. -/
theorem Fields.size_eq (h : Fields m this head count array) (hcount : count ≤ 32) :
    size m this = count := by
  rw [size, h.count, toInt_ofNat hcount]

/-- The first slot is read from its field. -/
theorem Fields.headIndex_eq (h : Fields m this head count array) (hhead : head ≤ 31) :
    headIndex m this = head := by
  rw [headIndex, h.head, toInt_ofNat (by omega)]

/-- The address of a slot is read from the array of the list. -/
theorem Fields.slotAddr_eq (h : Fields m this head count array) (slot : ℕ) :
    slotAddr m this slot = slotOf array slot := by
  rw [slotAddr, list, h.array, slotOf, ← BitVec.ofInt_natCast, Int.natCast_mul]

/-- A message is pushed to the slot behind the last one, around the end. -/
theorem Fields.pushSlot_eq (h : Fields m this head count array) (hhead : head ≤ 31)
    (hcount : count ≤ 32) : pushSlot m this = wrapped (head + count) := by
  rw [pushSlot, h.headIndex_eq hhead, h.size_eq hcount, ← Int.natCast_add, wrap_natCast]

/-- Memory after a message is pushed. -/
def pushed (m : Mem) (this array : Word) (head count : ℕ) (msg : Message) : Mem :=
  store32 (Message.store m (slotOf array (wrapped (head + count))) msg) (this + 4#32)
    (BitVec.ofNat 32 (count + 1))

/-- The bytes of a slot are not those of the list object. -/
def SlotApart (this array : Word) (slot : ℕ) : Prop :=
  12 ≤ (slotOf array slot - this).toNat ∧ 5 ≤ (this - slotOf array slot).toNat

/-- A push to a list with room stores the message and adds one. -/
theorem Fields.push_eq (h : Fields m this head count array) (hhead : head ≤ 31)
    (hcount : count < 32) (hapart : SlotApart this array (wrapped (head + count))) :
    push m this msg = (true, pushed m this array head count msg) := by
  obtain ⟨hab, hba⟩ := hapart
  have hlt : size m this < kMaxMessages := by
    rw [h.size_eq hcount.le, kMaxMessages]
    omega
  have hload : load32 (Message.store m (slotOf array (wrapped (head + count))) msg) (this + 4#32) =
      BitVec.ofNat 32 count := by
    rw [Message.load32_store_disjoint (by bv_omega) (by bv_omega), h.count]
  simp only [push, if_pos hlt, h.pushSlot_eq hhead hcount.le, h.slotAddr_eq, hload, pushed,
    BitVec.ofNat_add]
  rfl

/-- A push to a full list is refused, and changes nothing. -/
theorem Fields.push_full (h : Fields m this head 32 array) : push m this msg = (false, m) := by
  have hlt : ¬ size m this < kMaxMessages := by
    rw [h.size_eq le_rfl, kMaxMessages]
    omega
  rw [push, if_neg hlt]

/-- A push changes the slot and the size, and nothing else. -/
theorem pushed_frame (hslot : 5 ≤ (x - slotOf array (wrapped (head + count))).toNat)
    (hsize : 4 ≤ (x - (this + 4#32)).toNat) : pushed m this array head count msg x = m x := by
  rw [pushed, store32_frame _ _ hsize, Message.store_frame hslot]

/-- After a push the fields are as before, with one message more. -/
theorem Fields.pushed (h : Fields m this head count array)
    (hapart : SlotApart this array (wrapped (head + count))) :
    Fields (pushed m this array head count msg) this head (count + 1) array := by
  obtain ⟨hab, hba⟩ := hapart
  refine ⟨?_, load32_store32_same .., ?_⟩
  · rw [load32_congr fun x hx => pushed_frame (by bv_omega) (by bv_omega), h.head]
  · rw [load32_congr fun x hx => pushed_frame (by bv_omega) (by bv_omega), h.array]

/-- Memory after a message is popped. -/
def popped (m : Mem) (this : Word) (head count : ℕ) : Mem :=
  store32 (store32 m this (BitVec.ofNat 32 (wrapped (head + 1)))) (this + 4#32)
    (BitVec.ofNat 32 (count - 1))

/-- A pop from a list with messages returns the first one. -/
theorem Fields.pop_eq (h : Fields m this head count array) (hhead : head ≤ 31)
    (hcount : 0 < count) (hle : count ≤ 32) :
    pop m this = (Message.load m (slotOf array head), popped m this head count) := by
  have hnext : BitVec.ofInt 32 (wrap (headIndex m this + 1)) =
      BitVec.ofNat 32 (wrapped (head + 1)) := by
    rw [h.headIndex_eq hhead, ← Int.natCast_succ, wrap_natCast, BitVec.ofInt_natCast]
  have hload : load32 (store32 m this (BitVec.ofNat 32 (wrapped (head + 1)))) (this + 4#32) =
      BitVec.ofNat 32 count := by
    rw [load32_store32_disjoint _ _ (by bv_omega) (by bv_omega), h.count]
  have hsub : BitVec.ofNat 32 count - 1 = BitVec.ofNat 32 (count - 1) := by
    have hone : (1 : Word) = 1#32 := rfl
    rw [hone]
    bv_omega
  simp only [pop, hnext, hload, hsub, popped]
  rw [h.headIndex_eq hhead, h.slotAddr_eq]

/-- A pop changes the head and the size, and nothing else. -/
theorem popped_frame (hx : 8 ≤ (x - this).toNat) : popped m this head count x = m x := by
  rw [popped, store32_frame _ _ (by bv_omega), store32_frame _ _ (by omega)]

/-- After a pop the fields begin at the next slot, with one message less. -/
theorem Fields.popped (h : Fields m this head count array) :
    Fields (popped m this head count) this (wrapped (head + 1)) (count - 1) array := by
  refine ⟨?_, load32_store32_same .., ?_⟩
  · rw [MessageList.popped, load32_store32_disjoint _ _ (by bv_omega) (by bv_omega),
      load32_store32_same]
  · rw [load32_congr fun x hx => popped_frame (by bv_omega), h.array]

/-- Repeated pushes move the end of the queue, also past the end of the array. -/
theorem Fields.pushes (h : Fields m this head count array) (hhead : head ≤ 31) {n : ℕ}
    (hn : count + n ≤ 32) (hapart : ∀ slot < 63, SlotApart this array slot) :
    Fields ((fun m => (push m this msg).2)^[n] m) this head (count + n) array := by
  induction n with
  | zero => exact h
  | succ n ih =>
    have hslot := hapart (wrapped (head + (count + n))) (by rw [wrapped]; omega)
    have hn' := ih (by omega)
    rw [Function.iterate_succ_apply', hn'.push_eq hhead (by omega) hslot]
    exact hn'.pushed hslot

/-- Repeated pops move the head of the list by one each and leave the messages where they are. -/
theorem Fields.pops (h : Fields m this head count array) (hcount : count ≤ 32) {n : ℕ}
    (hn : n ≤ count) (hhead : head + n ≤ 31) :
    Fields ((fun m => (pop m this).2)^[n] m) this (head + n) (count - n) array := by
  induction n with
  | zero => exact h
  | succ n ih =>
    have hn' := ih (by omega) (by omega)
    have hwrapped : wrapped (head + n + 1) = head + (n + 1) := by
      rw [wrapped]
      omega
    rw [Function.iterate_succ_apply', hn'.pop_eq (by omega) (by omega) (by omega), ← hwrapped,
      show count - (n + 1) = count - n - 1 by omega]
    exact hn'.popped

/-! ## A new list -/

/-- Where `new` puts a list object and its array: the array and the word before it are
apart from the object. -/
structure Apart (this array : Word) : Prop where
  object_fits : this.toNat + 12 ≤ 2 ^ 32
  cookie : 4 ≤ array.toNat
  array_fits : array.toNat + Message.size * kMaxMessages ≤ 2 ^ 32
  apart : this.toNat + 12 ≤ array.toNat - 4 ∨ array.toNat + Message.size * kMaxMessages ≤ this.toNat

/-- The slots of the array are apart from the object. -/
theorem Apart.slotApart (h : Apart this array) {slot : ℕ} (hslot : slot < 32) :
    SlotApart this array slot := by
  have hobject := h.object_fits
  have hcookie := h.cookie
  have harray := h.array_fits
  have hapart := h.apart
  simp only [SlotApart, slotOf, Message.size, kMaxMessages] at *
  bv_omega

/-- The constructors of the messages write to the array only. -/
theorem newMessages_frame {n : ℕ} (hn : n ≤ 32) (hx : Message.size * n ≤ (x - array).toNat) :
    newMessages m array n x = m x := by
  induction n with
  | zero => rfl
  | succ n ih =>
    simp only [Message.size] at hx ih
    rw [newMessages, Message.store_frame, ih (by omega) (by omega)]
    simp only [Message.size]
    bv_omega

/-- The constructor writes to the object, the array and the word before the array. -/
theorem construct_frame (hobject : 12 ≤ (x - this).toNat)
    (harray : Message.size * kMaxMessages + 4 ≤ (x - (array - 4#32)).toNat) :
    construct m this array x = m x := by
  simp only [Message.size, kMaxMessages] at harray
  have harray' : Message.size * kMaxMessages ≤ (x - array).toNat := by
    simp only [Message.size, kMaxMessages]
    bv_omega
  rw [construct, store32_frame _ _ (by bv_omega), newMessages_frame (by decide) harray',
    store32_frame _ _ (by bv_omega), store32_frame _ _ (by bv_omega),
    store32_frame _ _ (by bv_omega)]

/-- After its constructor a list has no messages, and its head is at the start of the array. -/
theorem construct_fields (h : Apart this array) :
    Fields (construct m this array) this 0 0 array := by
  have hobject := h.object_fits
  have hcookie := h.cookie
  have harray := h.array_fits
  have hapart := h.apart
  simp only [Message.size, kMaxMessages] at harray hapart
  have hfar {x : Word} (hx : (x - this).toNat < 12) :
      newMessages (store32 (store32 (store32 m this 0) (this + 4#32) 0) (array - 4#32)
        (BitVec.ofNat 32 kMaxMessages)) array kMaxMessages x =
      store32 (store32 m this 0) (this + 4#32) 0 x := by
    rw [newMessages_frame (by decide), store32_frame]
    · bv_omega
    · simp only [Message.size, kMaxMessages]
      bv_omega
  refine ⟨?_, ?_, load32_store32_same ..⟩
  · rw [construct, load32_store32_disjoint _ _ (by bv_omega) (by bv_omega),
      load32_congr fun x hx => hfar (by omega),
      load32_store32_disjoint _ _ (by bv_omega) (by bv_omega), load32_store32_same]
    rfl
  · rw [construct, load32_store32_disjoint _ _ (by bv_omega) (by bv_omega),
      load32_congr fun x hx => hfar (by bv_omega), load32_store32_same]
    rfl

end MessageList

end Muk
