import Muk.Proc.Postbox

/-!
# Queues of the postbox

The blocks of the postbox are the buffer of the vector, and for each port its object and
its array. A push that stays within the array of its queue, and every pop, writes only to
the blocks of the port it is about.
-/

namespace Muk

open MessageList (Fields)

namespace Postbox

variable {b b' : Postbox} {portId x : Word} {i j : ℕ} {msg : Message} {new : NewPort} {m' : Mem}

/-! ## The blocks -/

/-- The array of messages of a queue. -/
def array (b : Postbox) (i : ℕ) : Word := MessageList.list b.mem (PortQueue.messages (b.ports i))

/-- The objects of the postbox on the heap. -/
inductive Region where
  | buffer
  | queue (i : ℕ)
  | array (i : ℕ)

def block (b : Postbox) : Region → Block
  | .buffer => ⟨b.buffer, 4 * b.capacity⟩
  | .queue i => ⟨b.ports i, PortQueue.size⟩
  | .array i => ⟨b.array i, Message.size * MessageList.kMaxMessages⟩

/-- The object exists. -/
def Live (b : Postbox) : Region → Prop
  | .buffer => True
  | .queue i => i < b.size
  | .array i => i < b.size

/-- The blocks that `listen` takes for a new port. The array comes with the word before it. -/
def newBlocks (b : Postbox) (new : NewPort) : List Block :=
  [⟨new.queue, PortQueue.size⟩, ⟨new.array - 4#32, Message.size * MessageList.kMaxMessages + 4⟩] ++
    if b.capacity ≤ b.size then [⟨new.buffer, 4 * grown b.capacity⟩] else []

/-- `new` returns blocks that are apart from each other and from all live ones. -/
structure Fresh (b : Postbox) (new : NewPort) : Prop where
  cookie : 4 ≤ new.array.toNat
  fits : ∀ k ∈ newBlocks b new, k.Fits
  pairwise : (newBlocks b new).Pairwise Block.Apart
  live : ∀ k ∈ newBlocks b new, ∀ r, b.Live r → k.Apart (b.block r)

/-- The invariant. -/
structure Wf (b : Postbox) : Prop where
  size_le : b.size ≤ b.capacity
  layout : Layout b.block b.Live
  port_inj : ∀ i < b.size, ∀ j < b.size, b.port i = b.port j → i = j
  fields : ∀ i < b.size, ∃ head count, head ≤ 31 ∧ count ≤ 32 ∧
    Fields b.mem (PortQueue.messages (b.ports i)) head count (b.array i)

/-! ## What can be seen of a queue -/

/-- The port, the fields and the slots of a queue. -/
structure QueueState where
  port : Word
  headIndex : ℤ
  listSize : ℤ
  slots : List Message

/-- The state of queue number `i`. -/
def queueState (b : Postbox) (i : ℕ) : QueueState where
  port := b.port i
  headIndex := MessageList.headIndex b.mem (PortQueue.messages (b.ports i))
  listSize := MessageList.size b.mem (PortQueue.messages (b.ports i))
  slots := (List.range MessageList.kMaxMessages).map fun (slot : ℕ) => Message.load b.mem
    (MessageList.slotAddr b.mem (PortQueue.messages (b.ports i)) slot)

/-- A pointer is kept in four bytes of the buffer. -/
theorem ports_congr (hi : i < b.capacity) (hbuffer : b'.buffer = b.buffer)
    (h : ∀ x, (b.block .buffer).Has x → b'.mem x = b.mem x) : b'.ports i = b.ports i := by
  rw [ports, ports, hbuffer]
  refine load32_congr fun x hx => h x ?_
  simp only [Block.Has, block]
  bv_omega

/-- A queue in the same place, with the same bytes in its object. -/
theorem fields_congr (hports : b'.ports i = b.ports i)
    (h : ∀ x, (b.block (.queue i)).Has x → b'.mem x = b.mem x) :
    b'.port i = b.port i ∧ b'.array i = b.array i ∧
      ∀ x, (x - PortQueue.messages (b.ports i)).toNat < 12 → b'.mem x = b.mem x := by
  have hobject (x : Word) (hx : (x - b.ports i).toNat < 16) : b'.mem x = b.mem x := h x hx
  refine ⟨?_, ?_, fun x hx => hobject x ?_⟩
  · rw [port, port, hports]
    exact load32_congr fun x hx => hobject x (by omega)
  · rw [array, array, hports]
    refine load32_congr fun x hx => hobject x ?_
    simp only [PortQueue.messages] at hx
    bv_omega
  · simp only [PortQueue.messages] at hx
    bv_omega

/-- A queue whose object and array have the same bytes is in the same state. -/
theorem queueState_congr (hports : b'.ports i = b.ports i)
    (hqueue : ∀ x, (b.block (.queue i)).Has x → b'.mem x = b.mem x)
    (harray : ∀ x, (b.block (.array i)).Has x → b'.mem x = b.mem x) :
    b'.queueState i = b.queueState i := by
  obtain ⟨hport, hlist, hobject⟩ := fields_congr hports hqueue
  simp only [queueState, hport, hports, MessageList.headIndex, MessageList.size,
    MessageList.slotAddr]
  have hhead : load32 b'.mem (PortQueue.messages (b.ports i)) =
      load32 b.mem (PortQueue.messages (b.ports i)) :=
    load32_congr fun x hx => hobject x (by omega)
  have hsize : load32 b'.mem (PortQueue.messages (b.ports i) + 4#32) =
      load32 b.mem (PortQueue.messages (b.ports i) + 4#32) :=
    load32_congr fun x hx => hobject x (by bv_omega)
  have hlist' : MessageList.list b'.mem (PortQueue.messages (b.ports i)) = b.array i := by
    rw [← hlist, array, hports]
  have hlist'' : MessageList.list b.mem (PortQueue.messages (b.ports i)) = b.array i := rfl
  rw [hhead, hsize, hlist', hlist'']
  congr 1
  refine List.map_congr_left fun slot hslot => Message.load_congr fun x hx => harray x ?_
  rw [List.mem_range, MessageList.kMaxMessages] at hslot
  rw [← Int.natCast_mul, BitVec.ofInt_natCast] at hx
  simp only [Block.Has, block, Message.size, MessageList.kMaxMessages] at *
  bv_omega

/-! ## Push and pop -/

/-- Nothing is written but the array of queue number `i` and the fields of its list. -/
def WritesQueue (b : Postbox) (i : ℕ) (m' : Mem) : Prop :=
  ∀ x, ¬ (b.block (.array i)).Has x → 12 ≤ (x - PortQueue.messages (b.ports i)).toNat →
    m' x = b.mem x

/-- The bytes of all other blocks are unchanged. -/
theorem Wf.other_block (hw : Wf b) (hi : i < b.size) (hframe : b.WritesQueue i m') {r : Region}
    (hr : b.Live r) (hq : r ≠ .queue i) (ha : r ≠ .array i) (x : Word)
    (hx : (b.block r).Has x) : m' x = b.mem x := by
  have hqueue := hw.layout.not_has hr (s := .queue i) hi hq hx
  apply hframe x (hw.layout.not_has hr (s := .array i) hi ha hx)
  simp only [Block.Has, block, PortQueue.size, PortQueue.messages] at *
  bv_omega

/-- The pointers to the queues are unchanged. -/
theorem Wf.same_ports (hw : Wf b) (hi : i < b.size) (hframe : b.WritesQueue i m') {j : ℕ}
    (hj : j < b.size) : ({ b with mem := m' } : Postbox).ports j = b.ports j := by
  have hsize := hw.size_le
  refine ports_congr (by omega) rfl fun x hx => ?_
  exact hw.other_block hi hframe (r := .buffer) trivial (by simp) (by simp) x hx

/-- The other queues have the same bytes. -/
theorem Wf.same_queue (hw : Wf b) (hi : i < b.size) (hframe : b.WritesQueue i m') {j : ℕ}
    (hj : j < b.size) (hji : j ≠ i) (x : Word) (hx : (b.block (.queue j)).Has x) :
    m' x = b.mem x :=
  hw.other_block hi hframe (r := .queue j) hj (by simpa using hji) (by simp) x hx

/-- The ports of all queues are unchanged, as that of queue number `i` is in front of its list. -/
theorem Wf.same_port (hw : Wf b) (hi : i < b.size) (hframe : b.WritesQueue i m') {j : ℕ}
    (hj : j < b.size) : ({ b with mem := m' } : Postbox).port j = b.port j := by
  have hports := hw.same_ports hi hframe hj
  by_cases hji : j = i
  · have hfits := hw.layout.fits (.queue j) hj
    rw [port, port, hports, PortQueue.port, PortQueue.port]
    apply load32_congr
    intro x hx
    have hin : (b.block (.queue j)).Has x := by
      simp only [Block.Has, block, PortQueue.size]
      omega
    have hout := hw.layout.not_has (r := .queue j) (s := .array i) hj hi (by simp) hin
    apply hframe x hout
    rw [← hji]
    simp only [PortQueue.messages]
    bv_omega
  · exact (fields_congr hports (hw.same_queue hi hframe hj hji)).1

/-- A call about queue number `i` that writes to its array and to the fields of its list,
and leaves the fields in their ranges. -/
theorem Wf.update (hw : Wf b) (hi : i < b.size) (hframe : b.WritesQueue i m')
    (hfields : ∃ head count, head ≤ 31 ∧ count ≤ 32 ∧
      Fields m' (PortQueue.messages (b.ports i)) head count (b.array i)) :
    Wf { b with mem := m' } ∧ (∀ j < b.size, ({ b with mem := m' } : Postbox).port j = b.port j) ∧
      ∀ j < b.size, j ≠ i → ({ b with mem := m' } : Postbox).queueState j = b.queueState j := by
  let b' : Postbox := { b with mem := m' }
  have hports {j : ℕ} (hj : j < b.size) : b'.ports j = b.ports j := hw.same_ports hi hframe hj
  have hport {j : ℕ} (hj : j < b.size) : b'.port j = b.port j := hw.same_port hi hframe hj
  have hqueue {j : ℕ} (hj : j < b.size) (hji : j ≠ i) :=
    fields_congr (hports hj) (hw.same_queue hi hframe hj hji)
  have hlist {j : ℕ} (hj : j < b.size) : b'.array j = b.array j := by
    by_cases hji : j = i
    · obtain ⟨head, count, -, -, hf⟩ := hfields
      rw [array, hports hj, hji]
      exact hf.array
    · exact (hqueue hj hji).2.1
  have hblock (r : Region) (hr : b.Live r) : b'.block r = b.block r := by
    cases r with
    | buffer => rfl
    | queue j => simp only [block, hports hr]
    | array j => simp only [block, hlist hr]
  refine ⟨⟨hw.size_le, ⟨fun r hr => ?_, fun r s hr hs hne => ?_⟩, fun j hj k hk heq => ?_,
    fun j hj => ?_⟩, fun j hj => hport hj, fun j hj hji => ?_⟩
  · rw [hblock r hr]
    exact hw.layout.fits r hr
  · rw [hblock r hr, hblock s hs]
    exact hw.layout.apart r s hr hs hne
  · rw [hport hj, hport hk] at heq
    exact hw.port_inj j hj k hk heq
  · rw [hports hj, hlist hj]
    by_cases hji : j = i
    · rw [hji]
      exact hfields
    · obtain ⟨head, count, hhead, hcount, hf⟩ := hw.fields j hj
      exact ⟨head, count, hhead, hcount, hf.congr (hqueue hj hji).2.2⟩
  · apply queueState_congr (hports hj) (hw.same_queue hi hframe hj hji)
    exact hw.other_block hi hframe (r := .array j) hj (by simp) (by simpa using hji)

/-- The slots of an array are apart from the list object of the same queue. -/
theorem Wf.slotApart (hw : Wf b) (hi : i < b.size) {slot : ℕ} (hslot : slot < 32) :
    MessageList.SlotApart (PortQueue.messages (b.ports i)) (b.array i) slot := by
  have hqueue := hw.layout.fits (.queue i) hi
  have harray := hw.layout.fits (.array i) hi
  have hapart := hw.layout.apart (.queue i) (.array i) hi hi (by simp)
  simp only [Block.Fits, Block.Apart, block, PortQueue.size, PortQueue.messages, Message.size,
    MessageList.kMaxMessages, MessageList.SlotApart, MessageList.slotOf] at *
  bv_omega

/-- A push to the port that finds room stays within the array. -/
def InArray (b : Postbox) (portId : Word) : Prop :=
  ∀ i < b.size, b.port i = portId → (b.queueState i).listSize < MessageList.kMaxMessages →
    (b.queueState i).headIndex + (b.queueState i).listSize ≤ MessageList.kMaxMessages

/-- What a call about a port leaves alone: the number of queues, their ports, and the
whole state of the queues with other ports. -/
structure Isolated (portId : Word) (b b' : Postbox) : Prop where
  size : b'.size = b.size
  port : ∀ i < b.size, b'.port i = b.port i
  others : ∀ i < b.size, b.port i ≠ portId → b'.queueState i = b.queueState i

/-- A postbox that did not change is isolated. -/
theorem Isolated.refl (portId : Word) (b : Postbox) : Isolated portId b b :=
  ⟨rfl, fun _ _ => rfl, fun _ _ _ => rfl⟩

/-- A call for a port no queue has changes nothing. -/
theorem push_absent (h : ∀ i < b.size, b.port i ≠ portId) (msg : Message) :
    b.push portId msg = b := by
  rw [push, search_absent h]
  exact if_neg (fun hne => hne rfl)

/-- At a port that does not exist nothing is popped. -/
theorem pop_absent (h : ∀ i < b.size, b.port i ≠ portId) : b.pop portId = (kMessageNull, b) := by
  rw [pop, search_absent h]
  exact if_neg (fun hne => hne rfl)

/-- A push whose slot is in the array keeps the postbox well formed, and changes no other port. -/
theorem Wf.push (hw : Wf b) (hcond : InArray b portId) (msg : Message) :
    Wf (b.push portId msg) ∧ Isolated portId b (b.push portId msg) := by
  by_cases habsent : ∀ i < b.size, b.port i ≠ portId
  · rw [push_absent habsent]
    exact ⟨hw, Isolated.refl portId b⟩
  · obtain ⟨i, hi, rfl⟩ : ∃ i, ∃ _ : i < b.size, b.port i = portId := by simpa using habsent
    have hsearch := search_present hw.port_inj hi
    obtain ⟨head, count, hhead, hcount, hf⟩ := hw.fields i hi
    simp only [Postbox.push, hsearch, if_pos hi.ne]
    by_cases hfull : count = 32
    · rw [hfull] at hf
      rw [hf.push_full]
      exact ⟨hw, Isolated.refl _ b⟩
    · have hfit : head + count ≤ 32 := by
        have hroom := hcond i hi rfl
        simp only [queueState, hf.size_eq hcount, hf.headIndex_eq hhead,
          MessageList.kMaxMessages] at hroom
        omega
      have hslot : MessageList.wrapped (head + count) < 32 := by
        rw [MessageList.wrapped]
        omega
      have hapart := hw.slotApart hi hslot
      rw [hf.push_eq hhead (by omega) hapart]
      have hframe (x : Word) (hx : ¬ (b.block (.array i)).Has x)
          (hx' : 12 ≤ (x - PortQueue.messages (b.ports i)).toNat) :
          MessageList.pushed b.mem (PortQueue.messages (b.ports i)) (b.array i) head count msg x =
            b.mem x := by
        refine MessageList.pushed_frame ?_ (by bv_omega)
        simp only [Block.Has, block, MessageList.slotOf, Message.size,
          MessageList.kMaxMessages] at *
        bv_omega
      obtain ⟨hwf, hport, hothers⟩ := hw.update hi hframe
        ⟨head, count + 1, hhead, by omega, hf.pushed hapart⟩
      exact ⟨hwf, rfl, hport, fun j hj hne => hothers j hj fun hji => hne (by rw [hji])⟩

/-- A pop keeps the postbox well formed, and changes no other port. -/
theorem Wf.pop (hw : Wf b) (portId : Word) :
    Wf (b.pop portId).2 ∧ Isolated portId b (b.pop portId).2 := by
  by_cases habsent : ∀ i < b.size, b.port i ≠ portId
  · rw [pop_absent habsent]
    exact ⟨hw, Isolated.refl portId b⟩
  · obtain ⟨i, hi, rfl⟩ : ∃ i, ∃ _ : i < b.size, b.port i = portId := by simpa using habsent
    have hsearch := search_present hw.port_inj hi
    obtain ⟨head, count, hhead, hcount, hf⟩ := hw.fields i hi
    simp only [Postbox.pop, hsearch, if_pos hi.ne, hf.size_eq hcount]
    by_cases hzero : count = 0
    · rw [hzero, if_neg (by simp)]
      exact ⟨hw, Isolated.refl _ b⟩
    · rw [if_pos (by omega), hf.pop_eq hhead (by omega) hcount]
      have hnext : MessageList.wrapped (head + 1) ≤ 31 := by
        rw [MessageList.wrapped]
        omega
      obtain ⟨hwf, hport, hothers⟩ := hw.update hi
        (fun x _ hx' => MessageList.popped_frame (by omega))
        ⟨_, count - 1, hnext, by omega, hf.popped⟩
      exact ⟨hwf, rfl, hport, fun j hj hne => hothers j hj fun hji => hne (by rw [hji])⟩

/-- A pop from an empty queue returns the null message. -/
theorem Wf.pop_empty (hw : Wf b) (hi : i < b.size) (hempty : (b.queueState i).listSize = 0) :
    b.pop (b.port i) = (kMessageNull, b) := by
  have hsize : MessageList.size b.mem (PortQueue.messages (b.ports i)) = 0 := hempty
  simp only [Postbox.pop, search_present hw.port_inj hi, if_pos hi.ne, hsize, lt_self_iff_false,
    if_false]

end Postbox

end Muk
