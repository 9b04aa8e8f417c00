import Muk.Proc.PostboxInvariant

/-!
# Listening on a port

`listen` builds a queue in fresh blocks, moves the vector to a larger buffer when it is
full, and appends the pointer. All queues that were there before are still there, in the
same state.
-/

namespace Muk

open MessageList (Fields)

namespace Postbox

variable {b b' : Postbox} {portId x : Word} {i : ℕ} {new : NewPort} {m : Mem}

/-- The object of a new port. -/
def queueBlock (new : NewPort) : Block := ⟨new.queue, PortQueue.size⟩

/-- The array of a new port, and the word before it. -/
def arrayBlock (new : NewPort) : Block :=
  ⟨new.array - 4#32, Message.size * MessageList.kMaxMessages + 4⟩

/-! ## The new queue -/

/-- The constructor writes to the object and the array. -/
theorem construct_frame (hqueue : ¬ (queueBlock new).Has x) (harray : ¬ (arrayBlock new).Has x) :
    PortQueue.construct m new.queue new.array portId x = m x := by
  simp only [Block.Has, queueBlock, arrayBlock, PortQueue.size, Nat.not_lt] at hqueue harray
  rw [PortQueue.construct, MessageList.construct_frame ?_ harray, store32_frame _ _ (by omega)]
  simp only [PortQueue.messages]
  bv_omega

/-- Where the object and the array of a new port lie. -/
structure Fresh.New (new : NewPort) : Prop where
  cookie : 4 ≤ new.array.toNat
  queue_fits : (queueBlock new).Fits
  array_fits : (arrayBlock new).Fits
  apart : (queueBlock new).Apart (arrayBlock new)

/-- The messages of a new port lie in its array, behind the first word. -/
theorem Fresh.New.messages_fits (h : Fresh.New new) :
    Block.Fits ⟨new.array, Message.size * MessageList.kMaxMessages⟩ := by
  have hfits := h.array_fits
  have hcookie := h.cookie
  simp only [Block.Fits, arrayBlock, Message.size, MessageList.kMaxMessages] at *
  bv_omega

/-- The messages of a new port are apart from what its array is apart from. -/
theorem Fresh.New.messages_apart (h : Fresh.New new) {k : Block} (hk : (arrayBlock new).Apart k) :
    Block.Apart ⟨new.array, Message.size * MessageList.kMaxMessages⟩ k := by
  have hfits := h.array_fits
  have hcookie := h.cookie
  simp only [Block.Apart, Block.Fits, arrayBlock, Message.size, MessageList.kMaxMessages] at *
  bv_omega

/-- The constructor of a queue sets its port and leaves it with an empty list of messages. -/
theorem construct_fields (h : Fresh.New new) :
    PortQueue.port (PortQueue.construct m new.queue new.array portId) new.queue = portId ∧
      Fields (PortQueue.construct m new.queue new.array portId) (PortQueue.messages new.queue) 0 0
        new.array := by
  have hcookie := h.cookie
  have hqueue := h.queue_fits
  have harray := h.array_fits
  have hapart := h.apart
  simp only [Block.Fits, Block.Apart, queueBlock, arrayBlock, PortQueue.size, Message.size,
    MessageList.kMaxMessages] at *
  refine ⟨?_, MessageList.construct_fields ⟨?_, hcookie, ?_, ?_⟩⟩
  · have hport : PortQueue.port (PortQueue.construct m new.queue new.array portId) new.queue =
        load32 (store32 m new.queue portId) new.queue := by
      refine load32_congr fun x hx => MessageList.construct_frame ?_ ?_
      · simp only [PortQueue.messages]
        bv_omega
      · simp only [Message.size, MessageList.kMaxMessages]
        bv_omega
    rw [hport, load32_store32_same]
  · simp only [PortQueue.messages]
    bv_omega
  · simp only [Message.size, MessageList.kMaxMessages]
    bv_omega
  · simp only [PortQueue.messages, Message.size, MessageList.kMaxMessages]
    bv_omega

/-! ## The buffer -/

/-- Copying pointers changes the bytes copied to. -/
theorem copyPorts_frame {dst src : Word} {n : ℕ} (hn : 4 * n ≤ 2 ^ 32)
    (hx : 4 * n ≤ (x - dst).toNat) : copyPorts m dst src n x = m x := by
  induction n with
  | zero => rfl
  | succ n ih =>
    rw [copyPorts, store32_frame _ _ (by bv_omega), ih (by omega) (by omega)]

/-- Copying pointers to a buffer apart from the old one. -/
theorem load32_copyPorts {dst src : Word} {n : ℕ}
    (hapart : (Block.mk dst (4 * n)).Apart ⟨src, 4 * n⟩) (hfits : (Block.mk dst (4 * n)).Fits)
    (hfits' : (Block.mk src (4 * n)).Fits) (hi : i < n) :
    load32 (copyPorts m dst src n) (dst + BitVec.ofNat 32 (4 * i)) =
      load32 m (src + BitVec.ofNat 32 (4 * i)) := by
  induction n with
  | zero => omega
  | succ n ih =>
    simp only [Block.Apart, Block.Fits] at *
    rw [copyPorts]
    by_cases hlast : i = n
    · rw [hlast, load32_store32_same]
      exact load32_congr fun x hx => copyPorts_frame (by omega) (by bv_omega)
    · rw [load32_store32_disjoint _ _ (by bv_omega) (by bv_omega)]
      exact ih (by omega) (by omega) (by omega) (by omega)

/-! ## Appending the pointer -/

/-- A fresh object and its array, apart from all that the postbox has, can become a new queue. -/
theorem Fresh.toNew (h : Fresh b new) : Fresh.New new where
  cookie := h.cookie
  queue_fits := h.fits (queueBlock new) (by simp [newBlocks, queueBlock])
  array_fits := h.fits (arrayBlock new) (by simp [newBlocks, arrayBlock])
  apart := by
    have hpairwise := h.pairwise
    simp only [newBlocks, List.cons_append, List.nil_append, List.pairwise_cons,
      List.mem_cons] at hpairwise
    exact hpairwise.1 _ (Or.inl rfl)

/-- A new queue is apart from all memory in use. -/
theorem Fresh.queue_live (h : Fresh b new) {r : Region} (hr : b.Live r) :
    (queueBlock new).Apart (b.block r) := h.live _ (by simp [newBlocks, queueBlock]) r hr

/-- A new array is apart from all memory in use. -/
theorem Fresh.array_live (h : Fresh b new) {r : Region} (hr : b.Live r) :
    (arrayBlock new).Apart (b.block r) := h.live _ (by simp [newBlocks, arrayBlock]) r hr

/-- The vector after `reserve`, if that was called: there is room for one more pointer, in a
buffer apart from everything else. -/
structure Reserved (b : Postbox) (new : NewPort) (m : Mem) (b' : Postbox) : Prop where
  size : b'.size = b.size
  room : b.size < b'.capacity
  ports : ∀ i < b.size, b'.ports i = load32 m (b.buffer + BitVec.ofNat 32 (4 * i))
  fits : (b'.block .buffer).Fits
  live : ∀ r, b.Live r → r ≠ .buffer → (b'.block .buffer).Apart (b.block r)
  queue : (b'.block .buffer).Apart (queueBlock new)
  array : (b'.block .buffer).Apart (arrayBlock new)
  frame : ∀ x, ¬ (b'.block .buffer).Has x → b'.mem x = m x

/-- The vector with room for one more pointer. -/
def reserved (b : Postbox) (bufferNew : Word) : Postbox :=
  if b.capacity ≤ b.size then reserve b (grown b.capacity) bufferNew else b

/-- Reserving room for a new port keeps what is in use. -/
theorem Wf.reserved (hw : Wf b) (h : Fresh b new) (m : Mem) :
    Reserved b new m (reserved { b with mem := m } new.buffer) := by
  have hsize := hw.size_le
  have hfits := hw.layout.fits .buffer trivial
  by_cases hfull : b.capacity ≤ b.size
  · have hgrown : b.size < grown b.capacity := by
      rw [grown]
      omega
    -- the new buffer is the last of the three new blocks
    let buffer : Block := ⟨new.buffer, 4 * grown b.capacity⟩
    have hmem : buffer ∈ newBlocks b new := by simp [newBlocks, hfull, buffer]
    have hnew := h.fits buffer hmem
    have hold := h.live buffer hmem .buffer trivial
    have hpairwise := h.pairwise
    simp only [newBlocks, if_pos hfull, List.cons_append, List.nil_append, List.pairwise_cons,
      List.mem_cons] at hpairwise
    obtain ⟨hqueue, harray, -⟩ := hpairwise
    simp only [Postbox.reserved, if_pos hfull, reserve]
    refine ⟨rfl, hgrown, fun i hi => ?_, hnew, fun r hr _ => h.live buffer hmem r hr,
      (hqueue buffer (Or.inr (Or.inl rfl))).symm, (harray buffer (Or.inl rfl)).symm, fun x hx => ?_⟩
    · simp only [Block.Fits, Block.Apart, block, buffer] at hnew hold hfits
      refine load32_copyPorts ?_ ?_ ?_ hi <;> simp only [Block.Apart, Block.Fits] <;> omega
    · simp only [Block.Has, block] at hx
      simp only [Block.Fits, buffer] at hnew
      exact copyPorts_frame (by omega) (by omega)
  · simp only [Postbox.reserved, if_neg hfull]
    exact ⟨rfl, Nat.not_le.mp hfull, fun i hi => rfl, hfits,
      fun r hr hne => hw.layout.apart .buffer r trivial hr (Ne.symm hne),
      (h.queue_live (r := .buffer) trivial).symm, (h.array_live (r := .buffer) trivial).symm,
      fun x _ => rfl⟩

/-- What `listen` on a new port does. -/
structure Appended (portId : Word) (b b' : Postbox) : Prop where
  size : b'.size = b.size + 1
  others : ∀ i < b.size, b'.queueState i = b.queueState i
  port : b'.port b.size = portId
  headIndex : (b'.queueState b.size).headIndex = 0
  listSize : (b'.queueState b.size).listSize = 0

/-- Listening on a port that a queue has. -/
theorem listen_present (hunique : ∀ i < b.size, ∀ j < b.size, b.port i = b.port j → i = j)
    (hi : i < b.size) (new : NewPort) : b.listen (b.port i) new = b := by
  rw [listen, search_present hunique hi, if_neg hi.ne]

/-- The vector with the new pointer: what `listen` leaves when there is room. -/
def appended (b : Postbox) (value : Word) : Postbox :=
  { b with
    mem := store32 b.mem (b.buffer + BitVec.ofNat 32 (4 * b.size)) value
    size := b.size + 1 }

/-- Listening to a port that does not exist appends its queue. -/
theorem listen_absent (habsent : ∀ i < b.size, b.port i ≠ portId) (new : NewPort) :
    b.listen portId new = appended (reserved
      { b with mem := PortQueue.construct b.mem new.queue new.array portId } new.buffer)
      new.queue := by
  rw [listen, search_absent habsent, if_pos rfl]
  rfl

/-- The bytes outside the buffer are those before the pointer is appended. -/
theorem Reserved.appended_frame (hr : Reserved b new m b') (value : Word)
    (hx : ¬ (b'.block .buffer).Has x) : (appended b' value).mem x = m x := by
  have hroom := hr.room
  have hsize := hr.size
  have hfits := hr.fits
  simp only [Block.Fits, block] at hfits
  refine (store32_frame _ _ ?_).trans (hr.frame x hx)
  simp only [Block.Has, block] at hx
  bv_omega

/-- Appending keeps the pointers that are there, and adds the new one. -/
theorem Reserved.ports_appended (hr : Reserved b new m b') (value : Word) :
    (∀ i < b.size, (appended b' value).ports i = load32 m (b.buffer + BitVec.ofNat 32 (4 * i))) ∧
      (appended b' value).ports b.size = value := by
  have hroom := hr.room
  have hfits := hr.fits
  simp only [Block.Fits, block] at hfits
  refine ⟨fun i hi => ?_, ?_⟩
  · rw [← hr.ports i hi, Postbox.ports, Postbox.ports]
    simp only [appended, hr.size]
    apply load32_store32_disjoint <;> bv_omega
  · simp only [Postbox.ports, appended, hr.size, load32_store32_same]

/-- What listening on a new port leaves of the queues that were there, what it puts into the new
one, and where the buffer is. -/
structure Listened (portId : Word) (b : Postbox) (new : NewPort) (b' : Postbox) : Prop where
  size : b'.size = b.size + 1
  room : b.size < b'.capacity
  ports : ∀ i < b.size, b'.ports i = b.ports i
  same : ∀ r, b.Live r → r ≠ .buffer → ∀ x, (b.block r).Has x → b'.mem x = b.mem x
  newPtr : b'.ports b.size = new.queue
  newPort : b'.port b.size = portId
  newFields : Fields b'.mem (PortQueue.messages (b'.ports b.size)) 0 0 new.array
  fits : (b'.block .buffer).Fits
  live : ∀ r, b.Live r → r ≠ .buffer → (b'.block .buffer).Apart (b.block r)
  queue : (b'.block .buffer).Apart (queueBlock new)
  array : (b'.block .buffer).Apart (arrayBlock new)

/-- After listening to a new port it exists, and the others are as before. -/
theorem Wf.listened (hw : Wf b) (habsent : ∀ i < b.size, b.port i ≠ portId) (h : Fresh b new) :
    Listened portId b new (b.listen portId new) := by
  have hn := h.toNew
  obtain ⟨m, hm⟩ : ∃ m, m = PortQueue.construct b.mem new.queue new.array portId := ⟨_, rfl⟩
  obtain ⟨hport, hfields⟩ : PortQueue.port m new.queue = portId ∧
      Fields m (PortQueue.messages new.queue) 0 0 new.array := by
    rw [hm]
    exact construct_fields hn
  have hmem {r : Region} (hr : b.Live r) (x : Word) (hx : (b.block r).Has x) : m x = b.mem x := by
    have hfits := hw.layout.fits r hr
    rw [hm]
    exact construct_frame ((h.queue_live hr).symm.not_has hfits hn.queue_fits hx)
      ((h.array_live hr).symm.not_has hfits hn.array_fits hx)
  rw [listen_absent habsent, ← hm]
  have hr := hw.reserved h m
  obtain ⟨b₂, hb₂⟩ : ∃ b₂, b₂ = Postbox.reserved { b with mem := m } new.buffer := ⟨_, rfl⟩
  rw [← hb₂] at hr ⊢
  obtain ⟨hold, hlast⟩ := hr.ports_appended new.queue
  -- the new object is outside the buffer
  have hobject (x : Word) (hx : (x - new.queue).toNat < 16) :
      (appended b₂ new.queue).mem x = m x :=
    hr.appended_frame _ (hr.queue.symm.not_has hn.queue_fits hr.fits hx)
  refine ⟨congrArg (· + 1) hr.size, hr.room, fun i hi => ?_, fun r hlive hne x hx => ?_, hlast, ?_,
    ?_, hr.fits, hr.live, hr.queue, hr.array⟩
  · rw [hold i hi]
    refine load32_congr fun x hx => hmem (r := .buffer) trivial x ?_
    have hle := hw.size_le
    simp only [Block.Has, block]
    bv_omega
  · have hout := (hr.live r hlive hne).symm.not_has (hw.layout.fits r hlive) hr.fits hx
    rw [hr.appended_frame _ hout, hmem hlive x hx]
  · rw [port, hlast, ← hport]
    exact load32_congr fun x hx => hobject x (by omega)
  · rw [hlast]
    refine hfields.congr fun x hx => hobject x ?_
    simp only [PortQueue.messages] at hx
    bv_omega

/-- The fields of a queue that was there. -/
theorem Listened.fields (hl : Listened portId b new b') (hi : i < b.size) :
    b'.port i = b.port i ∧ b'.array i = b.array i ∧
      ∀ x, (x - PortQueue.messages (b.ports i)).toNat < 12 → b'.mem x = b.mem x :=
  fields_congr (hl.ports i hi) (hl.same (.queue i) hi (by simp))

/-- The blocks that were there stay where they were. -/
theorem Listened.block (hl : Listened portId b new b') {r : Region} (hlive : b.Live r)
    (hne : r ≠ .buffer) : b'.block r = b.block r := by
  cases r with
  | buffer => exact absurd rfl hne
  | queue i => simp only [Postbox.block, hl.ports i hlive]
  | array i => simp only [Postbox.block, (hl.fields hlive).2.1]

/-- A port after listening is an old one, or the new one. -/
theorem Listened.lt_or_eq (hl : Listened portId b new b') (hi : i < b'.size) :
    i < b.size ∨ i = b.size := by
  rw [hl.size] at hi
  omega

/-- The new object, the new array and the buffer are apart from the blocks that were there and
from each other. -/
theorem Listened.layout (hl : Listened portId b new b') (hw : Wf b) (h : Fresh b new) :
    Layout b'.block b'.Live := by
  have hn := h.toNew
  have hqueueBlock : b'.block (.queue b.size) = queueBlock new := by
    simp only [Postbox.block, hl.newPtr, queueBlock]
  have harrayBlock : b'.block (.array b.size) =
      ⟨new.array, Message.size * MessageList.kMaxMessages⟩ := by
    have hnewArray : b'.array b.size = new.array := hl.newFields.array
    simp only [Postbox.block, hnewArray]
  have hapartArray {k : Block} (hk : (arrayBlock new).Apart k) :
      (b'.block (.array b.size)).Apart k := by
    rw [harrayBlock]
    exact hn.messages_apart hk
  have hold : Layout b'.block fun r => b.Live r ∧ r ≠ .buffer :=
    (hw.layout.mono fun r hr => hr.1).congr fun r hr => hl.block hr.1 hr.2
  have hinsertQueue := hold.insert (s := .queue b.size) (by rw [hqueueBlock]; exact hn.queue_fits)
    fun r hr _ => by
      rw [hqueueBlock, hl.block hr.1 hr.2]
      exact h.queue_live hr.1
  have hinsertArray := hinsertQueue.insert (s := .array b.size)
    (by rw [harrayBlock]; exact hn.messages_fits)
    fun r hr _ => hapartArray (by
      rcases hr with hr | rfl
      · rw [hl.block hr.1 hr.2]
        exact h.array_live hr.1
      · rw [hqueueBlock]
        exact hn.apart.symm)
  have hinsertBuffer := hinsertArray.insert (s := .buffer) hl.fits fun r hlive _ => by
    rcases hlive with (hlive | rfl) | rfl
    · rw [hl.block hlive.1 hlive.2]
      exact hl.live r hlive.1 hlive.2
    · rw [hqueueBlock]
      exact hl.queue
    · exact (hapartArray hl.array.symm).symm
  apply hinsertBuffer.mono
  intro r hlive
  cases r with
  | buffer => exact Or.inr rfl
  | queue i =>
    rcases hl.lt_or_eq hlive with hi | hi
    · exact Or.inl (Or.inl (Or.inl ⟨hi, by simp⟩))
    · exact Or.inl (Or.inl (Or.inr (by rw [hi])))
  | array i =>
    rcases hl.lt_or_eq hlive with hi | hi
    · exact Or.inl (Or.inl (Or.inl ⟨hi, by simp⟩))
    · exact Or.inl (Or.inr (by rw [hi]))

/-- **Listening on a new port** appends an empty queue and leaves the others as they are. -/
theorem Wf.listen (hw : Wf b) (habsent : ∀ i < b.size, b.port i ≠ portId) (h : Fresh b new) :
    Wf (b.listen portId new) ∧ Appended portId b (b.listen portId new) := by
  have hl := hw.listened habsent h
  refine ⟨⟨?_, hl.layout hw h, fun i hi j hj heq => ?_, fun i hi => ?_⟩,
    hl.size, fun i hi => ?_, hl.newPort, ?_, ?_⟩
  · rw [hl.size]
    exact hl.room
  · rcases hl.lt_or_eq hi with hi | rfl <;> rcases hl.lt_or_eq hj with hj | rfl
    · rw [(hl.fields hi).1, (hl.fields hj).1] at heq
      exact hw.port_inj i hi j hj heq
    · rw [(hl.fields hi).1, hl.newPort] at heq
      exact absurd heq (habsent i hi)
    · rw [(hl.fields hj).1, hl.newPort] at heq
      exact absurd heq.symm (habsent j hj)
    · rfl
  · rcases hl.lt_or_eq hi with hi | rfl
    · obtain ⟨head, count, hhead, hcount, hf⟩ := hw.fields i hi
      rw [hl.ports i hi, (hl.fields hi).2.1]
      exact ⟨head, count, hhead, hcount, hf.congr (hl.fields hi).2.2⟩
    · have hnewArray : (b.listen portId new).array b.size = new.array := hl.newFields.array
      rw [hnewArray]
      exact ⟨0, 0, by omega, by omega, hl.newFields⟩
  · exact queueState_congr (hl.ports i hi) (hl.same (.queue i) hi (by simp))
      (hl.same (.array i) hi (by simp))
  · simp only [queueState]
    exact hl.newFields.headIndex_eq (by omega)
  · simp only [queueState]
    exact hl.newFields.size_eq (by omega)

end Postbox

end Muk
