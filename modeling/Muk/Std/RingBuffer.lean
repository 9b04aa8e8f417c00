import Muk.Lib.ByteMemory
import Mathlib.Data.Int.Notation
import Mathlib.Logic.Function.Basic
import Mathlib.Order.Basic

/-!
# The ring buffer

`buffer_t` keeps bytes between `tail`, where they are read, and `head`, where they are
written. One slot always stays free, so that a full buffer is told from an empty one.
-/

namespace Muk

/-- `buffer_t`. The bytes are those from `buffer->buffer` on, also past the end. -/
structure Buffer where
  head : ℕ
  tail : ℕ
  size : ℕ
  buffer : ℕ → Byte

namespace Buffer

/-- `buffer_read` -/
def bufferRead (b : Buffer) : ℤ × Buffer :=
  if b.head = b.tail then (-1, b) -- buffer is empty
  else
    let data := b.buffer b.tail
    let next := b.tail + 1
    let next := if next ≥ b.size then 0 else next
    (data.toNat, { b with tail := next })

/-- `buffer_write` -/
def bufferWrite (b : Buffer) (v : Byte) : ℤ × Buffer :=
  let next := b.head + 1
  let next := if next ≥ b.size then 0 else next
  if next = b.tail then (-1, b) -- buffer is full
  else (0, { b with buffer := Function.update b.buffer b.head v, head := next })

/-- `buffer->buffer[i] = v` -/
def store (b : Buffer) (i : ℕ) (v : Byte) : Buffer :=
  { b with buffer := Function.update b.buffer i v }

/-! ## The unread bytes -/

/-- How many bytes are unread. -/
def pending (b : Buffer) : ℕ :=
  if b.tail ≤ b.head then b.head - b.tail else b.head + b.size - b.tail

/-- The slot of the unread byte number `i`. -/
def slot (b : Buffer) (i : ℕ) : ℕ := if b.tail + i < b.size then b.tail + i else b.tail + i - b.size

/-- The unread bytes, the oldest one first. -/
def unread (b : Buffer) : List Byte := (List.range b.pending).map fun i => b.buffer (b.slot i)

/-- Head and tail are slots of the buffer. -/
structure Wf (b : Buffer) : Prop where
  head_lt : b.head < b.size
  tail_lt : b.tail < b.size

variable {b : Buffer} {v : Byte} {i : ℕ}

/-- One slot always stays free. -/
theorem Wf.pending_lt (h : b.Wf) : b.pending < b.size := by
  have hhead := h.head_lt
  have htail := h.tail_lt
  rw [pending]
  split_ifs <;> omega

/-- Nothing is read from an empty buffer. -/
theorem Wf.bufferRead_empty (h : b.Wf) (hempty : b.unread = []) : b.bufferRead = (-1, b) := by
  have hhead := h.head_lt
  have htail := h.tail_lt
  have hzero : b.pending = 0 := by simpa [unread] using hempty
  have heq : b.head = b.tail := by
    rw [pending] at hzero
    split_ifs at hzero <;> omega
  rw [bufferRead, if_pos heq]

/-- The oldest unread byte is read. -/
theorem Wf.bufferRead_cons (h : b.Wf) {rest : List Byte} (hunread : b.unread = v :: rest) :
    ∃ b', b.bufferRead = ((v.toNat : ℤ), b') ∧ b'.Wf ∧ b'.size = b.size ∧ b'.unread = rest := by
  have hhead := h.head_lt
  have htail := h.tail_lt
  obtain ⟨n, hn⟩ : ∃ n, b.pending = n + 1 := by
    have hlength := congrArg List.length hunread
    simp only [unread, List.length_map, List.length_range, List.length_cons] at hlength
    exact ⟨_, hlength⟩
  rw [unread, hn, List.range_succ_eq_map, List.map_cons, List.map_map, List.cons.injEq] at hunread
  obtain ⟨hfirst, hrest⟩ := hunread
  have hslot : b.slot 0 = b.tail := by
    rw [slot, if_pos (by omega), Nat.add_zero]
  rw [hslot] at hfirst
  have hne : ¬ b.head = b.tail := by
    intro heq
    rw [pending, if_pos (Nat.le_of_eq heq.symm)] at hn
    omega
  let b' : Buffer := { b with tail := if b.tail + 1 ≥ b.size then 0 else b.tail + 1 }
  refine ⟨b', by rw [bufferRead, if_neg hne, hfirst], ⟨hhead, ?_⟩, rfl, ?_⟩
  · simp only [b']
    split_ifs <;> omega
  · have hpending : b'.pending = n := by
      simp only [pending, b'] at hn ⊢
      split_ifs at hn ⊢ <;> omega
    rw [unread, hpending, ← hrest]
    apply List.map_congr_left
    intro i hi
    have hslot' : b'.slot i = b.slot (i + 1) := by
      have hi' := List.mem_range.mp hi
      have hlt := h.pending_lt
      simp only [slot, b']
      split_ifs <;> omega
    simp only [hslot', Function.comp_apply, Nat.succ_eq_add_one, b']

/-- A byte is refused, or it becomes the last unread one. -/
theorem Wf.bufferWrite (h : b.Wf) (v : Byte) : b.bufferWrite v = (-1, b) ∨
    ∃ b', b.bufferWrite v = (0, b') ∧ b'.Wf ∧ b'.size = b.size ∧ b'.unread = b.unread ++ [v] := by
  have hhead := h.head_lt
  have htail := h.tail_lt
  have hpending := h.pending_lt
  by_cases hfull : (if b.head + 1 ≥ b.size then 0 else b.head + 1) = b.tail
  · left
    simp only [Buffer.bufferWrite, if_pos hfull]
  · right
    let b' : Buffer := { b with
      buffer := Function.update b.buffer b.head v
      head := if b.head + 1 ≥ b.size then 0 else b.head + 1 }
    refine ⟨b', by simp only [Buffer.bufferWrite, if_neg hfull, b'], ⟨?_, htail⟩, rfl, ?_⟩
    · simp only [b']
      split_ifs <;> omega
    · have hpending' : b'.pending = b.pending + 1 := by
        simp only [pending, b']
        split_ifs at hfull ⊢ <;> omega
      rw [unread, hpending', List.range_succ, List.map_append, List.map_singleton]
      congr 1
      · apply List.map_congr_left
        intro i hi
        have hi' := List.mem_range.mp hi
        have hne : b.slot i ≠ b.head := by
          simp only [slot, pending] at hi' ⊢
          split_ifs at hi' ⊢ <;> omega
        simp only [b', slot] at hne ⊢
        rw [Function.update_of_ne hne]
      · have hlast : b'.slot b.pending = b.head := by
          simp only [slot, pending, b']
          split_ifs <;> omega
        rw [hlast]
        simp only [b', Function.update_self]

/-- A store leaves the unread bytes as they are exactly if it is not to one of their slots,
or stores what is there. -/
theorem unread_store : (b.store i v).unread = b.unread ↔
    ∀ j < b.pending, b.slot j = i → b.buffer i = v := by
  have hpending : (b.store i v).pending = b.pending := rfl
  rw [unread, unread, hpending, List.map_inj_left]
  apply forall_congr'
  intro j
  rw [List.mem_range]
  apply forall_congr'
  intro _
  change Function.update b.buffer i v (b.slot j) = b.buffer (b.slot j) ↔ _
  by_cases hj : b.slot j = i
  · rw [hj, Function.update_self]
    exact ⟨fun h _ => h.symm, fun h => (h rfl).symm⟩
  · rw [Function.update_of_ne hj]
    exact ⟨fun _ h => absurd h hj, fun _ => rfl⟩

/-- A store keeps head and tail inside the buffer. -/
theorem Wf.store (h : b.Wf) (i : ℕ) (v : Byte) : (b.store i v).Wf := ⟨h.head_lt, h.tail_lt⟩

end Buffer

end Muk
