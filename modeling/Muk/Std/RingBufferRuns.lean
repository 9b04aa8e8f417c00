import Muk.Lib.Run
import Muk.Std.RingBuffer

/-!
# Runs of a ring buffer

A ring buffer that is only used through `buffer_write` and `buffer_read` is a queue of
bytes with room for one byte less than its size.
-/

namespace Muk

inductive BufferCall where
  | write (v : Byte)
  | read

/-- A queue with a capacity: the result of a call, and the bytes that it holds then. -/
def queueCall (capacity : ℕ) (held : List Byte) : BufferCall → ℤ × List Byte
  | .write v => if held.length = capacity then (-1, held) else (0, held ++ [v])
  | .read =>
    match held with
    | [] => (-1, [])
    | v :: rest => (v.toNat, rest)

namespace Buffer

/-- One call on a buffer. -/
def call (b : Buffer) : BufferCall → ℤ × Buffer
  | .write v => b.bufferWrite v
  | .read => b.bufferRead

/-- A buffer with nothing read or written. -/
def fresh (size : ℕ) (storage : ℕ → Byte) : Buffer :=
  { head := 0, tail := 0, size := size, buffer := storage }

variable {b : Buffer} {v : Byte} {held : List Byte} {size : ℕ}

/-- The buffer holds the bytes of the queue. -/
structure Holds (b : Buffer) (size : ℕ) (held : List Byte) : Prop where
  wf : b.Wf
  size : b.size = size
  unread : b.unread = held

/-- A fresh buffer holds nothing. -/
theorem Holds.fresh (hsize : 1 ≤ size) (storage : ℕ → Byte) :
    Holds (fresh size storage) size [] where
  wf := ⟨hsize, hsize⟩
  size := rfl
  unread := by simp [Buffer.unread, Buffer.pending, Buffer.fresh]

/-- As many bytes are unread as the queue holds. -/
theorem Holds.pending (h : Holds b size held) : b.pending = held.length := by
  rw [← h.unread, Buffer.unread, List.length_map, List.length_range]

/-- One slot stays free: the next head meets the tail when all others are taken. -/
theorem Wf.next_eq_tail (h : b.Wf) :
    (if b.head + 1 ≥ b.size then 0 else b.head + 1) = b.tail ↔ b.pending = b.size - 1 := by
  have hhead := h.head_lt
  have htail := h.tail_lt
  rw [Buffer.pending]
  split_ifs <;> omega

/-- A write to a full buffer is refused. -/
theorem Wf.bufferWrite_full (h : b.Wf) (hfull : b.pending = b.size - 1) (v : Byte) :
    b.bufferWrite v = (-1, b) := by
  simp only [Buffer.bufferWrite, if_pos (h.next_eq_tail.mpr hfull)]

/-- A write to a buffer with room appends its byte. -/
theorem Wf.bufferWrite_room (h : b.Wf) (hroom : b.pending ≠ b.size - 1) (v : Byte) :
    ∃ b', b.bufferWrite v = (0, b') ∧ b'.Wf ∧ b'.size = b.size ∧ b'.unread = b.unread ++ [v] := by
  rcases h.bufferWrite v with hfull | hwrite
  · have hresult := congrArg Prod.fst hfull
    simp only [Buffer.bufferWrite, if_neg (h.next_eq_tail.not.mpr hroom)] at hresult
    exact absurd hresult (by decide)
  · exact hwrite

/-- A call returns what the queue returns, leaves what the queue leaves, and changes nothing
if it fails. -/
theorem Holds.call (h : Holds b size held) (e : BufferCall) :
    (b.call e).1 = (queueCall (size - 1) held e).1 ∧
      Holds (b.call e).2 size (queueCall (size - 1) held e).2 ∧
      ((b.call e).1 = -1 → (b.call e).2 = b) := by
  cases e with
  | write v =>
    by_cases hfull : held.length = size - 1
    · have hcall : b.call (.write v) = (-1, b) :=
        h.wf.bufferWrite_full (by rw [h.pending, h.size, hfull]) v
      rw [hcall, queueCall, if_pos hfull]
      exact ⟨rfl, h, fun _ => rfl⟩
    · obtain ⟨b', hwrite, hwf, hsize, hunread⟩ :=
        h.wf.bufferWrite_room (by rwa [h.pending, h.size]) v
      have hcall : b.call (.write v) = (0, b') := hwrite
      rw [hcall, queueCall, if_neg hfull]
      exact ⟨rfl, ⟨hwf, hsize.trans h.size, by rw [hunread, h.unread]⟩, by simp⟩
  | read =>
    cases held with
    | nil =>
      have hcall : b.call .read = (-1, b) := h.wf.bufferRead_empty h.unread
      rw [hcall]
      exact ⟨rfl, h, fun _ => rfl⟩
    | cons v rest =>
      obtain ⟨b', hread, hwf, hsize, hunread⟩ := h.wf.bufferRead_cons h.unread
      have hcall : b.call .read = ((v.toNat : ℤ), b') := hread
      rw [hcall]
      refine ⟨rfl, ⟨hwf, hsize.trans h.size, hunread⟩, fun hminus => ?_⟩
      dsimp only at hminus
      omega

/-- The buffer after a run, and the queue after the same calls. -/
theorem Holds.run (h : Holds b size held) (calls : List BufferCall) :
    Holds (runSteps (fun b e => (Buffer.call b e).2) b calls) size
      (runSteps (fun held e => (queueCall (size - 1) held e).2) held calls) := by
  induction calls generalizing b held with
  | nil => exact h
  | cons e calls ih => exact ih (h.call e).2.1

/-- **A ring buffer is a bounded queue.** After any calls on a fresh buffer of any size its
indices are below the size and its unread bytes are those that a queue with one slot less
holds after the same calls; the next call returns what it returns of the queue, and changes
nothing if it fails. -/
theorem ring_buffer_queue {size : ℕ} (hsize : 1 ≤ size) (storage : ℕ → Byte)
    (calls : List BufferCall) :
    let b := runSteps (fun b e => (call b e).2) (fresh size storage) calls
    let held := runSteps (fun held e => (queueCall (size - 1) held e).2) [] calls
    b.head < size ∧ b.tail < size ∧ b.unread = held ∧ held.length ≤ size - 1 ∧
      ∀ e, (b.call e).1 = (queueCall (size - 1) held e).1 ∧
        ((b.call e).1 = -1 → (b.call e).2 = b) := by
  have hrun := (Holds.fresh hsize storage).run calls
  have hpending := hrun.wf.pending_lt
  rw [hrun.pending, hrun.size] at hpending
  refine ⟨hrun.wf.head_lt.trans_eq hrun.size, hrun.wf.tail_lt.trans_eq hrun.size, hrun.unread,
    by omega, fun e => ?_⟩
  exact ⟨(hrun.call e).1, (hrun.call e).2.2⟩

/-- The second of two bytes does not fit into a buffer of two. -/
theorem ring_buffer_queue_two :
    let b := runSteps (fun b e => (call b e).2) (fresh 2 fun _ => 0) [.write 200]
    b.unread = [200] ∧ (b.call (.write 7)).1 = -1 ∧ (b.call .read).1 = 200 := by
  obtain ⟨-, -, hunread, -, hcall⟩ :=
    ring_buffer_queue (show 1 ≤ 2 by decide) (fun _ => 0) [.write 200]
  exact ⟨hunread, (hcall _).1, (hcall _).1⟩

end Buffer

end Muk
