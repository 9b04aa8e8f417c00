import Muk.Lib.Blocks
import Muk.Proc.Message

/-!
# The postbox

The postbox is a vector of pointers to `PortQueue` objects, one for each port that someone
listens on. `listen` adds an object, and messages are pushed to and popped from the first
object with the port asked for. Objects, arrays of messages and the vector's buffer lie
on the heap next to each other.
-/

namespace Muk

/-! ## Layout on i686 -/

namespace PortQueue

/-- `sizeof(PortQueue)` -/
def size : ℕ := 16

/-- `queue->port` -/
def port (m : Mem) (queue : Word) : Word := load32 m queue

/-- `&queue->messages` -/
def messages (queue : Word) : Word := queue + 4#32

/-- The constructor `PortQueue(port_id)`, with the array that `new Message[]` returns. -/
def construct (m : Mem) (queue array portId : Word) : Mem :=
  MessageList.construct (store32 m queue portId) (messages queue) array

end PortQueue

/-- Memory, and the `std::vector<PortQueue*>` of the postbox. -/
structure Postbox where
  mem : Mem
  capacity : ℕ
  size : ℕ
  buffer : Word

/-- What `new` returns while `listen` adds a port: the object, the array of its messages,
and a buffer, when the vector grows. -/
structure NewPort where
  queue : Word
  array : Word
  buffer : Word

namespace Postbox

/-- `ports[i]` -/
def ports (b : Postbox) (i : ℕ) : Word := load32 b.mem (b.buffer + BitVec.ofNat 32 (4 * i))

/-- `std::find_if`, over the given number of elements from `first` on: the place of the
first one with the property, or the end. -/
def findIf (p : ℕ → Bool) (first : ℕ) : ℕ → ℕ
  | 0 => first
  | n + 1 => if p first then first else findIf p (first + 1) n

/-- `MessageQueue::search` -/
def search (b : Postbox) (portId : Word) : ℕ :=
  findIf (fun i => PortQueue.port b.mem (b.ports i) == portId) 0 b.size

/-- The copy loop of `reserve`. -/
def copyPorts (m : Mem) (dst src : Word) : ℕ → Mem
  | 0 => m
  | n + 1 =>
    let m := copyPorts m dst src n
    store32 m (dst + BitVec.ofNat 32 (4 * n)) (load32 m (src + BitVec.ofNat 32 (4 * n)))

/-- `vector::reserve` -/
def reserve (b : Postbox) (capacity : ℕ) (bufferNew : Word) : Postbox :=
  { b with
    mem := copyPorts b.mem bufferNew b.buffer b.size
    capacity := capacity
    buffer := bufferNew }

/-- `_capacity*1.5+1`, truncated. -/
def grown (capacity : ℕ) : ℕ := capacity * 3 / 2 + 1

/-- `vector::push_back` -/
def pushBack (b : Postbox) (value bufferNew : Word) : Postbox :=
  let b := if b.capacity ≤ b.size then reserve b (grown b.capacity) bufferNew else b
  { b with
    mem := store32 b.mem (b.buffer + BitVec.ofNat 32 (4 * b.size)) value
    size := b.size + 1 }

/-- `Process::listen` -/
def listen (b : Postbox) (portId : Word) (new : NewPort) : Postbox :=
  if b.search portId = b.size then
    -- port queue isn't found, let's add it
    pushBack { b with mem := PortQueue.construct b.mem new.queue new.array portId }
      new.queue new.buffer
  else b

/-- `MessageQueue::push` -/
def push (b : Postbox) (portId : Word) (msg : Message) : Postbox :=
  let it := b.search portId
  if it ≠ b.size then
    { b with mem := (MessageList.push b.mem (PortQueue.messages (b.ports it)) msg).2 }
  else b

/-- `MessageQueue::pop` -/
def pop (b : Postbox) (portId : Word) : Message × Postbox :=
  let it := b.search portId
  if it ≠ b.size then
    if 0 < MessageList.size b.mem (PortQueue.messages (b.ports it)) then
      let (msg, m) := MessageList.pop b.mem (PortQueue.messages (b.ports it))
      (msg, { b with mem := m })
    else (kMessageNull, b)
  else (kMessageNull, b)

/-- The postbox before the first `listen`. -/
def empty (m : Mem) : Postbox := { mem := m, capacity := 0, size := 0, buffer := 0 }

/-! ## Searching -/

variable {b : Postbox} {portId : Word} {i : ℕ}

/-- `find_if` stops at the end, or at the first element with the property. -/
theorem findIf_spec (p : ℕ → Bool) (first n : ℕ) :
    (findIf p first n = first + n ∧ ∀ i < n, p (first + i) = false) ∨
      ∃ i < n, findIf p first n = first + i ∧ p (first + i) = true := by
  induction n generalizing first with
  | zero => exact Or.inl ⟨rfl, fun i hi => absurd hi (Nat.not_lt_zero i)⟩
  | succ n ih =>
    by_cases hp : p first = true
    · exact Or.inr ⟨0, by omega, by rw [findIf, if_pos hp]; rfl, hp⟩
    · rw [findIf, if_neg hp]
      rcases ih (first + 1) with ⟨hend, hnone⟩ | ⟨i, hi, hfound, hpi⟩
      · refine Or.inl ⟨by omega, fun i hi => ?_⟩
        by_cases hzero : i = 0
        · rw [hzero]
          exact Bool.eq_false_iff.mpr hp
        · have := hnone (i - 1) (by omega)
          rwa [show first + 1 + (i - 1) = first + i by omega] at this
      · exact Or.inr ⟨i + 1, by omega, by omega, by rwa [Nat.add_right_comm] at hpi⟩

/-- The port of a queue of the postbox. -/
def port (b : Postbox) (i : ℕ) : Word := PortQueue.port b.mem (b.ports i)

/-- A search for a port that no queue has. -/
theorem search_absent (h : ∀ i < b.size, b.port i ≠ portId) : b.search portId = b.size := by
  rcases findIf_spec (fun i => PortQueue.port b.mem (b.ports i) == portId) 0 b.size with
    ⟨hend, -⟩ | ⟨i, hi, -, hpi⟩
  · rw [search, hend, Nat.zero_add]
  · rw [Nat.zero_add, beq_iff_eq] at hpi
    exact absurd hpi (h i hi)

/-- A search for the port of a queue, when ports are unique. -/
theorem search_present (hunique : ∀ i < b.size, ∀ j < b.size, b.port i = b.port j → i = j)
    (hi : i < b.size) : b.search (b.port i) = i := by
  rcases findIf_spec (fun j => PortQueue.port b.mem (b.ports j) == b.port i) 0 b.size with
    ⟨-, hnone⟩ | ⟨j, hj, hfound, hpj⟩
  · have := hnone i hi
    rw [Nat.zero_add, beq_eq_false_iff_ne] at this
    exact absurd rfl this
  · rw [Nat.zero_add, beq_iff_eq] at hpj
    rw [search, hfound, Nat.zero_add]
    exact hunique j hj i hi hpj

end Postbox

end Muk
