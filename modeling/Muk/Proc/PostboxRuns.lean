import Muk.Lib.Run
import Muk.Memory.Heap
import Muk.Proc.PostboxListen

/-!
# Runs of the postbox

Any number of ports, and any order of calls: ports stay unique and queues stay apart, as
long as every push stays within the array of its own queue. Past the end of the array
lies whatever the heap has put there, which may be another queue.
-/

namespace Muk

open MessageList (Fields)

namespace Postbox

variable {b : Postbox} {portId x : Word} {msg : Message}

inductive PostboxEvent where
  | listen (portId : Word) (new : NewPort)
  | push (portId : Word) (msg : Message)
  | pop (portId : Word)

/-- One call. -/
def step (b : Postbox) : PostboxEvent → Postbox
  | .listen portId new => b.listen portId new
  | .push portId msg => b.push portId msg
  | .pop portId => (b.pop portId).2

/-- When a port is added, `new` returns fresh blocks. -/
def Allocated (b : Postbox) (e : PostboxEvent) : Prop :=
  ∀ portId new, e = .listen portId new → (∀ i < b.size, b.port i ≠ portId) → Fresh b new

/-- A push that finds room stays within the array of its queue. -/
def StaysInArray (b : Postbox) (e : PostboxEvent) : Prop :=
  ∀ portId msg, e = .push portId msg → InArray b portId

/-- The empty postbox is well formed. -/
theorem Wf.empty (m : Mem) : Wf (empty m) where
  size_le := le_rfl
  layout := by
    refine ⟨fun r hr => ?_, fun r s hr hs hne => ?_⟩
    · cases r with
      | buffer => simp [Block.Fits, block, Postbox.empty]
      | queue i => exact absurd hr (Nat.not_lt_zero i)
      | array i => exact absurd hr (Nat.not_lt_zero i)
    · cases r with
      | buffer => cases s with
        | buffer => exact absurd rfl hne
        | queue i => exact absurd hs (Nat.not_lt_zero i)
        | array i => exact absurd hs (Nat.not_lt_zero i)
      | queue i => exact absurd hr (Nat.not_lt_zero i)
      | array i => exact absurd hr (Nat.not_lt_zero i)
  port_inj := fun i hi => absurd hi (Nat.not_lt_zero i)
  fields := fun i hi => absurd hi (Nat.not_lt_zero i)

/-- Every call preserves the invariant of the postbox, if what it allocates is fresh and its queue
stays in its array. -/
theorem Wf.step (hw : Wf b) {e : PostboxEvent} (halloc : Allocated b e)
    (hstays : StaysInArray b e) :
    Wf (step b e) := by
  cases e with
  | listen portId new =>
    by_cases habsent : ∀ i < b.size, b.port i ≠ portId
    · exact (hw.listen habsent (halloc portId new rfl habsent)).1
    · obtain ⟨i, hi, rfl⟩ : ∃ i, ∃ _ : i < b.size, b.port i = portId := by simpa using habsent
      rw [Postbox.step, listen_present hw.port_inj hi]
      exact hw
  | push portId msg => exact (hw.push (hstays portId msg rfl) msg).1
  | pop portId => exact (hw.pop portId).1

/-- What is promised of the postbox in every state. -/
structure PortsIsolated (b : Postbox) : Prop where
  /-- No two queues have the same port. -/
  unique : ∀ i < b.size, ∀ j < b.size, b.port i = b.port j → i = j
  /-- Every queue holds between 0 and 32 messages. -/
  bounded : ∀ i < b.size, 0 ≤ (b.queueState i).listSize ∧ (b.queueState i).listSize ≤ 32
  /-- Listening on a port again changes nothing. -/
  listen_again : ∀ i < b.size, ∀ new, b.listen (b.port i) new = b
  /-- Listening on a new port only appends an empty queue. -/
  listen_new : ∀ portId new, (∀ i < b.size, b.port i ≠ portId) → Fresh b new →
    Appended portId b (b.listen portId new)
  /-- A push leaves the queues with other ports alone. -/
  push : ∀ portId msg, InArray b portId → Isolated portId b (b.push portId msg)
  /-- So does a pop. -/
  pop : ∀ portId, Isolated portId b (b.pop portId).2
  /-- Calls for a port no one listens on change nothing. -/
  absent : ∀ portId, (∀ i < b.size, b.port i ≠ portId) →
    (∀ msg, b.push portId msg = b) ∧ b.pop portId = (kMessageNull, b)
  /-- A pop from an empty queue returns the null message. -/
  pop_empty : ∀ i < b.size, (b.queueState i).listSize = 0 →
    b.pop (b.port i) = (kMessageNull, b)

/-- The ports of a well-formed postbox do not touch each other. -/
theorem Wf.portsIsolated (hw : Wf b) : PortsIsolated b where
  unique := hw.port_inj
  bounded := by
    intro i hi
    obtain ⟨head, count, -, hcount, hf⟩ := hw.fields i hi
    simp only [queueState, hf.size_eq hcount]
    omega
  listen_again := fun i hi new => listen_present hw.port_inj hi new
  listen_new := fun portId new habsent hfresh => (hw.listen habsent hfresh).2
  push := fun portId msg hcond => (hw.push hcond msg).2
  pop := fun portId => (hw.pop portId).2
  absent := fun portId habsent => ⟨push_absent habsent, pop_absent habsent⟩
  pop_empty := fun i hi hempty => hw.pop_empty hi hempty

/-- **Ports are unique and isolated** in every run in which each push that is accepted
stays within the array of its queue. -/
theorem ports_isolated (m : Mem) (events : List PostboxEvent)
    (halloc : Along step Allocated (empty m) events)
    (hstays : Along step StaysInArray (empty m) events) :
    PortsIsolated (runSteps step (empty m) events) := by
  have hw : Wf (runSteps step (empty m) events) := (halloc.and hstays).invariant (Wf.empty m)
    fun b e hw ⟨halloc, hstays⟩ => hw.step halloc hstays
  exact hw.portsIsolated

/-! ## Past the end of an array -/

/-- The blocks that are taken from the heap while two ports are added. -/
def portBlocks : List ℕ := [16, 260, 4, 16, 260, 8]

/-- The addresses that `vmalloc` returns for them, when nothing else is allocated. -/
def newPort (i : ℕ) : NewPort where
  queue := Heap.payloadAddr portBlocks (3 * i)
  array := Heap.payloadAddr portBlocks (3 * i + 1) + 4#32
  buffer := Heap.payloadAddr portBlocks (3 * i + 2)

/-- The postbox with two ports. -/
def twoPorts : Postbox := ((empty fun _ => 0).listen 1 (newPort 0)).listen 2 (newPort 1)

/-- A search for the port of the first queue. -/
theorem search_first (hsize : 0 < b.size) (hport : b.port 0 = portId) : b.search portId = 0 := by
  obtain ⟨n, hn⟩ : ∃ n, b.size = n + 1 := ⟨b.size - 1, by omega⟩
  have hfirst : (PortQueue.port b.mem (b.ports 0) == portId) = true := by
    rw [beq_iff_eq]
    exact hport
  rw [search, hn, findIf, if_pos hfirst]

/-- The two ports while messages are pushed to the first one, whose array lies at
`0xE000002C` and whose slots from 32 on lie before the other queue, at `0xE0000148`. -/
structure Overrun (b : Postbox) (head count : ℕ) : Prop where
  size : b.size = 2
  first : b.ports 0 = 0xE000000C#32
  second : b.ports 1 = 0xE0000148#32
  buffer : b.buffer = 0xE0000274#32
  port : load32 b.mem 0xE000000C#32 = 1
  high : b.mem 0xE0000149#32 = 0 ∧ b.mem 0xE000014A#32 = 0 ∧ b.mem 0xE000014B#32 = 0
  fields : Fields b.mem 0xE0000010#32 head count 0xE000002C#32

/-- The state with two ports, before the pushes that run over the array. -/
theorem overrun_twoPorts : Overrun twoPorts 0 0 :=
  ⟨by decide +kernel, by decide +kernel, by decide +kernel, by decide +kernel,
    by decide +kernel, by decide +kernel,
    ⟨by decide +kernel, by decide +kernel, by decide +kernel⟩⟩

/-- The memory before the last byte of slot 35 holds none of these but the fields of the
first queue. -/
theorem Overrun.congr {head count head' count' : ℕ} (h : Overrun b head count) {m' : Mem}
    (hfields : Fields m' 0xE0000010#32 head' count' 0xE000002C#32)
    (hsame : ∀ x : Word, x.toNat < 0xE0000010 ∨ 0xE0000149 ≤ x.toNat → m' x = b.mem x) :
    Overrun { b with mem := m' } head' count' := by
  obtain ⟨hhigh, hhigh', hhigh''⟩ := h.high
  have hbuffer := h.buffer
  refine ⟨h.size, ?_, ?_, hbuffer, ?_, ⟨?_, ?_, ?_⟩, hfields⟩
  · rw [← h.first, ports, ports]
    simp only [hbuffer]
    exact load32_congr fun x hx => hsame x (by bv_omega)
  · rw [← h.second, ports, ports]
    simp only [hbuffer]
    exact load32_congr fun x hx => hsame x (by bv_omega)
  · rw [← h.port]
    exact load32_congr fun x hx => hsame x (by bv_omega)
  · exact (hsame _ (by decide)).trans hhigh
  · exact (hsame _ (by decide)).trans hhigh'
  · exact (hsame _ (by decide)).trans hhigh''

/-- The first port is still found at its place. -/
theorem Overrun.search {head count : ℕ} (h : Overrun b head count) : b.search 1 = 0 := by
  apply search_first (by rw [h.size]; omega)
  rw [Postbox.port, h.first]
  exact h.port

/-- The slots up to number 35 are apart from the list object. -/
theorem slotApart_overrun {slot : ℕ} (hslot : slot ≤ 35) :
    MessageList.SlotApart 0xE0000010#32 0xE000002C#32 slot := by
  simp only [MessageList.SlotApart, MessageList.slotOf, Message.size]
  bv_omega

/-- A push to the first port, in its array or past the end of it. -/
theorem Overrun.push {head count : ℕ} (h : Overrun b head count) (hhead : head ≤ 5)
    (hcount : count < 32) (msg : Message) : Overrun (b.push 1 msg) head (count + 1) ∧
      (b.push 1 msg).mem = MessageList.pushed b.mem 0xE0000010#32 0xE000002C#32 head count msg := by
  have hslot : MessageList.wrapped (head + count) ≤ 35 := by
    rw [MessageList.wrapped]
    omega
  have hapart := slotApart_overrun hslot
  have hpush : b.push 1 msg = { b with
      mem := MessageList.pushed b.mem 0xE0000010#32 0xE000002C#32 head count msg } := by
    have hthis : PortQueue.messages (b.ports 0) = 0xE0000010#32 := by rw [h.first]; rfl
    simp only [Postbox.push, h.search, hthis, h.fields.push_eq (by omega) hcount hapart, h.size]
    rfl
  rw [hpush]
  refine ⟨h.congr (h.fields.pushed hapart) fun x hx => ?_, rfl⟩
  refine MessageList.pushed_frame ?_ (by bv_omega)
  simp only [MessageList.slotOf, Message.size]
  bv_omega

/-- A pop moves the first port on by one slot. -/
theorem Overrun.pop {head count : ℕ} (h : Overrun b head count) (hhead : head < 5)
    (hcount : 0 < count) (hle : count ≤ 32) : Overrun (b.pop 1).2 (head + 1) (count - 1) := by
  have hthis : PortQueue.messages (b.ports 0) = 0xE0000010#32 := by rw [h.first]; rfl
  have hnext : MessageList.wrapped (head + 1) = head + 1 := by
    rw [MessageList.wrapped]
    omega
  have hsize : (0 : ℤ) < count := by omega
  have hpop : (b.pop 1).2 =
      { b with mem := MessageList.popped b.mem 0xE0000010#32 head count } := by
    simp only [Postbox.pop, h.search, hthis, h.fields.size_eq hle, if_pos hsize,
      h.fields.pop_eq (by omega) hcount hle, h.size]
    rfl
  have hfields := h.fields.popped
  rw [hnext] at hfields
  rw [hpop]
  exact h.congr hfields fun x hx => MessageList.popped_frame (by bv_omega)

/-- The data of a message in slot 35 is the first byte of the other queue. -/
theorem pushed_slot_35 (m : Mem) (msg : Message) :
    MessageList.pushed m 0xE0000010#32 0xE000002C#32 5 31 msg 0xE0000148#32 = msg.data := by
  have hslot : MessageList.slotOf 0xE000002C#32 (MessageList.wrapped (5 + 31)) = 0xE0000144#32 := by
    decide
  rw [MessageList.pushed, store32_frame _ _ (by decide), hslot, Message.store]
  exact store8_same ..

/-- A first byte of the other queue is its port, the other three being zero. -/
theorem Overrun.second_port {head count : ℕ} (h : Overrun b head count) {data : Byte}
    (hdata : b.mem 0xE0000148#32 = data) :
    load32 b.mem 0xE0000148#32 = ofBytes 0 0 0 data := by
  obtain ⟨hhigh, hhigh', hhigh''⟩ := h.high
  have h1 : 0xE0000148#32 + 1#32 = 0xE0000149#32 := by decide
  have h2 : 0xE0000148#32 + 2#32 = 0xE000014A#32 := by decide
  have h3 : 0xE0000148#32 + 3#32 = 0xE000014B#32 := by decide
  rw [load32, h1, h2, h3, hhigh, hhigh', hhigh'', hdata]

/-- Pushes fill the first port, within its count. -/
theorem Overrun.pushes {head count : ℕ} (h : Overrun b head count) (hhead : head ≤ 5) {n : ℕ}
    (hn : count + n ≤ 32) (msg : Message) :
    Overrun (runSteps step b (List.replicate n (.push 1 msg))) head (count + n) := by
  induction n generalizing b count with
  | zero => exact h
  | succ n ih =>
    have hnext := ih (h.push hhead (by omega) msg).1 (by omega)
    rwa [show count + 1 + n = count + (n + 1) by omega] at hnext

/-- Pops move the first port on, as many slots as messages. -/
theorem Overrun.pops {head count : ℕ} (h : Overrun b head count) (hle : count ≤ 32) {n : ℕ}
    (hn : n ≤ count) (hhead : head + n ≤ 5) :
    Overrun (runSteps step b (List.replicate n (.pop 1))) (head + n) (count - n) := by
  induction n generalizing b head count with
  | zero => exact h
  | succ n ih =>
    have hnext := ih (h.pop (by omega) (by omega) hle) (by omega) (by omega) (by omega)
    rwa [show head + 1 + n = head + (n + 1) by omega,
      show count - 1 - n = count - (n + 1) by omega] at hnext

/-- The postbox with the first port. -/
def onePort : Postbox := (empty fun _ => 0).listen 1 (newPort 0)

/-- The place of the first port on the heap, and of its queue and its array. -/
theorem block_onePort : onePort.size = 1 ∧ onePort.capacity = 1 ∧
    onePort.buffer = 0xE0000138#32 ∧ onePort.ports 0 = 0xE000000C#32 ∧
      onePort.array 0 = 0xE000002C#32 := by
  refine ⟨?_, ?_, ?_, ?_, ?_⟩ <;> decide +kernel

/-- The blocks of the heap are fresh. -/
theorem fresh_newPort : Fresh (empty fun _ => 0) (newPort 0) ∧ Fresh onePort (newPort 1) := by
  obtain ⟨hsize, hcapacity, hbuffer, hqueue, harray⟩ := block_onePort
  have hblocks : newBlocks onePort (newPort 1) = [⟨0xE0000148#32, 16⟩, ⟨0xE0000164#32, 260⟩,
      ⟨0xE0000274#32, 8⟩] := by
    rw [newBlocks, hsize, hcapacity]
    rfl
  refine ⟨⟨by decide, by decide, by decide, fun k hk r hr => ?_⟩,
    ⟨by decide, ?_, ?_, fun k hk r hr => ?_⟩⟩
  · cases r with
    | buffer =>
      revert k
      decide
    | queue i => exact absurd hr (Nat.not_lt_zero i)
    | array i => exact absurd hr (Nat.not_lt_zero i)
  · rw [hblocks]
    decide
  · rw [hblocks]
    decide
  · rw [hblocks] at hk
    have hzero {i : ℕ} (hi : i < onePort.size) : i = 0 := by omega
    revert k
    cases r with
    | buffer =>
      rw [block, hbuffer, hcapacity]
      decide
    | queue i =>
      obtain rfl := hzero hr
      rw [block, hqueue]
      decide
    | array i =>
      obtain rfl := hzero hr
      rw [block, harray]
      decide

/-- Two ports are added, 32 messages are pushed to the first, five are popped, and five
more are pushed. -/
def overrun : List PostboxEvent :=
  .listen 1 (newPort 0) :: .listen 2 (newPort 1) :: (List.replicate 32 (.push 1 ⟨1, 1⟩) ++
    (List.replicate 5 (.pop 1) ++ (List.replicate 4 (.push 1 ⟨1, 1⟩) ++ [.push 1 ⟨1, 1⟩])))

/-- Only calls of `listen` take blocks. -/
theorem along_allocated {events : List PostboxEvent}
    (h : ∀ e ∈ events, ∀ portId new, e ≠ .listen portId new) : Along step Allocated b events := by
  induction events generalizing b with
  | nil => trivial
  | cons e events ih =>
    exact ⟨fun portId new he => absurd he (h e List.mem_cons_self portId new),
      ih fun e he => h e (List.mem_cons_of_mem _ he)⟩

/-- The last of these pushes writes over the port of the other queue. -/
theorem overrun_same_port : Along step Allocated (empty fun _ => 0) overrun ∧
    ∃ b, b = runSteps step (empty fun _ => 0) overrun ∧
      ∃ i < b.size, ∃ j < b.size, i ≠ j ∧ b.port i = b.port j := by
  obtain ⟨hfresh, hfresh'⟩ := fresh_newPort
  have h₁ := overrun_twoPorts.pushes (by omega) (n := 32) (by omega) ⟨1, 1⟩
  have h₂ := h₁.pops (by omega) (n := 5) (by omega) (by omega)
  have h₃ := h₂.pushes (by omega) (n := 4) (by omega) ⟨1, 1⟩
  obtain ⟨h₄, hmem⟩ := h₃.push (by omega) (by omega) ⟨1, 1⟩
  refine ⟨⟨fun _ _ h _ => ?_, fun _ _ h _ => ?_, along_allocated ?_⟩, ?_⟩
  · cases h
    exact hfresh
  · cases h
    exact hfresh'
  · intro e he portId new
    simp only [List.mem_append, List.mem_replicate, List.mem_singleton] at he
    rcases he with ⟨-, rfl⟩ | ⟨-, rfl⟩ | ⟨-, rfl⟩ | rfl <;> simp
  · have htwo : step (step (empty fun _ => 0) (.listen 1 (newPort 0))) (.listen 2 (newPort 1)) =
        twoPorts := rfl
    refine ⟨_, rfl, ?_⟩
    rw [overrun, runSteps_cons, runSteps_cons, htwo, runSteps_append, runSteps_append,
      runSteps_append, runSteps_cons, runSteps_nil, step]
    refine ⟨0, by rw [h₄.size]; omega, 1, by rw [h₄.size]; omega, by omega, ?_⟩
    have hdata := (congrFun hmem 0xE0000148#32).trans (pushed_slot_35 _ ⟨1, 1⟩)
    rw [port, port, h₄.first, h₄.second, PortQueue.port, PortQueue.port, h₄.port,
      h₄.second_port hdata]
    rfl

/-- Two ports, and a message to the first of them. -/
theorem ports_isolated_two : PortsIsolated (runSteps step (empty fun _ => 0)
    [.listen 1 (newPort 0), .listen 2 (newPort 1), .push 1 ⟨1, 65⟩]) := by
  obtain ⟨hfresh, hfresh'⟩ := fresh_newPort
  have hin : InArray twoPorts 1 := by
    intro i hi hport
    have hsecond : twoPorts.port 1 = 2#32 := by decide +kernel
    have hthis : PortQueue.messages (twoPorts.ports 0) = 0xE0000010#32 := by
      rw [overrun_twoPorts.first]
      rfl
    rw [overrun_twoPorts.size] at hi
    obtain rfl | rfl : i = 0 ∨ i = 1 := by omega
    · intro _
      simp only [queueState, hthis, overrun_twoPorts.fields.size_eq (by omega),
        overrun_twoPorts.fields.headIndex_eq (by omega)]
      decide
    · rw [hsecond] at hport
      exact absurd hport (by decide)
  refine ports_isolated (fun _ => 0) _ ⟨fun _ _ h _ => ?_, fun _ _ h _ => ?_,
    fun _ _ h => by simp at h, trivial⟩
    ⟨fun _ _ h => by simp at h, fun _ _ h => by simp at h, fun _ _ h => ?_, trivial⟩
  · cases h
    exact hfresh
  · cases h
    exact hfresh'
  · cases h
    exact hin

end Postbox

end Muk
