import Muk.Drivers.Drain
import Muk.Memory.Heap
import Muk.Proc.MessageRuns
import Muk.Proc.PostboxRuns

/-!
# The postbox as a list of queues

As long as each push finds a free slot before the end of its array, the postbox in memory does
what a list of queues does: each port has the messages that were pushed to it and not yet popped.
-/

namespace Muk

namespace IdealPostbox

/-- `Process::listen` -/
def listen (portId : Word) (b : IdealPostbox) : IdealPostbox :=
  if b.any (·.port = portId) then b else b ++ [⟨portId, []⟩]

variable {b : IdealPostbox} {portId : Word} {msg : Message} {i : ℕ}

/-- No two queues have the same port. -/
def Unique (b : IdealPostbox) : Prop := (b.map IdealPort.port).Nodup

/-- A push to a port that no one listens on is lost. -/
theorem push_absent (h : ∀ q ∈ b, q.port ≠ portId) (msg : Message) : b.push portId msg = b := by
  induction b with
  | nil => rfl
  | cons q rest ih =>
    obtain ⟨hq, hrest⟩ := List.forall_mem_cons.mp h
    rw [push, if_neg hq, ih hrest]

/-- A port that no one listens on has no messages. -/
theorem messages_absent (h : ∀ q ∈ b, q.port ≠ portId) : b.messages portId = [] := by
  induction b with
  | nil => rfl
  | cons q rest ih =>
    obtain ⟨hq, hrest⟩ := List.forall_mem_cons.mp h
    rw [messages, if_neg hq, ih hrest]

/-- The messages of a port are those of its queue. -/
theorem Unique.messages_eq (h : Unique b) (hi : i < b.length) :
    b.messages b[i].port = b[i].messages := by
  induction b generalizing i with
  | nil => exact absurd hi (Nat.not_lt_zero i)
  | cons q rest ih =>
    obtain ⟨hq, hrest⟩ := List.nodup_cons.mp h
    cases i with
    | zero => exact if_pos rfl
    | succ i =>
      have hi' : i < rest.length := Nat.lt_of_succ_lt_succ hi
      have hne : q.port ≠ rest[i].port := fun heq =>
        hq (List.mem_map.mpr ⟨_, List.getElem_mem hi', heq.symm⟩)
      rw [List.getElem_cons_succ, messages, if_neg hne]
      exact ih hrest hi'

/-- A push changes the queue with the port. -/
theorem Unique.push_eq (h : Unique b) (hi : i < b.length) (msg : Message) :
    b.push b[i].port msg = b.set i { b[i] with messages := b[i].messages ++ [msg] } := by
  induction b generalizing i with
  | nil => exact absurd hi (Nat.not_lt_zero i)
  | cons q rest ih =>
    obtain ⟨hq, hrest⟩ := List.nodup_cons.mp h
    cases i with
    | zero => exact if_pos rfl
    | succ i =>
      have hi' : i < rest.length := Nat.lt_of_succ_lt_succ hi
      have hne : q.port ≠ rest[i].port := fun heq =>
        hq (List.mem_map.mpr ⟨_, List.getElem_mem hi', heq.symm⟩)
      simp only [List.getElem_cons_succ, List.set_cons_succ]
      rw [push, if_neg hne, ih hrest hi']

/-- A pop takes the first message of the queue with the port. -/
theorem Unique.pop_eq (h : Unique b) (hi : i < b.length) {more : List Message}
    (hmessages : b[i].messages = msg :: more) :
    b.pop b[i].port = (msg, b.set i { b[i] with messages := more }) := by
  induction b generalizing i with
  | nil => exact absurd hi (Nat.not_lt_zero i)
  | cons q rest ih =>
    obtain ⟨hq, hrest⟩ := List.nodup_cons.mp h
    cases i with
    | zero =>
      rw [List.getElem_cons_zero] at hmessages
      simp only [List.getElem_cons_zero, pop, if_true, hmessages, List.set_cons_zero]
    | succ i =>
      have hi' : i < rest.length := Nat.lt_of_succ_lt_succ hi
      have hne : q.port ≠ rest[i].port := fun heq =>
        hq (List.mem_map.mpr ⟨_, List.getElem_mem hi', heq.symm⟩)
      rw [List.getElem_cons_succ] at hmessages
      simp only [List.getElem_cons_succ, List.set_cons_succ]
      rw [pop, if_neg hne, ih hrest hi' hmessages]

/-- The other queues are as they were. -/
theorem messages_pop_ne {other : Word} (h : other ≠ portId) :
    (b.pop other).2.messages portId = b.messages portId := by
  induction b with
  | nil => rfl
  | cons q rest ih =>
    unfold pop
    by_cases hq : q.port = other
    · have hne : ¬ q.port = portId := fun heq => h (hq.symm.trans heq)
      rw [if_pos hq]
      split <;> simp only [messages, if_neg hne]
    · rw [if_neg hq, messages, messages, ih]

/-- Listening does not change what a port has. -/
theorem messages_listen (b : IdealPostbox) (other portId : Word) :
    (b.listen other).messages portId = b.messages portId := by
  unfold listen
  split_ifs with h
  · rfl
  · induction b with
    | nil => simp [messages]
    | cons q rest ih =>
      have hrest : ¬ rest.any (·.port = other) = true := fun hany => h (by simp [hany])
      rw [List.cons_append, messages, messages, ih hrest]

/-- A push adds the message to its port, if a queue has the port. -/
theorem messages_push (h : ∃ q ∈ b, q.port = portId) (msg : Message) :
    (b.push portId msg).messages portId = b.messages portId ++ [msg] := by
  induction b with
  | nil => simp at h
  | cons q rest ih =>
    by_cases hq : q.port = portId
    · rw [push, if_pos hq, messages, messages, if_pos hq, if_pos hq]
    · have hrest : ∃ q ∈ rest, q.port = portId := by simpa [hq] using h
      rw [push, if_neg hq, messages, messages, if_neg hq, if_neg hq, ih hrest]

end IdealPostbox

namespace Postbox

/-- The list of a new port is apart from its array. -/
theorem Fresh.New.listApart {new : NewPort} (h : Fresh.New new) :
    MessageList.Apart (PortQueue.messages new.queue) new.array := by
  have hcookie := h.cookie
  have hqueue := h.queue_fits
  have harray := h.array_fits
  have hapart := h.apart
  simp only [Block.Fits, Block.Apart, queueBlock, arrayBlock, PortQueue.size, Message.size,
    MessageList.kMaxMessages] at *
  refine ⟨?_, hcookie, ?_, ?_⟩ <;>
    simp only [PortQueue.messages, Message.size, MessageList.kMaxMessages] <;> bv_omega

/-- Queue number `i` has the port and the messages. -/
structure HoldsQueue (b : Postbox) (i : ℕ) (q : IdealPort) : Prop where
  port : b.port i = q.port
  messages : ∃ head, MessageList.Represents b.mem (PortQueue.messages (b.ports i)) (b.array i) head
    q.messages

/-- The postbox has the given queues, in their order. -/
structure Represents (b : Postbox) (ideal : IdealPostbox) : Prop where
  wf : Wf b
  length : ideal.length = b.size
  apart : ∀ i < b.size, MessageList.Apart (PortQueue.messages (b.ports i)) (b.array i)
  queues : ∀ i (hi : i < ideal.length), b.HoldsQueue i ideal[i]

/-- A push to the port finds a free slot before the end of the array. -/
def HasRoom (b : Postbox) (portId : Word) : Prop :=
  ∀ i < b.size, b.port i = portId →
    (b.queueState i).headIndex + (b.queueState i).listSize < MessageList.kMaxMessages

variable {b : Postbox} {ideal : IdealPostbox} {portId : Word} {msg : Message} {i : ℕ} {m' : Mem}

/-- The ports of a postbox differ from each other. -/
theorem Represents.unique (h : Represents b ideal) : ideal.Unique := by
  refine List.pairwise_iff_getElem.mpr fun i j hi hj hij heq => ?_
  simp only [List.length_map] at hi hj
  simp only [List.getElem_map] at heq
  have hports : b.port i = b.port j := by rw [(h.queues i hi).port, heq, (h.queues j hj).port]
  have hlength := h.length
  have := h.wf.port_inj i (by omega) j (by omega) hports
  omega

/-- No queue has a port that no ideal queue has. -/
theorem Represents.absent_iff (h : Represents b ideal) :
    (∀ i < b.size, b.port i ≠ portId) ↔ ∀ q ∈ ideal, q.port ≠ portId := by
  constructor
  · intro habsent q hq
    obtain ⟨i, hi, rfl⟩ := List.getElem_of_mem hq
    rw [← (h.queues i hi).port]
    exact habsent i (h.length ▸ hi)
  · intro habsent i hi
    have hi' : i < ideal.length := h.length.symm ▸ hi
    rw [(h.queues i hi').port]
    exact habsent _ (List.getElem_mem hi')

/-- A call that writes to the array and the list of one queue. -/
theorem Represents.update (h : Represents b ideal) (hi : i < ideal.length)
    (hframe : b.WritesQueue i m') {held : List Message}
    (hqueue : ∃ head, MessageList.Represents m' (PortQueue.messages (b.ports i)) (b.array i) head
      held) :
    Represents { b with mem := m' } (ideal.set i { ideal[i] with messages := held }) := by
  have hi' : i < b.size := h.length ▸ hi
  let b' : Postbox := { b with mem := m' }
  obtain ⟨head, hrep⟩ := hqueue
  have hfits := hrep.fits
  obtain ⟨hwf, hport, -⟩ := h.wf.update hi' hframe
    ⟨head, held.length, hrep.head_le, by omega, hrep.fields⟩
  have hports {j : ℕ} (hj : j < b.size) : b'.ports j = b.ports j := h.wf.same_ports hi' hframe hj
  have hother {j : ℕ} (hj : j < b.size) (hji : j ≠ i) :=
    fields_congr (hports hj) (h.wf.same_queue hi' hframe hj hji)
  have harray {j : ℕ} (hj : j < b.size) : b'.array j = b.array j := by
    by_cases hji : j = i
    · rw [array, hports hj, hji]
      exact hrep.fields.array
    · exact (hother hj hji).2.1
  refine ⟨hwf, (List.length_set ..).trans h.length, fun j hj => ?_, fun j hj => ?_⟩
  · rw [hports hj, harray hj]
    exact h.apart j hj
  · rw [List.length_set] at hj
    have hj' : j < b.size := h.length ▸ hj
    obtain ⟨hportOld, headOld, hold⟩ := h.queues j hj
    by_cases hji : j = i
    · subst hji
      rw [List.getElem_set_self]
      refine ⟨(hport j hj').trans hportOld, head, ?_⟩
      rw [hports hj', harray hj']
      exact hrep
    · rw [List.getElem_set_ne (Ne.symm hji)]
      refine ⟨(hport j hj').trans hportOld, headOld, ?_⟩
      rw [hports hj', harray hj']
      -- the object and the array of another queue have the same bytes
      refine ⟨hold.fields.congr (hother hj' hji).2.2, hold.head_le, hold.fits, fun k hk => ?_⟩
      rw [← hold.slots k hk]
      refine Message.load_congr fun x hx => ?_
      apply h.wf.other_block hi' hframe (r := .array j) hj' (by simp) (by simpa using hji)
      have hfits := hold.fits
      simp only [Block.Has, block, MessageList.slotOf, Message.size,
        MessageList.kMaxMessages] at hx ⊢
      bv_omega

/-- **A push** does what it does to the list of queues. -/
theorem Represents.push (h : Represents b ideal) (hroom : HasRoom b portId) (msg : Message) :
    Represents (b.push portId msg) (ideal.push portId msg) := by
  by_cases habsent : ∀ i < b.size, b.port i ≠ portId
  · rw [push_absent habsent, IdealPostbox.push_absent (h.absent_iff.mp habsent)]
    exact h
  · obtain ⟨i, hi, rfl⟩ : ∃ i, ∃ _ : i < b.size, b.port i = portId := by simpa using habsent
    have hi' : i < ideal.length := h.length.symm ▸ hi
    obtain ⟨hport, head, hrep⟩ := h.queues i hi'
    have hend : head + ideal[i].messages.length < 32 := by
      have hfits := hrep.fits
      have hspace := hroom i hi rfl
      simp only [queueState, hrep.fields.size_eq (by omega), hrep.fields.headIndex_eq hrep.head_le,
        MessageList.kMaxMessages] at hspace
      omega
    have hframe : b.WritesQueue i (MessageList.pushed b.mem (PortQueue.messages (b.ports i))
        (b.array i) head ideal[i].messages.length msg) := by
      intro x hx hx'
      have hlast : MessageList.wrapped (head + ideal[i].messages.length) =
          head + ideal[i].messages.length := by
        rw [MessageList.wrapped]
        omega
      apply MessageList.pushed_frame
      · rw [hlast]
        simp only [Block.Has, block, MessageList.slotOf, Message.size,
          MessageList.kMaxMessages] at *
        bv_omega
      · bv_omega
    have hpush := (hrep.push_eq (h.apart i hi) hend msg).1
    rw [hport, h.unique.push_eq hi' msg, ← hport]
    simp only [Postbox.push, search_present h.wf.port_inj hi, if_pos hi.ne, hpush]
    exact h.update hi' hframe ⟨head, hrep.pushed (h.apart i hi) hend msg⟩

/-- **A pop** returns what it returns from the list of queues. -/
theorem Represents.pop (h : Represents b ideal) (portId : Word) :
    (b.pop portId).1 = (ideal.pop portId).1 ∧
      Represents (b.pop portId).2 (ideal.pop portId).2 := by
  by_cases habsent : ∀ i < b.size, b.port i ≠ portId
  · rw [pop_absent habsent,
      IdealPostbox.pop_nil (IdealPostbox.messages_absent (h.absent_iff.mp habsent))]
    exact ⟨rfl, h⟩
  · obtain ⟨i, hi, rfl⟩ : ∃ i, ∃ _ : i < b.size, b.port i = portId := by simpa using habsent
    have hi' : i < ideal.length := h.length.symm ▸ hi
    obtain ⟨hport, head, hrep⟩ := h.queues i hi'
    have hfits := hrep.fits
    have hsize := hrep.fields.size_eq (by omega)
    cases hmessages : ideal[i].messages with
    | nil =>
      have hempty : ideal.messages (b.port i) = [] := by
        rw [hport, h.unique.messages_eq hi', hmessages]
      have hzero : (b.queueState i).listSize = 0 := by
        rw [queueState, hsize, hmessages]
        rfl
      rw [h.wf.pop_empty hi hzero, IdealPostbox.pop_nil hempty]
      exact ⟨rfl, h⟩
    | cons msg more =>
      rw [hmessages] at hrep hfits hsize
      rw [List.length_cons] at hfits hsize
      have hmsg : Message.load b.mem (MessageList.slotOf (b.array i) head) = msg := by
        have hslot := hrep.slots 0 (Nat.zero_lt_succ _)
        rwa [Nat.add_zero] at hslot
      have hpop := hrep.fields.pop_eq hrep.head_le (Nat.zero_lt_succ _)
        (by rw [List.length_cons]; omega)
      rw [hmsg, List.length_cons] at hpop
      have hframe : b.WritesQueue i (MessageList.popped b.mem (PortQueue.messages (b.ports i)) head
          (more.length + 1)) := fun x _ hx' => MessageList.popped_frame (by omega)
      rw [hport, h.unique.pop_eq hi' hmessages, ← hport]
      simp only [Postbox.pop, search_present h.wf.port_inj hi, if_pos hi.ne, hsize,
        if_pos (Int.natCast_pos.mpr (Nat.zero_lt_succ more.length)), hpop, true_and]
      exact h.update hi' hframe ⟨_, hrep.popped (h.apart i hi)⟩

/-- Listening on a new port appends an empty queue. -/
theorem Represents.listen (h : Represents b ideal) {new : NewPort}
    (hfresh : (∀ i < b.size, b.port i ≠ portId) → Fresh b new) :
    Represents (b.listen portId new) (ideal.listen portId) := by
  by_cases habsent : ∀ i < b.size, b.port i ≠ portId
  · have hideal : ideal.listen portId = ideal ++ [⟨portId, []⟩] := by
      rw [IdealPostbox.listen, if_neg]
      simpa using h.absent_iff.mp habsent
    have hl := h.wf.listened habsent (hfresh habsent)
    have hn := (hfresh habsent).toNew
    have hnewArray : (b.listen portId new).array b.size = new.array := hl.newFields.array
    have hlength := h.length
    rw [hideal]
    refine ⟨(h.wf.listen habsent (hfresh habsent)).1, ?_, fun i hi => ?_, fun i hi => ?_⟩
    · rw [List.length_append, List.length_singleton, hl.size, h.length]
    · rcases hl.lt_or_eq hi with hi | rfl
      · rw [hl.ports i hi, (hl.fields hi).2.1]
        exact h.apart i hi
      · rw [hl.newPtr, hnewArray]
        exact hn.listApart
    · rw [List.length_append, List.length_singleton] at hi
      by_cases hold : i < ideal.length
      · have hi' : i < b.size := h.length ▸ hold
        obtain ⟨hport, head, hrep⟩ := h.queues i hold
        rw [List.getElem_append_left hold]
        refine ⟨(hl.fields hi').1.trans hport, head, ?_⟩
        rw [hl.ports i hi', (hl.fields hi').2.1]
        refine ⟨hrep.fields.congr (hl.fields hi').2.2, hrep.head_le, hrep.fits, fun k hk => ?_⟩
        rw [← hrep.slots k hk]
        refine Message.load_congr fun x hx => hl.same (.array i) hi' (by simp) x ?_
        have hfits := hrep.fits
        simp only [Block.Has, block, MessageList.slotOf, Message.size,
          MessageList.kMaxMessages] at hx ⊢
        bv_omega
      · obtain rfl : i = b.size := by omega
        rw [List.getElem_append_right (by omega)]
        simp only [hlength, Nat.sub_self, List.getElem_cons_zero]
        refine ⟨hl.newPort, 0, ?_⟩
        rw [hnewArray]
        exact ⟨hl.newFields, by omega, Nat.zero_le _, fun k hk => absurd hk (Nat.not_lt_zero k)⟩
  · obtain ⟨i, hi, rfl⟩ : ∃ i, ∃ _ : i < b.size, b.port i = portId := by simpa using habsent
    have hi' : i < ideal.length := h.length.symm ▸ hi
    have hany : ideal.any (·.port = b.port i) = true :=
      List.any_eq_true.mpr ⟨ideal[i], List.getElem_mem hi', by simp [(h.queues i hi').port]⟩
    rw [listen_present h.wf.port_inj hi, IdealPostbox.listen, if_pos hany]
    exact h

/-- The empty postbox has no queues. -/
theorem Represents.empty (m : Mem) : Represents (empty m) [] where
  wf := Wf.empty m
  length := rfl
  apart := fun i hi => absurd hi (Nat.not_lt_zero i)
  queues := fun i hi => absurd hi (Nat.not_lt_zero i)

/-! ## Runs -/

/-- A call, and the message that it returns. -/
def call (b : Postbox) : PostboxEvent → Postbox × List Message
  | .listen portId new => (b.listen portId new, [])
  | .push portId msg => (b.push portId msg, [])
  | .pop portId => ((b.pop portId).2, [(b.pop portId).1])

/-- The same call on the list of queues. -/
def idealCall (ideal : IdealPostbox) : PostboxEvent → IdealPostbox × List Message
  | .listen portId _ => (ideal.listen portId, [])
  | .push portId msg => (ideal.push portId msg, [])
  | .pop portId => ((ideal.pop portId).2, [(ideal.pop portId).1])

/-- A push to the port finds room, if there is a queue with the port. -/
def FindsRoom (b : Postbox) (e : PostboxEvent) : Prop :=
  ∀ portId msg, e = .push portId msg → HasRoom b portId

/-- A call changes the postbox as its step does. -/
theorem call_fst (b : Postbox) (e : PostboxEvent) : (call b e).1 = step b e := by
  cases e <;> rfl

/-- Each call does and returns what it does with unbounded queues, if there is room. -/
theorem Represents.call (h : Represents b ideal) {e : PostboxEvent} (halloc : Allocated b e)
    (hroom : FindsRoom b e) :
    Represents (b.call e).1 (idealCall ideal e).1 ∧ (b.call e).2 = (idealCall ideal e).2 := by
  cases e with
  | listen portId new => exact ⟨h.listen (halloc portId new rfl), rfl⟩
  | push portId msg => exact ⟨h.push (hroom portId msg rfl) msg, rfl⟩
  | pop portId =>
    obtain ⟨hmsg, hrep⟩ := h.pop portId
    exact ⟨hrep, congrArg (fun msg => [msg]) hmsg⟩

/-- **The postbox is a list of queues,** one for each port: in every run in which each push finds a
free slot before the end of its array, all calls of `pop` return what they return from queues of
any length. -/
theorem postbox_queues (m : Mem) (events : List PostboxEvent)
    (halloc : Along step Allocated (empty m) events)
    (hroom : Along step FindsRoom (empty m) events) :
    (runOutput call (empty m) events).2 = (runOutput idealCall [] events).2 ∧
      Represents (runOutput call (empty m) events).1 (runOutput idealCall [] events).1 := by
  obtain ⟨b, hb⟩ : ∃ b, b = Postbox.empty m := ⟨_, rfl⟩
  obtain ⟨ideal, hideal⟩ : ∃ ideal : IdealPostbox, ideal = [] := ⟨_, rfl⟩
  have h : Represents b ideal := by
    rw [hb, hideal]
    exact Represents.empty m
  rw [← hb] at halloc hroom ⊢
  rw [← hideal]
  clear hb hideal
  induction events generalizing b ideal with
  | nil => exact ⟨rfl, h⟩
  | cons e events ih =>
    obtain ⟨hrep, hresult⟩ := h.call halloc.1 hroom.1
    have hnext := ih (b.call e).1 (by rw [call_fst]; exact hroom.2)
      (by rw [call_fst]; exact halloc.2) (idealCall ideal e).1 hrep
    rw [runOutput_cons, runOutput_cons]
    exact ⟨by rw [hresult, hnext.1], hnext.2⟩

/-- A message to the first of two ports, and a pop from each of them. -/
def twoPortsRun : List PostboxEvent :=
  [.listen 1 (newPort 0), .listen 2 (newPort 1), .push 1 ⟨1, 65⟩, .pop 2, .pop 1]

/-- Of two ports, the second one has its message and the first one has none. -/
theorem postbox_queues_two :
    (runOutput call (empty fun _ => 0) twoPortsRun).2 = [kMessageNull, ⟨1, 65⟩] := by
  obtain ⟨hfresh, hfresh'⟩ := fresh_newPort
  have hroom : HasRoom twoPorts 1 := by
    intro i hi hport
    have hsecond : twoPorts.port 1 = 2#32 := by decide +kernel
    have hthis : PortQueue.messages (twoPorts.ports 0) = 0xE0000010#32 := by
      rw [overrun_twoPorts.first]
      rfl
    rw [overrun_twoPorts.size] at hi
    obtain rfl | rfl : i = 0 ∨ i = 1 := by omega
    · simp only [queueState, hthis, overrun_twoPorts.fields.size_eq (by omega),
        overrun_twoPorts.fields.headIndex_eq (by omega)]
      decide
    · rw [hsecond] at hport
      exact absurd hport (by decide)
  refine (postbox_queues (fun _ => 0) twoPortsRun ⟨fun _ _ h _ => ?_, fun _ _ h _ => ?_,
    fun _ _ h => by simp at h, fun _ _ h => by simp at h, fun _ _ h => by simp at h, trivial⟩
    ⟨fun _ _ h => by simp at h, fun _ _ h => by simp at h, fun _ _ h => ?_,
      fun _ _ h => by simp at h, fun _ _ h => by simp at h, trivial⟩).1
  · cases h
    exact hfresh
  · cases h
    exact hfresh'
  · cases h
    exact hroom

end Postbox

end Muk
