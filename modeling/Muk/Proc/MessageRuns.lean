import Muk.Lib.Fifo
import Muk.Lib.Run
import Muk.Proc.Message

/-!
# Runs of a message list

As long as no push crosses the end of the array, a `MessageList` is a queue: the slots
from `head_index` on hold the messages that were accepted and not yet popped. The head
only moves forward, so a list that is never drained crosses the end after 32 messages,
and `wrap` then leads out of the array.
-/

namespace Muk

namespace MessageList

inductive ListEvent where
  | push (msg : Message)
  | pop

/-- A list at an address, with the messages that `push` accepted, those that `pop` returned,
and the slots that were used. -/
structure ListRun where
  mem : Mem
  accepted : List Message
  delivered : List Message
  slots : List ℤ

/-- One call. -/
def step (this : Word) (r : ListRun) : ListEvent → ListRun
  | .push msg =>
    let (accepted, m) := push r.mem this msg
    if accepted then
      { r with
        mem := m
        accepted := r.accepted ++ [msg]
        slots := r.slots ++ [pushSlot r.mem this] }
    else { r with mem := m }
  | .pop =>
    let (msg, m) := pop r.mem this
    { r with
      mem := m
      delivered := r.delivered ++ [msg]
      slots := r.slots ++ [headIndex r.mem this] }

/-- A fresh list. -/
def fresh (m : Mem) (this array : Word) : ListRun :=
  { mem := construct m this array, accepted := [], delivered := [], slots := [] }

/-- `pop` is called only when `size() > 0`, as `MessageQueue::pop` checks. -/
def Guarded (this : Word) (r : ListRun) (e : ListEvent) : Prop := e = .pop → 0 < size r.mem this

/-- A push that finds room does not reach the end of the array. -/
def BeforeEnd (this : Word) (r : ListRun) (e : ListEvent) : Prop :=
  ∀ msg, e = .push msg → size r.mem this < kMaxMessages →
    headIndex r.mem this + size r.mem this < kMaxMessages

/-! ## The queue that the slots hold -/

variable {m : Mem} {this array : Word} {head : ℕ} {msg : Message} {held : List Message}
  {r : ListRun} {e : ListEvent}

/-- The list holds the given messages in the slots from its head on. -/
structure Represents (m : Mem) (this array : Word) (head : ℕ) (held : List Message) : Prop where
  fields : Fields m this head held.length array
  head_le : head ≤ 31
  fits : head + held.length ≤ 32
  slots : ∀ i (hi : i < held.length), Message.load m (slotOf array (head + i)) = held[i]

/-- Different slots have no byte in common. -/
theorem slotOf_apart {i j : ℕ} (hi : i < 32) (hj : j < 32) (hij : i ≠ j) :
    5 ≤ (slotOf array i - slotOf array j).toNat := by
  simp only [slotOf, Message.size]
  bv_omega

/-- A message in a slot of the array is not part of the list object. -/
theorem Apart.load_congr (h : Apart this array) {m' : Mem} {slot : ℕ} (hslot : slot < 32)
    (hsame : ∀ x, 12 ≤ (x - this).toNat → m' x = m x) :
    Message.load m' (slotOf array slot) = Message.load m (slotOf array slot) := by
  obtain ⟨hab, hba⟩ := h.slotApart hslot
  exact Message.load_congr fun x hx => hsame x (by bv_omega)

/-- A pushed message is the last one that the list holds. -/
theorem Represents.pushed (h : Apart this array) (hr : Represents m this array head held)
    (hend : head + held.length < 32) (msg : Message) :
    Represents (pushed m this array head held.length msg) this array head (held ++ [msg]) := by
  have hlast : wrapped (head + held.length) = head + held.length := by
    rw [wrapped, Nat.div_eq_of_lt hend, Nat.sub_zero]
  have hapart := h.slotApart hend
  rw [← hlast] at hapart
  refine ⟨?_, hr.head_le, ?_, fun i hi => ?_⟩
  · rw [List.length_append, List.length_singleton]
    exact hr.fields.pushed hapart
  · rw [List.length_append, List.length_singleton]
    omega
  · rw [List.length_append, List.length_singleton] at hi
    have hsize : Message.load (MessageList.pushed m this array head held.length msg)
        (slotOf array (head + i)) =
        Message.load (Message.store m (slotOf array (head + held.length)) msg)
          (slotOf array (head + i)) := by
      apply h.load_congr (by omega)
      intro x hx
      rw [MessageList.pushed, hlast, store32_frame _ _ (by bv_omega)]
    rw [hsize]
    by_cases hi' : i = held.length
    · subst hi'
      rw [Message.load_store_same, List.getElem_concat_length rfl]
    · rw [Message.load_store_disjoint (slotOf_apart (by omega) hend (by omega))
        (slotOf_apart hend (by omega) (by omega)), hr.slots i (by omega),
        List.getElem_append_left (by omega)]

/-- A popped message is no longer held. -/
theorem Represents.popped (h : Apart this array) (hr : Represents m this array head (msg :: held)) :
    Represents (popped m this head (held.length + 1)) this array (wrapped (head + 1)) held := by
  have hfits := hr.fits
  have hhead := hr.head_le
  rw [List.length_cons] at hfits
  have hnext : wrapped (head + 1) ≤ 31 ∧ wrapped (head + 1) + held.length ≤ 32 := by
    rw [wrapped]
    omega
  refine ⟨hr.fields.popped, hnext.1, hnext.2, fun i hi => ?_⟩
  have hsame : wrapped (head + 1) + i = head + (i + 1) := by
    rw [wrapped]
    omega
  rw [h.load_congr (by omega) fun x hx => popped_frame (by omega), hsame,
    hr.slots (i + 1) (by rw [List.length_cons]; omega)]
  rfl

/-! ## Runs -/

/-- The invariant: what the run has accepted and delivered are the ends of a queue whose
held messages are in the slots. -/
structure Inv (this array : Word) (r : ListRun) : Prop where
  queue : ∃ (q : Fifo Message) (head : ℕ), q.accepted = r.accepted ∧ q.delivered = r.delivered ∧
    Represents r.mem this array head q.held
  slots : ∀ slot ∈ r.slots, 0 ≤ slot ∧ slot < 32

/-- A new list has accepted nothing and holds nothing. -/
theorem Inv.fresh (h : Apart this array) (m : Mem) : Inv this array (fresh m this array) where
  queue := ⟨Fifo.empty, 0, rfl, rfl, construct_fields h, by omega, by decide,
    fun i hi => absurd hi (Nat.not_lt_zero i)⟩
  slots := by simp [MessageList.fresh]

/-- A push of a list that is not full, short of the end of the array. -/
theorem Represents.push_eq (h : Apart this array) (hr : Represents m this array head held)
    (hend : head + held.length < 32) (msg : Message) :
    push m this msg = (true, MessageList.pushed m this array head held.length msg) ∧
      pushSlot m this = (head + held.length : ℕ) := by
  have hlast : wrapped (head + held.length) = head + held.length := by
    rw [wrapped, Nat.div_eq_of_lt hend, Nat.sub_zero]
  have hapart := h.slotApart hend
  rw [← hlast] at hapart
  refine ⟨hr.fields.push_eq hr.head_le (by omega) hapart, ?_⟩
  rw [hr.fields.pushSlot_eq hr.head_le (by omega), hlast]

/-- Every guarded call before the end of the array preserves the invariant of the list. -/
theorem Inv.step (h : Apart this array) (hr : Inv this array r) (hguard : Guarded this r e)
    (hend : BeforeEnd this r e) : Inv this array (step this r e) := by
  obtain ⟨q, head, haccepted, hdelivered, hrep⟩ := hr.queue
  have hfits := hrep.fits
  have hsize := hrep.fields.size_eq (by omega)
  cases e with
  | push msg =>
    by_cases hfull : q.held.length = 32
    · have hpush : push r.mem this msg = (false, r.mem) := by
        have hfields := hrep.fields
        rw [hfull] at hfields
        exact hfields.push_full
      simp only [MessageList.step, hpush, Bool.false_eq_true, if_false]
      exact hr
    · have hroom : head + q.held.length < 32 := by
        have hbefore := hend msg rfl
        rw [hsize, hrep.fields.headIndex_eq hrep.head_le, kMaxMessages] at hbefore
        have := hbefore (by omega)
        omega
      obtain ⟨hpush, hslot⟩ := hrep.push_eq h hroom msg
      simp only [MessageList.step, hpush, if_true]
      refine ⟨⟨q.push msg, head, ?_, hdelivered, hrep.pushed h hroom msg⟩, fun slot hmem => ?_⟩
      · exact congrArg (· ++ [msg]) haccepted
      · rcases List.mem_append.mp hmem with hold | hnew
        · exact hr.slots slot hold
        · rw [List.mem_singleton.mp hnew, hslot]
          omega
  | pop =>
    have hpos := hguard rfl
    rw [hsize] at hpos
    obtain ⟨msg, held, hheld⟩ : ∃ msg held, q.held = msg :: held :=
      List.exists_cons_of_length_pos (by omega)
    have hcount : q.held.length = held.length + 1 := by rw [hheld, List.length_cons]
    have hpop := hrep.fields.pop_eq hrep.head_le (by omega) (by omega)
    have hmsg : Message.load r.mem (slotOf array head) = msg := by
      have hslot := hrep.slots 0 (by omega)
      rw [Nat.add_zero] at hslot
      rw [hslot]
      simp only [hheld, List.getElem_cons_zero]
    have hpopped := hrep
    rw [hheld] at hpopped
    simp only [MessageList.step, hpop, hmsg, hcount]
    refine ⟨⟨q.pop hheld, wrapped (head + 1), haccepted, ?_, hpopped.popped h⟩, fun slot hmem => ?_⟩
    · exact congrArg (· ++ [msg]) hdelivered
    · rcases List.mem_append.mp hmem with hold | hnew
      · exact hr.slots slot hold
      · have hhead := hrep.head_le
        rw [List.mem_singleton.mp hnew, hrep.fields.headIndex_eq hhead]
        omega

/-- **A message list is a bounded queue** in every run in which no push reaches the end of
the array: only its own 32 slots are used, `push` refuses a message exactly when 32 are
held and then changes nothing, and messages are popped once and in the order in which
they were accepted. -/
theorem bounded_fifo (h : Apart this array) (m : Mem) (events : List ListEvent)
    (hguard : Along (step this) (Guarded this) (fresh m this array) events)
    (hend : Along (step this) (BeforeEnd this) (fresh m this array) events) :
    let r := runSteps (step this) (fresh m this array) events
    (∀ slot ∈ r.slots, 0 ≤ slot ∧ slot < 32) ∧
      r.delivered <+: r.accepted ∧
      size r.mem this = r.accepted.length - r.delivered.length ∧
      ∀ msg, ((push r.mem this msg).1 = false ↔ r.accepted.length = r.delivered.length + 32) ∧
        ((push r.mem this msg).1 = false → (push r.mem this msg).2 = r.mem) := by
  intro r
  have hr : Inv this array r := (hguard.and hend).invariant (Inv.fresh h m)
    fun r e hr ⟨hguard, hend⟩ => hr.step h hguard hend
  obtain ⟨q, head, haccepted, hdelivered, hrep⟩ := hr.queue
  have hfits := hrep.fits
  have hlength := q.length_held
  have hsize := hrep.fields.size_eq (by omega)
  rw [← haccepted, ← hdelivered]
  refine ⟨hr.slots, q.delivered_first, by rw [hsize]; omega, fun msg => ?_⟩
  have hlt : size r.mem this < kMaxMessages ↔ q.held.length < 32 := by
    rw [hsize, kMaxMessages]
    omega
  by_cases hroom : size r.mem this < kMaxMessages
  · have hheld := hlt.mp hroom
    simp only [push, if_pos hroom, Bool.true_eq_false, false_iff, false_imp_iff, and_true]
    omega
  · have hheld := mt hlt.mpr hroom
    simp only [push, if_neg hroom, true_iff, implies_true, and_true]
    omega

/-- Memory after a call is what the push or the pop of the list makes of it. -/
theorem step_mem (this : Word) (r : ListRun) (e : ListEvent) : (step this r e).mem =
    match e with
    | .push msg => (push r.mem this msg).2
    | .pop => (pop r.mem this).2 := by
  cases e with
  | push msg =>
    simp only [step]
    split_ifs <;> rfl
  | pop => rfl

/-- Memory after a number of pushes. -/
theorem runSteps_pushes_mem (msg : Message) (n : ℕ) (r : ListRun) :
    (runSteps (step this) r (List.replicate n (.push msg))).mem =
      (fun m => (push m this msg).2)^[n] r.mem := by
  induction n generalizing r with
  | zero => rfl
  | succ n ih =>
    rw [List.replicate_succ, runSteps_cons, ih, step_mem, Function.iterate_succ_apply]

/-- Calls of `push` need no guard. -/
theorem along_guarded_push (n : ℕ) (msg : Message) (r : ListRun) :
    Along (step this) (Guarded this) r (List.replicate n (.push msg)) := by
  induction n generalizing r with
  | zero => trivial
  | succ n ih => exact ⟨fun h => by simp at h, ih _⟩

/-- A list at 0x1000 and its array at 0x2000. -/
theorem apart_example : Apart 0x1000#32 0x2000#32 :=
  ⟨by decide, by decide, by decide, by decide⟩

/-- The slots of the example are apart from the list. -/
theorem slotApart_example (slot : ℕ) (hslot : slot < 63) :
    SlotApart 0x1000#32 0x2000#32 slot := by
  simp only [SlotApart, slotOf, Message.size]
  bv_omega

/-- 32 messages are pushed, two are popped, and two more are pushed. -/
def pastEnd : List ListEvent :=
  List.replicate 32 (.push ⟨1, 65⟩) ++ [.pop, .pop, .push ⟨1, 66⟩, .push ⟨1, 66⟩]

/-- The last of these pushes uses slot 32. -/
theorem push_past_end : Apart 0x1000#32 0x2000#32 ∧
    Along (step 0x1000#32) (Guarded 0x1000#32) (fresh (fun _ => 0) 0x1000#32 0x2000#32) pastEnd ∧
      32 ∈ (runSteps (step 0x1000#32) (fresh (fun _ => 0) 0x1000#32 0x2000#32) pastEnd).slots := by
  obtain ⟨r, hr⟩ : ∃ r, r = runSteps (step 0x1000#32) (fresh (fun _ => 0) 0x1000#32 0x2000#32)
    (List.replicate 32 (.push ⟨1, 65⟩)) := ⟨_, rfl⟩
  have h₀ : Fields r.mem 0x1000#32 0 32 0x2000#32 := by
    rw [hr, runSteps_pushes_mem]
    exact (construct_fields apart_example).pushes (by omega) (by omega) slotApart_example
  have h₁ : Fields (step 0x1000#32 r .pop).mem 0x1000#32 1 31 0x2000#32 := by
    rw [step_mem]
    exact h₀.pops (n := 1) (by omega) (by omega) (by omega)
  have h₂ : Fields (step 0x1000#32 (step 0x1000#32 r .pop) .pop).mem 0x1000#32 2 30 0x2000#32 := by
    rw [step_mem]
    exact h₁.pops (n := 1) (by omega) (by omega) (by omega)
  have h₃ : Fields (step 0x1000#32 (step 0x1000#32 (step 0x1000#32 r .pop) .pop)
      (.push ⟨1, 66⟩)).mem 0x1000#32 2 31 0x2000#32 := by
    rw [step_mem]
    exact h₂.pushes (n := 1) (by omega) (by omega) slotApart_example
  have hpush : push _ _ ⟨1, 66⟩ = _ :=
    h₃.push_eq (by omega) (by omega) (slotApart_example 32 (by omega))
  have hslot := h₃.pushSlot_eq (by omega) (by omega)
  rw [pastEnd, along_append, runSteps_append, ← hr]
  simp only [along_cons, along_nil, runSteps_cons, runSteps_nil]
  refine ⟨apart_example, ⟨along_guarded_push .., fun _ => ?_, fun _ => ?_, fun h => by simp at h,
    fun h => by simp at h, trivial⟩, ?_⟩
  · rw [h₀.size_eq le_rfl]
    decide
  · rw [h₁.size_eq (by omega)]
    decide
  · -- the head is at 2 and 31 messages are held
    rw [step]
    simp only [hpush, if_true, hslot]
    exact List.mem_append_right _ List.mem_cons_self

/-- A list into which two messages are pushed and from which one is popped. -/
theorem bounded_fifo_three : ∃ r, r = runSteps (step 0x1000#32)
      (fresh (fun _ => 0) 0x1000#32 0x2000#32) [.push ⟨1, 65⟩, .push ⟨1, 66⟩, .pop] ∧
    (∀ slot ∈ r.slots, 0 ≤ slot ∧ slot < 32) ∧ r.delivered <+: r.accepted := by
  let r₀ := fresh (fun _ => 0) 0x1000#32 0x2000#32
  have h₀ : Fields r₀.mem 0x1000#32 0 0 0x2000#32 := construct_fields apart_example
  have h₁ : Fields (step 0x1000#32 r₀ (.push ⟨1, 65⟩)).mem 0x1000#32 0 1 0x2000#32 := by
    rw [step_mem]
    exact h₀.pushes (n := 1) (by omega) (by omega) slotApart_example
  have h₂ : Fields (step 0x1000#32 (step 0x1000#32 r₀ (.push ⟨1, 65⟩)) (.push ⟨1, 66⟩)).mem
      0x1000#32 0 2 0x2000#32 := by
    rw [step_mem]
    exact h₁.pushes (n := 1) (by omega) (by omega) slotApart_example
  obtain ⟨hslot, hfirst, -⟩ := bounded_fifo apart_example (fun _ => 0)
    [.push ⟨1, 65⟩, .push ⟨1, 66⟩, .pop]
    ⟨fun h => by simp at h, fun h => by simp at h, fun _ => by
      rw [h₂.size_eq (by omega)]
      decide, trivial⟩
    ⟨fun _ _ _ => by
      rw [h₀.headIndex_eq (by omega), h₀.size_eq (by omega)]
      decide,
    fun _ _ _ => by
      rw [h₁.headIndex_eq (by omega), h₁.size_eq (by omega)]
      decide,
    fun _ h => by simp at h, trivial⟩
  exact ⟨_, rfl, hslot, hfirst⟩

end MessageList

end Muk
