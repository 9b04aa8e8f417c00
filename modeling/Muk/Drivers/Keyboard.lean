import Muk.Lib.Fifo
import Muk.Lib.Run
import Muk.Std.RingBuffer
import Mathlib.Data.List.Infix

/-!
# The keyboard driver

The interrupt handler appends characters to a ring buffer, and the driver thread reads
them and passes them on. The thread also collects the line in the storage of the same
ring, under an index of its own, so it may write over characters that are not read yet.
-/

namespace Muk

/-- `KEYBOARD_BUFFER_SIZE` -/
def keyboardBufferSize : ℕ := 512

/-- `keyboard_map`, from scan codes to characters. -/
def keyboardMap : List Byte := [
  0, 27, 49, 50, 51, 52, 53, 54, 55, 56, 57, 48, 45, 61, 8, 9,
  113, 119, 101, 114, 116, 121, 117, 105, 111, 112, 91, 93, 10, 0, 97, 115,
  100, 102, 103, 104, 106, 107, 108, 59, 39, 96, 0, 92, 122, 120, 99, 118,
  98, 110, 109, 44, 46, 47, 0, 42, 0, 32, 0, 0, 0, 0, 0, 0,
  0, 0, 0, 0, 0, 0, 0, 0, 0, 0, 45, 0, 0, 0, 43, 0,
  0, 0, 0, 0, 0, 0, 0, 0, 0, 0, 0, 0, 0, 0, 0, 0,
  0, 0, 0, 0, 0, 0, 0, 0, 0, 0, 0, 0, 0, 0, 0, 0,
  0, 0, 0, 0, 0, 0, 0, 0, 0, 0, 0, 0, 0, 0, 0, 0]

def newline : Byte := 10

def backspace : Byte := 8

/-- Where the driver thread is: in the polling loop of `getc`, or about to handle the
character that `getc` has returned. -/
inductive KbPhase where
  | polling (loops : ℕ)
  | handling (c : Byte)

/-- The driver: `keyboard_buffer`, the phase and the index of `kb_update`, and the characters
that `buffer_write` accepted and those that were passed to `SendMessage(1, .)`. -/
structure Keyboard where
  buffer : Buffer
  phase : KbPhase
  i : ℕ
  accepted : List Byte
  sent : List Byte

namespace Keyboard

/-- `keyboard_irq`, for the bytes on the ports of the controller. -/
def keyboardIrq (k : Keyboard) (status keycode : Byte) : Keyboard :=
  if status &&& 1 ≠ 0 then
    if keycode.toInt < 0 then k
    else
      let c := keyboardMap.getD keycode.toNat 0
      let (result, buffer) := k.buffer.bufferWrite c
      { k with
        buffer := buffer
        accepted := if result = 0 then k.accepted ++ [c] else k.accepted }
  else k

/-- One pass of the loop of `getc`. After 1024 passes `getc` ends without a `return`, and
the character it returns is any. -/
def getc (k : Keyboard) (loops : ℕ) (garbage : Byte) : Keyboard :=
  if loops < 1024 then
    let (result, buffer) := k.buffer.bufferRead
    let c := BitVec.ofInt 8 result
    if c = BitVec.ofInt 8 (-1) then
      { k with buffer := buffer, phase := .polling (loops + 1) } -- wait a bit
    else { k with buffer := buffer, phase := .handling c, sent := k.sent ++ [c] }
  else { k with phase := .handling garbage }

/-- `i++` at the end of the inner loop of `kb_update`, and the loop test. -/
def nextIndex (i : ℕ) : ℕ := if i + 1 < 1024 then i + 1 else 0

/-- The body of the loop of `kb_update` after `getc`. -/
def kbUpdate (k : Keyboard) (c : Byte) : Keyboard :=
  if c = newline then
    -- break, and begin at 0 again
    { k with buffer := k.buffer.store k.i 0, phase := .polling 0, i := 0 }
  else if c = backspace then
    { k with phase := .polling 0, i := nextIndex k.i }
  else
    { k with buffer := k.buffer.store k.i c, phase := .polling 0, i := nextIndex (k.i + 1) }

inductive KeyboardEvent where
  | irq (status keycode : Byte)
  | thread (garbage : Byte)

/-- One step of the interrupt handler or of the thread. -/
def step (k : Keyboard) : KeyboardEvent → Keyboard
  | .irq status keycode => k.keyboardIrq status keycode
  | .thread garbage => match k.phase with
    | .polling loops => k.getc loops garbage
    | .handling c => k.kbUpdate c

/-- The empty buffer, and `kb_update` at its first `getc`. -/
def initial : Keyboard where
  buffer := { head := 0, tail := 0, size := keyboardBufferSize, buffer := fun _ => 0 }
  phase := .polling 0
  i := 0
  accepted := []
  sent := []

/-! ## Stores of the driver thread -/

/-- The store that the thread is about to make. -/
def nextStore (k : Keyboard) : Option (ℕ × Byte) :=
  match k.phase with
  | .polling _ => none
  | .handling c =>
    if c = newline then some (k.i, 0) else if c = backspace then none else some (k.i, c)

/-- The store stays inside the buffer, and the unread characters stay as they were. -/
def StoreOk (k : Keyboard) (e : KeyboardEvent) : Prop :=
  ∀ garbage, e = .thread garbage → ∀ i v, k.nextStore = some (i, v) →
    i < keyboardBufferSize ∧ (step k e).buffer.unread = k.buffer.unread

/-- The index of the store is below the size of the buffer, and not that of an unread
character other than the one that is stored. -/
def Harmless (k : Keyboard) (e : KeyboardEvent) : Prop :=
  ∀ garbage, e = .thread garbage → ∀ i v, k.nextStore = some (i, v) →
    i < keyboardBufferSize ∧ ∀ j < k.buffer.pending, k.buffer.slot j = i → k.buffer.buffer i = v

variable {k : Keyboard} {e : KeyboardEvent} {c garbage : Byte} {i : ℕ} {v : Byte}

/-- Handling a character stores it where the thread is about to store, or nowhere. -/
theorem kbUpdate_buffer (hphase : k.phase = .handling c) : (k.kbUpdate c).buffer =
    match k.nextStore with
    | none => k.buffer
    | some (i, v) => k.buffer.store i v := by
  simp only [kbUpdate, nextStore, hphase]
  split_ifs <;> rfl

/-- Handling a character accepts nothing and sends nothing. -/
theorem kbUpdate_trace (k : Keyboard) (c : Byte) :
    (k.kbUpdate c).accepted = k.accepted ∧ (k.kbUpdate c).sent = k.sent := by
  rw [kbUpdate]
  split_ifs <;> exact ⟨rfl, rfl⟩

/-- A store is as it should be exactly if its index is harmless. -/
theorem storeOk_iff (k : Keyboard) (e : KeyboardEvent) : StoreOk k e ↔ Harmless k e := by
  refine forall_congr' fun garbage => forall_congr' fun he => forall_congr' fun i =>
    forall_congr' fun v => forall_congr' fun hstore => and_congr Iff.rfl ?_
  subst he
  cases hphase : k.phase with
  | polling loops => simp [nextStore, hphase] at hstore
  | handling c =>
    rw [step, hphase]
    simp only [kbUpdate_buffer hphase, hstore]
    exact Buffer.unread_store

/-! ## The invariant -/

/-- The unread characters are those that were accepted and not yet sent. -/
structure Inv (k : Keyboard) : Prop where
  wf : k.buffer.Wf
  queue : ∃ q : Fifo Byte, q.accepted = k.accepted ∧ q.delivered = k.sent ∧
    q.held = k.buffer.unread
  mapped : ∀ c ∈ k.accepted, c ∈ keyboardMap

/-- No key is mapped to the character that `getc` takes for an empty buffer. -/
theorem not_mem_keyboardMap : BitVec.ofInt 8 (-1) ∉ keyboardMap := by decide

/-- The character of a key that is pressed is one of the map. -/
theorem mem_keyboardMap {keycode : Byte} (h : 0 ≤ keycode.toInt) :
    keyboardMap.getD keycode.toNat 0 ∈ keyboardMap := by
  have hlt : keycode.toNat < keyboardMap.length := by
    have hlength : keyboardMap.length = 128 := rfl
    rw [BitVec.toInt_eq_toNat_cond] at h
    split_ifs at h <;> omega
  rw [List.getD_eq_getElem?_getD, List.getElem?_eq_getElem hlt, Option.getD_some]
  exact List.getElem_mem hlt

/-- The empty driver keeps the invariant, as nothing was accepted or sent. -/
theorem Inv.initial : Inv initial where
  wf := ⟨by decide, by decide⟩
  queue := ⟨Fifo.empty, rfl, rfl, rfl⟩
  mapped := by simp [Keyboard.initial]

/-- An interrupt appends one character, or none. -/
theorem Inv.keyboardIrq (h : Inv k) (status keycode : Byte) :
    Inv (k.keyboardIrq status keycode) := by
  rw [Keyboard.keyboardIrq]
  split_ifs with hstatus hkeycode
  · exact h
  · obtain ⟨q, haccepted, hsent, hheld⟩ := h.queue
    let c := keyboardMap.getD keycode.toNat 0
    rcases h.wf.bufferWrite c with hfull | ⟨b, hwrite, hwf, -, hunread⟩
    · simp only [c] at hfull
      simp only [hfull]
      exact ⟨h.wf, ⟨q, haccepted, hsent, hheld⟩, h.mapped⟩
    · simp only [c] at hwrite
      simp only [hwrite, if_true]
      refine ⟨hwf, ⟨q.push c, congrArg (· ++ [c]) haccepted, hsent, ?_⟩, fun d hd => ?_⟩
      · rw [hunread, ← hheld]
        rfl
      · rcases List.mem_append.mp hd with hold | hnew
        · exact h.mapped d hold
        · rw [List.mem_singleton.mp hnew]
          exact mem_keyboardMap (Int.not_lt.mp hkeycode)
  · exact h

/-- A pass of `getc` sends the oldest unread character, or none. -/
theorem Inv.getc (h : Inv k) (loops : ℕ) (garbage : Byte) : Inv (k.getc loops garbage) := by
  obtain ⟨q, haccepted, hsent, hheld⟩ := h.queue
  rw [Keyboard.getc]
  split_ifs with hloops
  · cases hunread : k.buffer.unread with
    | nil =>
      simp only [h.wf.bufferRead_empty hunread, if_true]
      exact ⟨h.wf, ⟨q, haccepted, hsent, hheld⟩, h.mapped⟩
    | cons c rest =>
      obtain ⟨b, hread, hwf, -, hrest⟩ := h.wf.bufferRead_cons hunread
      have hc : BitVec.ofInt 8 (c.toNat : ℤ) = c := by
        rw [BitVec.ofInt_natCast, BitVec.ofNat_toNat, BitVec.setWidth_eq]
      have hmem : c ∈ k.accepted := by
        rw [← haccepted, ← q.conserved, hheld, hunread]
        exact List.mem_append_right _ List.mem_cons_self
      have hne : c ≠ BitVec.ofInt 8 (-1) := fun heq =>
        not_mem_keyboardMap (heq ▸ h.mapped c hmem)
      simp only [hread, hc, if_neg hne]
      rw [hunread] at hheld
      refine ⟨hwf, ⟨q.pop hheld, haccepted, congrArg (· ++ [c]) hsent, ?_⟩, h.mapped⟩
      rw [hrest]
      rfl
  · exact ⟨h.wf, ⟨q, haccepted, hsent, hheld⟩, h.mapped⟩

/-- A harmless store leaves the queue as it is. -/
theorem Inv.kbUpdate (h : Inv k) (hphase : k.phase = .handling c)
    (hunread : (k.kbUpdate c).buffer.unread = k.buffer.unread) : Inv (k.kbUpdate c) := by
  obtain ⟨q, haccepted, hsent, hheld⟩ := h.queue
  obtain ⟨haccepted', hsent'⟩ := kbUpdate_trace k c
  refine ⟨?_, ⟨q, ?_, ?_, ?_⟩, ?_⟩
  · rw [kbUpdate_buffer hphase]
    split
    · exact h.wf
    · exact h.wf.store _ _
  · rw [haccepted, haccepted']
  · rw [hsent, hsent']
  · rw [hheld, hunread]
  · rw [haccepted']
    exact h.mapped

/-- Every harmless step preserves the invariant: an interrupt, a poll, or the handling of a
character. -/
theorem Inv.step (h : Inv k) (hharmless : Harmless k e) : Inv (step k e) := by
  cases e with
  | irq status keycode => exact h.keyboardIrq status keycode
  | thread garbage =>
    cases hphase : k.phase with
    | polling loops =>
      rw [Keyboard.step, hphase]
      exact h.getc loops garbage
    | handling c =>
      have hstep : Keyboard.step k (.thread garbage) = k.kbUpdate c := by
        rw [Keyboard.step, hphase]
      rw [hstep]
      apply h.kbUpdate hphase
      cases hstore : k.nextStore with
      | none => rw [kbUpdate_buffer hphase, hstore]
      | some store =>
        rw [← hstep]
        exact ((storeOk_iff _ _).mpr hharmless garbage rfl store.1 store.2 hstore).2

/-- In a run of harmless stores the characters that were sent are the first ones that were
accepted, and each store is as it should be. The converse is `storeOk_iff` at each step. -/
theorem order_and_stores_iff (events : List KeyboardEvent) :
    ((∀ before, before <+: events →
        (runSteps step initial before).sent <+: (runSteps step initial before).accepted) ∧
      Along step StoreOk initial events) ↔ Along step Harmless initial events := by
  constructor
  · rintro ⟨-, hstores⟩
    exact hstores.mono fun k e => (storeOk_iff k e).mp
  · intro hharmless
    refine ⟨?_, hharmless.mono fun k e => (storeOk_iff k e).mpr⟩
    rintro before ⟨after, rfl⟩
    obtain ⟨q, haccepted, hsent, -⟩ := ((along_append.mp hharmless).1.invariant Inv.initial
      fun k e hk hharmless => hk.step hharmless).queue
    rw [← haccepted, ← hsent]
    exact q.delivered_first

end Keyboard

end Muk
