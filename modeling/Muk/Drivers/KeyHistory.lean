import Muk.Drivers.Keyboard
import Muk.Std.RingBufferRuns

/-!
# Which runs of the keyboard are safe

The keys that are pressed and the order of the steps decide where the driver thread stores.
This is a record of them without the ring: the accepted characters, how many of them were read,
and what was handled since the last newline. It tells which runs lose or change no character.
-/

namespace Muk

/-- What has happened so far: the accepted characters and how many were read, the phase of the
thread, and the characters that it has handled since the last newline. -/
structure KeyHistory where
  accepted : List Byte
  read : ℕ
  phase : KbPhase
  line : List Byte

namespace KeyHistory

open Keyboard (KeyboardEvent)

/-- One event. A key is accepted if less than 511 characters are pending. -/
def step (h : KeyHistory) : KeyboardEvent → KeyHistory
  | .irq status keycode =>
    if status &&& 1 ≠ 0 ∧ 0 ≤ keycode.toInt ∧
        h.accepted.length - h.read < keyboardBufferSize - 1 then
      { h with accepted := h.accepted ++ [keyboardMap.getD keycode.toNat 0] }
    else h
  | .thread garbage =>
    match h.phase with
    | .polling loops =>
      if loops < 1024 then
        match h.accepted[h.read]? with
        | none => { h with phase := .polling (loops + 1) }
        | some c => { h with phase := .handling c, read := h.read + 1 }
      else { h with phase := .handling garbage }
    | .handling c =>
      { h with phase := .polling 0, line := if c = newline then [] else h.line ++ [c] }

/-- Nothing was pressed, and nothing was read. -/
def initial : KeyHistory where
  accepted := []
  read := 0
  phase := .polling 0
  line := []

/-- Where the thread stores next: two places for each character of the line, and one for each
backspace. -/
def place (line : List Byte) : ℕ :=
  (2 * line.countP (· ≠ backspace) + line.count backspace) % 1024

/-- What is stored for a character. -/
def stored (c : Byte) : Byte := if c = newline then 0 else c

/-- If a character is handled that is not a backspace, its place is in the buffer, and no pending
character has this place in the ring, unless it is the one that is stored. -/
def Clear (h : KeyHistory) (e : KeyboardEvent) : Prop :=
  ∀ garbage c, e = .thread garbage → h.phase = .handling c → c ≠ backspace →
    place h.line < keyboardBufferSize ∧
      ∀ j d, h.read ≤ j → h.accepted[j]? = some d → j % keyboardBufferSize = place h.line →
        d = stored c

/-- The driver is where the history says: the ring holds the pending characters, from the number
of read ones on, and the index of `kb_update` is the place of the next store. -/
structure Records (h : KeyHistory) (k : Keyboard) : Prop where
  holds : k.buffer.Holds keyboardBufferSize (h.accepted.drop h.read)
  tail : k.buffer.tail = h.read % keyboardBufferSize
  read : h.read ≤ h.accepted.length
  accepted : k.accepted = h.accepted
  phase : k.phase = h.phase
  index : k.i = place h.line
  mapped : ∀ c ∈ h.accepted, c ∈ keyboardMap

variable {h : KeyHistory} {k : Keyboard} {e : KeyboardEvent} {c garbage : Byte} {line : List Byte}

/-- At the start nothing was pressed or read, and the ring is empty. -/
theorem Records.initial : Records initial Keyboard.initial where
  holds := Buffer.Holds.fresh (by decide) _
  tail := rfl
  read := Nat.le_refl _
  accepted := rfl
  phase := rfl
  index := rfl
  mapped := by simp [KeyHistory.initial]

/-! ## The place of a store -/

/-- A backspace moves the index by one. -/
theorem place_backspace (line : List Byte) :
    place (line ++ [backspace]) = Keyboard.nextIndex (place line) := by
  simp only [place, Keyboard.nextIndex, List.countP_append, List.count_append,
    List.countP_singleton, List.count_singleton_self]
  simp only [decide_not, decide_true, Bool.not_true, Bool.false_eq_true, if_false]
  split_ifs <;> omega

/-- Any other character moves it by two, which stays below the end of the loop if the place
was in the buffer. -/
theorem place_character (hc : c ≠ backspace) (hplace : place line < keyboardBufferSize) :
    place (line ++ [c]) = Keyboard.nextIndex (place line + 1) := by
  have hbound : place line < 512 := hplace
  have hcount : [c].count backspace = 0 := List.count_eq_zero.mpr (by simpa using hc.symm)
  rw [Keyboard.nextIndex, if_pos (by omega)]
  simp only [place, List.countP_append, List.count_append, List.countP_singleton, hcount, hc,
    ne_eq, not_false_eq_true, decide_true, if_true] at hbound ⊢
  omega

/-! ## The stores of the thread -/

/-- The ring keeps the accepted character number `read + j` in the slot of the unread one
number `j`. -/
theorem Records.slot (hr : Records h k) {j : ℕ} (hj : j < k.buffer.pending) :
    k.buffer.slot j = (h.read + j) % keyboardBufferSize ∧
      h.accepted[h.read + j]? = some (k.buffer.buffer (k.buffer.slot j)) := by
  have hlt := hr.holds.wf.pending_lt
  have htail := hr.holds.wf.tail_lt
  have hsize := hr.holds.size
  have heq := hr.tail
  constructor
  · simp only [keyboardBufferSize] at hsize heq ⊢
    rw [Buffer.slot]
    split_ifs <;> omega
  · rw [← List.getElem?_drop, ← hr.holds.unread, Buffer.unread, List.getElem?_map,
      List.getElem?_range hj, Option.map_some]

/-- A store is harmless to the ring exactly if the history is clear. -/
theorem Records.harmless_iff (hr : Records h k) (e : KeyboardEvent) :
    k.Harmless e ↔ h.Clear e := by
  have hpending := hr.holds.pending
  rw [List.length_drop] at hpending
  have hread := hr.read
  constructor
  · intro hharmless garbage c he hphase hc
    have hstore : k.nextStore = some (k.i, stored c) := by
      simp only [Keyboard.nextStore, hr.phase, hphase, stored, if_neg hc]
      split_ifs <;> rfl
    obtain ⟨hlt, hslots⟩ := hharmless garbage he _ _ hstore
    rw [hr.index] at hlt hslots
    refine ⟨hlt, fun j d hj hd hplace => ?_⟩
    have hlength := (List.getElem?_eq_some_iff.mp hd).1
    have hj' : j - h.read < k.buffer.pending := by omega
    obtain ⟨hslot, hget⟩ := hr.slot hj'
    rw [Nat.add_sub_cancel' hj] at hslot hget
    rw [hd, Option.some_inj] at hget
    rw [hget, hslot, hplace]
    exact hslots _ hj' (hslot.trans hplace)
  · intro hclear garbage he i v hstore
    cases hphase : k.phase with
    | polling loops => simp [Keyboard.nextStore, hphase] at hstore
    | handling c =>
      have hc : c ≠ backspace := by
        rintro rfl
        rw [Keyboard.nextStore, hphase] at hstore
        cases hstore
      obtain ⟨hlt, hslots⟩ := hclear garbage c he (hr.phase ▸ hphase) hc
      have hsame : k.nextStore = some (k.i, stored c) := by
        simp only [Keyboard.nextStore, hphase, stored, if_neg hc]
        split_ifs <;> rfl
      rw [hsame, Option.some_inj, Prod.mk.injEq] at hstore
      obtain ⟨rfl, rfl⟩ := hstore
      rw [hr.index]
      refine ⟨hlt, fun j hj hslot => ?_⟩
      obtain ⟨hslot', hget⟩ := hr.slot hj
      rw [← hslot]
      exact hslots _ _ (Nat.le_add_right _ _) hget (hslot'.symm.trans hslot)

/-! ## One event -/

/-- `buffer_write` leaves the tail where it is. -/
theorem bufferWrite_tail (b : Buffer) (v : Byte) : (b.bufferWrite v).2.tail = b.tail := by
  simp only [Buffer.bufferWrite]
  split_ifs <;> rfl

/-- `buffer_read` moves the tail by one if there is a byte, around the end of the buffer. -/
theorem bufferRead_tail {b : Buffer} (hwf : b.Wf) (hne : b.head ≠ b.tail) :
    b.bufferRead.2.tail = (b.tail + 1) % b.size := by
  have hlt := hwf.tail_lt
  simp only [Buffer.bufferRead, if_neg hne]
  split_ifs with hend
  · have hlast : b.tail + 1 = b.size := Nat.le_antisymm hlt hend
    rw [hlast, Nat.mod_self]
  · rw [Nat.mod_eq_of_lt (Nat.lt_of_not_le hend)]

/-- An interrupt that finds room adds its character to both, and any other changes neither. -/
theorem Records.irq (hr : Records h k) (status keycode : Byte) :
    Records (h.step (.irq status keycode)) (k.step (.irq status keycode)) := by
  simp only [KeyHistory.step, Keyboard.step, Keyboard.keyboardIrq]
  by_cases hstatus : status &&& 1 ≠ 0
  · by_cases hkeycode : 0 ≤ keycode.toInt
    · rw [if_pos hstatus, if_neg (Int.not_lt.mpr hkeycode)]
      let c := keyboardMap.getD keycode.toNat 0
      obtain ⟨hresult, hholds, -⟩ := hr.holds.call (.write c)
      have htail := (bufferWrite_tail k.buffer c).trans hr.tail
      by_cases hroom : h.accepted.length - h.read < keyboardBufferSize - 1
      · have hqueue : queueCall (keyboardBufferSize - 1) (h.accepted.drop h.read) (.write c) =
            (0, h.accepted.drop h.read ++ [c]) := by
          rw [queueCall, if_neg (by rw [List.length_drop]; omega)]
        rw [hqueue] at hresult hholds
        rw [if_pos ⟨hstatus, hkeycode, hroom⟩]
        refine ⟨?_, htail, ?_, ?_, hr.phase, hr.index, fun d hd => ?_⟩
        · rw [List.drop_append_of_le_length hr.read]
          exact hholds
        · rw [List.length_append]
          exact Nat.le_add_right_of_le hr.read
        · exact (if_pos hresult).trans (congrArg (· ++ [c]) hr.accepted)
        · rcases List.mem_append.mp hd with hold | hnew
          · exact hr.mapped d hold
          · rw [List.mem_singleton.mp hnew]
            exact Keyboard.mem_keyboardMap hkeycode
      · have hfull : queueCall (keyboardBufferSize - 1) (h.accepted.drop h.read) (.write c) =
            (-1, h.accepted.drop h.read) := by
          have hpending := hr.holds.pending
          have hlt := hr.holds.wf.pending_lt
          rw [hr.holds.size] at hlt
          rw [List.length_drop] at hpending
          rw [queueCall, if_pos (by rw [List.length_drop]; omega)]
        rw [hfull] at hresult hholds
        rw [if_neg fun hall => hroom hall.2.2]
        have hrefused : ¬ (k.buffer.bufferWrite c).1 = 0 := by
          rw [show (k.buffer.bufferWrite c).1 = -1 from hresult]
          decide
        exact ⟨hholds, htail, hr.read, (if_neg hrefused).trans hr.accepted, hr.phase, hr.index,
          hr.mapped⟩
    · rw [if_pos hstatus, if_pos (Int.not_le.mp hkeycode), if_neg fun hall => hkeycode hall.2.1]
      exact hr
  · rw [if_neg hstatus, if_neg fun hall => hstatus hall.1]
    exact hr

/-- The thread reads the next accepted character, or finds none. -/
theorem Records.getc (hr : Records h k) {loops : ℕ} (hphase : h.phase = .polling loops)
    (garbage : Byte) : Records (h.step (.thread garbage)) (k.step (.thread garbage)) := by
  have hphase' := hr.phase.trans hphase
  simp only [KeyHistory.step, Keyboard.step, hphase, hphase', Keyboard.getc]
  by_cases hloops : loops < 1024
  · rw [if_pos hloops, if_pos hloops]
    cases hnext : h.accepted[h.read]? with
    | none =>
      have hempty : k.buffer.unread = [] := by
        rw [hr.holds.unread, List.drop_eq_nil_iff]
        exact List.getElem?_eq_none_iff.mp hnext
      simp only [hr.holds.wf.bufferRead_empty hempty, if_true]
      exact ⟨hr.holds, hr.tail, hr.read, hr.accepted, rfl, hr.index, hr.mapped⟩
    | some c =>
      obtain ⟨hlt, hget⟩ := List.getElem?_eq_some_iff.mp hnext
      have hdrop : h.accepted.drop h.read = c :: h.accepted.drop (h.read + 1) := by
        rw [List.drop_eq_getElem_cons hlt, hget]
      have hunread := hr.holds.unread.trans hdrop
      obtain ⟨b, hread, hwf, hsize, hrest⟩ := hr.holds.wf.bufferRead_cons hunread
      have hne : k.buffer.head ≠ k.buffer.tail := by
        intro heq
        have hminus := congrArg Prod.fst hread
        simp only [Buffer.bufferRead, if_pos heq] at hminus
        omega
      have htail := bufferRead_tail hr.holds.wf hne
      rw [hread, hr.tail, hr.holds.size, Nat.mod_add_mod] at htail
      have hchar : BitVec.ofInt 8 (c.toNat : ℤ) = c := by
        rw [BitVec.ofInt_natCast, BitVec.ofNat_toNat, BitVec.setWidth_eq]
      have hend : c ≠ BitVec.ofInt 8 (-1) := fun heq =>
        Keyboard.not_mem_keyboardMap (heq ▸ hr.mapped c (hget ▸ List.getElem_mem hlt))
      simp only [hread, hchar, if_neg hend]
      exact ⟨⟨hwf, hsize.trans hr.holds.size, hrest⟩, htail, hlt, hr.accepted, rfl, hr.index,
        hr.mapped⟩
  · rw [if_neg hloops, if_neg hloops]
    exact ⟨hr.holds, hr.tail, hr.read, hr.accepted, rfl, hr.index, hr.mapped⟩

/-- The thread handles a character, and stores it where the history is clear. -/
theorem Records.kbUpdate (hr : Records h k) (hphase : h.phase = .handling c)
    (hclear : h.Clear (.thread garbage)) :
    Records (h.step (.thread garbage)) (k.step (.thread garbage)) := by
  have hphase' := hr.phase.trans hphase
  have hstep : k.step (.thread garbage) = k.kbUpdate c := by rw [Keyboard.step, hphase']
  have hharmless := (hr.harmless_iff _).mpr hclear
  have hunread : (k.kbUpdate c).buffer.unread = k.buffer.unread := by
    cases hstore : k.nextStore with
    | none => rw [Keyboard.kbUpdate_buffer hphase', hstore]
    | some store =>
      rw [← hstep]
      exact ((Keyboard.storeOk_iff _ _).mpr hharmless garbage rfl store.1 store.2 hstore).2
  have haccepted := (Keyboard.kbUpdate_trace k c).1.trans hr.accepted
  rw [hstep]
  simp only [KeyHistory.step, hphase]
  simp only [Keyboard.kbUpdate] at hunread haccepted ⊢
  by_cases hnewline : c = newline
  · simp only [if_pos hnewline] at hunread haccepted ⊢
    exact ⟨⟨hr.holds.wf.store _ _, hr.holds.size, hunread.trans hr.holds.unread⟩, hr.tail, hr.read,
      haccepted, rfl, rfl, hr.mapped⟩
  · by_cases hbackspace : c = backspace
    · simp only [if_neg hnewline, if_pos hbackspace] at hunread haccepted ⊢
      refine ⟨hr.holds, hr.tail, hr.read, haccepted, rfl, ?_, hr.mapped⟩
      rw [hbackspace, place_backspace, hr.index]
    · simp only [if_neg hnewline, if_neg hbackspace] at hunread haccepted ⊢
      refine ⟨⟨hr.holds.wf.store _ _, hr.holds.size, hunread.trans hr.holds.unread⟩, hr.tail,
        hr.read, haccepted, rfl, ?_, hr.mapped⟩
      have hplace := (hclear garbage c rfl hphase hbackspace).1
      rw [place_character hbackspace hplace, hr.index]

/-- Every event that meets the condition keeps the driver where the history says. -/
theorem Records.step (hr : Records h k) (hclear : h.Clear e) : Records (h.step e) (k.step e) := by
  cases e with
  | irq status keycode => exact hr.irq status keycode
  | thread garbage =>
    cases hphase : h.phase with
    | polling loops => exact hr.getc hphase garbage
    | handling c => exact hr.kbUpdate hphase hclear

/-- The stores of a run are harmless exactly if its history is clear. -/
theorem along_harmless_iff (events : List KeyboardEvent) :
    Along Keyboard.step Keyboard.Harmless Keyboard.initial events ↔
      Along KeyHistory.step Clear initial events :=
  along_iff_of_related (fun k h => Records h k) Records.initial
    (fun _ _ e hr => hr.harmless_iff e)
    fun _ _ e hr hharmless => hr.step ((hr.harmless_iff e).mp hharmless)

end KeyHistory

namespace Keyboard

/-- **Keystrokes reach port 1 once and in order, and the driver's own stores do no harm,**
exactly in the runs in which each character that is handled finds its place clear: with `a`
ordinary characters and `b` backspaces handled since the last newline, `2 * a + b` modulo 1024 is
below 512 and is not the place of a pending character other than the one stored, where the
character accepted as number `j` has the place `j % 512`. -/
theorem keystrokes_iff (events : List KeyboardEvent) :
    ((∀ before, before <+: events →
        (runSteps step initial before).sent <+: (runSteps step initial before).accepted) ∧
      Along step StoreOk initial events) ↔
    Along KeyHistory.step KeyHistory.Clear KeyHistory.initial events :=
  (order_and_stores_iff events).trans (KeyHistory.along_harmless_iff events)

/-- The keys a, b and c are pressed before the driver thread runs. -/
def threeKeys : List KeyboardEvent :=
  [.irq 1 30, .irq 1 48, .irq 1 46] ++ List.replicate 5 (.thread 0)

/-- The second store writes over the third character, and b is sent twice. -/
theorem threeKeys_sent : (runSteps step initial threeKeys).accepted = [97, 98, 99] ∧
    (runSteps step initial threeKeys).sent = [97, 98, 98] ∧
      ¬ (runSteps step initial threeKeys).sent <+: (runSteps step initial threeKeys).accepted := by
  decide

end Keyboard

end Muk
