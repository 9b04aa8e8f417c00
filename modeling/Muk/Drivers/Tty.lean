import Muk.Drivers.Keyboard
import Muk.Lib.Lines
import Muk.Proc.Message

/-!
# The terminal driver

The driver drains port 2 into `tty_buffer` and only then looks for a newline. If there is
one, the whole buffer goes to `parse` and is cleared, with whatever follows the newline.
-/

namespace Muk

/-- `operator!=`. It asks for both fields to differ. -/
def Message.operatorNe (m1 m2 : Message) : Bool :=
  m1.sourceThread != m2.sourceThread && m1.data != m2.data

/-- `sizeof(tty_buffer)` -/
def ttyBufferSize : ℕ := 1024

/-- `tty_buffer` and `tty_idx` of `tty_update`, and the strings that were handed to `parse`. -/
structure Tty where
  ttyBuffer : Vector Byte ttyBufferSize
  ttyIdx : ℕ
  parsed : List (List Byte)

namespace Tty

/-- The string at the start of the buffer, as `parse` reads it. -/
def str (t : Tty) : List Byte := t.ttyBuffer.toList.takeWhile (· ≠ 0)

/-- The loop that looks for a newline, and what follows if there is one: `parse`, and the
`memset` at the top of the outer loop. -/
def scan (t : Tty) : Tty :=
  if newline ∈ t.ttyBuffer.toList then
    { ttyBuffer := Vector.replicate ttyBufferSize 0, ttyIdx := 0, parsed := t.parsed ++ [t.str] }
  else t

/-- What `tty_update` does with a result of `postbox.pop(2)`, up to the next one. -/
def pop (t : Tty) (msg : Message) : Option Tty :=
  if msg.operatorNe kMessageNull then
    if hidx : t.ttyIdx < ttyBufferSize then
      some { t with ttyBuffer := t.ttyBuffer.set t.ttyIdx msg.data hidx, ttyIdx := t.ttyIdx + 1 }
    else none -- outside tty_buffer
  else some t.scan

/-- `tty_update` before its first `pop`. -/
def initial : Tty where
  ttyBuffer := Vector.replicate ttyBufferSize 0
  ttyIdx := 0
  parsed := []

/-- `tty_update` on the results of its calls of `postbox.pop(2)`. -/
def update (t : Tty) (pops : List Message) : Option Tty := pops.foldlM pop t

/-- The results of `postbox.pop(2)` when each batch is drained until the queue is empty. -/
def drains (batches : List (List Message)) : List Message :=
  batches.flatMap (· ++ [kMessageNull])

/-- The characters of a batch. -/
def chars (batch : List Message) : List Byte := batch.map Message.data

/-- The characters that are delivered, however they are divided into batches. -/
def stream (batches : List (List Message)) : List Byte := (batches.map chars).flatten

/-- A message with a character, from a thread. -/
def Carries (msg : Message) : Prop := msg.sourceThread ≠ 0 ∧ msg.data ≠ 0

/-! ## The buffer holds the collected characters -/

variable {t : Tty} {c : Collector Byte} {msg : Message} {batch : List Message}
  {batches : List (List Message)}

/-- The buffer holds the unfinished line, and zeros after it. -/
structure Holds (t : Tty) (c : Collector Byte) : Prop where
  buffer : t.ttyBuffer.toList = c.line ++ List.replicate (ttyBufferSize - c.line.length) 0
  idx : t.ttyIdx = c.line.length
  parsed : t.parsed = c.handed
  nonzero : 0 ∉ c.line

/-- Nothing is in the buffer at first, and nothing was parsed. -/
theorem Holds.initial : Holds initial Collector.empty where
  buffer := rfl
  idx := rfl
  parsed := rfl
  nonzero := List.not_mem_nil

/-- The string in the buffer is the line that is collected so far. -/
theorem Holds.str_eq (h : Holds t c) : t.str = c.line := by
  have hline : ∀ b ∈ c.line, decide (b ≠ 0) = true := fun b hb =>
    decide_eq_true fun hzero => h.nonzero (hzero ▸ hb)
  rw [str, h.buffer, List.takeWhile_append_of_pos hline]
  cases ttyBufferSize - c.line.length <;> simp [List.replicate_succ]

/-- A character is appended to the line, unless the buffer is full. -/
theorem Holds.pop (h : Holds t c) (hmsg : Carries msg) :
    (∃ t', t.pop msg = some t' ∧ Holds t' ⟨c.line ++ [msg.data], c.handed⟩) ∨
      (t.pop msg = none ∧ ttyBufferSize < c.line.length + 1) := by
  have hne : msg.operatorNe kMessageNull = true := by
    simpa [Message.operatorNe, kMessageNull, Carries] using hmsg
  by_cases hidx : t.ttyIdx < ttyBufferSize
  · left
    let t' : Tty :=
      { t with ttyBuffer := t.ttyBuffer.set t.ttyIdx msg.data hidx, ttyIdx := t.ttyIdx + 1 }
    have hpop : t.pop msg = some t' := by rw [Tty.pop, if_pos hne, dif_pos hidx]
    have hroom : c.line.length < ttyBufferSize := h.idx ▸ hidx
    have hzeros : ttyBufferSize - c.line.length = ttyBufferSize - (c.line.length + 1) + 1 := by
      omega
    refine ⟨t', hpop, ?_, ?_, h.parsed, ?_⟩
    · rw [Vector.toList_set, h.buffer, h.idx, List.set_append_right _ _ le_rfl, Nat.sub_self,
        hzeros, List.replicate_succ, List.set_cons_zero]
      simp
    · rw [List.length_append, List.length_singleton, ← h.idx]
    · simpa using ⟨h.nonzero, hmsg.2.symm⟩
  · right
    refine ⟨by rw [Tty.pop, if_pos hne, dif_neg hidx], ?_⟩
    have := h.idx
    omega

/-- A batch is appended to the line, or runs over the end of the buffer. -/
theorem Holds.update (h : Holds t c) (hbatch : ∀ msg ∈ batch, Carries msg) :
    (∃ t', t.update batch = some t' ∧ Holds t' ⟨c.line ++ chars batch, c.handed⟩) ∨
      (t.update batch = none ∧ ttyBufferSize < (c.line ++ chars batch).length) := by
  induction batch generalizing t c with
  | nil =>
    left
    exact ⟨t, rfl, by simpa [chars] using h⟩
  | cons msg batch ih =>
    obtain ⟨hmsg, hbatch⟩ := List.forall_mem_cons.mp hbatch
    rcases h.pop hmsg with ⟨t', hpop, hholds⟩ | ⟨hpop, hfull⟩
    · have hupdate : t.update (msg :: batch) = t'.update batch := by
        rw [Tty.update, List.foldlM_cons, hpop]
        rfl
      have hline : c.line ++ chars (msg :: batch) = c.line ++ [msg.data] ++ chars batch := by
        simp [chars]
      rw [hupdate, hline]
      exact ih hholds hbatch
    · right
      refine ⟨by rw [Tty.update, List.foldlM_cons, hpop]; rfl, ?_⟩
      simp only [chars, List.map_cons, List.length_append, List.length_cons]
      omega

/-- The search for a newline hands over the line if the batch had one. -/
theorem Holds.scan {b : List Byte} (h : Holds t ⟨c.line ++ b, c.handed⟩)
    (hline : newline ∉ c.line) :
    Holds t.scan (c.take newline b) := by
  have hmem : newline ∈ t.ttyBuffer.toList ↔ newline ∈ b := by
    have hzero : newline ≠ 0#8 := by decide
    rw [h.buffer]
    simp [hline, hzero]
  rw [Tty.scan, Collector.take]
  by_cases hb : newline ∈ b
  · rw [if_pos (hmem.mpr hb), if_pos hb]
    refine ⟨rfl, rfl, ?_, List.not_mem_nil⟩
    rw [h.str_eq, h.parsed]
  · rw [if_neg (hmem.not.mpr hb), if_neg hb]
    exact h

/-- A batch that fits is drained as the collector takes it in. -/
theorem Holds.drain (h : Holds t c) (hline : newline ∉ c.line)
    (hbatch : ∀ msg ∈ batch, Carries msg) :
    (∃ t', t.update (batch ++ [kMessageNull]) = some t' ∧
        Holds t' (c.take newline (chars batch))) ∨
      (t.update (batch ++ [kMessageNull]) = none ∧
        ttyBufferSize < (c.line ++ chars batch).length) := by
  have happend : t.update (batch ++ [kMessageNull]) = (t.update batch).bind fun t' =>
      some t'.scan := by
    rw [Tty.update, List.foldlM_append]
    rfl
  rw [happend]
  rcases h.update hbatch with ⟨t', hupdate, hholds⟩ | ⟨hupdate, hfull⟩
  · exact Or.inl ⟨t'.scan, by rw [hupdate, Option.bind_some], hholds.scan hline⟩
  · exact Or.inr ⟨by rw [hupdate, Option.bind_none], hfull⟩

/-- The driver follows the collector unless a batch runs over the end of the buffer. -/
theorem Holds.drains (h : Holds t c) (hline : newline ∉ c.line)
    (hbatches : ∀ batch ∈ batches, ∀ msg ∈ batch, Carries msg) :
    (∃ t', t.update (drains batches) = some t' ∧
        Holds t' (runSteps (Collector.take newline) c (batches.map chars))) ∨
      (t.update (drains batches) = none ∧
        ¬ Along (Collector.take newline) (fun c b => (c.line ++ b).length ≤ ttyBufferSize) c
          (batches.map chars)) := by
  induction batches generalizing t c with
  | nil => exact Or.inl ⟨t, rfl, h⟩
  | cons batch batches ih =>
    obtain ⟨hbatch, hbatches⟩ := List.forall_mem_cons.mp hbatches
    have hcons : t.update (Tty.drains (batch :: batches)) =
        (t.update (batch ++ [kMessageNull])).bind fun t' => t'.update (Tty.drains batches) := by
      rw [Tty.drains, List.flatMap_cons, Tty.update, List.foldlM_append]
      rfl
    rw [hcons, List.map_cons, runSteps_cons, along_cons]
    rcases h.drain hline hbatch with ⟨t', hdrain, hholds⟩ | ⟨hdrain, hfull⟩
    · rw [hdrain, Option.bind_some]
      rcases ih hholds (Collector.take_line hline _) hbatches with hrun | ⟨hrun, hover⟩
      · exact Or.inl hrun
      · exact Or.inr ⟨hrun, fun halong => hover halong.2⟩
    · refine Or.inr ⟨by rw [hdrain, Option.bind_none], fun halong => ?_⟩
      exact absurd halong.1 (by omega)

/-- **The strings handed to `parse` are the lines of the stream, and the rest is in the
buffer,** exactly for the divisions in which no batch goes on after a newline. -/
theorem lines_iff (batches : List (List Message))
    (hbatches : ∀ batch ∈ batches, ∀ msg ∈ batch, Carries msg)
    (hbelow : LinesBelow 1024 (splitLines newline (stream batches))) :
    (∃ t, initial.update (drains batches) = some t ∧
        (t.parsed, t.str) = splitLines newline (stream batches)) ↔
      ∀ batch ∈ batches, newline ∉ (chars batch).dropLast := by
  have hcollect := Collector.collect_iff newline (batches.map chars)
  have hempty : newline ∉ (Collector.empty : Collector Byte).line := List.not_mem_nil
  rw [List.forall_mem_map] at hcollect
  rw [← hcollect]
  constructor
  · rintro ⟨t, hrun, hlines⟩
    rcases Holds.initial.drains hempty hbatches with ⟨t', hrun', hholds⟩ | ⟨hnone, -⟩
    · obtain rfl : t = t' := by simpa [hrun] using hrun'
      rw [← hholds.parsed, ← hholds.str_eq, hlines, stream]
    · simp [hrun] at hnone
  · intro hlines
    have hlast : ∀ b ∈ batches.map chars, newline ∉ b.dropLast :=
      List.forall_mem_map.mpr (hcollect.mp hlines)
    have halong := (Collector.along_below hempty hlast hbelow).mono
      (Q := fun c b => (c.line ++ b).length ≤ ttyBufferSize) fun c b hlt => hlt.le
    rcases Holds.initial.drains hempty hbatches with ⟨t, hrun, hholds⟩ | ⟨-, hover⟩
    · exact ⟨t, hrun, by rw [hholds.parsed, hholds.str_eq, hlines, stream]⟩
    · exact absurd halong hover

/-- The lines "a" and "b", with the newlines in the last place of their batches. -/
def linesApart : List (List Message) := [[⟨3, 97⟩], [⟨3, 10⟩], [⟨3, 98⟩, ⟨3, 10⟩]]

/-- With a pause between the lines, both are parsed whole. -/
theorem lines_iff_apart : ∃ t, initial.update (drains linesApart) = some t ∧
    (t.parsed, t.str) = ([[97, 10], [98, 10]], []) :=
  (lines_iff linesApart (by unfold Carries; decide) (by unfold LinesBelow; decide)).mpr (by decide)

/-- The lines "a" and "b", of which the first is drained with the start of the second. -/
def linesTogether : List (List Message) := [[⟨3, 97⟩, ⟨3, 10⟩, ⟨3, 98⟩], [⟨3, 10⟩]]

/-- The character after the newline is handed over with the first line. -/
theorem linesTogether_parsed :
    (initial.update (drains linesTogether)).map Tty.parsed = some [[97, 10, 98], [10]] ∧
      splitLines newline (stream linesTogether) = ([[97, 10], [98, 10]], []) ∧
      ¬ ∃ t, initial.update (drains linesTogether) = some t ∧
        (t.parsed, t.str) = splitLines newline (stream linesTogether) := by
  have hparsed : (initial.update (drains linesTogether)).map Tty.parsed =
      some [[97, 10, 98], [10]] := by decide +kernel
  have hlines : splitLines newline (stream linesTogether) = ([[97, 10], [98, 10]], []) := by decide
  refine ⟨hparsed, hlines, ?_⟩
  rintro ⟨t, hrun, heq⟩
  rw [hrun, Option.map_some, Option.some.injEq] at hparsed
  rw [hlines, hparsed] at heq
  simp at heq

end Tty

end Muk
