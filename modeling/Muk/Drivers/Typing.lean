import Muk.Drivers.KeyHistory
import Muk.Proc.PostboxQueues
import Mathlib.Tactic.IntervalCases

/-!
# From the keys to the parser

A key goes through the ring of the keyboard driver, port 1, the thread that forwards it, port 2 and
the buffer of the terminal. The steps of the four parts come in any order, and so do calls of other
code for other ports. As long as no part runs out of room and the keyboard thread does not store
over a pending character, each character that was typed is in exactly one place, and all of them
are in order.
-/

namespace Muk

/-- The thread of `kb_update` and that of `postbox_debug`, as `init_kthreads` starts them. -/
def keyboardThread : Word := 1

def debugThread : Word := 3

/-- The keyboard driver, the postbox, the character that `postbox_debug` has taken and not yet
sent, and the terminal as long as it has stayed in its buffer. -/
structure Typing where
  keyboard : Keyboard
  postbox : Postbox
  forwarding : Option Byte
  tty : Option Tty

namespace Typing

inductive TypingEvent where
  | irq (status keycode : Byte)
  | keyboard (garbage : Byte)
  | postboxDebug
  | tty
  | other (e : Postbox.PostboxEvent)

/-- A step of the keyboard thread. What `getc` reads it sends to port 1. -/
def keyboardStep (s : Typing) (garbage : Byte) : Typing :=
  let keyboard := s.keyboard.step (.thread garbage)
  { s with
    keyboard := keyboard
    postbox := (keyboard.sent.drop s.keyboard.sent.length).foldl
      (fun b c => b.push 1 ⟨keyboardThread, c⟩) s.postbox }

/-- A step of `postbox_debug`, which is `pop` and the test of the loop, or `SendMessage`. -/
def debugStep (s : Typing) : Typing :=
  match s.forwarding with
  | none =>
    let (msg, b) := s.postbox.pop 1
    { s with
      postbox := b
      forwarding := if msg.operatorNe kMessageNull then some msg.data else none }
  | some data => { s with postbox := s.postbox.push 2 ⟨debugThread, data⟩, forwarding := none }

/-- A step of `tty_update`, from one `pop` of port 2 to the next. -/
def ttyStep (s : Typing) : Typing :=
  let (msg, b) := s.postbox.pop 2
  { s with postbox := b, tty := s.tty.bind (·.pop msg) }

/-- One step of one of the parts. -/
def step (s : Typing) : TypingEvent → Typing
  | .irq status keycode => { s with keyboard := s.keyboard.step (.irq status keycode) }
  | .keyboard garbage => s.keyboardStep garbage
  | .postboxDebug => s.debugStep
  | .tty => s.ttyStep
  | .other e => { s with postbox := s.postbox.step e }

/-- Nothing was typed, and no one listens. -/
def initial (m : Mem) : Typing where
  keyboard := Keyboard.initial
  postbox := Postbox.empty m
  forwarding := none
  tty := some Tty.initial

/-! ## Orderly runs -/

/-- Someone listens on the port, and there is room for a message. -/
def Open (b : Postbox) (portId : Word) : Prop :=
  (∃ i, i < b.size ∧ b.port i = portId) ∧ b.HasRoom portId

/-- A call that is not a push to port 1 or 2 or a pop from one of them. -/
def Elsewhere : Postbox.PostboxEvent → Prop
  | .listen _ _ => True
  | .push portId _ => portId ≠ 1 ∧ portId ≠ 2
  | .pop portId => portId ≠ 1 ∧ portId ≠ 2

/-- No part runs out of room, and no key without a character is pressed. -/
structure Orderly (s : Typing) (e : TypingEvent) : Prop where
  character : ∀ status keycode, e = .irq status keycode →
    0 ∉ (s.keyboard.keyboardIrq status keycode).accepted
  first : ∀ garbage, e = .keyboard garbage →
    (s.keyboard.step (.thread garbage)).sent ≠ s.keyboard.sent → Open s.postbox 1
  second : e = .postboxDebug → s.forwarding ≠ none → Open s.postbox 2
  line : ∀ t, e = .tty → s.tty = some t → (s.postbox.pop 2).1 ≠ kMessageNull →
    t.ttyIdx < ttyBufferSize
  other : ∀ call, e = .other call →
    Elsewhere call ∧ s.postbox.Allocated call ∧ s.postbox.FindsRoom call

/-- The store of the keyboard thread, if the event is a step of it, is harmless. -/
def HarmlessKey (s : Typing) (e : TypingEvent) : Prop :=
  ∀ garbage, e = .keyboard garbage → s.keyboard.Harmless (.thread garbage)

/-- With a whole line in its buffer, the terminal finds no further message before it parses. -/
def Pauses (s : Typing) (e : TypingEvent) : Prop :=
  ∀ t, e = .tty → s.tty = some t → newline ∈ t.str → (s.postbox.pop 2).1 = kMessageNull

/-! ## Where the characters are -/

/-- Each character that was sent is in one place, in order: in a string that was parsed, in the
buffer of the terminal, at port 2, with `postbox_debug`, or at port 1. -/
structure Inv (s : Typing) (ideal : IdealPostbox) (t : Tty) (c : Collector Byte) : Prop where
  keyboard : s.keyboard.Inv
  postbox : s.postbox.Represents ideal
  tty : s.tty = some t
  holds : t.Holds c
  character : 0 ∉ s.keyboard.accepted
  threads : ∀ msg ∈ ideal.messages 1 ++ ideal.messages 2, msg.sourceThread ≠ 0
  sent : s.keyboard.sent = c.handed.flatten ++ c.line ++ Tty.chars (ideal.messages 2) ++
    s.forwarding.toList ++ Tty.chars (ideal.messages 1)

/-- What was handed over are lines, and a newline in the buffer is the last character. -/
structure InLines (c : Collector Byte) : Prop where
  handed : ∀ l ∈ c.handed, ∃ p, newline ∉ p ∧ l = p ++ [newline]
  line : newline ∉ c.line.dropLast

variable {s : Typing} {e : TypingEvent} {ideal : IdealPostbox} {t : Tty} {c : Collector Byte}
  {m : Mem} {events : List TypingEvent}

/-- An interrupt sends nothing. -/
theorem irq_sent (k : Keyboard) (status keycode : Byte) :
    (k.keyboardIrq status keycode).sent = k.sent := by
  rw [Keyboard.keyboardIrq]
  split_ifs <;> rfl

/-- A step of the thread accepts nothing, and sends one character at most. -/
theorem thread_sent (k : Keyboard) (garbage : Byte) :
    (k.step (.thread garbage)).accepted = k.accepted ∧
      ((k.step (.thread garbage)).sent = k.sent ∨
        ∃ ch, (k.step (.thread garbage)).sent = k.sent ++ [ch]) := by
  cases hphase : k.phase with
  | polling loops =>
    simp only [Keyboard.step, hphase, Keyboard.getc]
    split_ifs
    · exact ⟨rfl, Or.inl rfl⟩
    · exact ⟨rfl, Or.inr ⟨_, rfl⟩⟩
    · exact ⟨rfl, Or.inl rfl⟩
  | handling ch =>
    obtain ⟨haccepted, hsent⟩ := Keyboard.kbUpdate_trace k ch
    simp only [Keyboard.step, hphase]
    exact ⟨haccepted, Or.inl hsent⟩

/-- What is in the ring was accepted and not yet sent. -/
theorem accepted_eq {k : Keyboard} (h : k.Inv) : k.accepted = k.sent ++ k.buffer.unread := by
  obtain ⟨q, haccepted, hsent, hheld⟩ := h.queue
  rw [← haccepted, ← hsent, ← hheld, q.conserved]

/-- A port that someone listens on has a queue. -/
theorem Open.exists_queue {b : Postbox} {portId : Word} (h : Open b portId)
    (hb : b.Represents ideal) : ∃ q ∈ ideal, q.port = portId := by
  obtain ⟨⟨i, hi, hport⟩, -⟩ := h
  have hi' : i < ideal.length := hb.length.symm ▸ hi
  exact ⟨ideal[i], List.getElem_mem hi', by rw [← (hb.queues i hi').port, hport]⟩

/-- The messages at the two ports have both fields. -/
theorem Inv.carries (h : Inv s ideal t c) :
    (∀ msg ∈ ideal.messages 1, Tty.Carries msg) ∧ ∀ msg ∈ ideal.messages 2, Tty.Carries msg := by
  have hsent : 0 ∉ s.keyboard.sent := fun hmem => h.character (by
    rw [accepted_eq h.keyboard]
    exact List.mem_append_left _ hmem)
  rw [h.sent] at hsent
  simp only [List.mem_append, not_or, Tty.chars, List.mem_map, not_exists, not_and] at hsent
  obtain ⟨⟨⟨-, hsecond⟩, -⟩, hfirst⟩ := hsent
  exact ⟨fun msg hmsg => ⟨h.threads msg (List.mem_append_left _ hmsg), hfirst msg hmsg⟩,
    fun msg hmsg => ⟨h.threads msg (List.mem_append_right _ hmsg), hsecond msg hmsg⟩⟩

/-- A key is pressed or released. -/
theorem Inv.irq (h : Inv s ideal t c) {status keycode : Byte}
    (ho : Orderly s (.irq status keycode)) : Inv (s.step (.irq status keycode)) ideal t c where
  keyboard := h.keyboard.keyboardIrq status keycode
  postbox := h.postbox
  tty := h.tty
  holds := h.holds
  character := ho.character status keycode rfl
  threads := h.threads
  sent := (irq_sent s.keyboard status keycode).trans h.sent

/-- The keyboard thread sends the oldest character of the ring, or none. -/
theorem Inv.keyboardStep (h : Inv s ideal t c) {garbage : Byte}
    (ho : Orderly s (.keyboard garbage)) (hharmless : s.keyboard.Harmless (.thread garbage)) :
    ∃ ideal', Inv (s.step (.keyboard garbage)) ideal' t c := by
  obtain ⟨haccepted, hsent⟩ := thread_sent s.keyboard garbage
  have hkeyboard := h.keyboard.step hharmless
  have hcharacter : 0 ∉ (s.keyboard.step (.thread garbage)).accepted := by
    rw [haccepted]
    exact h.character
  rcases hsent with hsame | ⟨ch, hsent⟩
  · refine ⟨ideal, hkeyboard, ?_, h.tty, h.holds, hcharacter, h.threads, hsame.trans h.sent⟩
    simp only [step, Typing.keyboardStep, hsame, List.drop_length, List.foldl_nil]
    exact h.postbox
  · have hopen := ho.first garbage rfl (by rw [hsent]; simp)
    have hmessages := IdealPostbox.messages_push (hopen.exists_queue h.postbox)
      ⟨keyboardThread, ch⟩
    have hother : (ideal.push 1 ⟨keyboardThread, ch⟩).messages 2 = ideal.messages 2 :=
      IdealPostbox.messages_push_ne (by decide)
    refine ⟨ideal.push 1 ⟨keyboardThread, ch⟩, hkeyboard, ?_, h.tty, h.holds, hcharacter, ?_, ?_⟩
    · simp only [step, Typing.keyboardStep, hsent, List.drop_left, List.foldl_cons, List.foldl_nil]
      exact h.postbox.push hopen.2 _
    · intro msg hmsg
      rw [hmessages, hother] at hmsg
      simp only [List.mem_append, List.mem_singleton] at hmsg
      rcases hmsg with (hmsg | rfl) | hmsg
      · exact h.threads msg (List.mem_append_left _ hmsg)
      · exact (by decide : keyboardThread ≠ 0)
      · exact h.threads msg (List.mem_append_right _ hmsg)
    · rw [hmessages, hother]
      simp only [step, Typing.keyboardStep, hsent, h.sent, Tty.chars, List.map_append,
        List.map_cons, List.map_nil, List.append_assoc]

/-- `postbox_debug` takes a character from port 1, or sends the one it has to port 2. -/
theorem Inv.debugStep (h : Inv s ideal t c) (ho : Orderly s .postboxDebug) :
    ∃ ideal', Inv (s.step .postboxDebug) ideal' t c := by
  cases hforwarding : s.forwarding with
  | none =>
    obtain ⟨hmsg, hrep⟩ := h.postbox.pop 1
    have hsecond : (ideal.pop 1).2.messages 2 = ideal.messages 2 :=
      IdealPostbox.messages_pop_ne (by decide)
    simp only [step, Typing.debugStep, hforwarding, hmsg]
    cases hmessages : ideal.messages 1 with
    | nil =>
      have hpop := IdealPostbox.pop_nil hmessages
      rw [hpop] at hrep ⊢
      refine ⟨ideal, h.keyboard, hrep, h.tty, h.holds, h.character, h.threads, ?_⟩
      rw [h.sent, hforwarding]
      rfl
    | cons msg more =>
      obtain ⟨hfirst, hmore⟩ := IdealPostbox.pop_cons hmessages
      have hcarries := h.carries.1 msg (by rw [hmessages]; exact List.mem_cons_self)
      rw [hfirst, if_pos (DrainBody.operatorNe_iff.mpr hcarries)]
      refine ⟨(ideal.pop 1).2, h.keyboard, hrep, h.tty, h.holds, h.character, ?_, ?_⟩
      · intro msg' hmsg'
        rw [hmore, hsecond] at hmsg'
        apply h.threads msg'
        rw [hmessages]
        exact List.mem_cons_of_mem _ hmsg'
      · rw [h.sent, hforwarding, hmessages, hmore, hsecond]
        simp [Tty.chars]
  | some data =>
    have hopen := ho.second rfl (by rw [hforwarding]; simp)
    have hmessages := IdealPostbox.messages_push (hopen.exists_queue h.postbox) ⟨debugThread, data⟩
    have hother : (ideal.push 2 ⟨debugThread, data⟩).messages 1 = ideal.messages 1 :=
      IdealPostbox.messages_push_ne (by decide)
    simp only [step, Typing.debugStep, hforwarding]
    refine ⟨ideal.push 2 ⟨debugThread, data⟩, h.keyboard, h.postbox.push hopen.2 _, h.tty, h.holds,
      h.character, ?_, ?_⟩
    · intro msg hmsg
      rw [hmessages, hother] at hmsg
      simp only [List.mem_append, List.mem_singleton] at hmsg
      rcases hmsg with hmsg | hmsg | rfl
      · exact h.threads msg (List.mem_append_left _ hmsg)
      · exact h.threads msg (List.mem_append_right _ hmsg)
      · exact (by decide : debugThread ≠ 0)
    · rw [h.sent, hforwarding, hmessages, hother]
      simp [Tty.chars]

/-- A search for a newline hands the line over, or changes nothing. -/
theorem scan_take (h : t.Holds c) :
    t.scan.Holds (Collector.take newline ⟨[], c.handed⟩ c.line) :=
  Tty.Holds.scan (c := ⟨[], c.handed⟩) h List.not_mem_nil

/-- Going through the characters of the line again may hand out lines, but the characters in all
stay the same. -/
theorem take_flatten (c : Collector Byte) :
    (Collector.take newline ⟨[], c.handed⟩ c.line).handed.flatten ++
      (Collector.take newline ⟨[], c.handed⟩ c.line).line = c.handed.flatten ++ c.line := by
  rw [Collector.take]
  split_ifs <;> simp

/-- A line that ends with its newline is handed over as a line. -/
theorem InLines.take (h : InLines c) : InLines (Collector.take newline ⟨[], c.handed⟩ c.line) := by
  rw [Collector.take]
  split_ifs with hmem
  · refine ⟨fun l hl => ?_, List.not_mem_nil⟩
    rcases List.mem_append.mp hl with hl | hl
    · exact h.handed l hl
    · rw [List.mem_singleton.mp hl]
      exact Collector.exists_body hmem h.line
  · exact ⟨h.handed, h.line⟩

/-- The terminal takes a character from port 2, or looks for a newline. -/
theorem Inv.ttyStep (h : Inv s ideal t c) (ho : Orderly s .tty) :
    ∃ ideal' t' c', Inv (s.step .tty) ideal' t' c' ∧
      (InLines c → Pauses s .tty → InLines c') := by
  obtain ⟨hmsg, hrep⟩ := h.postbox.pop 2
  have hfirst : (ideal.pop 2).2.messages 1 = ideal.messages 1 :=
    IdealPostbox.messages_pop_ne (by decide)
  cases hmessages : ideal.messages 2 with
  | nil =>
    have hpop := IdealPostbox.pop_nil hmessages
    rw [hpop] at hmsg hrep
    have htty : (s.step .tty).tty = some t.scan := by
      simp only [step, Typing.ttyStep, hmsg, h.tty, Option.bind_some, Tty.pop]
      exact if_neg (by decide)
    refine ⟨ideal, t.scan, Collector.take newline ⟨[], c.handed⟩ c.line,
      ⟨h.keyboard, hrep, htty, scan_take h.holds, h.character, h.threads, ?_⟩,
      fun hlines _ => hlines.take⟩
    rw [take_flatten]
    exact h.sent
  | cons msg more =>
    obtain ⟨hpop, hmore⟩ := IdealPostbox.pop_cons hmessages
    have hcarries := h.carries.2 msg (by rw [hmessages]; exact List.mem_cons_self)
    rw [hpop] at hmsg
    have hnull : (s.postbox.pop 2).1 ≠ kMessageNull := by
      rw [hmsg]
      rintro rfl
      exact hcarries.1 rfl
    have hroom := ho.line t rfl h.tty hnull
    rcases h.holds.pop hcarries with ⟨t', ht', hholds⟩ | ⟨-, hfull⟩
    · have htty : (s.step .tty).tty = some t' := by
        simp only [step, Typing.ttyStep, hmsg, h.tty, Option.bind_some, ht']
      refine ⟨(ideal.pop 2).2, t', ⟨c.line ++ [msg.data], c.handed⟩,
        ⟨h.keyboard, hrep, htty, hholds, h.character, ?_, ?_⟩, fun hlines hpauses => ?_⟩
      · intro msg' hmsg'
        rw [hmore, hfirst] at hmsg'
        apply h.threads msg'
        rw [hmessages]
        rcases List.mem_append.mp hmsg' with hmsg' | hmsg'
        · exact List.mem_append_left _ hmsg'
        · exact List.mem_append_right _ (List.mem_cons_of_mem _ hmsg')
      · refine h.sent.trans ?_
        rw [hmessages, hmore, hfirst]
        simp [Tty.chars, step, Typing.ttyStep]
      · -- the line so far has no newline, or there would be no message
        have hline : newline ∉ c.line := fun hmem =>
          hnull (hpauses t rfl h.tty (by rw [h.holds.str_eq]; exact hmem))
        exact ⟨hlines.handed, by simpa using hline⟩
    · have := h.holds.idx
      omega

/-- A call for another port of the postbox keeps the invariant, with the same text and the same
lines collected. -/
theorem Inv.other (h : Inv s ideal t c) {call : Postbox.PostboxEvent}
    (ho : Orderly s (.other call)) :
    ∃ ideal', Inv (s.step (.other call)) ideal' t c := by
  obtain ⟨helsewhere, halloc, hroom⟩ := ho.other call rfl
  obtain ⟨hrep, -⟩ := h.postbox.call halloc hroom
  rw [Postbox.call_fst] at hrep
  have hsame : ∀ portId, portId = 1 ∨ portId = 2 →
      (Postbox.idealCall ideal call).1.messages portId = ideal.messages portId := by
    intro portId hportId
    cases call with
    | listen other new => exact IdealPostbox.messages_listen ideal other portId
    | push other msg =>
      apply IdealPostbox.messages_push_ne
      rcases hportId with rfl | rfl
      · exact helsewhere.1
      · exact helsewhere.2
    | pop other =>
      apply IdealPostbox.messages_pop_ne
      rcases hportId with rfl | rfl
      · exact helsewhere.1
      · exact helsewhere.2
  have hfirst := hsame 1 (Or.inl rfl)
  have hsecond := hsame 2 (Or.inr rfl)
  refine ⟨_, h.keyboard, hrep, h.tty, h.holds, h.character, ?_, ?_⟩
  · rw [hfirst, hsecond]
    exact h.threads
  · rw [hfirst, hsecond]
    exact h.sent

/-- Every step preserves the invariant, and keeps the text in whole lines where the keyboard pauses
after a newline. -/
theorem Inv.step (h : Inv s ideal t c) (ho : Orderly s e) (hharmless : HarmlessKey s e) :
    ∃ ideal' t' c', Inv (s.step e) ideal' t' c' ∧ (InLines c → Pauses s e → InLines c') := by
  cases e with
  | irq status keycode => exact ⟨ideal, t, c, h.irq ho, fun hlines _ => hlines⟩
  | keyboard garbage =>
    obtain ⟨ideal', h'⟩ := h.keyboardStep ho (hharmless garbage rfl)
    exact ⟨ideal', t, c, h', fun hlines _ => hlines⟩
  | postboxDebug =>
    obtain ⟨ideal', h'⟩ := h.debugStep ho
    exact ⟨ideal', t, c, h', fun hlines _ => hlines⟩
  | tty => exact h.ttyStep ho
  | other call =>
    obtain ⟨ideal', h'⟩ := h.other ho
    exact ⟨ideal', t, c, h', fun hlines _ => hlines⟩

/-- A run of orderly steps preserves the invariant as its steps do, and with it the text in whole
lines. -/
theorem Inv.run (h : Inv s ideal t c) (ho : Along Typing.step Orderly s events)
    (hharmless : Along Typing.step HarmlessKey s events) :
    ∃ ideal' t' c', Inv (runSteps Typing.step s events) ideal' t' c' ∧
      (InLines c → Along Typing.step Pauses s events → InLines c') := by
  induction events generalizing s ideal t c with
  | nil => exact ⟨ideal, t, c, h, fun hlines _ => hlines⟩
  | cons e events ih =>
    obtain ⟨ideal₁, t₁, c₁, h₁, hlines₁⟩ := h.step ho.1 hharmless.1
    obtain ⟨ideal₂, t₂, c₂, h₂, hlines₂⟩ := ih h₁ ho.2 hharmless.2
    exact ⟨ideal₂, t₂, c₂, h₂, fun hlines hpauses =>
      hlines₂ (hlines₁ hlines hpauses.1) hpauses.2⟩

/-- Before the first event all places are empty. -/
theorem Inv.initial (m : Mem) : Inv (initial m) [] Tty.initial Collector.empty where
  keyboard := Keyboard.Inv.initial
  postbox := Postbox.Represents.empty m
  tty := rfl
  holds := Tty.Holds.initial
  character := List.not_mem_nil
  threads := by simp [IdealPostbox.messages]
  sent := rfl

/-- A new port may be opened at any time, with fresh memory. -/
theorem Orderly.listen {portId : Word} {new : NewPort}
    (h : (∀ i < s.postbox.size, s.postbox.port i ≠ portId) → Postbox.Fresh s.postbox new) :
    Orderly s (.other (.listen portId new)) :=
  ⟨fun _ _ he => by simp at he, fun _ he => by simp at he, fun he => by simp at he,
    fun _ he => by simp at he, fun _ he => by
      cases he
      exact ⟨trivial, fun _ _ he => by cases he; exact h, fun _ _ he => by simp at he⟩⟩

/-- A key may be pressed at any time, if it has a character. -/
theorem Orderly.irq {status keycode : Byte}
    (h : 0 ∉ (s.keyboard.keyboardIrq status keycode).accepted) :
    Orderly s (.irq status keycode) :=
  ⟨fun _ _ he => by cases he; exact h, fun _ he => by simp at he, fun he => by simp at he,
    fun _ he => by simp at he, fun _ he => by simp at he⟩

/-- The keyboard thread may step if someone listens on port 1 whenever it has a character to
send. -/
theorem Orderly.keyboard {garbage : Byte}
    (hopen : (s.keyboard.step (.thread garbage)).sent ≠ s.keyboard.sent → Open s.postbox 1) :
    Orderly s (.keyboard garbage) :=
  ⟨fun _ _ he => by simp at he, fun _ he => by cases he; exact hopen, fun he => by simp at he,
    fun _ he => by simp at he, fun _ he => by simp at he⟩

/-- The forwarding thread may step if someone listens on port 2 whenever it has a character to
send. -/
theorem Orderly.postboxDebug (h : s.forwarding ≠ none → Open s.postbox 2) :
    Orderly s .postboxDebug :=
  ⟨fun _ _ he => by simp at he, fun _ he => by simp at he, fun _ => h,
    fun _ he => by simp at he, fun _ he => by simp at he⟩

/-- The terminal may take a message as long as there is room in its buffer. -/
theorem Orderly.tty (h : ∀ t, s.tty = some t → (s.postbox.pop 2).1 ≠ kMessageNull →
    t.ttyIdx < ttyBufferSize) : Orderly s .tty :=
  ⟨fun _ _ he => by simp at he, fun _ he => by simp at he, fun he => by simp at he,
    fun t _ => h t, fun _ he => by simp at he⟩

instance (b : Postbox) (portId : Word) : Decidable (Open b portId) :=
  inferInstanceAs (Decidable ((∃ i, i < b.size ∧ b.port i = portId) ∧
    ∀ i < b.size, b.port i = portId →
      (b.queueState i).headIndex + (b.queueState i).listSize < MessageList.kMaxMessages))

end Typing

end Muk
