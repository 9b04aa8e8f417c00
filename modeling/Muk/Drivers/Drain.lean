import Muk.Drivers.Tty

/-!
# Loops that drain a port

`postbox_debug` and `tty_update` take messages from a port as long as `operator!=` tells them from
`kMessageNull`. It asks for both fields to differ, so that a message from thread 0 and a message
with the character 0 end the loop like an empty queue, and are lost.
-/

namespace Muk

/-- `PortQueue`, with an ideal list of messages. -/
structure IdealPort where
  port : Word
  messages : List Message

/-- `MessageQueue`, with ideal lists of messages. -/
abbrev IdealPostbox := List IdealPort

namespace IdealPostbox

/-- The messages of the first object with the port asked for. -/
def messages (portId : Word) : IdealPostbox → List Message
  | [] => []
  | q :: rest => if q.port = portId then q.messages else messages portId rest

/-- `MessageQueue::push` -/
def push (portId : Word) (msg : Message) : IdealPostbox → IdealPostbox
  | [] => []
  | q :: rest =>
    if q.port = portId then { q with messages := q.messages ++ [msg] } :: rest
    else q :: push portId msg rest

/-- `MessageQueue::pop` -/
def pop (portId : Word) : IdealPostbox → Message × IdealPostbox
  | [] => (kMessageNull, [])
  | q :: rest =>
    if q.port = portId then
      match q.messages with
      | [] => (kMessageNull, q :: rest)
      | msg :: more => (msg, { q with messages := more } :: rest)
    else ((pop portId rest).1, q :: (pop portId rest).2)

variable {b : IdealPostbox} {portId other : Word} {msg : Message} {more : List Message}

/-- A push to another port. -/
theorem messages_push_ne (h : other ≠ portId) :
    (b.push other msg).messages portId = b.messages portId := by
  induction b with
  | nil => rfl
  | cons q rest ih =>
    unfold push
    by_cases hq : q.port = other
    · have hne : ¬ q.port = portId := fun heq => h (hq.symm.trans heq)
      rw [if_pos hq, messages, messages, if_neg hne, if_neg hne]
    · rw [if_neg hq, messages, messages, ih]

/-- A pop from an empty queue. -/
theorem pop_nil (h : b.messages portId = []) : b.pop portId = (kMessageNull, b) := by
  induction b with
  | nil => rfl
  | cons q rest ih =>
    unfold messages at h
    unfold pop
    by_cases hq : q.port = portId
    · rw [if_pos hq] at h ⊢
      rw [h]
    · rw [if_neg hq] at h ⊢
      rw [ih h]

/-- A pop from a queue with a message. -/
theorem pop_cons (h : b.messages portId = msg :: more) :
    (b.pop portId).1 = msg ∧ (b.pop portId).2.messages portId = more := by
  induction b with
  | nil => cases h
  | cons q rest ih =>
    unfold messages at h
    unfold pop
    by_cases hq : q.port = portId
    · rw [if_pos hq] at h ⊢
      rw [h]
      exact ⟨rfl, if_pos hq⟩
    · rw [if_neg hq] at h ⊢
      obtain ⟨hmsg, hmore⟩ := ih h
      exact ⟨hmsg, (if_neg hq).trans hmore⟩

end IdealPostbox

/-- What a loop does with a message, on the postbox and on a state of its own. It leaves the queue
of the port that the loop drains as it is. -/
structure DrainBody (σ : Type) (portId : Word) where
  run : Message → IdealPostbox × σ → IdealPostbox × σ
  keeps : ∀ msg s, (run msg s).1.messages portId = s.1.messages portId

/-- The body in `postbox_debug`, which runs as the given thread. -/
def postboxDebug (thread : Word) : DrainBody Unit 1 where
  run msg s := (s.1.push 2 ⟨thread, msg.data⟩, s.2)
  keeps _ _ := IdealPostbox.messages_push_ne (by decide)

/-- The memory from `tty_buffer` on, `tty_idx`, and the arguments of `terminal_putchar`. -/
structure TtyInput where
  buffer : ℕ → Byte
  ttyIdx : ℕ
  drawn : List Byte

/-- The body of the first loop in `tty_update`. -/
def ttyInput : DrainBody TtyInput 2 where
  run msg s := (s.1,
    { buffer := fun i => if i = s.2.ttyIdx then msg.data else s.2.buffer i
      ttyIdx := s.2.ttyIdx + 1
      drawn := if msg.data ≠ newline then s.2.drawn ++ [msg.data] else s.2.drawn })
  keeps _ _ := rfl

/-- The body of the second loop in `tty_update`, which counts the calls of `scrollUp`. -/
def ttyScroll : DrainBody ℕ 3 where
  run _ s := (s.1, s.2 + 1)
  keeps _ _ := rfl

namespace DrainBody

variable {σ : Type} {portId : Word} (body : DrainBody σ portId)

/-- `while((msg = postbox.pop(portId)) != kMessageNull)`: the messages with which the body ran, and
the state after the loop. -/
def drainLoop : ℕ → IdealPostbox × σ → Option (List Message × (IdealPostbox × σ))
  | 0, _ => none
  | fuel + 1, (b, s) =>
    if (b.pop portId).1.operatorNe kMessageNull then
      (drainLoop fuel (body.run (b.pop portId).1 ((b.pop portId).2, s))).map fun r =>
        ((b.pop portId).1 :: r.1, r.2)
    else some ([], ((b.pop portId).2, s))

/-- The loop ends with an empty queue, after its body ran once with each message and in order. -/
def TakesAll (s : IdealPostbox × σ) : Prop := ∃ fuel t,
  body.drainLoop fuel s = some (s.1.messages portId, t) ∧ t.1.messages portId = []

variable {body} {fuel : ℕ} {s t : IdealPostbox × σ} {calls : List Message} {msg : Message}
  {more : List Message}

/-- The operator tells the messages with both fields from `kMessageNull`, and no others. -/
theorem operatorNe_iff : msg.operatorNe kMessageNull = true ↔ Tty.Carries msg := by
  simp [Message.operatorNe, kMessageNull, Tty.Carries]

/-- A pass that finds a message in the queue takes it, hands it to the body of the loop, and goes on
with the rest. -/
theorem drainLoop_cons (body : DrainBody σ portId) (h : s.1.messages portId = msg :: more)
    (hmsg : Tty.Carries msg) :
    ∃ s', s'.1.messages portId = more ∧ ∀ fuel,
      body.drainLoop (fuel + 1) s = (body.drainLoop fuel s').map fun r => (msg :: r.1, r.2) := by
  obtain ⟨hpop, hmore⟩ := IdealPostbox.pop_cons h
  refine ⟨body.run msg ((s.1.pop portId).2, s.2), (body.keeps _ _).trans hmore, fun fuel => ?_⟩
  rw [drainLoop, hpop]
  exact if_pos (operatorNe_iff.mpr hmsg)

/-- The pass that finds the queue empty. -/
theorem drainLoop_nil (h : s.1.messages portId = []) :
    body.drainLoop (fuel + 1) s = some ([], s) := by
  have hnull : ¬ kMessageNull.operatorNe kMessageNull = true := by decide
  rw [drainLoop, IdealPostbox.pop_nil h]
  exact if_neg hnull

/-- The body runs only with messages that have both fields. -/
theorem carries_of_drainLoop (h : body.drainLoop fuel s = some (calls, t)) :
    ∀ msg ∈ calls, Tty.Carries msg := by
  induction fuel generalizing s calls with
  | zero => cases h
  | succ fuel ih =>
    rw [drainLoop] at h
    split_ifs at h with hne
    · obtain ⟨⟨rest, t'⟩, hrun, heq⟩ := Option.map_eq_some_iff.mp h
      obtain ⟨rfl, rfl⟩ := Prod.mk.inj heq
      exact List.forall_mem_cons.mpr ⟨operatorNe_iff.mp hne, ih hrun⟩
    · obtain ⟨rfl, -⟩ := Prod.mk.inj (Option.some.inj h)
      simp

/-- Messages with both fields are all taken. -/
theorem takesAll_of_carries {queue : List Message} (hqueue : s.1.messages portId = queue)
    (h : ∀ msg ∈ queue, Tty.Carries msg) :
    ∃ fuel t, body.drainLoop fuel s = some (queue, t) ∧ t.1.messages portId = [] := by
  induction queue generalizing s with
  | nil => exact ⟨1, s, drainLoop_nil hqueue, hqueue⟩
  | cons msg more ih =>
    obtain ⟨hmsg, hrest⟩ := List.forall_mem_cons.mp h
    obtain ⟨s', hmore, hpass⟩ := drainLoop_cons body hqueue hmsg
    obtain ⟨fuel, t, hrun, hempty⟩ := ih hmore hrest
    exact ⟨fuel + 1, t, by rw [hpass, hrun]; rfl, hempty⟩

/-- **A drain loop takes the messages with both fields, and stops at any other.** For every queue,
whatever the body does elsewhere: the loop runs its body once with each message of the queue, in
order, and ends with the queue empty, if and only if each message has a source thread and a
character other than 0. -/
theorem takesAll_iff (body : DrainBody σ portId) (s : IdealPostbox × σ) :
    body.TakesAll s ↔ ∀ msg ∈ s.1.messages portId, Tty.Carries msg := by
  constructor
  · rintro ⟨fuel, t, hrun, -⟩
    exact carries_of_drainLoop hrun
  · exact takesAll_of_carries rfl

/-- A key that is pressed in thread 0, and another one. -/
def keysOfThreads : IdealPostbox := [⟨1, [⟨0, 0x61⟩, ⟨3, 0x62⟩]⟩, ⟨2, []⟩]

/-- The first key ends the loop, and is lost. -/
theorem keysOfThreads_lost :
    (postboxDebug 3).drainLoop 1 (keysOfThreads, ()) =
      some ([], ([⟨1, [⟨3, 0x62⟩]⟩, ⟨2, []⟩], ())) ∧
    ¬ (postboxDebug 3).TakesAll (keysOfThreads, ()) := by
  refine ⟨rfl, ?_⟩
  rintro ⟨fuel, t, hrun, -⟩
  have hcarries := carries_of_drainLoop hrun ⟨0, 0x61⟩ (by decide)
  exact hcarries.1 rfl

end DrainBody

end Muk
