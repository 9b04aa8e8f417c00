import Muk.Lib.Run
import Muk.Proc.Scheduler

/-!
# Round robin of the threads

Between two calls of `Scheduler::next` the running thread may do what it likes to its
own stack and registers, and to all memory that is not the stack, the saved stack
pointer or a link of a thread. Under this assumption the calls refine an abstract round
robin of contexts: whoever is switched to continues exactly where it was left.
-/

namespace Muk

open Thread (field)

variable {k : Kernel} {threads : ℕ → NewThread} {n : ℕ} {x : Word}

/-- The registers and memory with which some thread calls `Scheduler::next`: `esp` before
the arguments of `switch_context` are pushed, the address that call returns to, and the
address of the interrupt frame. -/
structure Turn where
  ebx : Word
  esi : Word
  edi : Word
  ebp : Word
  esp : Word
  returnAddress : Word
  r : Word
  mem : Mem

/-- The processor at the call of `Scheduler::next`. -/
def Turn.cpu (t : Turn) : Cpu where
  ebx := t.ebx
  esi := t.esi
  edi := t.edi
  ebp := t.ebp
  esp := t.esp
  eip := t.returnAddress
  interrupts := true

/-- What the calling thread is to continue with: the stack pointer is the one at the
call of `switch_context`, below its two arguments. -/
def Turn.context (t : Turn) : Context where
  ebx := t.ebx
  esi := t.esi
  edi := t.edi
  ebp := t.ebp
  esp := t.esp - 8#32
  eip := t.returnAddress

/-- The processor continues with a context, interrupts enabled. -/
def Context.cpu (c : Context) : Cpu where
  ebx := c.ebx
  esi := c.esi
  edi := c.edi
  ebp := c.ebp
  esp := c.esp
  eip := c.eip
  interrupts := true

namespace Kernel

/-- One turn: what happens up to the call, then the call. -/
def callNext (k : Kernel) (t : Turn) : Kernel :=
  next { k with mem := t.mem, cpu := t.cpu } t.r t.returnAddress

/-- The kernel after a number of turns. -/
def afterTurns (k : Kernel) (turns : List Turn) : Kernel := runSteps callNext k turns

/-- One turn more is the next one after those before. -/
theorem afterTurns_concat (k : Kernel) (turns : List Turn) (t : Turn) :
    k.afterTurns (turns ++ [t]) = (k.afterTurns turns).callNext t := by
  simp only [afterTurns, runSteps_append, runSteps_cons, runSteps_nil]

end Kernel

/-! ## What may happen between two calls -/

/-- Up to the first call no thread runs: their stacks, saved stack pointers and links are
left alone, and the caller's own stack lies outside all `Thread` objects. (Only `start_thread`
and `Scheduler::next` write to a link or a saved stack pointer.) -/
structure BootTurn (k : Kernel) (threads : ℕ → NewThread) (n : ℕ) (t : Turn) : Prop where
  saved : ∀ i < n, ∀ x, InSaved (threads i).addr x → t.mem x = k.mem x
  links : ∀ i < n, ∀ offset, offset = Thread.prev ∨ offset = Thread.next →
    load32 t.mem (field (threads i).addr offset) = load32 k.mem (field (threads i).addr offset)
  stackPtr : load32 t.mem (field (threads 0).addr Thread.stackPtr) =
    load32 k.mem (field (threads 0).addr Thread.stackPtr)
  outside : ∀ i < n, ∀ x, (x - (t.esp - 8#32)).toNat < 8 → ¬ InObject (threads i).addr x

/-- While a thread runs, the stacks of the others, their saved stack pointers and all
links are left alone, and the thread is on its own stack, with room for the call. -/
structure ThreadTurn (k : Kernel) (threads : ℕ → NewThread) (n running : ℕ) (t : Turn) : Prop where
  saved : ∀ i < n, i ≠ running → ∀ x, InSaved (threads i).addr x → t.mem x = k.mem x
  links : ∀ i < n, ∀ offset, offset = Thread.prev ∨ offset = Thread.next →
    load32 t.mem (field (threads i).addr offset) = load32 k.mem (field (threads i).addr offset)
  low : (threads running).addr.toNat + Thread.stack + 28 ≤ t.esp.toNat
  high : t.esp.toNat ≤ (threads running).addr.toNat + Thread.tStatus

/-! ## The invariant -/

/-- The kernel between two calls, once the threads run: it holds the contexts that the
abstract round robin keeps. -/
structure Switching (k : Kernel) (threads : ℕ → NewThread) (n : ℕ) (rr : RoundRobin Context) :
    Prop where
  lt : rr.running < n
  root : k.threadRoot = (threads 0).addr
  running : k.threadRunning = (threads rr.running).addr
  started : k.started = true
  ring : Ring k.mem threads n
  suspended : ∀ i < n, i ≠ rr.running → Suspended k.mem (threads i).addr (rr.saved i)

/-- `prev` leads back to where `next` came from. -/
theorem Ring.prev_next {m : Mem} (h : Ring m threads n) (hn : 2 ≤ n) {i : ℕ} (hi : i < n) :
    load32 m (field (threads ((i + 1) % n)).addr Thread.prev) = (threads i).addr := by
  by_cases hlast : i + 1 = n
  · have hi' : n - 1 = i := by omega
    rw [hlast, Nat.mod_self, h.prev_first hn, hi']
  · rw [Nat.mod_eq_of_lt (show i + 1 < n by omega), h.prev (i + 1) (by omega) (by omega)]
    rfl

/-- The registers in the five words of a suspended thread are those of its context. -/
theorem Suspended.resumed {m : Mem} {thread : Word} {c : Context} (h : Suspended m thread c) :
    Kernel.resumed m (load32 m (field thread (Thread.stateReg + Registers.esp))) = c.cpu := by
  have hesp : c.esp - 20#32 + 20#32 = c.esp := by bv_omega
  rw [h.esp, Kernel.resumed, h.edi, h.esi, h.ebx, h.ebp, h.eip, hesp]
  rfl

/-! ## One call -/

/-- Memory after the interrupt frame is saved. -/
def savedMem (m : Mem) (thread r : Word) : Mem :=
  if 0xE0000000#32 < load32 m (r + BitVec.ofNat 32 Registers.esp) then
    memcpy m (field thread Thread.stateReg) r Registers.size
  else m

/-- Saving the state writes the context of the running thread. -/
theorem saveState_eq (k : Kernel) (r : Word) :
    k.saveState r = { k with mem := savedMem k.mem k.threadRunning r } := by
  rw [Kernel.saveState, savedMem]
  split_ifs <;> rfl

/-- Saving the interrupt frame writes the saved registers of the running thread only. -/
theorem savedMem_frame {m : Mem} {thread r : Word}
    (hx : (x - thread).toNat < 12 ∨ 88 ≤ (x - thread).toNat) : savedMem m thread r x = m x := by
  rw [savedMem]
  split_ifs
  · apply memcpy_frame
    simp only [field, Thread.stateReg, Registers.size]
    bv_omega
  · rfl

/-- The interrupt frame is not saved over a link. -/
theorem load32_savedMem_link {m : Mem} {thread r : Word} {offset : ℕ}
    (hoffset : offset = Thread.prev ∨ offset = Thread.next) :
    load32 (savedMem m thread r) (field thread offset) = load32 m (field thread offset) := by
  refine load32_congr fun x hx => savedMem_frame ?_
  rcases hoffset with rfl | rfl
  · simp only [field, Thread.prev] at hx
    bv_omega
  · simp only [field, Thread.next] at hx
    bv_omega

/-- What a call then leaves in memory: the registers on the stack of the caller, and their
address in its `state_reg.esp`. -/
def Turn.leave (t : Turn) (m : Mem) (outgoing incoming : Word) : Mem :=
  store32 (storeFields m (t.esp - 28#32)
    (Kernel.switchFields t.cpu (field incoming (Thread.stateReg + Registers.esp))
      (field outgoing (Thread.stateReg + Registers.esp)) t.returnAddress))
    (field outgoing (Thread.stateReg + Registers.esp)) (t.esp - 28#32)

/-- A call of `Scheduler::next` by the thread at `outgoing`, when the links lead to the one
at `incoming` and back. -/
theorem callNext_eq {outgoing incoming : Word} (hstarted : k.started = true) (t : Turn)
    (hrunning : k.threadRunning = outgoing)
    (hnext : load32 (savedMem t.mem outgoing t.r) (field outgoing Thread.next) = incoming)
    (hprev : load32 (savedMem t.mem outgoing t.r) (field incoming Thread.prev) = outgoing) :
    let m := t.leave (savedMem t.mem outgoing t.r) outgoing incoming
    k.callNext t = { k with
      mem := m
      threadRunning := incoming
      cpu := Kernel.resumed m (load32 m (field incoming (Thread.stateReg + Registers.esp))) } := by
  simp only [Kernel.callNext, Kernel.next, if_pos hstarted, saveState_eq, hrunning, hnext, hprev,
    Kernel.switchContext_call]
  rfl

/-- The call writes to the stack and to the saved stack pointer of the caller. -/
theorem ThreadTurn.leave_frame {running : ℕ} {t : Turn} (ht : ThreadTurn k threads n running t)
    (hfits : (threads running).addr.toNat + Thread.size ≤ 2 ^ 32) (m : Mem) (incoming : Word)
    (hx : ¬ InSaved (threads running).addr x) :
    t.leave m (threads running).addr incoming x = m x := by
  have hlow := ht.low
  have hhigh := ht.high
  refine (store32_frame _ _ ?_).trans
    (storeFields_frame (fun f hf => (Kernel.switchFields_offset hf).2) ?_)
  · simp only [InSaved, field, Thread.stateReg, Registers.esp] at *
    bv_omega
  · simp only [InSaved, Thread.stack, Thread.tStatus, Thread.size] at *
    bv_omega

/-- The caller is left suspended, to continue at the return address with its registers. -/
theorem ThreadTurn.suspended {running : ℕ} {t : Turn} (ht : ThreadTurn k threads n running t)
    (hfits : (threads running).addr.toNat + Thread.size ≤ 2 ^ 32) (m : Mem) (incoming : Word) :
    Suspended (t.leave m (threads running).addr incoming) (threads running).addr t.context := by
  have hlow := ht.low
  have hhigh := ht.high
  have hsp : t.context.esp - 20#32 = t.esp - 28#32 := by
    simp only [Turn.context]
    bv_omega
  have hword (offset : ℕ) (hoffset : FieldOffset offset) (hle : offset ≤ 16) :
      load32 (t.leave m (threads running).addr incoming)
        (t.context.esp - 20#32 + BitVec.ofNat 32 offset) =
      readField (Kernel.switchFields t.cpu (field incoming (Thread.stateReg + Registers.esp))
        (field (threads running).addr (Thread.stateReg + Registers.esp)) t.returnAddress) offset
        (load32 m (t.esp - 28#32 + BitVec.ofNat 32 offset)) := by
    rw [hsp, ← load32_storeFields hoffset fun f hf => (Kernel.switchFields_offset hf).1]
    apply load32_store32_disjoint <;>
      simp only [field, Thread.stateReg, Registers.esp, Thread.stack, Thread.tStatus,
        Thread.size] at * <;> bv_omega
  refine ⟨?_, ?_, ?_, ?_, ?_, ?_, ?_, ?_⟩
  · simp only [Turn.context, Thread.stack] at *
    bv_omega
  · simp only [Turn.context, Thread.tStatus] at *
    bv_omega
  · rw [hsp]
    exact load32_store32_same ..
  · exact hword 0 (by decide) (by omega)
  · exact hword 4 (by decide) (by omega)
  · exact hword 8 (by decide) (by omega)
  · exact hword 12 (by decide) (by omega)
  · exact hword 16 (by decide) (by omega)

/-- A call of `Scheduler::next` switches the round robin: the thread that comes in continues
with the context kept for it, and the caller's stack pointer is in its `state_reg.esp`. -/
theorem Switching.callNext (h : Placed threads n) (hn : 2 ≤ n) {rr : RoundRobin Context}
    (hs : Switching k threads n rr) {t : Turn} (ht : ThreadTurn k threads n rr.running t) :
    Switching (k.callNext t) threads n (rr.switch n t.context) ∧
      (k.callNext t).cpu = (rr.saved ((rr.running + 1) % n)).cpu ∧
      load32 (k.callNext t).mem
        (field (threads rr.running).addr (Thread.stateReg + Registers.esp)) = t.esp - 28#32 := by
  let outgoing := rr.running
  let incoming := (rr.running + 1) % n
  have hout : outgoing < n := hs.lt
  have hin : incoming < n := Nat.mod_lt _ (by omega)
  have hne : incoming ≠ outgoing := RoundRobin.mod_succ_ne hn hout
  have hfits := h.fits outgoing hout
  -- saving the interrupt frame leaves the other threads and all links alone
  let m := savedMem t.mem (threads outgoing).addr t.r
  have hother {i : ℕ} (hi : i < n) (hio : i ≠ outgoing) (x : Word)
      (hx : InObject (threads i).addr x) : m x = t.mem x := by
    have hfar := h.not_inObject hi hout hio hx
    apply savedMem_frame
    simp only [InObject, Thread.size] at hfar
    omega
  have hring : Ring m threads n := hs.ring.congr fun i hi offset ho => by
    refine Eq.trans ?_ (ht.links i hi offset ho)
    by_cases hio : i = outgoing
    · rw [hio]
      exact load32_savedMem_link ho
    · exact load32_field_congr (by rcases ho with rfl | rfl <;> decide) (hother hi hio)
  have hcall := callNext_eq hs.started t hs.running (hring.next outgoing hout)
    (hring.prev_next hn hout)
  -- the rest of the call writes to the stack and the saved stack pointer of the caller
  let m' := t.leave m (threads outgoing).addr (threads incoming).addr
  have hframe {x : Word} (hx : ¬ InSaved (threads outgoing).addr x) : m' x = m x :=
    ht.leave_frame hfits m _ hx
  have hsuspended {i : ℕ} (hi : i < n) (hio : i ≠ outgoing) :
      Suspended m' (threads i).addr (rr.saved i) :=
    (hs.suspended i hi hio).congr fun x hx => by
      rw [hframe fun hx' => h.not_inObject hi hout hio hx.inObject hx'.inObject,
        hother hi hio x hx.inObject, ht.saved i hi hio x hx]
  have hring' : Ring m' threads n := hring.congr fun i hi offset ho =>
    load32_congr fun x hx => hframe fun hx' => by
      by_cases hio : i = outgoing
      · rw [hio] at hx
        have := not_inSaved_of_link ho hx'
        omega
      · exact h.not_inObject hi hout hio
          (inObject_of_field (by rcases ho with rfl | rfl <;> decide) hx) hx'.inObject
  rw [hcall]
  refine ⟨⟨hin, hs.root, rfl, hs.started, hring', fun i hi hio => ?_⟩, ?_, ?_⟩
  · by_cases hio' : i = outgoing
    · rw [hio']
      simp only [RoundRobin.switch, outgoing, Function.update_self]
      exact ht.suspended hfits m _
    · simp only [RoundRobin.switch, ne_eq, hio', not_false_eq_true, outgoing,
        Function.update_of_ne]
      exact hsuspended hi hio'
  · exact (hsuspended hin hne).resumed
  · exact load32_store32_same ..

/-- The first call of `Scheduler::next` enters the first thread, and the round robin begins. -/
theorem Started.callNext (hn : 0 < n) (hk : Started k threads n)
    (hrunning : k.threadRunning = k.threadRoot) (hstarted : k.started = false) {t : Turn}
    (ht : BootTurn k threads n t) :
    Switching (k.callNext t) threads n { running := 0, saved := startContext ∘ threads } ∧
      (k.callNext t).cpu = (startContext (threads 0)).cpu := by
  have hroot : k.threadRoot = (threads 0).addr := by rw [hk.root, if_neg (by omega)]
  let m := storeFields t.mem (t.esp - 8#32)
    [(4, field (threads 0).addr Thread.stackPtr), (0, t.returnAddress)]
  have hobject {i : ℕ} (hi : i < n) (x : Word) (hx : InObject (threads i).addr x) :
      m x = t.mem x := by
    have hfar : 8 ≤ (x - (t.esp - 8#32)).toNat := by
      by_contra hnear
      exact ht.outside i hi x (by omega) hx
    exact storeFields_frame (by simp) hfar
  have hring : Ring m threads n := hk.ring.congr fun i hi offset ho =>
    (load32_field_congr (by rcases ho with rfl | rfl <;> decide) (hobject hi)).trans
      (ht.links i hi offset ho)
  have hsuspended {i : ℕ} (hi : i < n) : Suspended m (threads i).addr (startContext (threads i)) :=
    (hk.suspended i hi).congr fun x hx => by
      rw [hobject hi x hx.inObject, ht.saved i hi x hx]
  have hsp : load32 m (field (threads 0).addr Thread.stackPtr) =
      load32 m (field (threads 0).addr (Thread.stateReg + Registers.esp)) := by
    rw [load32_field_congr (by decide) (hobject hn), ht.stackPtr, hk.stackPtr 0 hn,
      (hsuspended hn).esp]
  have hcall : k.callNext t = { k with
      mem := m
      started := true
      cpu := Kernel.resumed m
        (load32 m (field (threads 0).addr (Thread.stateReg + Registers.esp))) } := by
    simp only [Kernel.callNext, Kernel.next, hstarted, Bool.false_eq_true, if_false, hrunning,
      hroot, Kernel.setContext_call, ← hsp]
    rfl
  rw [hcall]
  exact ⟨⟨hn, hroot, hrunning.trans hroot, rfl, hring, fun i hi _ => hsuspended hi⟩,
    (hsuspended hn).resumed⟩

/-! ## Any number of calls -/

/-- Every turn is one of the running thread, from the state that the turns before it
have led to. -/
def ThreadTurns (k : Kernel) (threads : ℕ → NewThread) (n : ℕ) (turns : List Turn) : Prop :=
  ∀ i (hi : i < turns.length), ThreadTurn (k.afterTurns (turns.take i)) threads n (i % n) turns[i]

/-- The first turns of a run are turns of the threads, too. -/
theorem ThreadTurns.take {turns : List Turn} (h : ThreadTurns k threads n turns) (count : ℕ) :
    ThreadTurns k threads n (turns.take count) := by
  intro i hi
  rw [List.length_take] at hi
  rw [List.take_take, min_eq_left (by omega), List.getElem_take]
  exact h i (by omega)

/-- The last turn of a run is a turn of the thread that runs then. -/
theorem ThreadTurns.of_concat {turns : List Turn} {t : Turn}
    (h : ThreadTurns k threads n (turns ++ [t])) : ThreadTurns k threads n turns ∧
      ThreadTurn (k.afterTurns turns) threads n (turns.length % n) t := by
  refine ⟨?_, ?_⟩
  · have htake := h.take turns.length
    rwa [List.take_left] at htake
  · have hlast := h turns.length (by simp)
    rwa [List.take_left, List.getElem_concat_length rfl] at hlast

/-- The contexts that the threads left in their turns, and those of the threads that are
still to run. -/
def contexts (threads : ℕ → NewThread) (n : ℕ) (turns : List Turn) : RoundRobin Context :=
  RoundRobin.run n (startContext ∘ threads) (turns.map Turn.context)

/-- The thread that runs after some turns is found by counting around the ring. -/
theorem contexts_running (threads : ℕ → NewThread) (n : ℕ) (turns : List Turn) :
    (contexts threads n turns).running = turns.length % n := by
  rw [contexts, RoundRobin.run_running, List.length_map]

/-- Any number of calls refines the round robin of contexts. -/
theorem Switching.afterTurns (h : Placed threads n) (hn : 2 ≤ n)
    (hs : Switching k threads n (contexts threads n []))
    (hcpu : k.cpu = (startContext (threads 0)).cpu)
    {turns : List Turn} (hturns : ThreadTurns k threads n turns) :
    Switching (k.afterTurns turns) threads n (contexts threads n turns) ∧
      (k.afterTurns turns).cpu = ((contexts threads n turns).saved (turns.length % n)).cpu := by
  induction turns using List.reverseRecOn with
  | nil =>
    rw [List.length_nil, Nat.zero_mod]
    exact ⟨hs, hcpu⟩
  | append_singleton turns t ih =>
    obtain ⟨hbefore, ht⟩ := hturns.of_concat
    obtain ⟨hs', -⟩ := ih hbefore
    rw [← contexts_running threads] at ht
    obtain ⟨hswitch, hcpu', -⟩ := hs'.callNext h hn ht
    have hconcat : contexts threads n (turns ++ [t]) =
        (contexts threads n turns).switch n t.context := by
      simp only [contexts, List.map_append, List.map_cons, List.map_nil, RoundRobin.run_concat]
    have hne := RoundRobin.mod_succ_ne hn hs'.lt
    rw [Kernel.afterTurns_concat, hconcat]
    refine ⟨hswitch, hcpu'.trans ?_⟩
    have hnext : (turns.length + 1) % n = ((contexts threads n turns).running + 1) % n := by
      rw [contexts_running, Nat.mod_add_mod]
    rw [List.length_append, List.length_singleton, hnext, RoundRobin.switch]
    simp only [Function.update_of_ne hne]

/-! ## The ring and the turns, as the variables of the scheduler show them -/

/-- `thread->prev` or `thread->next`. -/
def Kernel.link (k : Kernel) (offset : ℕ) (thread : Word) : Word :=
  load32 k.mem (field thread offset)

/-- The threads in a ring: from `thread_root` on, `next` visits each of them once in the
order in which they were started, and `prev` is its inverse. -/
structure RingList (k : Kernel) (threads : ℕ → NewThread) (n : ℕ) : Prop where
  walk : ∀ i, (k.link Thread.next)^[i] k.threadRoot = (threads (i % n)).addr
  once : ∀ i < n, ∀ j < n,
    (k.link Thread.next)^[i] k.threadRoot = (k.link Thread.next)^[j] k.threadRoot → i = j
  prev_next : ∀ i < n, k.link Thread.prev (k.link Thread.next (threads i).addr) = (threads i).addr
  next_prev : ∀ i < n, k.link Thread.next (k.link Thread.prev (threads i).addr) = (threads i).addr

/-- The ring in memory is the list of threads that the code walks. -/
theorem Ring.ringList (h : Placed threads n) (hn : 2 ≤ n) (hring : Ring k.mem threads n)
    (hroot : k.threadRoot = (threads 0).addr) : RingList k threads n := by
  have hwalk (i : ℕ) : (k.link Thread.next)^[i] k.threadRoot = (threads (i % n)).addr := by
    induction i with
    | zero => rw [Nat.zero_mod, Function.iterate_zero, id, hroot]
    | succ i ih =>
      rw [Function.iterate_succ_apply', ih, Kernel.link, hring.next _ (Nat.mod_lt _ (by omega)),
        Nat.mod_add_mod]
  refine ⟨hwalk, fun i hi j hj heq => ?_, fun i hi => ?_, fun i hi => ?_⟩
  · rw [hwalk, hwalk, Nat.mod_eq_of_lt hi, Nat.mod_eq_of_lt hj] at heq
    exact h.addr_inj hi hj heq
  · rw [Kernel.link, Kernel.link, hring.next i hi, hring.prev_next hn hi]
  · -- thread `i` is the successor of the one before it
    have hmod : ((i + (n - 1)) % n + 1) % n = i := by
      rw [Nat.mod_add_mod, show i + (n - 1) + 1 = i + n by omega, Nat.add_mod_right,
        Nat.mod_eq_of_lt hi]
    have hlt : (i + (n - 1)) % n < n := Nat.mod_lt _ (by omega)
    have hprev := hring.prev_next hn hlt
    have hnext := hring.next _ hlt
    rw [hmod] at hprev hnext
    rw [Kernel.link, Kernel.link, hprev, hnext]

/-- What is promised of the calls of `Scheduler::next` that follow the first one. -/
structure RoundRobinRun (k : Kernel) (threads : ℕ → NewThread) (n : ℕ) (turns : List Turn) :
    Prop where
  /-- The threads stay in their ring. -/
  ring : RingList (k.afterTurns turns) threads n
  /-- Each call moves to the successor of the running thread. -/
  running : ∀ count ≤ turns.length,
    (k.afterTurns (turns.take count)).threadRunning = (threads (count % n)).addr
  /-- Any `n` calls in a row run every thread once. -/
  once : ∀ start, start + n ≤ turns.length + 1 → ∀ p < n, ∃! count,
    (start ≤ count ∧ count < start + n) ∧
      (k.afterTurns (turns.take count)).threadRunning = (threads p).addr
  /-- The stack pointer of the outgoing thread is saved into its own `state_reg.esp`. -/
  saved : ∀ i (hi : i < turns.length), load32 (k.afterTurns (turns.take (i + 1))).mem
    (field (k.afterTurns (turns.take i)).threadRunning (Thread.stateReg + Registers.esp)) =
      turns[i].context.esp - 20#32
  /-- A thread that never ran is entered at its entry point. -/
  entered : (∀ j < turns.length,
      (k.afterTurns (turns.take j)).threadRunning ≠ (k.afterTurns turns).threadRunning) →
    (k.afterTurns turns).cpu = (startContext (threads (turns.length % n))).cpu
  /-- Any other thread continues with what it left in its last turn. -/
  resumed : ∀ i (hi : i < turns.length),
    (k.afterTurns (turns.take i)).threadRunning = (k.afterTurns turns).threadRunning →
    (∀ j < turns.length, i < j →
      (k.afterTurns (turns.take j)).threadRunning ≠ (k.afterTurns turns).threadRunning) →
    (k.afterTurns turns).cpu = turns[i].context.cpu

/-- A run of turns takes the threads in turn, each in its own context. -/
theorem Switching.roundRobinRun (h : Placed threads n) (hn : 2 ≤ n)
    (hs : Switching k threads n (contexts threads n []))
    (hcpu : k.cpu = (startContext (threads 0)).cpu)
    {turns : List Turn} (hturns : ThreadTurns k threads n turns) :
    RoundRobinRun k threads n turns := by
  have hpos : 0 < n := by omega
  have htaken (count : ℕ) := hs.afterTurns h hn hcpu (hturns.take count)
  obtain ⟨hlast, hcpu'⟩ := hs.afterTurns h hn hcpu hturns
  have hrunning (count : ℕ) (hcount : count ≤ turns.length) :
      (k.afterTurns (turns.take count)).threadRunning = (threads (count % n)).addr := by
    rw [(htaken count).1.running, contexts_running, List.length_take, min_eq_left hcount]
  have hrunning' : (k.afterTurns turns).threadRunning = (threads (turns.length % n)).addr := by
    rw [hlast.running, contexts_running]
  -- addresses of running threads tell the threads apart
  have hsame {count p : ℕ} (hcount : count ≤ turns.length) (hp : p < n) :
      (k.afterTurns (turns.take count)).threadRunning = (threads p).addr ↔ count % n = p := by
    rw [hrunning count hcount]
    exact ⟨h.addr_inj (Nat.mod_lt _ hpos) hp, fun heq => by rw [heq]⟩
  have hmod := Nat.mod_lt turns.length hpos
  refine ⟨hlast.ring.ringList h hn hlast.root, hrunning, fun start hstart p hp => ?_,
    fun i hi => ?_, fun hnever => ?_, fun i hi hrun hlater => ?_⟩
  · obtain ⟨turn, ⟨⟨hlow, hhigh⟩, hturn⟩, hunique⟩ := RoundRobin.existsUnique_turn hp start
    refine ⟨turn, ⟨⟨hlow, hhigh⟩, (hsame (by omega) hp).mpr hturn⟩, ?_⟩
    rintro other ⟨⟨hlow', hhigh'⟩, hother⟩
    exact hunique other ⟨⟨hlow', hhigh'⟩, (hsame (by omega) hp).mp hother⟩
  · have ht := hturns i hi
    rw [hrunning i hi.le, List.take_succ_eq_append_getElem hi, Kernel.afterTurns_concat]
    have hi' : (contexts threads n (turns.take i)).running = i % n := by
      rw [contexts_running, List.length_take, min_eq_left hi.le]
    rw [← hi'] at ht ⊢
    rw [((htaken i).1.callNext h hn ht).2.2, Turn.context]
    bv_omega
  · have hnone : ∀ j < (turns.map Turn.context).length, j % n ≠ turns.length % n := by
      intro j hj
      rw [List.length_map] at hj
      have hne := hnever j hj
      rwa [hrunning', ne_eq, hsame hj.le hmod] at hne
    rw [hcpu', contexts, RoundRobin.run_saved_init hnone]
    rfl
  · rw [hrunning', hsame hi.le hmod] at hrun
    have hlater' : ∀ j, i < j → j < (turns.map Turn.context).length → j % n ≠ i % n := by
      intro j hij hj
      rw [List.length_map] at hj
      have hne := hlater j hj hij
      rwa [hrunning', ne_eq, hsame hj.le hmod, ← hrun] at hne
    rw [hcpu', ← hrun, contexts, RoundRobin.run_saved_last (by rwa [List.length_map]) hlater',
      List.getElem_map]

/-- **Context switching is a faithful round robin.** Start `n ≥ 2` threads, and call
`Scheduler::next` once from the kernel and then any number of times from the threads, where
no thread writes to the stack of another one. The threads stay in their ring. The first call
enters the first thread at its entry point, and each later one moves to the successor of the
running thread, saves the stack pointer of the thread it leaves, and continues with what the
incoming thread left when it was switched out last, or at its entry point when it never ran. -/
theorem Kernel.context_switching (h : Placed threads n) (hn : 2 ≤ n) {k₀ : Kernel}
    (hroot : k₀.threadRoot = 0) (hstarted : k₀.started = false) :
    ∃ k, k₀.initKthreads threads n = .ok k ∧ RingList k threads n ∧
      k.threadRunning = k.threadRoot ∧
      ∀ first, BootTurn k threads n first →
        (k.callNext first).cpu = (startContext (threads 0)).cpu ∧
        ∀ turns, ThreadTurns (k.callNext first) threads n turns →
          RoundRobinRun (k.callNext first) threads n turns := by
  obtain ⟨k, hrun, hk, m, root, tid, hsame⟩ := initKthreads_spec h hroot
  have hroot' : k.threadRoot = (threads 0).addr := by rw [hk.root, if_neg (by omega)]
  have hrunning : k.threadRunning = k.threadRoot := by rw [hsame]
  have hflag : k.started = false := by rw [hsame]; exact hstarted
  refine ⟨k, hrun, hk.ring.ringList h hn hroot', hrunning, fun first hfirst => ?_⟩
  obtain ⟨hs, hcpu⟩ := hk.callNext (by omega) hrunning hflag hfirst
  exact ⟨hcpu, fun turns hturns => hs.roundRobinRun h hn hcpu hturns⟩

/-- Two threads at addresses of their own. -/
def twoThreads : ℕ → NewThread
  | 0 => { title := [0x61#8], entry := 0x1000#32, addr := 0x100000#32, titleBuffer := 0x300000#32 }
  | _ => { title := [0x62#8], entry := 0x2000#32, addr := 0x200000#32, titleBuffer := 0x301000#32 }

/-- A kernel before any thread is started. -/
def noThreads : Kernel where
  mem := fun _ => 0
  cpu := ⟨0, 0, 0, 0, 0x90000#32, 0, false⟩
  threadRoot := 0
  threadRunning := 0
  nextTid := 1
  started := false
  schedulerRunning := true
  timerTicks := 0
  timerTenths := 0
  isSleeping := false

/-- A turn in which memory stays as it is. -/
def Kernel.quietTurn (k : Kernel) (esp : Word) : Turn :=
  { ebx := 1, esi := 2, edi := 3, ebp := 4, esp := esp, returnAddress := 5, r := 0, mem := k.mem }

/-- A quiet turn is a turn of the thread that runs. -/
theorem Kernel.threadTurn_quietTurn {running : ℕ} {esp : Word}
    (hlow : (threads running).addr.toNat + Thread.stack + 28 ≤ esp.toNat)
    (hhigh : esp.toNat ≤ (threads running).addr.toNat + Thread.tStatus) :
    ThreadTurn k threads n running (k.quietTurn esp) :=
  ⟨fun _ _ _ _ _ => rfl, fun _ _ _ _ => rfl, hlow, hhigh⟩

/-- The two threads have memory of their own. -/
theorem twoThreads_placed : Placed twoThreads 2 :=
  ⟨by decide, by decide, by decide, by decide, by decide, by decide⟩

/-- A first call from a stack below both threads. -/
theorem twoThreads_boot (k : Kernel) : BootTurn k twoThreads 2 (k.quietTurn 0x90000#32) := by
  refine ⟨fun _ _ _ _ => rfl, fun _ _ _ _ => rfl, rfl, fun i hi x hx => ?_⟩
  simp only [Kernel.quietTurn] at hx
  obtain rfl | rfl : i = 0 ∨ i = 1 := by omega
  · simp only [InObject, twoThreads, Thread.size]
    bv_omega
  · simp only [InObject, twoThreads, Thread.size]
    bv_omega

/-- Two threads, each of which has had a turn. -/
theorem Kernel.context_switching_two : ∃ k, noThreads.initKthreads twoThreads 2 = .ok k ∧
    ∃ first, BootTurn k twoThreads 2 first ∧ ∃ turns, turns.length = 2 ∧
      ThreadTurns (k.callNext first) twoThreads 2 turns ∧
      RoundRobinRun (k.callNext first) twoThreads 2 turns := by
  obtain ⟨k, hrun, -, -, hall⟩ := Kernel.context_switching twoThreads_placed le_rfl
    (show noThreads.threadRoot = 0 from rfl) rfl
  let first := k.quietTurn 0x90000#32
  have hfirst : BootTurn k twoThreads 2 first := twoThreads_boot k
  let k₁ := k.callNext first
  let t := k₁.quietTurn 0x101000#32
  let t' := (k₁.callNext t).quietTurn 0x201000#32
  have hturns : ThreadTurns k₁ twoThreads 2 [t, t'] := by
    intro i hi
    obtain rfl | rfl : i = 0 ∨ i = 1 := by
      simp only [List.length_cons, List.length_nil] at hi
      omega
    · exact Kernel.threadTurn_quietTurn (by decide) (by decide)
    · exact Kernel.threadTurn_quietTurn (by decide) (by decide)
  exact ⟨k, hrun, first, hfirst, [t, t'], rfl, hturns, (hall first hfirst).2 _ hturns⟩

end Muk
