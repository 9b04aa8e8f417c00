import Muk.Proc.SchedulerRuns

/-!
# Locking the scheduler

`Scheduler::lock` is meant to keep the running thread from being switched out. The flag it
sets is read by `lock` and `unlock` only: the timer interrupt switches threads by its own
count of ticks. So a locked thread keeps the processor as long as this count allows, and
no longer.
-/

namespace Muk

namespace Kernel

/-- `Scheduler::lock` -/
def schedulerLock (k : Kernel) : Bool × Kernel :=
  if k.schedulerRunning then (true, { k with schedulerRunning := false })
  else (false, k) -- already locked

/-- `Scheduler::unlock` -/
def schedulerUnlock (k : Kernel) : Bool × Kernel :=
  if !k.schedulerRunning then (true, { k with schedulerRunning := true })
  else (false, k) -- already unlocked

/-- `Timer::yield` -/
def timerYield (k : Kernel) : Kernel :=
  let k := { k with cpu := { k.cpu with interrupts := true } }
  { k with timerTenths := 100 } -- force the next timer IRQ to switch threads

/-- `Scheduler::yield` -/
def schedulerYield (k : Kernel) : Kernel := timerYield k.schedulerUnlock.2

/-- `timer_irq` -/
def timerIrq (k : Kernel) (r returnAddress : Word) : Kernel :=
  let k := { k with timerTicks := k.timerTicks + 1 }
  let k := { k with timerTenths := k.timerTenths + 1 }
  if k.timerTenths > 25 ∧ !k.isSleeping then
    next { k with timerTenths := 0 } r returnAddress
  else k

end Kernel

/-! ## Runs -/

/-- What the running thread and the timer do. An interrupt comes with the registers and the
memory that the thread has by then. -/
inductive SchedulerEvent where
  | timerIrq (t : Turn)
  | lock
  | unlock
  | yield
  /-- The begin and the end of `Timer::sleep`. -/
  | sleep
  | wake

namespace Kernel

/-- One event. -/
def event (k : Kernel) : SchedulerEvent → Kernel
  | .timerIrq t => timerIrq { k with mem := t.mem, cpu := t.cpu } t.r t.returnAddress
  | .lock => k.schedulerLock.2
  | .unlock => k.schedulerUnlock.2
  | .yield => k.schedulerYield
  | .sleep => { k with isSleeping := true }
  | .wake => { k with isSleeping := false }

/-- The kernel after a number of events. -/
def events (k : Kernel) (es : List SchedulerEvent) : Kernel := runSteps event k es

/-- No events leave the kernel as it is. -/
@[simp] theorem events_nil (k : Kernel) : k.events [] = k := rfl

/-- Events happen one after the other. -/
@[simp] theorem events_cons (k : Kernel) (e : SchedulerEvent) (es : List SchedulerEvent) :
    k.events (e :: es) = (k.event e).events es := rfl

/-- The events of two lists are those of the first one, and then those of the second one. -/
theorem events_append (k : Kernel) (es es' : List SchedulerEvent) :
    k.events (es ++ es') = (k.events es).events es' := runSteps_append ..

end Kernel

variable {k : Kernel} {threads : ℕ → NewThread} {n : ℕ} {rr : RoundRobin Context}
  {e : SchedulerEvent} {es body : List SchedulerEvent}

/-- At an interrupt the running thread has left the stacks of the others alone. -/
def InTurn (threads : ℕ → NewThread) (n : ℕ) (k : Kernel) (e : SchedulerEvent) : Prop :=
  ∀ t, e = .timerIrq t → ∀ p < n, k.threadRunning = (threads p).addr → ThreadTurn k threads n p t

/-- Runs in which the threads leave the stacks of the others alone. -/
def Admissible (threads : ℕ → NewThread) (n : ℕ) : Kernel → List SchedulerEvent → Prop :=
  Along Kernel.event (InTurn threads n)

/-- What the thread does between `lock()` and the matching `unlock()`: pairs of calls that
are well nested, with ticks anywhere. -/
inductive WellNested : List SchedulerEvent → Prop
  | nil : WellNested []
  | tick (t : Turn) {es : List SchedulerEvent} : WellNested es → WellNested (.timerIrq t :: es)
  | pair {es es' : List SchedulerEvent} :
      WellNested es → WellNested es' → WellNested (.lock :: (es ++ .unlock :: es'))

/-- The number of ticks. -/
def ticks : List SchedulerEvent → ℕ
  | [] => 0
  | .timerIrq _ :: es => ticks es + 1
  | _ :: es => ticks es

/-! ## One tick -/

/-- The interrupt leads to a switch of threads. -/
def Kernel.Expires (k : Kernel) : Prop := 25 < (k.timerTenths + 1).toNat ∧ k.isSleeping = false

instance (k : Kernel) : Decidable k.Expires := inferInstanceAs (Decidable (_ ∧ _))

/-- A tick either counts only, or it starts the count again and calls `Scheduler::next`. -/
theorem Kernel.event_timerIrq (k : Kernel) (t : Turn) : k.event (.timerIrq t) =
    if k.Expires then
      Kernel.callNext { k with timerTicks := k.timerTicks + 1, timerTenths := 0 } t
    else { k with
      mem := t.mem
      cpu := t.cpu
      timerTicks := k.timerTicks + 1
      timerTenths := k.timerTenths + 1 } := by
  have hiff : (k.timerTenths + 1 > 25 ∧ !k.isSleeping) ↔ k.Expires := by
    rw [Kernel.Expires, gt_iff_lt, BitVec.lt_def, Bool.not_eq_true']
    rfl
  simp only [Kernel.event, Kernel.timerIrq, hiff]
  rfl

/-- A thread that writes no more than its own memory, and a count of ticks, leave the round
robin as it is. -/
theorem Switching.quiet {k' : Kernel} (hs : Switching k threads n rr)
    (hroot : k'.threadRoot = k.threadRoot) (hrunning : k'.threadRunning = k.threadRunning)
    (hstarted : k'.started = k.started)
    (hsaved : ∀ i < n, i ≠ rr.running → ∀ x, InSaved (threads i).addr x → k'.mem x = k.mem x)
    (hlinks : ∀ i < n, ∀ offset, offset = Thread.prev ∨ offset = Thread.next →
      load32 k'.mem (Thread.field (threads i).addr offset) =
        load32 k.mem (Thread.field (threads i).addr offset)) : Switching k' threads n rr :=
  ⟨hs.lt, hroot.trans hs.root, hrunning.trans hs.running, hstarted.trans hs.started,
    hs.ring.congr hlinks, fun i hi hne => (hs.suspended i hi hne).congr (hsaved i hi hne)⟩

/-- A tick that does not switch. -/
theorem Switching.tick_quiet (hs : Switching k threads n rr) {t : Turn}
    (ht : ThreadTurn k threads n rr.running t) (hexp : ¬ k.Expires) :
    Switching (k.event (.timerIrq t)) threads n rr := by
  rw [Kernel.event_timerIrq, if_neg hexp]
  exact hs.quiet rfl rfl rfl ht.saved ht.links

/-- A tick at which the quantum of the thread expires switches to the next thread, if there are two
or more. -/
theorem Switching.tick_switch (h : Placed threads n) (hn : 2 ≤ n) (hs : Switching k threads n rr)
    {t : Turn} (ht : ThreadTurn k threads n rr.running t) (hexp : k.Expires) :
    Switching (k.event (.timerIrq t)) threads n (rr.switch n t.context) := by
  rw [Kernel.event_timerIrq, if_pos hexp]
  let k' : Kernel := { k with timerTicks := k.timerTicks + 1, timerTenths := 0 }
  have hs' : Switching k' threads n rr :=
    hs.quiet rfl rfl rfl (fun _ _ _ _ _ => rfl) fun _ _ _ _ => rfl
  have ht' : ThreadTurn k' threads n rr.running t := ⟨ht.saved, ht.links, ht.low, ht.high⟩
  exact (hs'.callNext h hn ht').1

/-- Other events do not touch memory or the list of threads. -/
theorem Kernel.event_other (k : Kernel) (he : ∀ t, e ≠ .timerIrq t) :
    (k.event e).mem = k.mem ∧ (k.event e).threadRoot = k.threadRoot ∧
      (k.event e).threadRunning = k.threadRunning ∧ (k.event e).started = k.started := by
  cases e with
  | timerIrq t => exact absurd rfl (he t)
  | lock =>
    simp only [Kernel.event, Kernel.schedulerLock]
    split_ifs <;> exact ⟨rfl, rfl, rfl, rfl⟩
  | unlock =>
    simp only [Kernel.event, Kernel.schedulerUnlock]
    split_ifs <;> exact ⟨rfl, rfl, rfl, rfl⟩
  | yield =>
    simp only [Kernel.event, Kernel.schedulerYield, Kernel.timerYield, Kernel.schedulerUnlock]
    split_ifs <;> exact ⟨rfl, rfl, rfl, rfl⟩
  | sleep => exact ⟨rfl, rfl, rfl, rfl⟩
  | wake => exact ⟨rfl, rfl, rfl, rfl⟩

/-- Events other than timer interrupts leave the threads as they are. -/
theorem Switching.other (hs : Switching k threads n rr) (he : ∀ t, e ≠ .timerIrq t) :
    Switching (k.event e) threads n rr := by
  obtain ⟨hmem, hroot, hrunning, hstarted⟩ := k.event_other he
  exact hs.quiet hroot hrunning hstarted (fun _ _ _ _ _ => by rw [hmem])
    fun _ _ _ _ => by rw [hmem]

/-- Every step of a run leaves a round robin. -/
theorem Switching.event (h : Placed threads n) (hn : 2 ≤ n) (hs : Switching k threads n rr)
    (hturn : InTurn threads n k e) : ∃ rr', Switching (k.event e) threads n rr' := by
  by_cases hother : ∀ t, e ≠ .timerIrq t
  · exact ⟨rr, hs.other hother⟩
  · obtain ⟨t, ht⟩ := not_forall_not.mp hother
    have hturn' := hturn t ht rr.running hs.lt hs.running
    subst ht
    by_cases hexp : k.Expires
    · exact ⟨_, hs.tick_switch h hn hturn' hexp⟩
    · exact ⟨_, hs.tick_quiet hturn' hexp⟩

/-- Any admissible run leaves the threads switching, with some context for each. -/
theorem Switching.events (h : Placed threads n) (hn : 2 ≤ n) (hs : Switching k threads n rr)
    (hadm : Admissible threads n k es) : ∃ rr', Switching (k.events es) threads n rr' :=
  Along.invariant (I := fun k => ∃ rr, Switching k threads n rr) hadm ⟨rr, hs⟩
    fun _ _ ⟨_, hs⟩ hturn => hs.event h hn hturn

/-! ## A critical section -/

/-- The ticks that arrive do not make the count run out. -/
def Kernel.Undisturbed (k : Kernel) (count : ℕ) : Prop :=
  k.isSleeping = true ∨
    ∀ i, 0 < i → i ≤ count → (k.timerTenths + BitVec.ofNat 32 i).toNat ≤ 25

/-- A critical section consists of ticks and of nested locks. -/
theorem WellNested.mem (h : WellNested body) (he : e ∈ body) :
    (∃ t, e = .timerIrq t) ∨ e = .lock ∨ e = .unlock := by
  induction h with
  | nil => simp at he
  | tick t _ ih =>
    rcases List.mem_cons.mp he with rfl | he
    · exact Or.inl ⟨t, rfl⟩
    · exact ih he
  | pair _ _ ih ih' =>
    simp only [List.mem_cons, List.mem_append] at he
    rcases he with rfl | he | rfl | he
    · exact Or.inr (Or.inl rfl)
    · exact ih he
    · exact Or.inr (Or.inr rfl)
    · exact ih' he

/-- The flag of the scheduler is all that `lock` and `unlock` change. -/
theorem Kernel.event_lock_unlock (k : Kernel) (he : e = .lock ∨ e = .unlock) :
    (k.event e).timerTenths = k.timerTenths ∧ (k.event e).isSleeping = k.isSleeping := by
  rcases he with rfl | rfl
  · simp only [Kernel.event, Kernel.schedulerLock]
    split_ifs <;> exact ⟨rfl, rfl⟩
  · simp only [Kernel.event, Kernel.schedulerUnlock]
    split_ifs <;> exact ⟨rfl, rfl⟩

/-- After a tick that only counts, one tick less may arrive. -/
theorem Kernel.undisturbed_succ {t : Turn} (hexp : ¬ k.Expires) (count : ℕ) :
    k.Undisturbed (count + 1) ↔ (k.event (.timerIrq t)).Undisturbed count := by
  rw [Kernel.event_timerIrq, if_neg hexp, Kernel.Undisturbed, Kernel.Undisturbed]
  have hadd (i : ℕ) : k.timerTenths + 1 + BitVec.ofNat 32 i =
      k.timerTenths + BitVec.ofNat 32 (i + 1) := by
    rw [BitVec.add_assoc, Nat.add_comm i 1, BitVec.ofNat_add]
    rfl
  by_cases hsleep : k.isSleeping = true
  · exact ⟨fun _ => Or.inl hsleep, fun _ => Or.inl hsleep⟩
  have hfirst : (k.timerTenths + 1).toNat ≤ 25 := by
    by_contra hlt
    exact hexp ⟨by omega, Bool.eq_false_iff.mpr hsleep⟩
  refine or_congr Iff.rfl ⟨fun hle i hpos hi => ?_, fun hle i hpos hi => ?_⟩
  · rw [hadd]
    exact hle (i + 1) (by omega) (by omega)
  · by_cases hone : i = 1
    · rw [hone]
      exact hfirst
    · have hle' := hle (i - 1) (by omega) (by omega)
      rwa [hadd, Nat.sub_add_cancel (by omega)] at hle'

/-- All prefixes of a list with a first element. -/
theorem forall_prefix_cons {P : List SchedulerEvent → Prop} (hnil : P []) :
    (∀ pre, pre <+: e :: es → P pre) ↔ ∀ pre, pre <+: es → P (e :: pre) := by
  refine ⟨fun hall pre hpre => hall _ ((List.prefix_cons_inj e).mpr hpre), fun hall pre hpre => ?_⟩
  rcases List.prefix_cons_iff.mp hpre with rfl | ⟨pre', rfl, hpre'⟩
  · exact hnil
  · exact hall pre' hpre'

/-- While the events are ticks and calls of `lock` and `unlock`, the running thread stays
the same exactly if the count does not run out. -/
theorem Switching.threadRunning_iff (h : Placed threads n) (hn : 2 ≤ n)
    (hs : Switching k threads n rr) (hadm : Admissible threads n k es)
    (hes : ∀ e ∈ es, (∃ t, e = .timerIrq t) ∨ e = .lock ∨ e = .unlock) :
    (∀ pre, pre <+: es → (k.events pre).threadRunning = k.threadRunning) ↔
      k.Undisturbed (ticks es) := by
  induction es generalizing k with
  | nil =>
    refine ⟨fun _ => Or.inr fun i hpos hi => absurd hi (Nat.not_le.mpr hpos), fun _ pre hpre => ?_⟩
    rw [List.prefix_nil.mp hpre, Kernel.events_nil]
  | cons e es ih =>
    obtain ⟨hfirst, hrest⟩ := hadm
    have hes' : ∀ e ∈ es, (∃ t, e = .timerIrq t) ∨ e = .lock ∨ e = .unlock :=
      fun e he => hes e (List.mem_cons_of_mem _ he)
    rw [forall_prefix_cons (P := fun pre => (k.events pre).threadRunning = k.threadRunning) rfl]
    simp only [Kernel.events_cons]
    rcases hes e List.mem_cons_self with ⟨t, rfl⟩ | hlock
    · have hturn := hfirst t rfl rr.running hs.lt hs.running
      by_cases hexp : k.Expires
      · -- the first tick switches, and the next thread is another one
        have hswitch := hs.tick_switch h hn hturn hexp
        refine ⟨fun hall => absurd (hall [] List.nil_prefix) ?_, fun hundisturbed => ?_⟩
        · rw [Kernel.events_nil, hswitch.running, hs.running]
          exact fun heq => RoundRobin.mod_succ_ne hn hs.lt (h.addr_inj hswitch.lt hs.lt heq)
        · rcases hundisturbed with hsleep | hle
          · simp [hexp.2] at hsleep
          · have := hle 1 (by omega) (by rw [ticks]; omega)
            exact absurd hexp.1 (Nat.not_lt.mpr this)
      · have hquiet := hs.tick_quiet hturn hexp
        have hsame : (k.event (.timerIrq t)).threadRunning = k.threadRunning :=
          hquiet.running.trans hs.running.symm
        rw [← hsame, ih hquiet hrest hes', ticks, Kernel.undisturbed_succ hexp]
    · have hother : ∀ t, e ≠ .timerIrq t := by
        rcases hlock with rfl | rfl <;> simp
      have hsame := (k.event_other hother).2.2.1
      obtain ⟨htenths, hsleep⟩ := k.event_lock_unlock hlock
      have hticks : ticks (e :: es) = ticks es := by
        rcases hlock with rfl | rfl <;> rfl
      rw [← hsame, ih (hs.other hother) hrest hes', hticks, Kernel.Undisturbed, htenths, hsleep]
      rfl

/-- **When a locked scheduler does not switch.** Start `n ≥ 2` threads, enter the first one,
and let any events follow. A thread that calls `lock()` then keeps the processor up to the
matching `unlock()` exactly if the ticks in between do not bring `timer_tenths` above 25, or
the timer sleeps. -/
theorem Kernel.lock_holds_iff (h : Placed threads n) (hn : 2 ≤ n) {k₀ : Kernel}
    (hroot : k₀.threadRoot = 0) (hstarted : k₀.started = false) :
    ∃ k', k₀.initKthreads threads n = .ok k' ∧ ∀ first, BootTurn k' threads n first →
      ∀ k, k = k'.callNext first → ∀ before body, WellNested body →
        Admissible threads n k (before ++ .lock :: body) →
        ((∀ pre, pre <+: body →
            (k.events (before ++ .lock :: pre)).threadRunning = (k.events before).threadRunning) ↔
          (k.events before).Undisturbed (ticks body)) := by
  obtain ⟨k', hrun, hk', m, root, tid, hsame⟩ := initKthreads_spec h hroot
  have hrunning : k'.threadRunning = k'.threadRoot := by rw [hsame]
  have hflag : k'.started = false := by rw [hsame]; exact hstarted
  refine ⟨k', hrun, fun first hfirst k hk before body hnested hadm => ?_⟩
  obtain ⟨hs, -⟩ := hk'.callNext (by omega) hrunning hflag hfirst
  rw [← hk] at hs
  obtain ⟨hbefore, -, hbody⟩ := along_append.mp hadm
  obtain ⟨rr, hs'⟩ := hs.events h hn hbefore
  have hother : ∀ t, SchedulerEvent.lock ≠ .timerIrq t := by simp
  obtain ⟨htenths, hsleep⟩ := (k.events before).event_lock_unlock (Or.inl rfl)
  have hiff := (hs'.other hother).threadRunning_iff h hn hbody fun e he => hnested.mem he
  rw [((k.events before).event_other hother).2.2.1, Kernel.Undisturbed, htenths, hsleep] at hiff
  simpa only [Kernel.events_append, Kernel.events_cons, Kernel.Undisturbed] using hiff

/-- Calls of `Scheduler::next` leave the timer alone. -/
theorem Kernel.callNext_timer (k : Kernel) (t : Turn) :
    (k.callNext t).timerTenths = k.timerTenths ∧ (k.callNext t).isSleeping = k.isSleeping := by
  simp only [Kernel.callNext, Kernel.next, saveState_eq, Kernel.switchContext_call,
    Kernel.setContext_call]
  split_ifs <;> exact ⟨rfl, rfl⟩

/-- Two threads, the first of which has been entered when the timer begins to count. -/
theorem twoThreads_entered : ∃ k', noThreads.initKthreads twoThreads 2 = .ok k' ∧
    ∃ first, BootTurn k' twoThreads 2 first ∧
      Switching (k'.callNext first) twoThreads 2
        { running := 0, saved := startContext ∘ twoThreads } ∧
      (k'.callNext first).timerTenths = 0 ∧ (k'.callNext first).isSleeping = false := by
  obtain ⟨k', hrun, hk', m, root, tid, hsame⟩ :=
    initKthreads_spec twoThreads_placed (show noThreads.threadRoot = 0 from rfl)
  have hrunning : k'.threadRunning = k'.threadRoot := by rw [hsame]
  have hflag : k'.started = false := by rw [hsame]; rfl
  have hfirst := twoThreads_boot k'
  obtain ⟨htenths, hsleep⟩ := k'.callNext_timer (k'.quietTurn 0x90000#32)
  refine ⟨k', hrun, _, hfirst, (hk'.callNext (by omega) hrunning hflag hfirst).1, ?_, ?_⟩
  · rw [htenths, hsame]
    rfl
  · rw [hsleep, hsame]
    rfl

/-- Ticks alone are a critical section, with as many ticks as events. -/
theorem wellNested_replicate (t : Turn) (count : ℕ) :
    WellNested (List.replicate count (.timerIrq t)) ∧
      ticks (List.replicate count (.timerIrq t)) = count := by
  induction count with
  | zero => exact ⟨.nil, rfl⟩
  | succ count ih => exact ⟨.tick t ih.1, congrArg (· + 1) ih.2⟩

/-- Ticks that find the running thread in the same turn, up to the one that switches. -/
theorem admissible_replicate {t : Turn} (thread : Word) {count : ℕ}
    (ht : ∀ k : Kernel, k.mem = t.mem → ∀ p < n, thread = (threads p).addr →
      ThreadTurn k threads n p t)
    (hmem : k.mem = t.mem) (hthread : k.threadRunning = thread)
    (hcount : k.timerTenths.toNat + count ≤ 26) :
    Admissible threads n k (List.replicate count (.timerIrq t)) := by
  induction count generalizing k with
  | zero => trivial
  | succ count ih =>
    refine ⟨fun t' ht' p hp hrunning => ?_, ?_⟩
    · cases ht'
      exact ht k hmem p hp (hthread.symm.trans hrunning)
    · have hone : (1 : Word).toNat = 1 := rfl
      by_cases hexp : k.Expires
      · have hlast : count = 0 := by
          have := hexp.1
          rw [BitVec.toNat_add, hone] at this
          omega
        rw [hlast]
        trivial
      · rw [Kernel.event_timerIrq, if_neg hexp]
        refine ih rfl hthread ?_
        simp only [BitVec.toNat_add, hone]
        omega

/-- The first of two threads in its turn. -/
theorem twoThreads_turn {k k' : Kernel} (hmem : k'.mem = k.mem) {p : ℕ} (hp : p < 2)
    (haddr : (twoThreads 0).addr = (twoThreads p).addr) :
    ThreadTurn k' twoThreads 2 p (k.quietTurn 0x101000#32) := by
  obtain rfl := twoThreads_placed.addr_inj (by omega) hp haddr
  have hsame : k.quietTurn 0x101000#32 = k'.quietTurn 0x101000#32 := by
    rw [Kernel.quietTurn, Kernel.quietTurn, hmem]
  rw [hsame]
  exact Kernel.threadTurn_quietTurn (by decide) (by decide)

/-- A thread locks the scheduler when it is entered, and 26 ticks later another one runs. -/
theorem Kernel.lock_switched : ∃ k', noThreads.initKthreads twoThreads 2 = .ok k' ∧
    ∃ first, BootTurn k' twoThreads 2 first ∧ ∃ k, k = k'.callNext first ∧
      ∃ body, body = List.replicate 26 (.timerIrq (k.quietTurn 0x101000#32)) ∧
        WellNested body ∧ Admissible twoThreads 2 k (.lock :: body) ∧
        ∃ pre, pre <+: body ∧ (k.events (.lock :: pre)).threadRunning ≠ k.threadRunning := by
  obtain ⟨k', hrun, first, hfirst, hs, htenths, hsleep⟩ := twoThreads_entered
  have hother : ∀ t, SchedulerEvent.lock ≠ .timerIrq t := by simp
  let k := k'.callNext first
  obtain ⟨hmem, -, hthread, -⟩ := k.event_other hother
  obtain ⟨htenths', hsleep'⟩ := k.event_lock_unlock (Or.inl rfl)
  obtain ⟨hnested, hticks⟩ := wellNested_replicate (k.quietTurn 0x101000#32) 26
  have hbody : Admissible twoThreads 2 (k.event .lock)
      (List.replicate 26 (.timerIrq (k.quietTurn 0x101000#32))) := by
    refine admissible_replicate (twoThreads 0).addr
      (fun k₁ hk₁ p hp haddr => twoThreads_turn hk₁ hp haddr) hmem (hthread.trans hs.running) ?_
    rw [htenths', htenths]
    decide
  refine ⟨k', hrun, first, hfirst, k, rfl, _, rfl, hnested,
    ⟨fun _ h => absurd h (hother _), hbody⟩, ?_⟩
  have hiff := (hs.other hother).threadRunning_iff twoThreads_placed le_rfl hbody
    fun e he => hnested.mem he
  by_contra hsame
  simp only [not_exists, not_and, not_not] at hsame
  rcases hiff.mp fun pre hpre => (hsame pre hpre).trans hthread.symm with hsleeps | hle
  · rw [hsleep', hsleep] at hsleeps
    cases hsleeps
  · have hlast := hle 26 (by omega) hticks.ge
    rw [htenths', htenths] at hlast
    exact absurd hlast (by decide)

/-- One tick after the lock leaves the first of two threads running. -/
theorem Kernel.lock_holds_iff_two : ∃ k', noThreads.initKthreads twoThreads 2 = .ok k' ∧
    ∃ first, BootTurn k' twoThreads 2 first ∧ ∃ k, k = k'.callNext first ∧
      ∃ body, WellNested body ∧ ticks body = 1 ∧ Admissible twoThreads 2 k ([] ++ .lock :: body) ∧
        ((∀ pre, pre <+: body →
            (k.events ([] ++ .lock :: pre)).threadRunning = (k.events []).threadRunning) ↔
          (k.events []).Undisturbed (ticks body)) := by
  obtain ⟨k', hrun, hall⟩ := Kernel.lock_holds_iff twoThreads_placed le_rfl
    (show noThreads.threadRoot = 0 from rfl) rfl
  obtain ⟨k₁, hrun₁, first, hfirst, hs, htenths, -⟩ := twoThreads_entered
  obtain rfl : k₁ = k' := by
    rw [hrun₁] at hrun
    exact Except.ok.inj hrun
  have hother : ∀ t, SchedulerEvent.lock ≠ .timerIrq t := by simp
  let k := k₁.callNext first
  obtain ⟨hmem, -, hthread, -⟩ := k.event_other hother
  obtain ⟨htenths', -⟩ := k.event_lock_unlock (Or.inl rfl)
  obtain ⟨hnested, hticks⟩ := wellNested_replicate (k.quietTurn 0x101000#32) 1
  have hbody : Admissible twoThreads 2 (k.event .lock)
      (List.replicate 1 (.timerIrq (k.quietTurn 0x101000#32))) := by
    refine admissible_replicate (twoThreads 0).addr
      (fun k₁ hk₁ p hp haddr => twoThreads_turn hk₁ hp haddr) hmem (hthread.trans hs.running) ?_
    rw [htenths', htenths]
    decide
  have hadm : Admissible twoThreads 2 k
      ([] ++ .lock :: List.replicate 1 (.timerIrq (k.quietTurn 0x101000#32))) :=
    ⟨fun _ h => absurd h (hother _), hbody⟩
  exact ⟨k₁, hrun₁, first, hfirst, k, rfl, _, hnested, hticks, hadm,
    hall first hfirst k rfl [] _ hnested hadm⟩

end Muk
