import Muk.Proc.Lock

/-!
# Time slices

The timer interrupt counts the ticks of the running thread in `timer_tenths`, and `yield`
moves this count forward. Over a window of a run the count is a potential: a tick on which
nobody sleeps raises it, and 26 of them pay for one switch. So the threads switch often
enough, but no more often than the ticks and the calls of `yield` allow, and the round
robin shares the switches out evenly.
-/

namespace Muk

variable {k : Kernel} {threads : ℕ → NewThread} {n : ℕ} {rr : RoundRobin Context}
  {e : SchedulerEvent} {es : List SchedulerEvent}

namespace Kernel

/-! ## What is counted -/

/-- A tick on which nobody sleeps. -/
def awake (k : Kernel) : SchedulerEvent → ℕ
  | .timerIrq _ => if k.isSleeping then 0 else 1
  | _ => 0

/-- A tick that switches threads. -/
def switched (k : Kernel) : SchedulerEvent → ℕ
  | .timerIrq _ => if k.Expires then 1 else 0
  | _ => 0

/-- A tick that gives the processor to a thread. -/
def switchedTo (addr : Word) (k : Kernel) (e : SchedulerEvent) : ℕ :=
  if (k.event e).threadRunning = addr then k.switched e else 0

/-- A tick. -/
def ticked (_ : Kernel) : SchedulerEvent → ℕ
  | .timerIrq _ => 1
  | _ => 0

/-- A call of `yield`. -/
def yielded (_ : Kernel) : SchedulerEvent → ℕ
  | .yield => 1
  | _ => 0

/-- The ticks of a run are its timer interrupts. -/
theorem runSum_ticked (k : Kernel) (es : List SchedulerEvent) :
    runSum event ticked k es = ticks es := by
  induction es generalizing k with
  | nil => rfl
  | cons e es ih =>
    rw [runSum_cons, ih]
    cases e <;> simp only [ticked, ticks] <;> omega

/-! ## The count of ticks -/

/-- The part of the count that matters: above 25 the next tick switches anyway. -/
def slice (k : Kernel) : ℕ := min k.timerTenths.toNat 25

/-- What an event does to the count. -/
theorem event_timerTenths (k : Kernel) (e : SchedulerEvent) : (k.event e).timerTenths =
    match e with
    | .timerIrq _ => if k.Expires then 0 else k.timerTenths + 1
    | .yield => 100
    | _ => k.timerTenths := by
  cases e with
  | timerIrq t =>
    rw [event_timerIrq]
    split_ifs with hexp
    · exact (callNext_timer _ t).1
    · rfl
  | lock => exact (k.event_lock_unlock (Or.inl rfl)).1
  | unlock => exact (k.event_lock_unlock (Or.inr rfl)).1
  | yield => rfl
  | sleep => rfl
  | wake => rfl

/-- A tick does not make the count wrap around. -/
def Counts (k : Kernel) (e : SchedulerEvent) : Prop := k.timerTenths.toNat + k.ticked e < 2 ^ 32

/-- A tick that is counted does not wrap the counter. -/
theorem Counts.toNat {t : Turn} (h : k.Counts (.timerIrq t)) :
    (k.timerTenths + 1).toNat = k.timerTenths.toNat + 1 := by
  have hlt : k.timerTenths.toNat + 1 < 2 ^ 32 := h
  rw [BitVec.toNat_add, show (1 : Word).toNat = 1 from rfl, Nat.mod_eq_of_lt hlt]

/-- A tick on which nobody sleeps raises the count, or it switches. -/
theorem awake_le (h : k.Counts e) :
    k.awake e + k.slice ≤ 26 * k.switched e + (k.event e).slice := by
  rw [slice, slice, event_timerTenths]
  cases e with
  | timerIrq t =>
    simp only [awake, switched]
    by_cases hexp : k.Expires
    · rw [if_pos hexp, if_pos hexp]
      split_ifs <;> omega
    · rw [if_neg hexp, if_neg hexp, h.toNat]
      split_ifs with hsleep
      · omega
      · have hle : ¬ 25 < (k.timerTenths + 1).toNat :=
          fun hlt => hexp ⟨hlt, Bool.eq_false_iff.mpr hsleep⟩
        rw [h.toNat] at hle
        omega
  | yield =>
    have hfull : (100 : Word).toNat = 100 := rfl
    simp only [awake, switched]
    omega
  | lock => simp only [awake, switched]; omega
  | unlock => simp only [awake, switched]; omega
  | sleep => simp only [awake, switched]; omega
  | wake => simp only [awake, switched]; omega

/-- A switch uses up a full count, which takes ticks or a call of `yield`. -/
theorem switched_le (k : Kernel) (e : SchedulerEvent) :
    26 * k.switched e + (25 - k.slice) ≤
      k.ticked e + 25 * k.yielded e + (25 - (k.event e).slice) := by
  rw [slice, slice, event_timerTenths]
  cases e with
  | timerIrq t =>
    have hadd := BitVec.toNat_add k.timerTenths 1
    have hzero : (0 : Word).toNat = 0 := rfl
    rw [show (1 : Word).toNat = 1 from rfl] at hadd
    simp only [ticked, yielded, switched]
    split_ifs with hexp
    · have hlt := hexp.1
      omega
    · omega
  | yield => simp only [ticked, yielded, switched]; omega
  | lock => simp only [ticked, yielded, switched]; omega
  | unlock => simp only [ticked, yielded, switched]; omega
  | sleep => simp only [ticked, yielded, switched]; omega
  | wake => simp only [ticked, yielded, switched]; omega

/-- While the ticks are few, none makes the count wrap around. -/
theorem along_counts (h : max k.timerTenths.toNat 100 + ticks es < 2 ^ 32) :
    Along event Counts k es := by
  induction es generalizing k with
  | nil => trivial
  | cons e es ih =>
    have hcount := event_timerTenths k e
    cases e with
    | timerIrq t =>
      rw [ticks] at h
      have hcounts : k.Counts (.timerIrq t) := by
        simp only [Counts, ticked]
        omega
      refine ⟨hcounts, ih ?_⟩
      rw [hcount]
      split_ifs
      · rw [show (0 : Word).toNat = 0 from rfl]
        omega
      · rw [hcounts.toNat]
        omega
    | yield =>
      refine ⟨k.timerTenths.isLt, ih ?_⟩
      have hticks : ticks (.yield :: es) = ticks es := rfl
      rw [hcount, show (100 : Word).toNat = 100 from rfl]
      omega
    | lock => exact ⟨k.timerTenths.isLt, ih (by rw [hcount]; exact h)⟩
    | unlock => exact ⟨k.timerTenths.isLt, ih (by rw [hcount]; exact h)⟩
    | sleep => exact ⟨k.timerTenths.isLt, ih (by rw [hcount]; exact h)⟩
    | wake => exact ⟨k.timerTenths.isLt, ih (by rw [hcount]; exact h)⟩

end Kernel

/-! ## Turns -/

/-- The switches of a run go round the threads. -/
theorem Switching.runSum_switchedTo (h : Placed threads n) (hn : 2 ≤ n)
    (hs : Switching k threads n rr) (hadm : Admissible threads n k es) {p : ℕ} (hp : p < n) :
    runSum Kernel.event (Kernel.switchedTo (threads p).addr) k es =
      Nat.count (fun turn => (rr.running + 1 + turn) % n = p)
        (runSum Kernel.event Kernel.switched k es) := by
  induction es generalizing k rr with
  | nil => rfl
  | cons e es ih =>
    obtain ⟨hfirst, hrest⟩ := hadm
    rw [runSum_cons, runSum_cons]
    by_cases hswitch : ∃ t, e = .timerIrq t ∧ k.Expires
    · obtain ⟨t, rfl, hexp⟩ := hswitch
      have hs' := hs.tick_switch h hn (hfirst t rfl rr.running hs.lt hs.running) hexp
      have hone : k.switched (.timerIrq t) = 1 := if_pos hexp
      have haddr : (k.event (.timerIrq t)).threadRunning = (threads p).addr ↔
          (rr.running + 1 + 0) % n = p := by
        rw [hs'.running]
        exact ⟨h.addr_inj hs'.lt hp, fun heq => congrArg (fun p => (threads p).addr) heq⟩
      have hnext (turn : ℕ) : ((rr.switch n t.context).running + 1 + turn) % n =
          (rr.running + 1 + (turn + 1)) % n := by
        rw [RoundRobin.switch, Nat.add_assoc, Nat.mod_add_mod, Nat.add_comm 1]
      rw [ih hs' hrest, Kernel.switchedTo, hone, Nat.add_comm 1, Nat.count_succ']
      simp only [haddr, hnext]
      exact Nat.add_comm ..
    · have hnone : k.switched e = 0 := by
        cases e with
        | timerIrq t => exact if_neg fun hexp => hswitch ⟨t, rfl, hexp⟩
        | _ => rfl
      have hs' : Switching (k.event e) threads n rr := by
        by_cases hother : ∀ t, e ≠ .timerIrq t
        · exact hs.other hother
        · obtain ⟨t, rfl⟩ := not_forall_not.mp hother
          exact hs.tick_quiet (hfirst t rfl rr.running hs.lt hs.running)
            fun hexp => hswitch ⟨t, rfl, hexp⟩
      rw [ih hs' hrest, Kernel.switchedTo, hnone, ite_self, Nat.zero_add, Nat.zero_add]

/-! ## Fairness -/

/-- What a window of a run gives to the threads. -/
structure Fair (threads : ℕ → NewThread) (n : ℕ) (k : Kernel) (es : List SchedulerEvent) :
    Prop where
  /-- Every 26 ticks on which nobody sleeps switch threads. -/
  prompt : runSum Kernel.event Kernel.awake k es ≤
    26 * runSum Kernel.event Kernel.switched k es + 25
  /-- But for calls of `yield`, a switch takes 26 ticks. -/
  patient : 26 * runSum Kernel.event Kernel.switched k es ≤
    ticks es + 25 * runSum Kernel.event Kernel.yielded k es + 25
  /-- No thread is switched to more often than the others, or less often, but for one turn. -/
  even : ∀ p < n,
    runSum Kernel.event Kernel.switched k es / n ≤
        runSum Kernel.event (Kernel.switchedTo (threads p).addr) k es ∧
      runSum Kernel.event (Kernel.switchedTo (threads p).addr) k es ≤
        runSum Kernel.event Kernel.switched k es / n + 1

/-- The scheduler that switches between placed threads is fair. -/
theorem Switching.fair (h : Placed threads n) (hn : 2 ≤ n) (hs : Switching k threads n rr)
    (hadm : Admissible threads n k es) (hcounts : Along Kernel.event Kernel.Counts k es) :
    Fair threads n k es where
  prompt := by
    have hpaid := hcounts.runSum_le Kernel.slice fun _ _ => Kernel.awake_le
    rw [runSum_mul] at hpaid
    have hslice : (runSteps Kernel.event k es).slice ≤ 25 := Nat.min_le_right ..
    omega
  patient := by
    have hpaid := hcounts.runSum_le (fun k => 25 - k.slice) fun k e _ => k.switched_le e
    rw [runSum_mul, runSum_add, runSum_mul, Kernel.runSum_ticked] at hpaid
    omega
  even p hp := by
    rw [hs.runSum_switchedTo h hn hadm hp]
    exact RoundRobin.count_turns hp ..

/-- A thread has a turn for every `26 * n` ticks on which nobody sleeps. -/
theorem Fair.le_turns (h : Fair threads n k es) {p m : ℕ} (hp : p < n)
    (hm : 26 * (n * m) ≤ runSum Kernel.event Kernel.awake k es) :
    m ≤ runSum Kernel.event (Kernel.switchedTo (threads p).addr) k es := by
  have hprompt := h.prompt
  calc m ≤ runSum Kernel.event Kernel.switched k es / n := by
        rw [Nat.le_div_iff_mul_le (by omega), Nat.mul_comm]
        omega
    _ ≤ _ := (h.even p hp).1

/-- **The scheduler is fair.** Start `n ≥ 2` threads with the count at 0, enter the first
one, and let any events follow. Every window of the run switches threads once for 26 ticks
on which nobody sleeps, and no sooner unless somebody yields; it shares the switches out
evenly, so in a window with `26 * n * m` such ticks every thread gets the processor `m` times,
as long as the count does not wrap around. -/
theorem Kernel.scheduler_fair (h : Placed threads n) (hn : 2 ≤ n) {k₀ : Kernel}
    (hroot : k₀.threadRoot = 0) (hstarted : k₀.started = false) (htenths : k₀.timerTenths = 0) :
    ∃ k', k₀.initKthreads threads n = .ok k' ∧ ∀ first, BootTurn k' threads n first →
      ∀ k, k = k'.callNext first → ∀ before es, Admissible threads n k (before ++ es) →
        100 + ticks (before ++ es) < 2 ^ 32 →
        Fair threads n (k.events before) es ∧ ∀ p < n, ∀ m,
          26 * (n * m) ≤ runSum event awake (k.events before) es →
            m ≤ runSum event (switchedTo (threads p).addr) (k.events before) es := by
  obtain ⟨k', hrun, hk', m, root, tid, hsame⟩ := initKthreads_spec h hroot
  have hrunning : k'.threadRunning = k'.threadRoot := by rw [hsame]
  have hflag : k'.started = false := by rw [hsame]; exact hstarted
  refine ⟨k', hrun, fun first hfirst k hk before es hadm hticks => ?_⟩
  obtain ⟨hs, -⟩ := hk'.callNext (by omega) hrunning hflag hfirst
  have hzero : k.timerTenths = 0 := by
    rw [hk, (k'.callNext_timer first).1, hsame]
    exact htenths
  rw [← hk] at hs
  obtain ⟨hbefore, hes⟩ := along_append.mp hadm
  obtain ⟨rr, hs'⟩ := hs.events h hn hbefore
  have hcounts : Along event Counts k (before ++ es) :=
    along_counts (by rw [hzero, show (0 : Word).toNat = 0 from rfl]; omega)
  have hfair := hs'.fair h hn hes (along_append.mp hcounts).2
  exact ⟨hfair, fun p hp m hm => hfair.le_turns hp hm⟩

/-! ## Two slices -/

/-- Ticks alone put nobody to sleep. -/
theorem Kernel.event_isSleeping (k : Kernel) (t : Turn) :
    (k.event (.timerIrq t)).isSleeping = k.isSleeping := by
  rw [event_timerIrq]
  split_ifs
  · exact (callNext_timer _ t).2
  · rfl

/-- With nobody sleeping, every tick finds the scheduler awake. -/
theorem Kernel.runSum_awake (hsleep : k.isSleeping = false)
    (hes : ∀ e ∈ es, ∃ t, e = .timerIrq t) : runSum event awake k es = ticks es := by
  induction es generalizing k with
  | nil => rfl
  | cons e es ih =>
    obtain ⟨t, rfl⟩ := hes e List.mem_cons_self
    have hrest := ih ((k.event_isSleeping t).trans hsleep) fun e he =>
      hes e (List.mem_cons_of_mem _ he)
    rw [runSum_cons, hrest, awake, hsleep, ticks]
    exact Nat.add_comm ..

/-- A thread that does nothing keeps the processor up to the 26th tick. -/
theorem Switching.quiet_ticks (hs : Switching k threads n rr) (hsleep : k.isSleeping = false)
    {t : Turn} (ht : ∀ k : Kernel, k.mem = t.mem → ThreadTurn k threads n rr.running t)
    (hmem : k.mem = t.mem) {count : ℕ} (hcount : k.timerTenths.toNat + count ≤ 25) :
    Switching (k.events (List.replicate count (.timerIrq t))) threads n rr ∧
      (k.events (List.replicate count (.timerIrq t))).mem = t.mem ∧
      (k.events (List.replicate count (.timerIrq t))).isSleeping = false ∧
      (k.events (List.replicate count (.timerIrq t))).timerTenths.toNat =
        k.timerTenths.toNat + count := by
  induction count generalizing k with
  | zero => exact ⟨hs, hmem, hsleep, rfl⟩
  | succ count ih =>
    have hone : (k.timerTenths + 1).toNat = k.timerTenths.toNat + 1 := by
      rw [BitVec.toNat_add, show (1 : Word).toNat = 1 from rfl]
      omega
    have hexp : ¬ k.Expires := fun hexp => by
      have hlt := hexp.1
      omega
    have hevent := k.event_timerIrq t
    rw [if_neg hexp] at hevent
    have hrest := ih (hs.tick_quiet (ht k hmem) hexp) (by rw [hevent]; exact hsleep)
      (by rw [hevent]) (by rw [hevent]; simp only [hone]; omega)
    rw [List.replicate_succ, Kernel.events_cons]
    refine ⟨hrest.1, hrest.2.1, hrest.2.2.1, hrest.2.2.2.trans ?_⟩
    rw [hevent]
    simp only [hone]
    omega

/-- A turn that writes nothing is a turn of a thread with enough stack. -/
theorem Kernel.turn_quietTurn {k' : Kernel} (hmem : k'.mem = k.mem) {running : ℕ} {esp : Word}
    (hlow : (threads running).addr.toNat + Thread.stack + 28 ≤ esp.toNat)
    (hhigh : esp.toNat ≤ (threads running).addr.toNat + Thread.tStatus) :
    ThreadTurn k' threads n running (k.quietTurn esp) := by
  have hsame : k.quietTurn esp = k'.quietTurn esp := by rw [quietTurn, quietTurn, hmem]
  rw [hsame]
  exact threadTurn_quietTurn hlow hhigh

/-- The 26th tick gives the processor to the next thread. -/
theorem Switching.slice (h : Placed threads n) (hn : 2 ≤ n) (hs : Switching k threads n rr)
    (hsleep : k.isSleeping = false) (htenths : k.timerTenths = 0) {esp : Word}
    (hlow : (threads rr.running).addr.toNat + Thread.stack + 28 ≤ esp.toNat)
    (hhigh : esp.toNat ≤ (threads rr.running).addr.toNat + Thread.tStatus) {t : Turn}
    (ht : t = k.quietTurn esp) :
    Admissible threads n k (List.replicate 26 (.timerIrq t)) ∧
      Switching (k.events (List.replicate 26 (.timerIrq t))) threads n (rr.switch n t.context) ∧
      (k.events (List.replicate 26 (.timerIrq t))).isSleeping = false ∧
      (k.events (List.replicate 26 (.timerIrq t))).timerTenths = 0 := by
  have hmem : k.mem = t.mem := by rw [ht, Kernel.quietTurn]
  have hturn (k' : Kernel) (hk' : k'.mem = t.mem) : ThreadTurn k' threads n rr.running t := by
    rw [ht]
    exact Kernel.turn_quietTurn (hk'.trans hmem.symm) hlow hhigh
  have hzero : k.timerTenths.toNat = 0 := by rw [htenths]; rfl
  refine ⟨admissible_replicate (threads rr.running).addr (fun k hk p hp haddr => ?_) hmem
    hs.running (by omega), ?_⟩
  · rw [← h.addr_inj hs.lt hp haddr]
    exact hturn k hk
  obtain ⟨hs', hmem', hsleep', hcount⟩ :=
    @Switching.quiet_ticks k threads n rr hs hsleep t hturn hmem 25 (by omega)
  rw [List.replicate_succ', Kernel.events_append, Kernel.events_cons, Kernel.events_nil]
  generalize k.events (List.replicate 25 (.timerIrq t)) = k' at hs' hmem' hsleep' hcount ⊢
  have hexp : k'.Expires := by
    refine ⟨?_, hsleep'⟩
    rw [BitVec.toNat_add, hcount, hzero]
    decide
  refine ⟨hs'.tick_switch h hn (hturn k' hmem') hexp, (k'.event_isSleeping t).trans hsleep', ?_⟩
  rw [k'.event_timerTenths]
  exact if_pos hexp

/-- Two threads that count 26 ticks each have one turn each. -/
theorem Kernel.scheduler_fair_two : ∃ k', noThreads.initKthreads twoThreads 2 = .ok k' ∧
    ∃ first, BootTurn k' twoThreads 2 first ∧ ∃ k, k = k'.callNext first ∧
      ∃ es, ticks es = 52 ∧ Admissible twoThreads 2 k ([] ++ es) ∧
        Fair twoThreads 2 (k.events []) es ∧
        ∀ p < 2, 1 ≤ runSum event (switchedTo (twoThreads p).addr) (k.events []) es := by
  obtain ⟨k', hrun, hall⟩ := Kernel.scheduler_fair twoThreads_placed le_rfl
    (show noThreads.threadRoot = 0 from rfl) rfl rfl
  obtain ⟨k₁, hrun₁, first, hfirst, hs, htenths, hsleep⟩ := twoThreads_entered
  obtain rfl : k₁ = k' := by
    rw [hrun₁] at hrun
    exact Except.ok.inj hrun
  let k := k₁.callNext first
  let t := k.quietTurn 0x101000#32
  obtain ⟨hadm, hs', hsleep', htenths'⟩ := hs.slice twoThreads_placed le_rfl hsleep htenths
    (by decide) (by decide) (show t = k.quietTurn 0x101000#32 from rfl)
  generalize hsecond : k.events (List.replicate 26 (.timerIrq t)) = k₂ at hs' hsleep' htenths'
  let t' := k₂.quietTurn 0x201000#32
  obtain ⟨hadm', -⟩ := hs'.slice twoThreads_placed le_rfl hsleep' htenths'
    (show (twoThreads 1).addr.toNat + Thread.stack + 28 ≤ (0x201000#32).toNat by decide)
    (show (0x201000#32).toNat ≤ (twoThreads 1).addr.toNat + Thread.tStatus by decide)
    (show t' = k₂.quietTurn 0x201000#32 from rfl)
  let es : List SchedulerEvent :=
    List.replicate 26 (.timerIrq t) ++ List.replicate 26 (.timerIrq t')
  have hboth : Admissible twoThreads 2 k ([] ++ es) := by
    rw [List.nil_append]
    refine along_append.mpr ⟨hadm, ?_⟩
    rw [← Kernel.events, hsecond]
    exact hadm'
  have hticks : ticks es = 52 := rfl
  obtain ⟨hfair, hturns⟩ := hall first hfirst k rfl [] es hboth (by
    rw [List.nil_append, hticks]
    decide)
  refine ⟨k₁, hrun₁, first, hfirst, k, rfl, es, hticks, hboth, hfair, fun p hp => ?_⟩
  refine hturns p hp 1 ?_
  rw [Kernel.events_nil, Kernel.runSum_awake hsleep fun e he => ?_, hticks]
  rcases List.mem_append.mp he with he | he
  · exact ⟨t, List.eq_of_mem_replicate he⟩
  · exact ⟨t', List.eq_of_mem_replicate he⟩

end Muk
