import Muk.Lib.ByteMemory
import Muk.Lib.Run
import Mathlib.Logic.Function.Basic

/-!
# Guards of static values

A static value in a function is built by the first thread that gets there. Its guard has two
halves: one is set for good once the value is built, and the other is a lock that threads take
with a compare and swap. A preemption may come between any two statements, and the constructor
may throw, which leaves the value to the next thread.
-/

namespace Muk

/-- The statement that a thread executes next. -/
inductive GuardPhase where
  /-- Before `__cxa_guard_acquire` -/
  | idle
  /-- The first test of the init part -/
  | testing
  /-- `__sync_val_compare_and_swap(LOCK_PART(guard_object), INITIAL, LOCKED)` -/
  | swapping
  /-- The lock is obtained: the second test of the init part -/
  | checking
  /-- `*LOCK_PART(guard_object) = INITIAL` of `__cxa_guard_acquire` -/
  | unlocking
  /-- The lock held `old`: the assertion, and the third test -/
  | waiting (old : Word)
  /-- `Scheduler::yield()` -/
  | yielding
  /-- `__cxa_guard_acquire` has returned 0 -/
  | returned
  /-- `__cxa_guard_acquire` has returned 1: the constructor -/
  | constructing
  /-- The compare and swap of `__cxa_guard_release` -/
  | releasing
  /-- `*LOCK_PART(guard_object) = INITIAL` of `__cxa_guard_release` -/
  | clearing
  /-- The compare and swap of `__cxa_guard_abort` -/
  | aborting
  /-- An assertion has failed -/
  | halted
  deriving DecidableEq

/-- What happens next: a thread executes its statement, or its constructor throws. -/
inductive GuardEvent where
  | statement (t : Word)
  | throws (t : Word)

/-- `guard_t`, and where the thread of each id is. -/
structure Guard where
  initHalf : Word
  lockHalf : Word
  phase : Word → GuardPhase

namespace Guard

/-- `LOCKED` -/
def LOCKED : Word := 1#32 <<< 31

/-- `INITIALISED` -/
def INITIALISED : Word := 1

/-- `INITIAL` -/
def INITIAL : Word := 0

/-- A guard that no thread has reached yet. -/
def initial : Guard := { initHalf := 0, lockHalf := 0, phase := fun _ => .idle }

/-- The thread goes on to a statement. -/
def goto (s : Guard) (t : Word) (p : GuardPhase) : Guard :=
  { s with phase := Function.update s.phase t p }

/-- One statement of `__cxa_guard_acquire`, `__cxa_guard_release` or `__cxa_guard_abort`. -/
def statement (s : Guard) (t : Word) : Guard :=
  match s.phase t with
  | .idle => s.goto t .testing
  | .testing =>
    if INITIALISED = s.initHalf then s.goto t .returned else s.goto t .swapping
  | .swapping =>
    if s.lockHalf = INITIAL then { s with lockHalf := LOCKED }.goto t .checking
    else s.goto t (.waiting s.lockHalf)
  | .checking =>
    if INITIALISED ≠ s.initHalf then s.goto t .constructing else s.goto t .unlocking
  | .unlocking => { s with lockHalf := INITIAL }.goto t .returned
  | .waiting old =>
    if old = LOCKED then
      if INITIALISED = s.initHalf then s.goto t .returned else s.goto t .yielding
    else s.goto t .halted
  | .yielding => s.goto t .swapping
  | .returned => s.goto t .idle
  | .constructing => s.goto t .releasing
  | .releasing =>
    if s.initHalf = INITIAL then { s with initHalf := INITIALISED }.goto t .clearing
    else s.goto t .halted
  | .clearing => { s with lockHalf := INITIAL }.goto t .idle
  | .aborting =>
    if s.lockHalf = LOCKED then { s with lockHalf := INITIAL }.goto t .idle
    else s.goto t .halted
  | .halted => s

/-- One event. -/
def step (s : Guard) : GuardEvent → Guard
  | .statement t => s.statement t
  | .throws t => if s.phase t = .constructing then s.goto t .aborting else s

/-! ## Who holds the lock -/

/-- The thread is between the swap that takes the lock and the store that frees it. -/
def Holds : GuardPhase → Prop
  | .checking | .unlocking | .constructing | .releasing | .clearing | .aborting => True
  | _ => False

instance (p : GuardPhase) : Decidable (Holds p) := by
  cases p <;> first | exact isTrue trivial | exact isFalse id

/-- What a thread knows about the init part, and what it read from the lock. -/
def Fits (initHalf : Word) : GuardPhase → Prop
  | .constructing | .releasing | .aborting => initHalf = INITIAL
  | .unlocking | .clearing | .returned => initHalf = INITIALISED
  | .waiting old => old = LOCKED
  | .halted => False
  | _ => True

/-- The lock part for a holder. -/
def lockOf (holder : Option Word) : Word := if holder.isSome then LOCKED else INITIAL

/-- One thread at most holds the lock, and the halves fit what each thread knows. -/
structure Inv (s : Guard) (holder : Option Word) : Prop where
  lock : s.lockHalf = lockOf holder
  holds : ∀ t, Holds (s.phase t) ↔ holder = some t
  init : s.initHalf = INITIAL ∨ s.initHalf = INITIALISED
  fits : ∀ t, Fits s.initHalf (s.phase t)

variable {s : Guard} {t u : Word} {p : GuardPhase} {holder holder' : Option Word}
  {e : GuardEvent} {es : List GuardEvent}

/-- A thread that goes to a phase is in that phase. -/
@[simp] theorem goto_self (s : Guard) (t : Word) (p : GuardPhase) :
    (s.goto t p).phase t = p := Function.update_self ..

/-- The phases of the other threads stay as they are. -/
theorem goto_other (h : u ≠ t) : (s.goto t p).phase u = s.phase u := Function.update_of_ne h ..

/-- Before anyone asks for the guard, no thread holds its lock. -/
theorem Inv.initial : Inv initial none where
  lock := rfl
  holds _ := by simp [Guard.initial, Holds]
  init := Or.inl rfl
  fits _ := trivial

/-- Only the holder needs the init part to be unset. -/
theorem Fits.initialised {initHalf : Word} (h : Fits initHalf p) (hfree : ¬ Holds p) :
    Fits INITIALISED p := by
  cases p with
  | checking | unlocking | constructing | releasing | clearing | aborting =>
    exact (hfree trivial).elim
  | waiting old => exact h
  | returned => rfl
  | halted => exact h
  | idle | testing | swapping | yielding => trivial

/-- While one thread holds the guard, each other thread is in a phase that allows for it. -/
theorem Inv.fits_other (h : Inv s holder) (hholder : holder = some t) (hu : u ≠ t) :
    Fits INITIALISED (s.phase u) :=
  (h.fits u).initialised fun hholds =>
    hu (Option.some.inj (((h.holds u).mp hholds).symm.trans hholder))

/-- One thread moves on: what is to be shown about the new state. -/
theorem Inv.goto (h : Inv s holder) {initHalf lockHalf : Word}
    (hlock : lockHalf = lockOf holder')
    (hself : Holds p ↔ holder' = some t)
    (hothers : ∀ u ≠ t, holder = some u ↔ holder' = some u)
    (hinit : initHalf = s.initHalf ∨ initHalf = INITIALISED ∧ holder = some t)
    (hfits : Fits initHalf p) :
    Inv (Guard.goto { s with initHalf := initHalf, lockHalf := lockHalf } t p) holder' where
  lock := hlock
  holds u := by
    by_cases hu : u = t
    · rw [hu, goto_self, hself]
    · rw [goto_other hu, ← hothers u hu]
      exact h.holds u
  init := by
    rcases hinit with hinit | ⟨hinit, -⟩
    · exact hinit ▸ h.init
    · exact Or.inr hinit
  fits u := by
    by_cases hu : u = t
    · rw [hu, goto_self]
      exact hfits
    · rw [goto_other hu]
      rcases hinit with hinit | ⟨hinit, hholder⟩
      · exact hinit ▸ h.fits u
      · exact hinit ▸ h.fits_other hholder hu

/-- A statement that writes nothing and neither takes nor frees the lock. -/
theorem Inv.goto_same (h : Inv s holder) (hholds : Holds p ↔ Holds (s.phase t))
    (hfits : Fits s.initHalf p) : Inv (s.goto t p) holder :=
  Inv.goto h h.lock (hholds.trans (h.holds t)) (fun _ _ => Iff.rfl) (Or.inl rfl) hfits

/-- When the holder leaves the section, the lock becomes free, and the invariant holds with no
holder. -/
theorem Inv.goto_free (h : Inv s holder) (hheld : Holds (s.phase t)) (hp : ¬ Holds p)
    (hfits : Fits s.initHalf p) : Inv (Guard.goto { s with lockHalf := INITIAL } t p) none := by
  refine Inv.goto h rfl (by simp [hp]) (fun u hu => ?_) (Or.inl rfl) hfits
  rw [(h.holds t).mp hheld]
  simp [hu.symm]

/-- The init part is unset unless it is set. -/
theorem Inv.init_of_ne (h : Inv s holder) (hne : INITIALISED ≠ s.initHalf) :
    s.initHalf = INITIAL := h.init.resolve_right fun heq => hne heq.symm

/-- The lock is free unless it is locked. -/
theorem Inv.lock_of_ne (h : Inv s holder) (hne : s.lockHalf ≠ INITIAL) : s.lockHalf = LOCKED := by
  have hlock := h.lock
  cases holder with
  | none => exact absurd hlock hne
  | some t => exact hlock

/-- Each statement of a thread keeps the invariant, with the same holder, a new one, or none. -/
theorem Inv.statement (h : Inv s holder) (t : Word) : ∃ holder', Inv (s.statement t) holder' := by
  have hknown := h.fits t
  unfold Guard.statement
  cases hphase : s.phase t with
  | idle => exact ⟨holder, h.goto_same (by simp [hphase, Holds]) trivial⟩
  | testing =>
    dsimp only
    split_ifs with hset
    · exact ⟨holder, h.goto_same (by simp [hphase, Holds]) hset.symm⟩
    · exact ⟨holder, h.goto_same (by simp [hphase, Holds]) trivial⟩
  | swapping =>
    dsimp only
    split_ifs with hfree
    · obtain rfl : holder = none := by
        have hlock := h.lock.symm.trans hfree
        cases holder with
        | none => rfl
        | some u => exact absurd hlock (by simp [lockOf, LOCKED, INITIAL])
      refine ⟨some t, Inv.goto h rfl (by simp [Holds]) (fun u hu => ?_) (Or.inl rfl) trivial⟩
      simp [hu.symm]
    · exact ⟨holder, h.goto_same (by simp [hphase, Holds]) (h.lock_of_ne hfree)⟩
  | checking =>
    dsimp only
    split_ifs with hset
    · exact ⟨holder, h.goto_same (by simp [hphase, Holds]) (h.init_of_ne hset)⟩
    · exact ⟨holder, h.goto_same (by simp [hphase, Holds]) (not_not.mp hset).symm⟩
  | unlocking =>
    rw [hphase] at hknown
    exact ⟨none, h.goto_free (by simp [hphase, Holds]) id hknown⟩
  | waiting old =>
    rw [hphase] at hknown
    have hlocked : old = LOCKED := hknown
    dsimp only
    rw [if_pos hlocked]
    split_ifs with hset
    · exact ⟨holder, h.goto_same (by simp [hphase, Holds]) hset.symm⟩
    · exact ⟨holder, h.goto_same (by simp [hphase, Holds]) trivial⟩
  | yielding => exact ⟨holder, h.goto_same (by simp [hphase, Holds]) trivial⟩
  | returned => exact ⟨holder, h.goto_same (by simp [hphase, Holds]) trivial⟩
  | constructing =>
    rw [hphase] at hknown
    exact ⟨holder, h.goto_same (by simp [hphase, Holds]) hknown⟩
  | releasing =>
    rw [hphase] at hknown
    have hunset : s.initHalf = INITIAL := hknown
    have hholder := (h.holds t).mp (by simp [hphase, Holds])
    dsimp only
    rw [if_pos hunset]
    exact ⟨holder, Inv.goto h h.lock (by simp [Holds, hholder]) (fun _ _ => Iff.rfl)
      (Or.inr ⟨rfl, hholder⟩) rfl⟩
  | clearing => exact ⟨none, h.goto_free (by simp [hphase, Holds]) id trivial⟩
  | aborting =>
    have hholder := (h.holds t).mp (by simp [hphase, Holds])
    have hlocked : s.lockHalf = LOCKED := by rw [h.lock, hholder]; rfl
    dsimp only
    rw [if_pos hlocked]
    exact ⟨none, h.goto_free (by simp [hphase, Holds]) id trivial⟩
  | halted =>
    rw [hphase] at hknown
    exact hknown.elim

/-- Each event, a statement or the start of a call, keeps the invariant with some holder. -/
theorem Inv.step (h : Inv s holder) (e : GuardEvent) : ∃ holder', Inv (s.step e) holder' := by
  cases e with
  | statement t => exact h.statement t
  | throws t =>
    rw [Guard.step]
    split_ifs with hphase
    · have hknown := h.fits t
      rw [hphase] at hknown
      exact ⟨holder, h.goto_same (by simp [hphase, Holds]) hknown⟩
    · exact ⟨holder, h⟩

/-- The invariant in every state of a run. -/
theorem Inv.run (h : Inv s holder) (es : List GuardEvent) :
    ∃ holder', Inv (runSteps Guard.step s es) holder' :=
  runSteps_invariant (I := fun s => ∃ holder, Inv s holder) (fun _ e ⟨_, h⟩ => h.step e) ⟨holder, h⟩

/-! ## After the value is built -/

/-- The init part is never cleared. -/
theorem step_initialised (h : Inv s holder) (hset : s.initHalf = INITIALISED) (e : GuardEvent) :
    (s.step e).initHalf = INITIALISED := by
  cases e with
  | statement t =>
    have hknown := h.fits t
    cases hphase : s.phase t with
    | releasing =>
      rw [hphase] at hknown
      exact absurd (hset.symm.trans hknown) (by decide)
    | testing | swapping | checking | waiting old | aborting =>
      simp only [Guard.step, Guard.statement, hphase]
      split_ifs <;> exact hset
    | idle | unlocking | yielding | returned | constructing | clearing | halted =>
      simp only [Guard.step, Guard.statement, hphase]
      exact hset
  | throws t =>
    simp only [Guard.step]
    split_ifs <;> exact hset

/-- The thread is inside `__cxa_guard_acquire`, and has not decided to build the value. -/
def Acquiring : GuardPhase → Prop
  | .testing | .swapping | .checking | .unlocking | .waiting _ | .yielding => True
  | .idle | .returned | .constructing | .releasing | .clearing | .aborting | .halted => False

/-- The statements that are left of `__cxa_guard_acquire` once the value is built. -/
def statementsLeft : GuardPhase → ℕ
  | .testing | .unlocking | .waiting _ => 1
  | .checking => 2
  | .swapping => 3
  | .yielding => 4
  | .idle | .returned | .constructing | .releasing | .clearing | .aborting | .halted => 0

/-- At most four statements are left of a call, whatever its phase is. -/
theorem statementsLeft_le (p : GuardPhase) : statementsLeft p ≤ 4 := by
  cases p <;> simp [statementsLeft]

/-- How many statements a thread executes. -/
def statements (t : Word) : List GuardEvent → ℕ
  | [] => 0
  | .statement u :: es => if u = t then statements t es + 1 else statements t es
  | .throws _ :: es => statements t es

/-- A thread in `__cxa_guard_acquire` gets one statement closer to its return. -/
theorem statement_acquiring (h : Inv s holder) (hset : s.initHalf = INITIALISED)
    (ht : Acquiring (s.phase t)) : (s.statement t).phase t = .returned ∨
      Acquiring ((s.statement t).phase t) ∧
        statementsLeft ((s.statement t).phase t) < statementsLeft (s.phase t) := by
  have hknown := h.fits t
  unfold Guard.statement
  cases hphase : s.phase t with
  | testing => exact Or.inl (by simp [hset])
  | swapping =>
    right
    dsimp only
    split_ifs <;> simp [Acquiring, statementsLeft]
  | checking => exact Or.inr (by simp [hset, Acquiring, statementsLeft])
  | unlocking => exact Or.inl (by simp)
  | waiting old =>
    rw [hphase] at hknown
    have hlocked : old = LOCKED := hknown
    exact Or.inl (by simp [hset, hlocked])
  | yielding => exact Or.inr (by simp [Acquiring, statementsLeft])
  | idle | returned | constructing | releasing | clearing | aborting | halted =>
    rw [hphase] at ht
    exact ht.elim

/-- The other threads do not move a thread. -/
theorem step_phase_other (h : e ≠ .statement t) (ht : s.phase t ≠ .constructing) :
    (s.step e).phase t = s.phase t := by
  cases e with
  | statement u =>
    have hne : t ≠ u := fun htu => h (htu ▸ rfl)
    simp only [Guard.step, Guard.statement]
    cases s.phase u <;> dsimp only <;> (try split_ifs) <;> first | rfl | exact goto_other hne
  | throws u =>
    simp only [Guard.step]
    split_ifs with hphase
    · exact goto_other fun htu => ht (htu ▸ hphase)
    · rfl

/-- Once the value is built, a thread leaves `__cxa_guard_acquire` by its own statements, whatever
the other threads do in between. -/
theorem acquire_returns (h : Inv s holder) (hset : s.initHalf = INITIALISED)
    (ht : Acquiring (s.phase t)) (hes : statementsLeft (s.phase t) ≤ statements t es) :
    ∃ n ≤ es.length, (runSteps Guard.step s (es.take n)).phase t = .returned := by
  induction es generalizing s holder with
  | nil =>
    cases hphase : s.phase t <;> simp [hphase, Acquiring, statementsLeft, statements] at ht hes
  | cons e es ih =>
    obtain ⟨holder', h'⟩ := h.step e
    have hset' := step_initialised h hset e
    by_cases he : e = .statement t
    · subst he
      rcases statement_acquiring h hset ht with hdone | ⟨hacquiring, hless⟩
      · exact ⟨1, by simp, hdone⟩
      · have hcount : statements t (.statement t :: es) = statements t es + 1 := if_pos rfl
        obtain ⟨n, hn, hreturned⟩ := ih h' hset' hacquiring
          (by simp only [Guard.step]; omega)
        exact ⟨n + 1, Nat.succ_le_succ hn, hreturned⟩
    · have hsame : (s.step e).phase t = s.phase t :=
        step_phase_other he fun hphase => by rw [hphase] at ht; exact ht
      have hcount : statements t (e :: es) = statements t es := by
        cases e with
        | statement u => exact if_neg fun hut : u = t => he (hut ▸ rfl)
        | throws u => rfl
      obtain ⟨n, hn, hreturned⟩ := ih h' hset' (hsame ▸ ht) (by rw [hsame, ← hcount]; exact hes)
      exact ⟨n + 1, Nat.succ_le_succ hn, hreturned⟩

/-! ## The value is built once -/

/-- One thread at most is in the constructor, the value is not built then, it is built wherever
`__cxa_guard_acquire` has returned 0, and no assertion has failed. -/
structure Once (s : Guard) : Prop where
  alone : ∀ t u, s.phase t = .constructing → s.phase u = .constructing → t = u
  unbuilt : ∀ t, s.phase t = .constructing → s.initHalf = INITIAL
  built : ∀ t, s.phase t = .returned → s.initHalf = INITIALISED
  asserted : ∀ t, s.phase t ≠ .halted

/-- The invariant says that no two threads are in the initialiser together, and none is once it is
done. -/
theorem Inv.once (h : Inv s holder) : Once s where
  alone t u ht hu := by
    have htake := (h.holds t).mp (by simp [ht, Holds])
    have hutake := (h.holds u).mp (by simp [hu, Holds])
    exact Option.some.inj (htake.symm.trans hutake)
  unbuilt t ht := by
    have hknown := h.fits t
    rwa [ht] at hknown
  built t ht := by
    have hknown := h.fits t
    rwa [ht] at hknown
  asserted t ht := by
    have hknown := h.fits t
    rwa [ht] at hknown

/-- **A static value is built once.** In every interleaving of threads that reach the value, whose
constructors may throw: one thread at most is in the constructor; after the value is built no
thread enters the constructor again; and each thread that is in `__cxa_guard_acquire` by then
has returned 0 after four statements of its own at most. -/
theorem guard_builds_once (es : List GuardEvent) :
    Once (runSteps Guard.step initial es) ∧
      ((runSteps Guard.step initial es).initHalf = INITIALISED → ∀ more : List GuardEvent,
        (runSteps Guard.step initial (es ++ more)).initHalf = INITIALISED ∧
        (∀ t, (runSteps Guard.step initial (es ++ more)).phase t ≠ .constructing) ∧
        ∀ t, Acquiring ((runSteps Guard.step initial es).phase t) → 4 ≤ statements t more →
          ∃ n ≤ more.length,
            (runSteps Guard.step initial (es ++ more.take n)).phase t = .returned) := by
  obtain ⟨holder, h⟩ := Inv.initial.run es
  refine ⟨h.once, fun hset more => ?_⟩
  have hstep (s : Guard) (e : GuardEvent)
      (hs : (∃ holder, Inv s holder) ∧ s.initHalf = INITIALISED) :
      (∃ holder, Inv (s.step e) holder) ∧ (s.step e).initHalf = INITIALISED := by
    obtain ⟨⟨holder, h⟩, hset⟩ := hs
    exact ⟨h.step e, step_initialised h hset e⟩
  obtain ⟨⟨_, hmore⟩, hset'⟩ := @runSteps_invariant _ _ _ _ more _ hstep ⟨⟨holder, h⟩, hset⟩
  rw [runSteps_append]
  refine ⟨hset', fun t ht => ?_, fun t ht hcount => ?_⟩
  · exact absurd ((hmore.once.unbuilt t ht).symm.trans hset') (by decide)
  · obtain ⟨n, hn, hreturned⟩ :=
      acquire_returns h hset ht (Nat.le_trans (statementsLeft_le _) hcount)
    exact ⟨n, hn, by rwa [runSteps_append]⟩

/-- Two threads race for the value, the first constructor throws, and the second one builds it. -/
example : (runSteps Guard.step initial
    ([1, 2, 1, 2, 1, 2, 1].map .statement ++ [.throws 1] ++
      [1, 2, 2, 2, 2, 2, 2, 2].map .statement)).initHalf = INITIALISED := by decide

end Guard

end Muk
