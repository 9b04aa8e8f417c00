import Muk.Lib.ByteMemory
import Muk.Lib.Run
import Mathlib.Logic.Function.Basic

/-!
# The spinlock

Threads run `Lock`, a critical section and `Unlock`, again and again, and a preemption may
come between any two statements. The test of `interlock` and the store to it are two
statements, so another thread may pass the test in between.
-/

namespace Muk

/-- The statement that a thread executes next. -/
inductive LockPhase where
  /-- `while(interlock) { }` -/
  | testing
  /-- `this->l_threadid = thread_id` of `Lock` -/
  | claiming
  /-- `this->interlock = 1` -/
  | locking
  /-- The critical section is over: the test of `Unlock` -/
  | critical
  /-- `this->interlock = 0` -/
  | releasing
  /-- `this->l_threadid = 0` -/
  | clearing
  deriving DecidableEq

/-- `SpinlockMutex`, and where the thread of each id is. -/
structure SpinlockMutex where
  interlock : Word
  lThreadid : Word
  phase : Word → LockPhase

namespace SpinlockMutex

/-- Before the first `Lock`. The constructor does not set `l_threadid`. -/
def initial (lThreadid : Word) : SpinlockMutex :=
  { interlock := 0, lThreadid := lThreadid, phase := fun _ => .testing }

/-- The thread goes on to a statement. -/
def goto (s : SpinlockMutex) (threadId : Word) (p : LockPhase) : SpinlockMutex :=
  { s with phase := Function.update s.phase threadId p }

/-- One statement of a thread. -/
def step (s : SpinlockMutex) (threadId : Word) : SpinlockMutex :=
  match s.phase threadId with
  | .testing => if s.interlock ≠ 0 then s else s.goto threadId .claiming
  | .claiming => { s with lThreadid := threadId }.goto threadId .locking
  | .locking => { s with interlock := 1 }.goto threadId .critical
  | .critical =>
    if s.lThreadid = threadId then s.goto threadId .releasing else s.goto threadId .testing
  | .releasing => { s with interlock := 0 }.goto threadId .clearing
  | .clearing => { s with lThreadid := 0 }.goto threadId .testing

/-! ## Mutual exclusion -/

/-- At most one thread is in its critical section, the lock is its own, and the next two
statements of its `Unlock` free it. -/
structure Exclusive (s : SpinlockMutex) : Prop where
  alone : ∀ t u, s.phase t = .critical → s.phase u = .critical → t = u
  held : ∀ t, s.phase t = .critical → s.interlock = 1 ∧ s.lThreadid = t
  freed : ∀ t, s.phase t = .critical → (runSteps step s [t, t]).interlock = 0

/-- A thread that leaves the loop of `Lock` does so while no other thread is between the
loop and `interlock = 1`, or between `interlock = 0` and `l_threadid = 0`. -/
def Undisturbed (s : SpinlockMutex) (t : Word) : Prop :=
  s.phase t = .testing → s.interlock = 0 → ∀ u ≠ t,
    s.phase u ≠ .claiming ∧ s.phase u ≠ .locking ∧ s.phase u ≠ .clearing

/-- One thread at most is past the loop of `Lock`, and the fields tell how far it is. -/
structure Inv (s : SpinlockMutex) : Prop where
  alone : ∀ t u, s.phase t ≠ .testing → s.phase u ≠ .testing → t = u
  owner : ∀ t, s.phase t = .locking ∨ s.phase t = .critical → s.lThreadid = t
  locked : ∀ t, s.phase t = .critical ∨ s.phase t = .releasing → s.interlock = 1

variable {s : SpinlockMutex} {t u : Word} {p : LockPhase}

/-- A thread that goes to a phase is in that phase. -/
@[simp] theorem goto_self (s : SpinlockMutex) (t : Word) (p : LockPhase) :
    (s.goto t p).phase t = p := Function.update_self ..

/-- The phases of the other threads stay as they are. -/
theorem goto_other (h : u ≠ t) : (s.goto t p).phase u = s.phase u := Function.update_of_ne h ..

/-- At first no thread is in the lock. -/
theorem Inv.initial (l : Word) : Inv (initial l) where
  alone t u ht := absurd rfl ht
  owner t ht := by simp [SpinlockMutex.initial] at ht
  locked t ht := by simp [SpinlockMutex.initial] at ht

/-- A thread that is past the loop keeps the others in it, wherever it goes next. -/
theorem Inv.others (h : Inv s) (ht : s.phase t ≠ .testing) (hu : u ≠ t) : s.phase u = .testing := by
  by_contra hpast
  exact hu (h.alone u t hpast ht)

/-- If only one thread moves, and the others are in the loop, the fields need to fit that
thread alone. -/
theorem Inv.goto (hothers : ∀ u ≠ t, s.phase u = .testing)
    (howner : p = .locking ∨ p = .critical → s.lThreadid = t)
    (hlocked : p = .critical ∨ p = .releasing → s.interlock = 1) : Inv (s.goto t p) := by
  have hself {u : Word} (hu : (s.goto t p).phase u ≠ .testing) : u = t := by
    by_contra hne
    rw [goto_other hne] at hu
    exact hu (hothers u hne)
  refine ⟨fun u v hu hv => (hself hu).trans (hself hv).symm, fun u hu => ?_, fun u hu => ?_⟩
  · obtain rfl : u = t := hself (by rcases hu with hu | hu <;> simp [hu])
    rw [goto_self] at hu
    exact howner hu
  · obtain rfl : u = t := hself (by rcases hu with hu | hu <;> simp [hu])
    rw [goto_self] at hu
    exact hlocked hu

/-- Each statement keeps the invariant, if a thread that leaves the loop is undisturbed. -/
theorem Inv.step (h : Inv s) (hundisturbed : Undisturbed s t) : Inv (step s t) := by
  unfold SpinlockMutex.step
  cases hphase : s.phase t with
  | testing =>
    dsimp only
    by_cases hzero : s.interlock = 0
    · rw [if_neg (not_not.mpr hzero)]
      refine Inv.goto (fun u hu => ?_) (by simp) (by simp)
      obtain ⟨hclaiming, hlocking, hclearing⟩ := hundisturbed hphase hzero u hu
      have hlocked := h.locked u
      cases hother : s.phase u with
      | testing => rfl
      | claiming => exact absurd hother hclaiming
      | locking => exact absurd hother hlocking
      | critical => simp [hother, hzero] at hlocked
      | releasing => simp [hother, hzero] at hlocked
      | clearing => exact absurd hother hclearing
    · rw [if_pos hzero]
      exact h
  | claiming =>
    have hothers (u : Word) (hu : u ≠ t) := h.others (t := t) (by simp [hphase]) hu
    exact Inv.goto hothers (fun _ => rfl) (by simp)
  | locking =>
    have hothers (u : Word) (hu : u ≠ t) := h.others (t := t) (by simp [hphase]) hu
    exact Inv.goto hothers (fun _ => h.owner t (Or.inl hphase)) (fun _ => rfl)
  | critical =>
    have hothers (u : Word) (hu : u ≠ t) := h.others (t := t) (by simp [hphase]) hu
    dsimp only
    rw [if_pos (h.owner t (Or.inr hphase))]
    exact Inv.goto hothers (by simp) (fun _ => h.locked t (Or.inl hphase))
  | releasing =>
    have hothers (u : Word) (hu : u ≠ t) := h.others (t := t) (by simp [hphase]) hu
    exact Inv.goto hothers (by simp) (by simp)
  | clearing =>
    have hothers (u : Word) (hu : u ≠ t) := h.others (t := t) (by simp [hphase]) hu
    exact Inv.goto hothers (by simp) (by simp)

/-- The invariant says that no two threads hold the lock. -/
theorem Inv.exclusive (h : Inv s) : Exclusive s where
  alone t u ht hu := h.alone t u (by simp [ht]) (by simp [hu])
  held t ht := ⟨h.locked t (Or.inl ht), h.owner t (Or.inr ht)⟩
  freed t ht := by
    have howner := h.owner t (Or.inr ht)
    simp [SpinlockMutex.step, ht, howner, SpinlockMutex.goto]

/-- **Mutual exclusion.** In every run in which no thread leaves the loop of `Lock` while
another one is between two stores that belong together, at most one thread is in its
critical section, and it can free the lock. -/
theorem mutual_exclusion {l : Word} {threads : List Word}
    (hrun : Along step Undisturbed (initial l) threads) :
    Exclusive (runSteps step (initial l) threads) :=
  (hrun.invariant (Inv.initial l) fun _ _ hs ht => hs.step ht).exclusive

/-- Thread 1 takes the lock and gives it back, while thread 2 waits for it. -/
theorem mutual_exclusion_two :
    Exclusive (runSteps step (initial 0) [1, 1, 1, 2, 1, 1, 1, 2, 2, 2]) := by
  apply mutual_exclusion
  simp [Undisturbed, step, initial, goto]

/-- Threads 1 and 2 both leave the loop before one of them stores to the interlock. -/
def bothTest : List Word := [1, 2, 1, 1, 2, 2]

/-- Thread 2 takes the lock while thread 1 is between the two stores of `Unlock`. -/
def lateClear : List Word := [1, 1, 1, 1, 1, 2, 2, 2, 1]

/-- Both threads are in their critical sections, or the lock is held by nobody and can no
longer be freed. -/
theorem mutual_exclusion_fails :
    ¬ Exclusive (runSteps step (initial 0) bothTest) ∧
      ¬ Exclusive (runSteps step (initial 0) lateClear) ∧
      (runSteps step (initial 0) (lateClear ++ [2, 2, 2])).interlock = 1 := by
  have hboth : (runSteps step (initial 0) bothTest).phase 1 = .critical ∧
      (runSteps step (initial 0) bothTest).phase 2 = .critical := by decide
  have hlate : (runSteps step (initial 0) lateClear).phase 2 = .critical ∧
      (runSteps step (initial 0) lateClear).lThreadid = 0 := by decide
  refine ⟨fun h => ?_, fun h => ?_, by decide⟩
  · exact absurd (h.alone 1 2 hboth.1 hboth.2) (by decide)
  · exact absurd ((h.held 2 hlate.1).2.symm.trans hlate.2) (by decide)

end SpinlockMutex

end Muk
