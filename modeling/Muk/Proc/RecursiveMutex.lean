import Muk.Lib.ByteMemory
import Muk.Lib.Run

/-!
# The recursive mutex

A recursive lock is free, or held by a thread with a depth. `RecursiveMutex` keeps the thread in
`l_threadid` and the depth in `interlock`, but its `Lock` never waits, and its `Unlock` clears the
thread at any depth above 1 and does nothing at depth 1.
-/

namespace Muk

/-- The id of a thread. 0 stands for none. -/
abbrev ThreadId := { t : Word // t ≠ 0 }

inductive MutexOp where
  | lock
  | tryLock
  | unlock
  deriving DecidableEq

/-- A call of a method by a thread. -/
structure MutexCall where
  thread : ThreadId
  op : MutexOp

/-! ## What a recursive lock is -/

/-- A lock that is free, or held by a thread that has taken it some more times. -/
inductive RecursiveLock where
  | free
  | held (owner : ThreadId) (more : ℕ)

namespace RecursiveLock

/-- How often the lock was taken and not yet given back. -/
def depth : RecursiveLock → ℕ
  | free => 0
  | held _ more => more + 1

/-- The thread id of the owner, or 0. -/
def holder : RecursiveLock → Word
  | free => 0
  | held owner _ => owner

/-- The lock is taken if it is free or already the thread's own. -/
def acquire (thread : ThreadId) : RecursiveLock → Bool × RecursiveLock
  | free => (true, held thread 0)
  | held owner more =>
    if owner = thread then (true, held owner (more + 1)) else (false, held owner more)

/-- The owner gives the lock back once. -/
def release (thread : ThreadId) : RecursiveLock → RecursiveLock
  | free => free
  | held owner 0 => if owner = thread then free else held owner 0
  | held owner (more + 1) => if owner = thread then held owner more else held owner (more + 1)

/-- The result of a call, if it has one, and the lock after it. -/
def call (l : RecursiveLock) (c : MutexCall) : Option Bool × RecursiveLock :=
  match c.op with
  | .lock => (none, (l.acquire c.thread).2)
  | .tryLock => (some (l.acquire c.thread).1, (l.acquire c.thread).2)
  | .unlock => (none, l.release c.thread)

def step (l : RecursiveLock) (c : MutexCall) : RecursiveLock := (l.call c).2

variable {l : RecursiveLock} {t : ThreadId}

/-- A lock that is free or already the thread's own is taken once more. -/
theorem acquire_of_own (h : l.holder = 0 ∨ l.holder = t) :
    (l.acquire t).1 = true ∧ (l.acquire t).2.depth = l.depth + 1 ∧ (l.acquire t).2.holder = t := by
  cases l with
  | free => exact ⟨rfl, rfl, rfl⟩
  | held owner more =>
    have howner : owner = t := Subtype.ext (h.resolve_left owner.2)
    rw [acquire, if_pos howner]
    exact ⟨rfl, rfl, congrArg Subtype.val howner⟩

/-- The lock of another thread is not. -/
theorem acquire_of_other (h : ¬ (l.holder = 0 ∨ l.holder = t)) : l.acquire t = (false, l) := by
  cases l with
  | free => exact absurd (Or.inl rfl) h
  | held owner more =>
    have howner : owner ≠ t := fun heq => h (Or.inr (congrArg Subtype.val heq))
    exact if_neg howner

/-- A release by a thread that does not hold the lock changes nothing. -/
theorem release_of_other (h : l.holder ≠ t) : l.release t = l := by
  cases l with
  | free => rfl
  | held owner more =>
    have howner : owner ≠ t := fun heq => h (congrArg Subtype.val heq)
    cases more with
    | zero => exact if_neg howner
    | succ more => exact if_neg howner

/-- A release by the owner takes one from the depth, and leaves the lock its own until then. -/
theorem release_of_own (h : l.holder = t) :
    (l.release t).depth + 1 = l.depth ∧ (1 < l.depth → (l.release t).holder = t) := by
  cases l with
  | free => exact absurd h.symm t.2
  | held owner more =>
    have howner : owner = t := Subtype.ext h
    cases more with
    | zero =>
      rw [release, if_pos howner]
      exact ⟨rfl, fun hlt => absurd hlt (Nat.lt_irrefl 1)⟩
    | succ more =>
      rw [release, if_pos howner]
      exact ⟨rfl, fun _ => h⟩

end RecursiveLock

/-! ## The class -/

structure RecursiveMutex where
  interlock : Word
  lThreadid : Word

namespace RecursiveMutex

/-- After the constructor, which does not set `l_threadid`. -/
def initial (lThreadid : Word) : RecursiveMutex := { interlock := 0, lThreadid := lThreadid }

/-- `RecursiveMutex::Lock` -/
def lock (m : RecursiveMutex) (threadId : Word) : RecursiveMutex :=
  { lThreadid := threadId, interlock := m.interlock + 1 }

/-- `RecursiveMutex::Unlock` -/
def unlock (m : RecursiveMutex) (threadId : Word) : RecursiveMutex :=
  if m.lThreadid = threadId ∧ m.interlock.toInt > 1 then
    { interlock := m.interlock - 1, lThreadid := 0 }
  else m

/-- `RecursiveMutex::TryLock` -/
def tryLock (m : RecursiveMutex) (threadId : Word) : Bool × RecursiveMutex :=
  if m.lThreadid = threadId ∨ m.lThreadid = 0 then (true, m.lock threadId) else (false, m)

/-- `RecursiveMutex::Test` -/
def test (m : RecursiveMutex) : Bool := m.interlock ≠ 0

/-- The result of a call, if it has one, and the mutex after it. -/
def call (m : RecursiveMutex) (c : MutexCall) : Option Bool × RecursiveMutex :=
  match c.op with
  | .lock => (none, m.lock c.thread)
  | .tryLock => (some (m.tryLock c.thread).1, (m.tryLock c.thread).2)
  | .unlock => (none, m.unlock c.thread)

def step (m : RecursiveMutex) (c : MutexCall) : RecursiveMutex := (m.call c).2

/-- The fields are the depth and the owner of a lock. -/
structure Represents (m : RecursiveMutex) (l : RecursiveLock) : Prop where
  interlock : m.interlock.toInt = l.depth
  lThreadid : m.lThreadid = l.holder

/-- Through some calls, the mutex represents the lock and returns what the lock returns. -/
def Behaves : RecursiveMutex → RecursiveLock → List MutexCall → Prop
  | m, l, [] => Represents m l
  | m, l, c :: calls =>
    Represents m l ∧ (m.call c).1 = (l.call c).1 ∧ Behaves (m.step c) (l.step c) calls

/-- A call that the methods get right: no `Lock` while another thread holds the mutex, no `Unlock`
by its owner, and nothing that takes effect at the greatest depth. -/
def Handled (l : RecursiveLock) (c : MutexCall) : Prop :=
  match c.op with
  | .lock => (l.holder = 0 ∨ l.holder = c.thread) ∧ l.depth + 1 < 2 ^ 31
  | .tryLock => l.holder = 0 ∨ l.holder = c.thread → l.depth + 1 < 2 ^ 31
  | .unlock => l.holder ≠ c.thread

variable {m : RecursiveMutex} {l : RecursiveLock} {c : MutexCall} {t : ThreadId}

/-- What is represented tells whether the mutex is taken. -/
theorem Represents.test (h : Represents m l) : m.test = true ↔ l ≠ .free := by
  have hinterlock := h.interlock
  have hzero : m.interlock = 0 ↔ m.interlock.toInt = 0 := BitVec.toInt_inj.symm
  unfold RecursiveMutex.test
  rw [decide_eq_true_eq, Ne, hzero, hinterlock]
  cases l with
  | free => simp [RecursiveLock.depth]
  | held owner more =>
    simp only [RecursiveLock.depth, ne_eq, reduceCtorEq, not_false_eq_true, iff_true]
    omega

/-- A count goes up by one below the greatest number. -/
theorem toInt_add_one_iff {n : ℕ} {w : Word} (h : w.toInt = n) :
    (w + 1).toInt = (n + 1 : ℕ) ↔ n + 1 < 2 ^ 31 := by
  have hlt := w.isLt
  rw [BitVec.toInt_eq_toNat_cond] at h ⊢
  rw [BitVec.toNat_add]
  have hone : (1 : Word).toNat = 1 := rfl
  rw [hone]
  split_ifs at h ⊢ <;> omega

/-- `Lock` takes the mutex, for whichever thread calls it. -/
theorem lock_iff (h : Represents m l) :
    ((l.holder = 0 ∨ l.holder = t) ∧ l.depth + 1 < 2 ^ 31) ↔
      Represents (m.lock t) (l.acquire t).2 := by
  by_cases hown : l.holder = 0 ∨ l.holder = t
  · obtain ⟨-, hdepth, hholder⟩ := RecursiveLock.acquire_of_own hown
    have hcount := toInt_add_one_iff h.interlock
    rw [← hdepth] at hcount
    constructor
    · rintro ⟨-, hlt⟩
      exact ⟨hcount.mpr (by omega), hholder.symm⟩
    · intro hnext
      have hlt := hcount.mp hnext.interlock
      exact ⟨hown, by omega⟩
  · rw [RecursiveLock.acquire_of_other hown]
    constructor
    · exact fun hlock => absurd hlock.1 hown
    · exact fun hnext => absurd (Or.inr hnext.lThreadid.symm) hown

/-- `TryLock` behaves like an attempt on the ideal lock exactly where the depth does not leave its
31 bits. -/
theorem tryLock_iff (h : Represents m l) :
    (l.holder = 0 ∨ l.holder = t → l.depth + 1 < 2 ^ 31) ↔
      (m.tryLock t).1 = (l.acquire t).1 ∧ Represents (m.tryLock t).2 (l.acquire t).2 := by
  have htest : (m.lThreadid = t ∨ m.lThreadid = 0) ↔ (l.holder = 0 ∨ l.holder = t) := by
    rw [h.lThreadid, or_comm]
  unfold tryLock
  by_cases hown : l.holder = 0 ∨ l.holder = t
  · rw [if_pos (htest.mpr hown), ← lock_iff h]
    exact ⟨fun hlt => ⟨(RecursiveLock.acquire_of_own hown).1.symm, hown, hlt hown⟩,
      fun hnext _ => hnext.2.2⟩
  · rw [if_neg (mt htest.mp hown), RecursiveLock.acquire_of_other hown]
    exact ⟨fun _ => ⟨rfl, h⟩, fun _ hfree => absurd hfree hown⟩

/-- `Unlock` by the owner goes wrong at each depth: it does nothing at depth 1, and forgets the
owner at any other. -/
theorem unlock_iff (h : Represents m l) : l.holder ≠ t ↔ Represents (m.unlock t) (l.release t) := by
  unfold unlock
  constructor
  · intro hother
    have hthread : m.lThreadid ≠ t := by rwa [h.lThreadid]
    rw [if_neg fun hown => hthread hown.1, RecursiveLock.release_of_other hother]
    exact h
  · intro hnext hown
    obtain ⟨hdepth, hholder⟩ := RecursiveLock.release_of_own hown
    have hinterlock := h.interlock
    by_cases hdeep : m.interlock.toInt > 1
    · rw [if_pos ⟨h.lThreadid.trans hown, hdeep⟩] at hnext
      have hzero := hnext.lThreadid.trans (hholder (by omega))
      exact t.2 hzero.symm
    · rw [if_neg fun hboth => hdeep hboth.2] at hnext
      have hsame := hnext.interlock
      omega

/-- A call keeps the mutex and the lock together exactly when the methods get it right. -/
theorem handled_iff (h : Represents m l) :
    Handled l c ↔ (m.call c).1 = (l.call c).1 ∧ Represents (m.step c) (l.step c) := by
  obtain ⟨t, op⟩ := c
  cases op with
  | lock =>
    rw [Handled, lock_iff h]
    exact ⟨fun hnext => ⟨rfl, hnext⟩, fun hboth => hboth.2⟩
  | tryLock =>
    rw [Handled, tryLock_iff h]
    exact ⟨fun hboth => ⟨congrArg some hboth.1, hboth.2⟩,
      fun hboth => ⟨Option.some.inj hboth.1, hboth.2⟩⟩
  | unlock =>
    rw [Handled, unlock_iff h]
    exact ⟨fun hnext => ⟨rfl, hnext⟩, fun hboth => hboth.2⟩

/-- The mutex that behaves like the lock has its owner and its depth. -/
theorem Behaves.represents {calls : List MutexCall} (h : Behaves m l calls) : Represents m l := by
  cases calls with
  | nil => exact h
  | cons c calls => exact h.1

/-- The mutex behaves like the lock in a run exactly if each call is one that it handles. -/
theorem behaves_iff_along {calls : List MutexCall} (h : Represents m l) :
    Behaves m l calls ↔ Along RecursiveLock.step Handled l calls := by
  induction calls generalizing m l with
  | nil => exact ⟨fun _ => trivial, fun _ => h⟩
  | cons c calls ih =>
    rw [along_cons, handled_iff h]
    constructor
    · rintro ⟨-, hresult, hrest⟩
      exact ⟨⟨hresult, hrest.represents⟩, (ih hrest.represents).mp hrest⟩
    · rintro ⟨⟨hresult, hnext⟩, hrest⟩
      exact ⟨h, hresult, (ih hnext).mpr hrest⟩

/-- A new mutex represents a free lock if no thread is left in `l_threadid`. -/
theorem represents_initial_iff {lThreadid : Word} :
    Represents (initial lThreadid) .free ↔ lThreadid = 0 :=
  ⟨Represents.lThreadid, fun h => ⟨rfl, h⟩⟩

/-- **The recursive mutex is a recursive lock until it is to be given back.** For every sequence of
calls by any threads: a new mutex represents the lock after each call, and returns what the lock
returns, if and only if `l_threadid` was 0 and no call is a `Lock` while another thread holds the
lock, an `Unlock` by the owner, or one that takes effect at the greatest depth. -/
theorem behaves_iff (lThreadid : Word) (calls : List MutexCall) :
    Behaves (initial lThreadid) .free calls ↔
      lThreadid = 0 ∧ Along RecursiveLock.step Handled .free calls := by
  rw [← represents_initial_iff]
  constructor
  · intro h
    exact ⟨h.represents, (behaves_iff_along h.represents).mp h⟩
  · rintro ⟨hinitial, halong⟩
    exact (behaves_iff_along hinitial).mpr halong

/-- Two threads. -/
def firstThread : ThreadId := ⟨1, by decide⟩

def secondThread : ThreadId := ⟨2, by decide⟩

/-- After `Lock` and `Unlock` the mutex is taken for good. After two calls of `Lock` and one of
`Unlock`, another thread takes it. -/
theorem lock_unlock_test :
    (runSteps step (initial 0) [⟨firstThread, .lock⟩, ⟨firstThread, .unlock⟩]).test = true ∧
    runSteps RecursiveLock.step .free [⟨firstThread, .lock⟩, ⟨firstThread, .unlock⟩] = .free ∧
    ((runSteps step (initial 0) [⟨firstThread, .lock⟩, ⟨firstThread, .lock⟩,
      ⟨firstThread, .unlock⟩]).tryLock secondThread).1 = true ∧
    ¬ Behaves (initial 0) .free [⟨firstThread, .lock⟩, ⟨firstThread, .unlock⟩] := by
  refine ⟨by decide, rfl, by decide, ?_⟩
  rintro ⟨-, -, -, -, hrepresents⟩
  exact absurd hrepresents.interlock (by decide)

end RecursiveMutex

end Muk
