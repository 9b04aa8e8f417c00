import Muk.Proc.SchedulerRuns

/-!
# ps

`ps -p` walks the ring of threads from its root, and stops at the thread whose successor is the
root, before it prints that one.
-/

namespace Muk

open Thread (field)

variable {m : Mem} {threads : ℕ → NewThread} {n : ℕ}

/-- What is printed of a thread. -/
structure PsLine where
  procId : Word
  threadId : Word
  title : Word
  deriving DecidableEq

/-- The arguments of `terminal_printf`. -/
def psLine (m : Mem) (t : Word) : PsLine where
  procId := load32 m (field t Thread.procId)
  threadId := load32 m (field t Thread.threadId)
  title := load32 m (field t Thread.title)

/-- The loop of `ps_p`: the lines from a thread on. A walk longer than the address space never
ends. -/
def psLoop (m : Mem) (threadRoot t : Word) : ℕ → Except Fault (List PsLine)
  | 0 => .error .diverges
  | fuel + 1 =>
    let next := load32 m (field t Thread.next)
    if next ≠ threadRoot then do
      let lines ← psLoop m threadRoot next fuel
      .ok (psLine m t :: lines)
    else .ok []

namespace Kernel

/-- `ps_p`, which prints the threads of every process. -/
def psP (k : Kernel) (_procId : Word) : Except Fault (List PsLine) :=
  psLoop k.mem k.threadRoot k.threadRoot (2 ^ 32)

/-- Each of the threads has its line, in the order in which they were started. -/
def ListsThreads (k : Kernel) (threads : ℕ → NewThread) (n : ℕ) (procId : Word) : Prop :=
  k.psP procId = .ok ((List.range n).map fun i => psLine k.mem (threads i).addr)

end Kernel

/-- The walk from a thread of the ring to the one before the last. -/
theorem Placed.psLoop (h : Placed threads n) (hring : Ring m threads n) {fuel i : ℕ} (hi : i < n)
    (hfuel : n - i ≤ fuel) : Muk.psLoop m (threads 0).addr (threads i).addr fuel =
      .ok ((List.range' i (n - 1 - i)).map fun j => psLine m (threads j).addr) := by
  induction fuel generalizing i with
  | zero => omega
  | succ fuel ih =>
    simp only [Muk.psLoop, hring.next i hi]
    by_cases hlast : i + 1 = n
    · have hnone : n - 1 - i = 0 := by omega
      rw [hlast, Nat.mod_self, hnone]
      exact if_neg fun hne => hne rfl
    · have hmod : (i + 1) % n = i + 1 := Nat.mod_eq_of_lt (by omega)
      have hne : (threads (i + 1)).addr ≠ (threads 0).addr := fun heq => by
        have := h.addr_inj (show i + 1 < n by omega) (by omega) heq
        omega
      have hmore : n - 1 - i = n - 1 - (i + 1) + 1 := by omega
      rw [hmod, if_pos hne, ih (by omega) (by omega), hmore, List.range'_succ, List.map_cons]
      rfl

/-- The lines of `ps`: all threads but the last one. -/
theorem Started.psP (h : Placed threads n) {k : Kernel} (hk : Started k threads n) (hn : 0 < n)
    (procId : Word) : k.psP procId =
      .ok ((List.range (n - 1)).map fun i => psLine k.mem (threads i).addr) := by
  have hroot : k.threadRoot = (threads 0).addr := by
    rw [hk.root, if_neg (Nat.ne_of_gt hn)]
  have hlength := h.le
  rw [Kernel.psP, hroot, h.psLoop hk.ring hn (by omega), Nat.sub_zero, List.range_eq_range']

/-- `ps` never lists all threads of the started kernel, as it stops before the last one. -/
theorem Started.not_listsThreads (h : Placed threads n) {k : Kernel} (hk : Started k threads n)
    (hn : 0 < n) (procId : Word) : ¬ k.ListsThreads threads n procId := by
  intro hlists
  have hlines := Except.ok.inj ((hk.psP h hn procId).symm.trans hlists)
  have hlength := congrArg List.length hlines
  rw [List.length_map, List.length_map, List.length_range, List.length_range] at hlength
  omega

/-- **The last thread is never listed**: after any number of calls of `start_thread`, `ps` prints
the threads before the last one, in the order of the calls, so that not every thread has its
line. -/
theorem Kernel.ps_lists_all_but_last (h : Placed threads n) (hn : 1 ≤ n) {k₀ : Kernel}
    (hroot : k₀.threadRoot = 0) (procId : Word) :
    ∃ k, forLoop (fun i k => k.startThread (threads i)) 0 n k₀ = .ok k ∧
      k.psP procId = .ok ((List.range (n - 1)).map fun i => psLine k.mem (threads i).addr) ∧
      ¬ k.ListsThreads threads n procId := by
  obtain ⟨k, hrun, hk, -⟩ := startThreads_spec h hroot
  exact ⟨k, hrun, hk.psP h hn procId, hk.not_listsThreads h hn procId⟩

/-- The first of two threads is listed, and the second one is not. -/
theorem Kernel.ps_lists_first_of_two :
    ∃ k, forLoop (fun i k => k.startThread (twoThreads i)) 0 2 noThreads = .ok k ∧
      k.psP 0 = .ok [psLine k.mem (twoThreads 0).addr] ∧ ¬ k.ListsThreads twoThreads 2 0 :=
  Kernel.ps_lists_all_but_last twoThreads_placed (by omega) rfl 0

/-- A single thread is not listed. -/
theorem Kernel.ps_lists_none_of_one :
    ∃ k, forLoop (fun i k => k.startThread (twoThreads i)) 0 1 noThreads = .ok k ∧
      k.psP 0 = .ok [] ∧ ¬ k.ListsThreads twoThreads 1 0 := by
  have hplaced : Placed twoThreads 1 :=
    ⟨by decide, by decide, by decide, by decide, by decide, by decide⟩
  obtain ⟨k, hrun, hk, -⟩ := startThreads_spec hplaced (show noThreads.threadRoot = 0 from rfl)
  exact ⟨k, hrun, hk.psP hplaced (by omega) 0, hk.not_listsThreads hplaced (by omega) 0⟩

end Muk
