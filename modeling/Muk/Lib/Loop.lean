import Mathlib.Tactic.Common
import Mathlib.Data.Nat.Notation

/-!
# Loops that may fail

A loop `for (i = lo; i < lo + n; i++)` over a state is structural recursion on
the number `n` of passes, and a loop that returns early is a search. Later
proofs use the rules below and never unfold a loop: an invariant that every pass
keeps holds at the end, and a search stops at the first pass with a result.
-/

namespace Muk

universe u

variable {σ ε α : Type*}

/-- A sequence of two steps succeeds when both do. -/
theorem bind_eq_ok {β γ : Type u} {x : Except ε β} {f : β → Except ε γ} {b : γ} :
    (x >>= f) = .ok b ↔ ∃ a, x = .ok a ∧ f a = .ok b := by
  cases x with
  | error e => simp [bind, Except.bind]
  | ok a => simp [bind, Except.bind]

/-- After a result the next step is run on that result. -/
theorem ok_bind {β γ : Type u} (b : β) (f : β → Except ε γ) : ((.ok b : Except ε β) >>= f) = f b :=
  rfl

/-- What can come of a step: an error of the kind `Err`, or a result with the
property `P`. -/
def Outcome (Err : ε → Prop) (P : α → Prop) : Except ε α → Prop
  | .error e => Err e
  | .ok a => P a

section Outcome

variable {β : Type*} {Err : ε → Prop} {P Q : α → Prop} {x : Except ε α}

/-- A result is good if the condition on results holds. -/
@[simp] theorem outcome_ok {a : α} : Outcome Err P (.ok a) ↔ P a := Iff.rfl

/-- An error is good if the condition on errors holds. -/
@[simp] theorem outcome_error {e : ε} : Outcome Err P (.error e) ↔ Err e := Iff.rfl

/-- With no error allowed, a step succeeds. -/
theorem outcome_false_iff : Outcome (fun _ => False) P x ↔ ∃ a, x = .ok a ∧ P a := by
  cases x with
  | error e => simp
  | ok a => simp

/-- A step that is known to return a good result is good. -/
theorem Outcome.of_eq_ok {a : α} (h : x = .ok a) (ha : P a) : Outcome Err P x := by
  rw [h]
  exact ha

/-- The condition on results may be weakened. -/
theorem Outcome.mono (h : Outcome Err P x) (hPQ : ∀ a, P a → Q a) : Outcome Err Q x := by
  cases x with
  | error e => exact h
  | ok a => exact hPQ a h

/-- The condition on errors may be weakened. -/
theorem Outcome.mono_error {Err' : ε → Prop} (h : Outcome Err P x) (hErr : ∀ e, Err e → Err' e) :
    Outcome Err' P x := by
  cases x with
  | error e => exact hErr e h
  | ok a => exact h

end Outcome

/-- The rule for a sequence of two steps. -/
theorem Outcome.bind {α β : Type u} {Err : ε → Prop} {P : α → Prop} {Q : β → Prop}
    {x : Except ε α} {f : α → Except ε β} (h : Outcome Err P x)
    (hf : ∀ a, P a → Outcome Err Q (f a)) : Outcome Err Q (x >>= f) := by
  cases x with
  | error e => exact h
  | ok a => exact hf a h

/-- `n` passes of a loop body, with the counter running through
`lo, lo + 1, …, lo + n - 1`. -/
def forLoop (body : ℕ → σ → Except ε σ) (lo : ℕ) : ℕ → σ → Except ε σ
  | 0, s => .ok s
  | n + 1, s => do
    let s ← forLoop body lo n s
    body (lo + n) s

/-- The loop invariant rule: a pass that starts with the invariant at its index
succeeds with the invariant at the next one. -/
theorem forLoop_invariant {body : ℕ → σ → Except ε σ} {lo n : ℕ} {s : σ}
    (I : ℕ → σ → Prop) (hinit : I 0 s)
    (hstep : ∀ i < n, ∀ s, I i s → ∃ s', body (lo + i) s = .ok s' ∧ I (i + 1) s') :
    ∃ s', forLoop body lo n s = .ok s' ∧ I n s' := by
  induction n with
  | zero => exact ⟨s, rfl, hinit⟩
  | succ n ih =>
    obtain ⟨t, hrun, ht⟩ := ih (fun i hi => hstep i (by omega))
    obtain ⟨s', hbody, hs'⟩ := hstep n (by omega) t ht
    refine ⟨s', ?_, hs'⟩
    simp only [forLoop, hrun, bind, Except.bind]
    exact hbody

/-- A loop succeeds if its passes do. -/
theorem forLoop_ok {body : ℕ → σ → Except ε σ} {lo n : ℕ}
    (hstep : ∀ i < n, ∀ s, ∃ s', body (lo + i) s = .ok s') (s : σ) :
    ∃ s', forLoop body lo n s = .ok s' := by
  obtain ⟨s', hrun, -⟩ := forLoop_invariant (s := s) (fun _ _ => True) trivial fun i hi t _ => by
    obtain ⟨t', ht'⟩ := hstep i hi t
    exact ⟨t', ht', trivial⟩
  exact ⟨s', hrun⟩

/-- A loop ends with the error of its first passes. -/
theorem forLoop_error {body : ℕ → σ → Except ε σ} {lo m n : ℕ} {s : σ} {e : ε}
    (h : forLoop body lo m s = .error e) (hle : m ≤ n) : forLoop body lo n s = .error e := by
  induction hle with
  | refl => exact h
  | step _ ih =>
    rw [forLoop, ih]
    rfl

/-- A loop that succeeds has gone through each of its passes. -/
theorem forLoop_pass {body : ℕ → σ → Except ε σ} {lo n i : ℕ} {s s' : σ}
    (h : forLoop body lo n s = .ok s') (hi : i < n) : ∃ t t', body (lo + i) t = .ok t' := by
  induction n generalizing s' with
  | zero => exact absurd hi (Nat.not_lt_zero i)
  | succ n ih =>
    obtain ⟨t, hbefore, hlast⟩ := bind_eq_ok.mp h
    by_cases hin : i < n
    · exact ih hbefore hin
    · obtain rfl : i = n := by omega
      exact ⟨t, s', hlast⟩

/-- What every pass keeps holds after a loop that succeeds. -/
theorem forLoop_keeps {body : ℕ → σ → Except ε σ} {lo n : ℕ} {s s' : σ} {I : σ → Prop}
    (h : forLoop body lo n s = .ok s') (hs : I s)
    (hstep : ∀ i < n, ∀ t t', I t → body (lo + i) t = .ok t' → I t') : I s' := by
  induction n generalizing s' with
  | zero =>
    obtain rfl := Except.ok.inj h
    exact hs
  | succ n ih =>
    obtain ⟨t, hbefore, hlast⟩ := bind_eq_ok.mp h
    have ht := ih hbefore fun i hi => hstep i (by omega)
    exact hstep n (by omega) t s' ht hlast

/-- The loop invariant rule for a loop that cannot fail. -/
theorem foldl_range_invariant {f : σ → ℕ → σ} {n : ℕ} {s : σ} (I : ℕ → σ → Prop) (hinit : I 0 s)
    (hstep : ∀ i < n, ∀ t, I i t → I (i + 1) (f t i)) : I n ((List.range n).foldl f s) := by
  induction n with
  | zero => exact hinit
  | succ n ih =>
    rw [List.range_succ, List.foldl_append]
    exact hstep n (by omega) _ (ih fun i hi => hstep i (by omega))

/-- A loop that cannot fail does what another one does, as far as that one gets. -/
theorem forLoop_eq_foldl {τ : Type*} {body : ℕ → σ → Except ε σ} {f : τ → ℕ → τ} {lo n : ℕ}
    {s' : σ} (view : τ → σ) (t : τ) (h : forLoop body lo n (view t) = .ok s')
    (hstep : ∀ i < n, ∀ t s', body (lo + i) (view t) = .ok s' → s' = view (f t i)) :
    s' = view ((List.range n).foldl f t) := by
  induction n generalizing s' with
  | zero => exact (Except.ok.inj h).symm
  | succ n ih =>
    obtain ⟨s, hbefore, hlast⟩ := bind_eq_ok.mp h
    obtain rfl := ih hbefore fun i hi => hstep i (by omega)
    rw [List.range_succ, List.foldl_append]
    exact hstep n (by omega) _ s' hlast

/-- A loop that returns from its first pass with a result, its counter running
through `lo, lo + 1, …, lo + n - 1`. -/
def searchLoop (f : ℕ → Option α) (lo : ℕ) : ℕ → Option α
  | 0 => none
  | n + 1 => match f lo with
    | some a => some a
    | none => searchLoop f (lo + 1) n

/-- A search finds nothing exactly when no pass has a result. -/
theorem searchLoop_eq_none {f : ℕ → Option α} {lo n : ℕ} :
    searchLoop f lo n = none ↔ ∀ i < n, f (lo + i) = none := by
  induction n generalizing lo with
  | zero => simp [searchLoop]
  | succ n ih =>
    cases hf : f lo with
    | some a =>
      simp only [searchLoop, hf, reduceCtorEq, false_iff]
      exact fun h => by simpa [hf] using h 0 (by omega)
    | none =>
      simp only [searchLoop, hf, ih]
      constructor
      · intro h i hi
        cases i with
        | zero => exact hf
        | succ i =>
          have := h i (by omega)
          rwa [Nat.add_right_comm] at this
      · intro h i hi
        have := h (i + 1) (by omega)
        rwa [Nat.add_right_comm]

/-- What a search finds is the result of the first pass that has one. -/
theorem searchLoop_eq_some {f : ℕ → Option α} {lo n : ℕ} {a : α}
    (h : searchLoop f lo n = some a) :
    ∃ i < n, f (lo + i) = some a ∧ ∀ j < i, f (lo + j) = none := by
  induction n generalizing lo with
  | zero => simp [searchLoop] at h
  | succ n ih =>
    cases hf : f lo with
    | some b =>
      simp only [searchLoop, hf, Option.some.injEq] at h
      exact ⟨0, by omega, by simpa [h] using hf, by omega⟩
    | none =>
      simp only [searchLoop, hf] at h
      obtain ⟨i, hi, hfound, hbefore⟩ := ih h
      refine ⟨i + 1, by omega, by rwa [Nat.add_right_comm] at hfound, fun j hj => ?_⟩
      cases j with
      | zero => exact hf
      | succ j =>
        have := hbefore j (by omega)
        rwa [Nat.add_right_comm] at this

/-- A search whose passes may fail. -/
def findLoop (f : ℕ → Except ε (Option α)) (lo : ℕ) : ℕ → Except ε (Option α)
  | 0 => .ok none
  | n + 1 => do
    match ← f lo with
    | some a => .ok (some a)
    | none => findLoop f (lo + 1) n

/-- A search whose passes succeed. -/
theorem findLoop_eq {f : ℕ → Except ε (Option α)} {g : ℕ → Option α} {lo n : ℕ}
    (h : ∀ i < n, f (lo + i) = .ok (g (lo + i))) : findLoop f lo n = .ok (searchLoop g lo n) := by
  induction n generalizing lo with
  | zero => rfl
  | succ n ih =>
    have hhead : f lo = .ok (g lo) := h 0 (by omega)
    have htail : findLoop f (lo + 1) n = .ok (searchLoop g (lo + 1) n) := by
      apply ih
      intro i hi
      rw [Nat.add_assoc, Nat.add_comm 1]
      exact h (i + 1) (by omega)
    rw [findLoop, hhead, ok_bind, searchLoop]
    cases g lo with
    | some a => rfl
    | none => exact htail

/-- A search whose counter runs downwards from `n` to one, and whose passes may fail. -/
def findDown (f : ℕ → Except ε (Option α)) : ℕ → Except ε (Option α)
  | 0 => .ok none
  | n + 1 => do
    match ← f (n + 1) with
    | some a => .ok (some a)
    | none => findDown f n

/-- A search downwards whose passes succeed stops at the last one with a result. -/
theorem findDown_spec {f : ℕ → Except ε (Option α)} {g : ℕ → Option α} {n : ℕ}
    (h : ∀ i, 0 < i → i ≤ n → f i = .ok (g i)) :
    (findDown f n = .ok none ∧ ∀ i, 0 < i → i ≤ n → g i = none) ∨
      ∃ i a, findDown f n = .ok (some a) ∧ 0 < i ∧ i ≤ n ∧ g i = some a ∧
        ∀ j, i < j → j ≤ n → g j = none := by
  induction n with
  | zero => exact Or.inl ⟨rfl, fun i hpos hle => by omega⟩
  | succ n ih =>
    have hlast := h (n + 1) (by omega) (Nat.le_refl _)
    cases hg : g (n + 1) with
    | some a =>
      refine Or.inr ⟨n + 1, a, ?_, by omega, Nat.le_refl _, hg, fun j hlt hle => by omega⟩
      rw [findDown, hlast, ok_bind, hg]
    | none =>
      have hrun : findDown f (n + 1) = findDown f n := by
        rw [findDown, hlast, ok_bind, hg]
      have hnone {j : ℕ} (hle : j ≤ n + 1) (hbefore : j ≤ n → g j = none) : g j = none := by
        by_cases hj : j = n + 1
        · rw [hj, hg]
        · exact hbefore (by omega)
      rw [hrun]
      rcases ih fun i hpos hle => h i hpos (by omega) with ⟨hnil, hall⟩ | ⟨i, a, hfound, hi⟩
      · exact Or.inl ⟨hnil, fun i hpos hle => hnone hle (hall i hpos)⟩
      · exact Or.inr ⟨i, a, hfound, hi.1, by omega, hi.2.2.1,
          fun j hlt hle => hnone hle (hi.2.2.2 j hlt)⟩

/-- The events of a list, taken one after the other. -/
def runEvents (step : σ → α → Except ε σ) (s : σ) (events : List α) : Except ε σ :=
  events.foldlM step s

/-- A run of no events returns the state. -/
@[simp] theorem runEvents_nil (step : σ → α → Except ε σ) (s : σ) :
    runEvents step s [] = .ok s := rfl

/-- A run makes its first step, and goes on from the result. -/
theorem runEvents_cons (step : σ → α → Except ε σ) (s : σ) (e : α) (events : List α) :
    runEvents step s (e :: events) = step s e >>= fun t => runEvents step t events := rfl

/-- The run invariant rule: what holds of the empty run and survives every event
of the list holds of the whole run, unless a step ends it with an error. -/
theorem runEvents_outcome {step : σ → α → Except ε σ} {Err : ε → Prop} {s : σ}
    (I : List α → σ → Prop) {events : List α} (hinit : I [] s)
    (hstep : ∀ before e after t, events = before ++ e :: after → I before t →
      Outcome Err (I (before ++ [e])) (step t e)) :
    Outcome Err (I events) (runEvents step s events) := by
  suffices h : ∀ after before t, events = before ++ after → I before t →
      Outcome Err (I events) (runEvents step t after) from h events [] s rfl hinit
  intro after
  induction after with
  | nil =>
    intro before t heq ht
    rw [heq, List.append_nil]
    exact ht
  | cons e after ih =>
    intro before t heq ht
    rw [runEvents_cons]
    exact (hstep before e after t heq ht).bind fun t' ht' =>
      ih (before ++ [e]) t' (by simp [heq]) ht'

/-- Every event meets the condition in the state that it finds, in a run that may fail. -/
def AlongOk (step : σ → α → Except ε σ) (P : σ → α → Prop) : σ → List α → Prop
  | _, [] => True
  | s, e :: events => P s e ∧ ∀ t, step s e = .ok t → AlongOk step P t events

/-- A condition along a run holds along its first part. -/
theorem AlongOk.left {step : σ → α → Except ε σ} {P : σ → α → Prop} {s : σ}
    {events after : List α} (h : AlongOk step P s (events ++ after)) :
    AlongOk step P s events := by
  induction events generalizing s with
  | nil => trivial
  | cons e events ih => exact ⟨h.1, fun t ht => ih (h.2 t ht)⟩

/-- If every step that meets the condition succeeds and keeps the invariant, so does the run. -/
theorem AlongOk.invariant {step : σ → α → Except ε σ} {P : σ → α → Prop} {I : σ → Prop} {s : σ}
    {events : List α} (h : AlongOk step P s events) (hs : I s)
    (hstep : ∀ s e, I s → P s e → ∃ t, step s e = .ok t ∧ I t) :
    ∃ t, runEvents step s events = .ok t ∧ I t := by
  induction events generalizing s with
  | nil => exact ⟨s, rfl, hs⟩
  | cons e events ih =>
    obtain ⟨t, ht, hIt⟩ := hstep s e hs h.1
    rw [runEvents_cons, ht]
    exact ih (h.2 t ht) hIt

end Muk
