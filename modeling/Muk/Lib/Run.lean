import Mathlib.Tactic.Common

/-!
# Runs of a step function

A run takes one event after the other. A condition along a run is one on each event and
the state that it finds; invariants are carried by steps that meet the condition.
-/

namespace Muk

variable {σ ε : Type} {step : σ → ε → σ} {P Q : σ → ε → Prop} {s : σ} {e : ε} {es es' : List ε}

/-- The state after a list of events. -/
def runSteps (step : σ → ε → σ) (s : σ) (es : List ε) : σ := es.foldl step s

/-- A run of no events leaves the state as it is. -/
@[simp] theorem runSteps_nil (step : σ → ε → σ) (s : σ) : runSteps step s [] = s := rfl

/-- A run takes its first event, and then the others. -/
@[simp] theorem runSteps_cons (step : σ → ε → σ) (s : σ) (e : ε) (es : List ε) :
    runSteps step s (e :: es) = runSteps step (step s e) es := rfl

/-- The run of two lists is the run of the second one from where the first one ends. -/
theorem runSteps_append (step : σ → ε → σ) (s : σ) (es es' : List ε) :
    runSteps step s (es ++ es') = runSteps step (runSteps step s es) es' := List.foldl_append

/-- Every event meets the condition in the state that it finds. -/
def Along (step : σ → ε → σ) (P : σ → ε → Prop) : σ → List ε → Prop
  | _, [] => True
  | s, e :: es => P s e ∧ Along step P (step s e) es

/-- Along no events every condition holds. -/
@[simp] theorem along_nil : Along step P s [] ↔ True := Iff.rfl

/-- A condition along a run is one on the first event, and one along the rest. -/
@[simp] theorem along_cons :
    Along step P s (e :: es) ↔ P s e ∧ Along step P (step s e) es := Iff.rfl

/-- A condition along two lists is one along each, the second from where the first one ends. -/
theorem along_append : Along step P s (es ++ es') ↔
    Along step P s es ∧ Along step P (runSteps step s es) es' := by
  induction es generalizing s with
  | nil => simp
  | cons e es ih => simp [ih, and_assoc]

/-- A weaker condition holds along a run, too. -/
theorem Along.mono (h : Along step P s es) (hle : ∀ s e, P s e → Q s e) : Along step Q s es := by
  induction es generalizing s with
  | nil => trivial
  | cons e es ih => exact ⟨hle s e h.1, ih h.2⟩

/-- Two conditions along a run are one condition along it. -/
theorem Along.and (h : Along step P s es) (h' : Along step Q s es) :
    Along step (fun s e => P s e ∧ Q s e) s es := by
  induction es generalizing s with
  | nil => trivial
  | cons e es ih => exact ⟨⟨h.1, h'.1⟩, ih h.2 h'.2⟩

/-- Two systems that stay related as long as the condition holds, and whose conditions agree
in related states, meet them along the same events. -/
theorem along_iff_of_related {τ : Type} {step' : τ → ε → τ} {P' : τ → ε → Prop} {t : τ}
    (R : σ → τ → Prop) (hR : R s t) (hP : ∀ s t e, R s t → (P s e ↔ P' t e))
    (hstep : ∀ s t e, R s t → P s e → R (step s e) (step' t e)) :
    Along step P s es ↔ Along step' P' t es := by
  induction es generalizing s t with
  | nil => exact Iff.rfl
  | cons e es ih =>
    rw [along_cons, along_cons, ← hP s t e hR]
    exact and_congr_right fun he => ih (hstep s t e hR he)

/-- What each step that meets the condition preserves, the whole run preserves. -/
theorem Along.invariant {I : σ → Prop} (h : Along step P s es) (hs : I s)
    (hstep : ∀ s e, I s → P s e → I (step s e)) : I (runSteps step s es) := by
  induction es generalizing s with
  | nil => exact hs
  | cons e es ih => exact ih h.2 (hstep s e hs h.1)

section Preserved

variable {I : σ → Prop}

/-- What every step preserves, a run preserves. -/
theorem runSteps_invariant (hstep : ∀ s e, I s → I (step s e)) (hs : I s) :
    I (runSteps step s es) := by
  induction es generalizing s with
  | nil => exact hs
  | cons e es ih => exact ih (hstep s e hs)

/-- Events that change nothing may be left out. -/
theorem runSteps_filter {p : ε → Bool} (hstep : ∀ s e, I s → I (step s e)) (hs : I s)
    (h : ∀ s e, I s → p e = false → step s e = s) :
    runSteps step s (es.filter p) = runSteps step s es := by
  induction es generalizing s with
  | nil => rfl
  | cons e es ih =>
    cases hp : p e with
    | true =>
      rw [List.filter_cons_of_pos hp, runSteps_cons, runSteps_cons, ih (hstep s e hs)]
    | false =>
      rw [List.filter_cons_of_neg (by rw [hp]; decide), runSteps_cons, h s e hs hp, ih hs]

/-- A flag that some events set and none clears. -/
theorem runSteps_flag (flag : σ → Prop) (sets : ε → Prop)
    (hstep : ∀ s e, I s → I (step s e)) (hs : I s)
    (h : ∀ s e, I s → (flag (step s e) ↔ flag s ∨ sets e)) :
    flag (runSteps step s es) ↔ flag s ∨ ∃ e ∈ es, sets e := by
  induction es generalizing s with
  | nil => simp
  | cons e es ih =>
    rw [runSteps_cons, ih (hstep s e hs), h s e hs, or_assoc]
    simp

end Preserved

/-! ## Sums along a run -/

/-- What the events count for in the states that they find, added up. -/
def runSum (step : σ → ε → σ) (f : σ → ε → ℕ) : σ → List ε → ℕ
  | _, [] => 0
  | s, e :: es => f s e + runSum step f (step s e) es

section Sum

variable {f g : σ → ε → ℕ}

/-- Along no events the sum is zero. -/
@[simp] theorem runSum_nil : runSum step f s [] = 0 := rfl

/-- The sum of a run is that of the first event and that of the rest. -/
@[simp] theorem runSum_cons :
    runSum step f s (e :: es) = f s e + runSum step f (step s e) es := rfl

/-- Sums along a run are added event by event. -/
theorem runSum_add :
    runSum step (fun s e => f s e + g s e) s es = runSum step f s es + runSum step g s es := by
  induction es generalizing s with
  | nil => rfl
  | cons e es ih => rw [runSum_cons, ih, runSum_cons, runSum_cons, Nat.add_add_add_comm]

/-- A factor may be taken out of a sum along a run. -/
theorem runSum_mul (c : ℕ) : runSum step (fun s e => c * f s e) s es = c * runSum step f s es := by
  induction es generalizing s with
  | nil => rfl
  | cons e es ih => rw [runSum_cons, ih, runSum_cons, Nat.mul_add]

/-- If each step pays for `f` out of `g` and a potential, the whole run does. -/
theorem Along.runSum_le (potential : σ → ℕ) (h : Along step P s es)
    (hstep : ∀ s e, P s e → f s e + potential s ≤ g s e + potential (step s e)) :
    runSum step f s es + potential s ≤ runSum step g s es + potential (runSteps step s es) := by
  induction es generalizing s with
  | nil => exact Nat.le_refl _
  | cons e es ih =>
    have hfirst := hstep s e h.1
    have hrest := ih h.2
    rw [runSum_cons, runSum_cons, runSteps_cons]
    omega

end Sum

/-- The state after a list of events, and what the steps put out. -/
def runOutput {ω : Type} (step : σ → ε → σ × List ω) : σ → List ε → σ × List ω
  | s, [] => (s, [])
  | s, e :: es =>
    let rest := runOutput step (step s e).1 es
    (rest.1, (step s e).2 ++ rest.2)

section Output

variable {ω δ : Type} {out : σ → ε → σ × List ω}

/-- A run of no events puts nothing out. -/
@[simp] theorem runOutput_nil : runOutput out s [] = (s, []) := rfl

/-- A run puts out what its first step does, and then what the rest does. -/
theorem runOutput_cons : runOutput out s (e :: es) =
    ((runOutput out (out s e).1 es).1, (out s e).2 ++ (runOutput out (out s e).1 es).2) := rfl

/-- The output of two lists is that of the first one, and then that of the second one. -/
theorem runOutput_append : runOutput out s (es ++ es') =
    ((runOutput out (runOutput out s es).1 es').1,
      (runOutput out s es).2 ++ (runOutput out (runOutput out s es).1 es').2) := by
  induction es generalizing s with
  | nil => rfl
  | cons e es ih => simp only [List.cons_append, runOutput_cons, ih, List.append_assoc]

/-- Steps that are made of smaller steps put out what these put out. -/
theorem runOutput_flatMap {coarse : σ → δ → σ × List ω} {parts : δ → List ε}
    (h : ∀ s d, coarse s d = runOutput out s (parts d)) (s : σ) (ds : List δ) :
    runOutput coarse s ds = runOutput out s (ds.flatMap parts) := by
  induction ds generalizing s with
  | nil => rfl
  | cons d ds ih => rw [List.flatMap_cons, runOutput_append, runOutput_cons, ih, h]

end Output

end Muk
