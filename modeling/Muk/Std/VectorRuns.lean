import Muk.Std.Vector

/-!
# Runs of vectors

Vectors that are only used through their operations are lists, however their buffers are
reallocated. The buffers of different vectors stay apart, so that an operation on one vector
leaves the elements of the others alone.
-/

namespace Muk

/-- The vectors of a program, and the arrays that they use. -/
structure Vectors (α : Type) where
  arrays : Arrays α
  vectors : List StdVector

/-- A call on the vectors of a program, which are numbered in the order of their construction. -/
inductive VectorCall (α : Type)
  | construct
  | copy (i : ℕ)
  | assign (i j : ℕ)
  | pushBack (i : ℕ) (value : α)
  | popBack (i : ℕ)
  | clear (i : ℕ)

/-- What a call does to lists. A list does not lose an element that it does not have, and is not
assigned to itself. -/
def listCall {α : Type} (lists : List (List α)) : VectorCall α → Option (List (List α))
  | .construct => some (lists ++ [[]])
  | .copy i => lists[i]?.map fun xs => lists ++ [xs]
  | .assign i j => if i = j then none else
      lists[i]?.bind fun _ => lists[j]?.map fun ys => lists.set i ys
  | .pushBack i value => lists[i]?.map fun xs => lists.set i (xs ++ [value])
  | .popBack i => lists[i]?.bind fun xs => if xs = [] then none else some (lists.set i xs.dropLast)
  | .clear i => lists[i]?.map fun _ => lists.set i []

/-- A push does not meet a list whose length, as a capacity, is too large to grow. -/
def PushFits {α : Type} (lists : List (List α)) (c : VectorCall α) : Prop :=
  ∀ i value xs, c = .pushBack i value → lists[i]? = some xs → xs.length * 3 / 2 + 1 < 2 ^ 32

/-- Runs on lists whose lengths, as capacities, stay below `2^32` when they grow. -/
def PushesFit {α : Type} : List (List α) → List (VectorCall α) → Prop
  | _, [] => True
  | lists, c :: calls =>
    PushFits lists c ∧ ∀ lists', listCall lists c = some lists' → PushesFit lists' calls

namespace Vectors

variable {α : Type} {s : Vectors α} {lists lists' : List (List α)} {xs : List α} {v w : StdVector}
  {i j : ℕ}

/-- No vectors. -/
def initial : Vectors α := { arrays := .empty, vectors := [] }

/-- A vector by its number. -/
def vector (s : Vectors α) (i : ℕ) : Except ArrayFault StdVector :=
  match s.vectors[i]? with
  | none => .error .outOfBounds
  | some v => .ok v

/-- One call. -/
def call (s : Vectors α) : VectorCall α → Except ArrayFault (Vectors α)
  | .construct => .ok { s with vectors := s.vectors ++ [.construct] }
  | .copy i => do
    let v ← s.vector i
    let (arrays, w) ← v.copyConstruct s.arrays
    .ok { arrays := arrays, vectors := s.vectors ++ [w] }
  | .assign i j => do
    let v ← s.vector i
    let w ← s.vector j
    let (arrays, v) ← v.assign s.arrays w
    .ok { arrays := arrays, vectors := s.vectors.set i v }
  | .pushBack i value => do
    let v ← s.vector i
    let (arrays, v) ← v.pushBack s.arrays value
    .ok { arrays := arrays, vectors := s.vectors.set i v }
  | .popBack i => do
    let v ← s.vector i
    let (arrays, v) ← v.popBack s.arrays
    .ok { arrays := arrays, vectors := s.vectors.set i v }
  | .clear i => do
    let v ← s.vector i
    .ok { s with vectors := s.vectors.set i v.clear }

/-- The vectors have the elements of the lists, and no two of them share a buffer. -/
structure Represent (s : Vectors α) (lists : List (List α)) : Prop where
  null : s.arrays.array 0 = []
  count : 0 < s.arrays.count
  length : s.vectors.length = lists.length
  represents :
    ∀ (i : ℕ) v xs, s.vectors[i]? = some v → lists[i]? = some xs → v.Represents s.arrays xs
  apart : ∀ (i j : ℕ) v w, s.vectors[i]? = some v → s.vectors[j]? = some w → i ≠ j →
    v.buffer ≠ w.buffer ∨ v.buffer = 0

/-- At first there are no vectors. -/
theorem represent_initial : (initial : Vectors α).Represent [] where
  null := rfl
  count := Nat.one_pos
  length := rfl
  represents := fun _ _ _ hv => nomatch hv
  apart := fun _ _ _ _ hv => nomatch hv

/-- Where there is a list, there is a vector with its elements. -/
theorem Represent.vector (h : s.Represent lists) (hxs : lists[i]? = some xs) :
    ∃ v, s.vectors[i]? = some v ∧ s.vector i = .ok v ∧ v.Represents s.arrays xs := by
  obtain ⟨hi, -⟩ := List.getElem?_eq_some_iff.mp hxs
  have hi' : i < s.vectors.length := by rwa [h.length]
  have hv : s.vectors[i]? = some s.vectors[i] := List.getElem?_eq_getElem hi'
  exact ⟨_, hv, by rw [Vectors.vector, hv], h.represents i _ xs hv hxs⟩

/-- The buffers of vectors are arrays that have been made. -/
theorem Represent.live (h : s.Represent lists) (hw : s.vectors[j]? = some w) :
    w.buffer < s.arrays.count := by
  have hj : j < lists.length := h.length ▸ (List.getElem?_eq_some_iff.mp hw).1
  exact (h.represents j w _ hw (List.getElem?_eq_getElem hj)).live

/-- A vector that an operation does not name keeps its array. -/
theorem Represent.kept (h : s.Represent lists) (hv : s.vectors[i]? = some v)
    (hw : s.vectors[j]? = some w) (hne : i ≠ j) {t : Arrays α} {v' : StdVector}
    (hkeeps : v.Keeps s.arrays t v') : t.array w.buffer = s.arrays.array w.buffer :=
  hkeeps.array w.buffer (h.live hw) (h.apart j i w v hw hv hne.symm)

/-- An operation on one of the vectors. -/
theorem Represent.set (h : s.Represent lists) (hv : s.vectors[i]? = some v)
    {r : Arrays α × StdVector} (hupdates : v.Updates s.arrays xs r) :
    Represent { arrays := r.1, vectors := s.vectors.set i r.2 } (lists.set i xs) := by
  obtain ⟨hrep, hkeeps⟩ := hupdates
  have hi := (List.getElem?_eq_some_iff.mp hv).1
  have hself : (s.vectors.set i r.2)[i]? = some r.2 := List.getElem?_set_self hi
  -- The buffer of the vector is one that no other vector has.
  have hfresh (j : ℕ) (w : StdVector) (hw : s.vectors[j]? = some w) (hne : i ≠ j) :
      r.2.buffer = 0 ∨ r.2.buffer ≠ w.buffer := by
    rcases hkeeps.buffer with hsame | hnull | hnew
    · rcases h.apart i j v w hv hw hne with happart | hzero
      · exact Or.inr (hsame ▸ happart)
      · exact Or.inl (hsame.trans hzero)
    · exact Or.inl hnull
    · exact Or.inr (Nat.ne_of_gt (Nat.lt_of_lt_of_le (h.live hw) hnew))
  refine ⟨(hkeeps.array 0 h.count (Or.inr rfl)).trans h.null,
    Nat.lt_of_lt_of_le h.count hkeeps.count, ?_, ?_, ?_⟩
  · rw [List.length_set, List.length_set]
    exact h.length
  · intro j w ys hw hys
    dsimp only at hw
    by_cases hij : i = j
    · subst hij
      rw [hself] at hw
      rw [List.getElem?_set_self (h.length ▸ hi)] at hys
      obtain rfl := Option.some.inj hw
      obtain rfl := Option.some.inj hys
      exact hrep
    · rw [List.getElem?_set_ne hij] at hw hys
      exact (h.represents j w ys hw hys).congr hkeeps.count (h.kept hv hw hij hkeeps)
  · intro j k w w' hw hw' hjk
    dsimp only at hw hw'
    by_cases hij : i = j
    · subst hij
      rw [hself] at hw
      rw [List.getElem?_set_ne hjk] at hw'
      obtain rfl := Option.some.inj hw
      exact (hfresh k w' hw' hjk).symm
    · rw [List.getElem?_set_ne hij] at hw
      by_cases hik : i = k
      · subst hik
        rw [hself] at hw'
        obtain rfl := Option.some.inj hw'
        rcases hfresh j w hw hij with hzero | hne
        · by_cases hwzero : w.buffer = 0
          · exact Or.inr hwzero
          · exact Or.inl (hzero ▸ hwzero)
        · exact Or.inl hne.symm
      · rw [List.getElem?_set_ne hik] at hw'
        exact h.apart j k w w' hw hw' hjk

/-- A new vector, with an array of its own or none, is added to the vectors without changing their
lists. -/
theorem Represent.concat (h : s.Represent lists) {t : Arrays α} (hrep : w.Represents t xs)
    (hcount : s.arrays.count ≤ t.count) (hsame : ∀ b < s.arrays.count, t.array b = s.arrays.array b)
    (hfresh : w.buffer = 0 ∨ s.arrays.count ≤ w.buffer) :
    Represent { arrays := t, vectors := s.vectors ++ [w] } (lists ++ [xs]) := by
  -- A vector is an old one or the new one.
  have hcases (j : ℕ) (v : StdVector) (hv : (s.vectors ++ [w])[j]? = some v) :
      s.vectors[j]? = some v ∨ j = s.vectors.length ∧ v = w := by
    rw [List.getElem?_append] at hv
    split_ifs at hv with hj
    · exact Or.inl hv
    · obtain ⟨hlt, hget⟩ := List.getElem?_eq_some_iff.mp hv
      rw [List.length_singleton] at hlt
      rw [List.getElem_singleton] at hget
      exact Or.inr ⟨by omega, hget.symm⟩
  refine ⟨(hsame 0 h.count).trans h.null, Nat.lt_of_lt_of_le h.count hcount, ?_, ?_, ?_⟩
  · rw [List.length_append, List.length_append, h.length]
    rfl
  · intro j v ys hv hys
    rcases hcases j v hv with hold | ⟨rfl, rfl⟩
    · have hj : j < lists.length := h.length ▸ (List.getElem?_eq_some_iff.mp hold).1
      rw [List.getElem?_append_left hj] at hys
      exact (h.represents j v ys hold hys).congr hcount (hsame _ (h.live hold))
    · rw [h.length, List.getElem?_concat_length] at hys
      obtain rfl := Option.some.inj hys
      exact hrep
  · intro j k v v' hv hv' hjk
    rcases hcases j v hv with hold | ⟨rfl, rfl⟩
    · rcases hcases k v' hv' with hold' | ⟨rfl, rfl⟩
      · exact h.apart j k v v' hold hold' hjk
      · have hlt := h.live hold
        rcases hfresh with hzero | hnew <;> omega
    · rcases hcases k v' hv' with hold' | ⟨rfl, -⟩
      · have hlt := h.live hold'
        rcases hfresh with hzero | hnew <;> omega
      · exact absurd rfl hjk

/-- A call does to the vectors what it does to the lists, if there is a capacity to grow to. -/
theorem Represent.call (h : s.Represent lists) {c : VectorCall α}
    (hc : listCall lists c = some lists') (hfits : PushFits lists c) :
    Outcome (fun _ => False) (Represent · lists') (s.call c) := by
  cases c with
  | construct =>
    obtain rfl := Option.some.inj hc
    have hempty : StdVector.construct.Represents s.arrays [] :=
      (StdVector.clear_spec h.null h.count .construct).1
    exact h.concat hempty (Nat.le_refl _) (fun _ _ => rfl) (Or.inl rfl)
  | copy i =>
    obtain ⟨xs, hxs, rfl⟩ := Option.map_eq_some_iff.mp hc
    obtain ⟨v, -, hget, hrep⟩ := h.vector hxs
    obtain ⟨t, hrun, hrep', hcount, hsame⟩ := StdVector.copyConstruct_spec hrep
    rw [Vectors.call, hget, ok_bind, hrun]
    exact h.concat hrep' (by omega) hsame (Or.inr (Nat.le_refl _))
  | assign i j =>
    rw [listCall] at hc
    split_ifs at hc with hij
    obtain ⟨xs, hxs, hc⟩ := Option.bind_eq_some_iff.mp hc
    obtain ⟨ys, hys, rfl⟩ := Option.map_eq_some_iff.mp hc
    obtain ⟨v, hv, hgetv, -⟩ := h.vector hxs
    obtain ⟨w, hw, hgetw, hrep⟩ := h.vector hys
    obtain ⟨r, hrun, hupdates⟩ := StdVector.assign_spec h.null hrep (h.apart i j v w hv hw hij)
    rw [Vectors.call, hgetv, ok_bind, hgetw, ok_bind, hrun]
    exact h.set hv hupdates
  | pushBack i value =>
    obtain ⟨xs, hxs, rfl⟩ := Option.map_eq_some_iff.mp hc
    obtain ⟨v, hv, hget, hrep⟩ := h.vector hxs
    rw [Vectors.call, hget, ok_bind]
    have hfit := hfits i value xs rfl hxs
    have hpush : Outcome (fun _ => False) (v.Updates s.arrays (xs ++ [value]))
        (StdVector.pushBack s.arrays v value) :=
      (StdVector.pushBack_spec hrep h.null value).mono_error
        fun e he => Nat.not_le_of_lt hfit he.2
    exact hpush.bind fun r hr => h.set hv hr
  | popBack i =>
    obtain ⟨xs, hxs, hc⟩ := Option.bind_eq_some_iff.mp hc
    split_ifs at hc with hne
    obtain rfl := Option.some.inj hc
    obtain ⟨v, hv, hget, hrep⟩ := h.vector hxs
    obtain ⟨r, hrun, hupdates⟩ := StdVector.popBack_spec hrep h.null hne
    rw [Vectors.call, hget, ok_bind, hrun]
    exact h.set hv hupdates
  | clear i =>
    obtain ⟨xs, hxs, rfl⟩ := Option.map_eq_some_iff.mp hc
    obtain ⟨v, hv, hget, -⟩ := h.vector hxs
    rw [Vectors.call, hget, ok_bind]
    exact h.set hv (StdVector.clear_spec h.null h.count v)

/-- Any calls do to the vectors what they do to the lists. -/
theorem Represent.run (h : s.Represent lists) {calls : List (VectorCall α)}
    (hrun : calls.foldlM listCall lists = some lists') (hfits : PushesFit lists calls) :
    Outcome (fun _ => False) (Represent · lists') (runEvents Vectors.call s calls) := by
  induction calls generalizing s lists with
  | nil =>
    obtain rfl := Option.some.inj hrun
    exact h
  | cons c calls ih =>
    rw [List.foldlM_cons] at hrun
    obtain ⟨mid, hc, hrest⟩ := Option.bind_eq_some_iff.mp hrun
    exact (h.call hc hfits.1).bind fun t ht => ih ht hrest (hfits.2 mid hc)

/-- **Vectors are lists.** After any calls that make sense of lists, with lengths for which one and
a half times the capacity stays below `2^32`, no index has left its buffer, and each vector has a
size of at most its capacity and the elements of the list that the same calls give. -/
theorem vectors_lists (calls : List (VectorCall α)) (lists : List (List α))
    (hrun : calls.foldlM listCall [] = some lists) (hfits : PushesFit [] calls) :
    ∃ s, runEvents call initial calls = .ok s ∧ s.vectors.length = lists.length ∧
      ∀ (i : ℕ) v xs, s.vectors[i]? = some v → lists[i]? = some xs →
        v.size.toNat = xs.length ∧ v.size ≤ v.capacity ∧
        ∀ k (hk : k < xs.length), v.get s.arrays k = .ok xs[k] := by
  obtain ⟨s, hs, h⟩ := outcome_false_iff.mp (represent_initial.run hrun hfits)
  refine ⟨s, hs, h.length, fun i v xs hv hxs => ?_⟩
  have hrep := h.represents i v xs hv hxs
  refine ⟨hrep.size, ?_, fun k hk => hrep.holds.read hk⟩
  change v.size.toNat ≤ v.capacity.toNat
  rw [hrep.size]
  exact hrep.le

/-- Short lists have room to grow. -/
theorem pushFits_of_short {c : VectorCall α} (h : ∀ xs ∈ lists, xs.length ≤ 2) :
    PushFits lists c := by
  intro i value xs _ hxs
  have hle := h xs (List.mem_of_getElem? hxs)
  omega

/-- Two vectors: the second one is a copy that then goes its own way. -/
theorem vectors_lists_copy :
    ∃ s, runEvents call initial [.construct, .pushBack 0 1, .copy 0, .pushBack 1 2] = .ok s ∧
      s.vectors.length = 2 ∧
      ∀ (i : ℕ) v xs, s.vectors[i]? = some v → [[1], [1, 2]][i]? = some xs →
        v.size.toNat = xs.length ∧ v.size ≤ v.capacity ∧
        ∀ k (hk : k < xs.length), v.get s.arrays k = .ok xs[k] := by
  refine vectors_lists [.construct, .pushBack 0 1, .copy 0, .pushBack 1 2] [[1], [1, 2]] rfl ?_
  refine ⟨pushFits_of_short (by simp), ?_⟩
  rintro _ ⟨⟩
  refine ⟨pushFits_of_short (by simp), ?_⟩
  rintro _ ⟨⟩
  refine ⟨pushFits_of_short (by simp), ?_⟩
  rintro _ ⟨⟩
  refine ⟨pushFits_of_short (by simp), ?_⟩
  rintro _ ⟨⟩
  trivial

end Vectors

end Muk
