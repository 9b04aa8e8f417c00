import Mathlib.Data.List.Perm.Subperm
import Muk.Lib.Entries
import Muk.Std.Strcmp
import Muk.Std.Vector

/-!
# The environment

The environment is a vector of pairs of a key, which is a C string of its own, and a value. A key
is looked for from the first pair on, by `get` as well as by `set`, so that it is a finite map.
-/

namespace Muk

/-- `pair`: the characters that the key points to, and the value. -/
structure Pair where
  key : List Byte
  value : List Byte

/-- `string::operator char*`: a new array with the characters and a NUL. -/
def charPointer (text : List Byte) : List Byte := text ++ [0]

/-- `strcmp` of two arrays of characters. -/
def strcmpArrays (s1 s2 : List Byte) : Except ArrayFault ℤ :=
  match strcmp (fun k => s1[k]?) (fun k => s2[k]?) (s1.length + 1) 0 0 with
  | .error _ => .error .outOfBounds
  | .ok c => .ok c

/-- `ENV::environment`, and the arrays of pairs. -/
structure Env where
  arrays : Arrays Pair
  environment : StdVector

namespace Env

variable {env env' : Env} {entries sets : List (List Byte × List Byte)}
  {k k' v text text' : List Byte}

/-- The environment before the first call of `set`. -/
def initial : Env := { arrays := .empty, environment := .construct }

/-- The loop of `get` and `set`, which returns from the first pair with the key. -/
def search {β : Type} (env : Env) (envVar : List Byte) (result : ℕ → Pair → β) :
    Except ArrayFault (Option β) :=
  findLoop (fun i => do
    let it ← env.environment.get env.arrays i
    let c ← strcmpArrays it.key envVar
    .ok (if c = 0 then some (result i it) else none)) 0 env.environment.size.toNat

/-- `ENV::get` -/
def get (env : Env) (envVar : List Byte) : Except ArrayFault (List Byte) := do
  match ← env.search envVar fun _ it => it.value with
  | some value => .ok value
  | none => .ok []

/-- `ENV::set`, but for the message. -/
def set (env : Env) (envVar envVal : List Byte) : Except ArrayFault Env := do
  match ← env.search (charPointer envVar) fun i it => (i, it) with
  | some (i, it) =>
    let arrays ← env.arrays.write env.environment.buffer i { it with value := envVal }
    .ok { env with arrays := arrays }
  | none =>
    let pair : Pair := { key := charPointer envVar, value := envVal }
    let (arrays, environment) ← env.environment.pushBack env.arrays pair
    .ok { arrays := arrays, environment := environment }

/-- An array that starts with a string. -/
theorem text_array (hfree : 0 ∉ text) (rest : List Byte) :
    Text (fun i => (text ++ 0 :: rest)[i]?) 0 text := by
  have hbytes : Bytes (fun i => (text ++ 0 :: rest)[i]?) 0 text := by
    rw [bytes_iff]
    intro i hi
    rw [Nat.zero_add, List.getElem?_append_left hi]
  exact Text.of_bytes hbytes (fun b hb heq => hfree (heq ▸ hb)) (by simp)

/-- `strcmp` of two arrays returns zero exactly if the strings that they start with are equal. -/
theorem strcmpArrays_spec (hfree : 0 ∉ text) (hfree' : 0 ∉ text') (rest rest' : List Byte) :
    ∃ c, strcmpArrays (text ++ 0 :: rest) (text' ++ 0 :: rest') = .ok c ∧
      (c = 0 ↔ text = text') := by
  have hfuel : text.length < (text ++ 0 :: rest).length + 1 := by
    rw [List.length_append]
    omega
  obtain ⟨c, hrun, hc⟩ := strcmp_spec (text_array hfree rest) (text_array hfree' rest') hfuel
  exact ⟨c, by rw [strcmpArrays, hrun], hc⟩

/-- The pair of an entry. -/
def pairOf (e : List Byte × List Byte) : Pair := { key := charPointer e.1, value := e.2 }

/-- The environment has a pair for each entry. -/
structure Holds (env : Env) (entries : List (List Byte × List Byte)) : Prop where
  null : env.arrays.array 0 = []
  represents : env.environment.Represents env.arrays (entries.map pairOf)
  free : ∀ e ∈ entries, 0 ∉ e.1

/-- At first the environment has no entries. -/
theorem holds_initial : Holds initial [] where
  null := rfl
  represents := ⟨rfl, Nat.zero_le _, rfl, Arrays.holds_nil _ _, Nat.one_pos⟩
  free := fun _ he => nomatch he

/-- The vector has as many pairs as there are entries. -/
theorem Holds.size (h : Holds env entries) : env.environment.size.toNat = entries.length := by
  rw [h.represents.size, List.length_map]

/-- Each pair of the vector is that of its entry. -/
theorem Holds.get_pair (h : Holds env entries) {i : ℕ} (hi : i < entries.length) :
    env.environment.get env.arrays i = .ok (pairOf entries[i]) := by
  have hi' : i < (entries.map pairOf).length := by rwa [List.length_map]
  have hread := h.represents.holds.read hi'
  rwa [List.getElem_map] at hread

/-- One pass of the loop compares the key that is looked for with the key of an entry. -/
theorem Holds.pass (h : Holds env entries) (hk : 0 ∉ k) (rest : List Byte) {i : ℕ}
    (hi : i < entries.length) :
    ∃ c, strcmpArrays (pairOf entries[i]).key (k ++ 0 :: rest) = .ok c ∧
      (c = 0 ↔ entries[i].1 = k) :=
  strcmpArrays_spec (h.free _ (List.getElem_mem hi)) hk [] rest

/-- The loop returns from the first entry with the key. -/
theorem Holds.search (h : Holds env entries) (hk : 0 ∉ k) (rest : List Byte) {β : Type}
    (result : ℕ → Pair → β) :
    k ∉ entries.map Prod.fst ∧ env.search (k ++ 0 :: rest) result = .ok none ∨
    ∃ (i : ℕ) (hi : i < entries.length), entries[i].1 = k ∧ (∀ j (hj : j < i), entries[j].1 ≠ k) ∧
      env.search (k ++ 0 :: rest) result = .ok (some (result i (pairOf entries[i]))) := by
  let found (i : ℕ) : Option β :=
    entries[i]?.bind fun e => if e.1 = k then some (result i (pairOf e)) else none
  have hfound {i : ℕ} (hi : i < entries.length) :
      found i = if entries[i].1 = k then some (result i (pairOf entries[i])) else none := by
    simp only [found, List.getElem?_eq_getElem hi, Option.bind_some]
  have hsearch : env.search (k ++ 0 :: rest) result = .ok (searchLoop found 0 entries.length) := by
    rw [Env.search, h.size]
    apply findLoop_eq
    intro i hi
    obtain ⟨c, hrun, hc⟩ := h.pass hk rest hi
    rw [Nat.zero_add, h.get_pair hi, ok_bind, hrun, ok_bind, hfound hi]
    simp only [hc]
  rw [hsearch]
  cases hloop : searchLoop found 0 entries.length with
  | none =>
    refine Or.inl ⟨fun hmem => ?_, rfl⟩
    obtain ⟨e, he, hek⟩ := List.mem_map.mp hmem
    obtain ⟨i, hi, rfl⟩ := List.mem_iff_getElem.mp he
    have hnone := searchLoop_eq_none.mp hloop i hi
    rw [Nat.zero_add, hfound hi, if_pos hek] at hnone
    exact nomatch hnone
  | some r =>
    obtain ⟨i, hi, hsome, hbefore⟩ := searchLoop_eq_some hloop
    rw [Nat.zero_add, hfound hi] at hsome
    split_ifs at hsome with hek
    obtain rfl := Option.some.inj hsome
    refine Or.inr ⟨i, hi, hek, fun j hj hjk => ?_, rfl⟩
    have hnone := hbefore j hj
    rw [Nat.zero_add, hfound (Nat.lt_trans hj hi), if_pos hjk] at hnone
    exact nomatch hnone

/-- `get` returns the value of the entry with the key, and the empty string where there is none. -/
theorem Holds.get (h : Holds env entries) (hk : 0 ∉ k) (rest : List Byte) :
    env.get (k ++ 0 :: rest) = .ok ((lookupEntry k entries).getD []) := by
  rcases h.search hk rest (fun _ it => it.value) with ⟨hnone, hrun⟩ | ⟨i, hi, hkey, hfirst, hrun⟩
  · rw [Env.get, hrun, ok_bind, lookupEntry_eq_none hnone]
    rfl
  · rw [Env.get, hrun, ok_bind, lookupEntry_eq_some hi hkey hfirst]
    rfl

/-- `set` replaces the value of the key or adds an entry, unless the vector of entries cannot
grow. -/
theorem Holds.set (h : Holds env entries) (hk : 0 ∉ k) (v : List Byte) :
    Outcome (fun e => e = .overflow ∧ 2 ^ 32 ≤ entries.length * 3 / 2 + 1)
      (Holds · (setEntry entries (k, v))) (env.set k v) := by
  rcases h.search hk [] (fun i it => (i, it)) with ⟨hnone, hrun⟩ | ⟨i, hi, hkey, hfirst, hrun⟩
  · have hpush := StdVector.pushBack_spec h.represents h.null (pairOf (k, v))
    rw [List.length_map] at hpush
    have hset : env.set k v = env.environment.pushBack env.arrays (pairOf (k, v)) >>= fun r =>
        .ok { arrays := r.1, environment := r.2 } := by
      rw [Env.set, charPointer, hrun, ok_bind]
      rfl
    rw [hset, setEntry_eq_append hnone]
    refine hpush.bind fun r ⟨hrep, hkeeps⟩ => ⟨?_, ?_, ?_⟩
    · exact (hkeeps.array 0 (Nat.zero_lt_of_lt h.represents.live) (Or.inr rfl)).trans h.null
    · rw [List.map_append]
      exact hrep
    · intro e he
      rcases List.mem_append.mp he with he | he
      · exact h.free e he
      · obtain rfl := List.mem_singleton.mp he
        exact hk
  · have hi' : i < (entries.map pairOf).length := by rwa [List.length_map]
    obtain ⟨t, hwrite, hrep, -, hother⟩ := h.represents.set hi' (pairOf (k, v))
    have hpair : { pairOf entries[i] with value := v } = pairOf (k, v) := by
      rw [pairOf, hkey]
      rfl
    have hset : env.set k v = .ok { env with arrays := t } := by
      rw [Env.set, charPointer, hrun, ok_bind]
      dsimp only
      rw [hpair, hwrite]
      rfl
    have hpos : 0 < env.environment.capacity.toNat :=
      Nat.lt_of_lt_of_le (Nat.zero_lt_of_lt hi') h.represents.le
    have hne := h.represents.buffer_ne_zero h.null hpos
    rw [setEntry_eq_set (w := (k, v)) hi hkey hfirst]
    refine .of_eq_ok hset ⟨(hother 0 hne.symm).trans h.null, ?_, fun e he => ?_⟩
    · rw [List.map_set]
      exact hrep
    · rcases List.mem_or_eq_of_mem_set he with he | rfl
      · exact h.free e he
      · exact hk

/-- The calls of a list leave the last value of each key, unless the different keys are too many for
a vector. -/
theorem holds_run (sets : List (List Byte × List Byte)) (hfree : ∀ p ∈ sets, 0 ∉ p.1) :
    Outcome (fun e => e = .overflow ∧ 2 ^ 32 ≤ (sets.map Prod.fst).dedup.length * 3 / 2 + 1)
      (Holds · (entriesOf sets)) (runEvents (fun env p => env.set p.1 p.2) initial sets) := by
  refine runEvents_outcome (fun before env => Holds env (entriesOf before)) holds_initial ?_
  rintro before p after env rfl hold
  have hset := hold.set (hfree p (by simp)) p.2
  rw [entriesOf_concat]
  refine hset.mono_error fun e he => ⟨he.1, ?_⟩
  have hle : (entriesOf before).length ≤ ((before ++ p :: after).map Prod.fst).dedup.length := by
    rw [length_entriesOf, List.map_append]
    refine ((List.nodup_dedup _).subperm fun k hk => ?_).length_le
    rw [List.mem_dedup] at hk ⊢
    exact List.mem_append_left _ hk
  omega

/-- **The environment is a finite map.** After any calls of `set`, unless there are too many keys
for a vector of 32-bit size, no two pairs have equal keys, `get` returns the value that a key was
last set to or the empty string, and setting a key changes the value of no other key. -/
theorem env_map (sets : List (List Byte × List Byte)) (hfree : ∀ p ∈ sets, 0 ∉ p.1) :
    Outcome (fun e => e = .overflow ∧ 2 ^ 32 ≤ (sets.map Prod.fst).dedup.length * 3 / 2 + 1)
      (fun env =>
        (∀ i j p q, i < env.environment.size.toNat → j < env.environment.size.toNat →
          env.environment.get env.arrays i = .ok p → env.environment.get env.arrays j = .ok q →
          strcmpArrays p.key q.key = .ok 0 → i = j) ∧
        (∀ k rest, 0 ∉ k → env.get (k ++ 0 :: rest) = .ok ((lastWrite sets k).getD [])) ∧
        ∀ k v k' rest env', 0 ∉ k → 0 ∉ k' → k ≠ k' → env.set k v = .ok env' →
          env'.get (k' ++ 0 :: rest) = env.get (k' ++ 0 :: rest))
      (runEvents (fun env p => env.set p.1 p.2) initial sets) := by
  refine (holds_run sets hfree).mono fun env h => ⟨?_, ?_, ?_⟩
  · intro i j p q hi hj hp hq heq
    rw [h.size] at hi hj
    rw [h.get_pair hi] at hp
    rw [h.get_pair hj] at hq
    obtain rfl := Except.ok.inj hp
    obtain rfl := Except.ok.inj hq
    obtain ⟨c, hrun, hc⟩ := h.pass (h.free _ (List.getElem_mem hj)) [] hi
    have hzero : c = 0 := Except.ok.inj (hrun.symm.trans heq)
    have hkeys := nodup_keys_entriesOf sets
    rw [List.nodup_iff_injective_get] at hkeys
    have hi' : i < ((entriesOf sets).map Prod.fst).length := by rwa [List.length_map]
    have hj' : j < ((entriesOf sets).map Prod.fst).length := by rwa [List.length_map]
    have hsame : ((entriesOf sets).map Prod.fst).get ⟨i, hi'⟩ =
        ((entriesOf sets).map Prod.fst).get ⟨j, hj'⟩ := by
      rw [List.get_eq_getElem, List.get_eq_getElem, List.getElem_map, List.getElem_map]
      exact hc.mp hzero
    exact Fin.val_eq_of_eq (hkeys hsame)
  · intro k rest hk
    rw [h.get hk rest, lookupEntry_entriesOf]
  · intro k v k' rest env' hk hk' hne hset
    have h' := h.set hk v
    rw [hset] at h'
    have hother : lookupEntry k' (setEntry (entriesOf sets) (k, v)) =
        lookupEntry k' (entriesOf sets) := (lookupEntry_setEntry (k, v)).trans (if_neg hne)
    rw [h.get hk' rest, h'.get hk' rest, hother]

/-- A key that is set twice, and another one. -/
theorem env_map_twice :
    Outcome (fun e => e = .overflow ∧
      2 ^ 32 ≤ ([[99], [117], [99]] : List (List Byte)).dedup.length * 3 / 2 + 1)
      (fun env =>
        (∀ i j p q, i < env.environment.size.toNat → j < env.environment.size.toNat →
          env.environment.get env.arrays i = .ok p → env.environment.get env.arrays j = .ok q →
          strcmpArrays p.key q.key = .ok 0 → i = j) ∧
        (∀ k rest, 0 ∉ k → env.get (k ++ 0 :: rest) =
          .ok ((lastWrite [([99], [47]), ([117], [106]), ([99], [])] k).getD [])) ∧
        ∀ k v k' rest env', 0 ∉ k → 0 ∉ k' → k ≠ k' → env.set k v = .ok env' →
          env'.get (k' ++ 0 :: rest) = env.get (k' ++ 0 :: rest))
      (runEvents (fun env p => env.set p.1 p.2) initial
        [([99], [47]), ([117], [106]), ([99], [])]) :=
  env_map [([99], [47]), ([117], [106]), ([99], [])] (by decide)

end Env

end Muk
