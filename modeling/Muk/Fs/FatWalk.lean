import Muk.Fs.Directory

/-!
# The loop of walk

`walk` follows a table that a disk provides, and nothing keeps the disk from linking a cluster
back to one that was visited before. The loop then never ends, and takes memory for the chain
with each pass.
-/

namespace Muk

namespace FileAllocationTable

variable {fat : FileAllocationTable} {start current : BitVec 16} {chain acc : List (BitVec 16)}
  {fuel : ℕ}

/-- The loop of `walk`, with each read of the table checked. -/
def walkLoop (fat : FileAllocationTable) :
    ℕ → BitVec 16 → List (BitVec 16) → Except FsFault (List (BitVec 16))
  | 0, _, _ => .error .diverges
  | fuel + 1, current, chain =>
    if current < 0xF8 then do
      let next ← fat.table.read (current.toNat * 2)
      walkLoop fat fuel (next.setWidth 16) (chain ++ [current])
    else .ok chain

/-- The walk of a table from a first cluster ends, stays in the table, and visits no cluster
twice. -/
structure WalkEnds (fat : FileAllocationTable) (start : BitVec 16) : Prop where
  ends : ∃ fuel chain, fat.walkLoop fuel start [] = .ok chain
  inside : ∀ fuel, fat.walkLoop fuel start [] ≠ .error .outOfBounds
  distinct : ∀ fuel chain, fat.walkLoop fuel start [] = .ok chain → chain.Nodup

/-- The loop reads the table below `0xF8 * 2` only. -/
theorem read_next (h : current < 0xF8) :
    fat.table.read (current.toNat * 2) =
      .ok (fat.table (Fin.ofNat 512 (current.toNat * 2))) := by
  have hlt : current.toNat < 248 := BitVec.lt_def.mp h
  rw [Sector.read, dif_pos (by omega)]
  congr 2
  exact Fin.ext (Nat.mod_eq_of_lt (by omega)).symm

/-- A pass of the loop at a cluster that does not end the chain adds it and goes on with the low
byte of its entry. -/
theorem walkLoop_succ (h : current < 0xF8) :
    fat.walkLoop (fuel + 1) current acc =
      fat.walkLoop fuel (fat.nextByte current) (acc ++ [current]) := by
  rw [walkLoop, if_pos h, read_next h]
  rfl

/-- The loop collects the chain of links up to a byte from `0xF8` on, if there is one. -/
theorem walkLoop_eq_ok_iff : fat.walkLoop fuel current acc = .ok chain ↔
    ∃ nodes, Chain fat.nextByte (fun c => ¬ c < 0xF8) current nodes ∧ nodes.length < fuel ∧
      chain = acc ++ nodes := by
  induction fuel generalizing current acc with
  | zero => simp [walkLoop]
  | succ fuel ih =>
    by_cases h : current < 0xF8
    · rw [walkLoop_succ h, ih]
      constructor
      · rintro ⟨nodes, hnodes, hlength, rfl⟩
        exact ⟨current :: nodes, .cons (not_not.mpr h) hnodes, Nat.succ_lt_succ hlength, by simp⟩
      · rintro ⟨nodes, hnodes, hlength, rfl⟩
        cases hnodes with
        | nil hstop => exact absurd h hstop
        | cons _ hrest => exact ⟨_, hrest, Nat.lt_of_succ_lt_succ hlength, by simp⟩
    · rw [walkLoop, if_neg h]
      constructor
      · intro heq
        exact ⟨[], .nil h, Nat.zero_lt_succ fuel, by simpa using (Except.ok.inj heq).symm⟩
      · rintro ⟨nodes, hnodes, -, rfl⟩
        cases hnodes with
        | nil _ => rw [List.append_nil]
        | cons hstop _ => exact absurd (not_not.mp hstop) h

/-- The walk reads no byte outside the table, as its index is below 512. -/
theorem walkLoop_inside : fat.walkLoop fuel current acc ≠ .error .outOfBounds := by
  induction fuel generalizing current acc with
  | zero => simp [walkLoop]
  | succ fuel ih =>
    by_cases h : current < 0xF8
    · rw [walkLoop_succ h]
      exact ih
    · rw [walkLoop, if_neg h]
      simp

/-- What the loop collects is what `walk` returns. -/
theorem exists_walkLoop_iff :
    (∃ fuel, fat.walkLoop fuel start [] = .ok chain) ↔ fat.walk start = .ok chain := by
  simp only [walk_eq_ok_iff, walkLoop_eq_ok_iff, List.nil_append]
  constructor
  · rintro ⟨fuel, nodes, hnodes, -, rfl⟩
    exact hnodes
  · exact fun h => ⟨chain.length + 1, chain, h, Nat.lt_succ_self _, rfl⟩

/-- Only clusters below `0xF8` are followed, so a walk that does not end goes around. -/
theorem exists_walk_iff : (∃ chain, fat.walk start = .ok chain) ↔
    ¬ LeadsToCycle fat.nextByte (fun c => ¬ c < 0xF8) start := by
  have hinj : (fun c : BitVec 16 => c.toNat).Injective := fun _ _ h => BitVec.eq_of_toNat_eq h
  simp only [walk_eq_ok_iff]
  exact exists_chain_iff (n := 0xF8) hinj fun c hc => BitVec.lt_def.mp (not_not.mp hc)

/-- **When a walk ends.** For every table and every first cluster: the loop of `walk` ends, reads
inside the table only and returns distinct clusters if and only if the links of the table do not
lead from the first cluster into a cycle of clusters below `0xF8`. -/
theorem walkEnds_iff : fat.WalkEnds start ↔
    ¬ LeadsToCycle fat.nextByte (fun c => ¬ c < 0xF8) start := by
  rw [← exists_walk_iff]
  constructor
  · rintro ⟨⟨fuel, chain, hrun⟩, -, -⟩
    exact ⟨chain, exists_walkLoop_iff.mp ⟨fuel, hrun⟩⟩
  · rintro ⟨chain, hwalk⟩
    obtain ⟨fuel, hrun⟩ := exists_walkLoop_iff.mpr hwalk
    refine ⟨⟨fuel, chain, hrun⟩, fun _ => walkLoop_inside, fun fuel' chain' hrun' => ?_⟩
    exact (walk_eq_ok_iff.mp (exists_walkLoop_iff.mp ⟨fuel', hrun'⟩)).nodup

/-- A table in which the clusters 2 and 3 are linked to each other. -/
def crossLinked : FileAllocationTable where
  tableOffset := 1
  table i := if i = 4 then 3 else if i = 6 then 2 else 0xFF

/-- The walk from cluster 2 never ends. -/
theorem crossLinked_not_walkEnds : ¬ crossLinked.WalkEnds 2 := by
  rintro ⟨⟨fuel, chain, hrun⟩, -, -⟩
  have hcycle : LeadsToCycle crossLinked.nextByte (fun c => ¬ c < 0xF8) 2 := by
    refine ⟨0, 2, by decide, by decide, fun k hk => ?_⟩
    rcases (by omega : k = 0 ∨ k = 1) with rfl | rfl <;> decide
  exact exists_walk_iff.mp ⟨chain, exists_walkLoop_iff.mp ⟨fuel, hrun⟩⟩ hcycle

end FileAllocationTable

end Muk
