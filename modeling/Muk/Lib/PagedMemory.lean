import Muk.Lib.ByteMemory

/-!
# Memory behind an interface

Code that maps pages and loads and stores bytes is written over three operations.
What it may rely on is stated as laws, for a window of addresses and for the
states in which the operations are well behaved: a store changes one byte, and
mapping a page makes its bytes accessible and leaves accessible bytes alone.
-/

namespace Muk

/-- The operations on memory that paged code uses. -/
structure PagedMemory (σ ε : Type*) where
  mapPage : σ → Word → Except ε σ
  load8 : σ → Word → Except ε Byte
  store8 : σ → Word → Byte → Except ε σ

namespace PagedMemory

variable {σ ε : Type} (M : PagedMemory σ ε)

/-- Load a word, byte after byte. -/
def load32 (s : σ) (a : Word) : Except ε Word := do
  let b0 ← M.load8 s a
  let b1 ← M.load8 s (a + 1#32)
  let b2 ← M.load8 s (a + 2#32)
  let b3 ← M.load8 s (a + 3#32)
  .ok (ofBytes b3 b2 b1 b0)

/-- Store `n` bytes upwards from an address. -/
@[irreducible] def storeBytes (s : σ) (a : Word) (bytes : ℕ → Byte) (n : ℕ) : Except ε σ :=
  forLoop (fun i s => M.store8 s (a + BitVec.ofNat 32 i) (bytes i)) 0 n s

/-- Store a word, byte after byte. -/
def store32 (s : σ) (a v : Word) : Except ε σ := M.storeBytes s a (byteAt v) 4

/-- `memset`: the same byte in `n` places. -/
def memset (s : σ) (a : Word) (value : Byte) (n : ℕ) : Except ε σ :=
  M.storeBytes s a (fun _ => value) n

/-- What code may rely on, in the states `Ok` and for the addresses of a window.
Mapping a page may fail, with an error of the kind `Err`. -/
structure Lawful (Ok : σ → Prop) (Err : ε → Prop) (window : Set Word) : Prop where
  /-- An accessible byte can be written, which changes that byte only. -/
  store8 : ∀ {s : σ} {a : Word} {b old : Byte}, Ok s → a ∈ window → M.load8 s a = .ok old →
    ∃ s', M.store8 s a b = .ok s' ∧ Ok s' ∧
      ∀ x ∈ window, M.load8 s' x = if x = a then .ok b else M.load8 s x
  /-- Mapping a page makes it accessible and leaves accessible bytes alone. -/
  mapPage : ∀ {s : σ} {va : Word}, Ok s → va ∈ window → Outcome Err (fun s' => Ok s' ∧
    (∀ x ∈ window, x.toNat / 4096 = va.toNat / 4096 → ∃ b, M.load8 s' x = .ok b) ∧
    (∀ x ∈ window, ∀ b, M.load8 s x = .ok b → M.load8 s' x = .ok b)) (M.mapPage s va)

variable {M} {Ok : σ → Prop} {Err : ε → Prop} {window : Set Word} {s : σ} {a v : Word}

/-- What the operations preserve may be added to the states in which they are well behaved. -/
theorem Lawful.strengthen {Q : σ → Prop} (hM : M.Lawful Ok Err window)
    (hstore : ∀ {s s' : σ} {a : Word} {b : Byte}, Ok s → a ∈ window → M.store8 s a b = .ok s' →
      Q s → Q s')
    (hmap : ∀ {s s' : σ} {va : Word}, Ok s → va ∈ window → M.mapPage s va = .ok s' → Q s → Q s') :
    M.Lawful (fun s => Ok s ∧ Q s) Err window where
  store8 := fun ⟨hok, hQ⟩ ha hold => by
    obtain ⟨s', hrun, hok', hload⟩ := hM.store8 hok ha hold
    exact ⟨s', hrun, ⟨hok', hstore hok ha hrun hQ⟩, hload⟩
  mapPage := fun {s va} ⟨hok, hQ⟩ hva => by
    have hrun := hM.mapPage hok hva
    cases hcall : M.mapPage s va with
    | error e =>
      rw [hcall] at hrun
      exact hrun
    | ok s' =>
      rw [hcall, outcome_ok] at hrun
      rw [outcome_ok]
      exact ⟨⟨hrun.1, hmap hok hva hcall hQ⟩, hrun.2⟩

/-- Where pages can always be mapped, the operations meet no error at all. -/
theorem Lawful.of_no_error (hM : M.Lawful Ok Err window)
    (hmap : ∀ {s : σ} {va : Word} {e : ε}, Ok s → va ∈ window → M.mapPage s va ≠ .error e) :
    M.Lawful Ok (fun _ => False) window where
  store8 := hM.store8
  mapPage := fun {s va} hok hva => by
    have hrun := hM.mapPage hok hva
    cases hcall : M.mapPage s va with
    | error e => exact absurd hcall (hmap hok hva)
    | ok s' =>
      rw [hcall] at hrun
      exact hrun

/-- The bytes of a word as memory holds them. -/
def Holds32 (M : PagedMemory σ ε) (s : σ) (a v : Word) : Prop :=
  ∀ k < 4, M.load8 s (a + BitVec.ofNat 32 k) = .ok (byteAt v k)

/-- Loading a word that memory holds. -/
theorem Holds32.load32 (h : M.Holds32 s a v) : M.load32 s a = .ok v := by
  have h0 : M.load8 s a = .ok (byteAt v 0) := by simpa using h 0 (by omega)
  have h1 := h 1 (by omega)
  have h2 := h 2 (by omega)
  have h3 := h 3 (by omega)
  simp only [PagedMemory.load32, h0, h1, h2, h3, bind, Except.bind, ofBytes_byteAt]

/-- Four zero bytes are a zero word. -/
theorem Holds32.of_zero (h : ∀ k < 4, M.load8 s (a + BitVec.ofNat 32 k) = .ok 0) :
    M.Holds32 s a 0 := by
  intro k hk
  rw [h k hk]
  simp [byteAt]

/-- A word is still held where its bytes are unchanged. -/
theorem Holds32.congr {s' : σ} (h : M.Holds32 s a v)
    (hsame : ∀ x, (x - a).toNat < 4 → M.load8 s' x = M.load8 s x) : M.Holds32 s' a v := by
  intro k hk
  rw [hsame _ (by bv_omega)]
  exact h k hk

/-- Storing bytes into accessible memory changes those bytes only. -/
theorem Lawful.storeBytes (hM : M.Lawful Ok Err window) (hok : Ok s) (a : Word)
    (bytes : ℕ → Byte) (n : ℕ) (hn : n ≤ 2 ^ 32)
    (hwindow : ∀ x : Word, (x - a).toNat < n → x ∈ window)
    (hmapped : ∀ x : Word, (x - a).toNat < n → ∃ b, M.load8 s x = .ok b) :
    ∃ s', M.storeBytes s a bytes n = .ok s' ∧ Ok s' ∧ ∀ x ∈ window,
      M.load8 s' x = if (x - a).toNat < n then .ok (bytes (x - a).toNat) else M.load8 s x := by
  rw [PagedMemory.storeBytes]
  apply forLoop_invariant (fun i t => Ok t ∧ ∀ x ∈ window, M.load8 t x =
    if (x - a).toNat < i then .ok (bytes (x - a).toNat) else M.load8 s x)
  · exact ⟨hok, fun x _ => by simp⟩
  · rintro i hi t ⟨htok, ht⟩
    rw [Nat.zero_add]
    have hdist : (a + BitVec.ofNat 32 i - a).toNat = i := by
      simp only [BitVec.toNat_sub, BitVec.toNat_add, BitVec.toNat_ofNat]
      have := a.isLt
      omega
    have hin := hwindow (a + BitVec.ofNat 32 i) (by omega)
    obtain ⟨old, hold⟩ := hmapped (a + BitVec.ofNat 32 i) (by omega)
    have hload : M.load8 t (a + BitVec.ofNat 32 i) = .ok old := by
      rw [ht _ hin, hdist, if_neg (by omega), hold]
    obtain ⟨t', hstore, ht'ok, ht'⟩ := hM.store8 (b := bytes i) htok hin hload
    refine ⟨t', hstore, ht'ok, fun x hx => ?_⟩
    rw [ht' x hx]
    by_cases hxi : x = a + BitVec.ofNat 32 i
    · rw [if_pos hxi, hxi, hdist, if_pos (by omega)]
    · have hne : (x - a).toNat ≠ i := by
        intro h
        apply hxi
        rw [← h, BitVec.ofNat_toNat, BitVec.setWidth_eq]
        bv_omega
      rw [if_neg hxi, ht x hx]
      by_cases hlt : (x - a).toNat < i
      · rw [if_pos hlt, if_pos (by omega)]
      · rw [if_neg hlt, if_neg (by omega)]

/-- Storing a word into accessible memory: the word is held, other bytes are unchanged. -/
theorem Lawful.store32 (hM : M.Lawful Ok Err window) (hok : Ok s) (a v : Word)
    (hwindow : ∀ x : Word, (x - a).toNat < 4 → x ∈ window)
    (hmapped : ∀ x : Word, (x - a).toNat < 4 → ∃ b, M.load8 s x = .ok b) :
    ∃ s', M.store32 s a v = .ok s' ∧ Ok s' ∧ M.Holds32 s' a v ∧
      ∀ x ∈ window, 4 ≤ (x - a).toNat → M.load8 s' x = M.load8 s x := by
  obtain ⟨s', hrun, hok', hload⟩ := hM.storeBytes hok a (byteAt v) 4 (by omega) hwindow hmapped
  refine ⟨s', hrun, hok', fun k hk => ?_, fun x hx hfar => ?_⟩
  · have hdist : (a + BitVec.ofNat 32 k - a).toNat = k := by bv_omega
    rw [hload _ (hwindow _ (by omega)), hdist, if_pos hk]
  · rw [hload x hx, if_neg (by omega)]

/-- What a word store made accessible or left accessible. -/
theorem Holds32.accessible {s' : σ} {x : Word} (h : M.Holds32 s' a v)
    (hsame : 4 ≤ (x - a).toNat → M.load8 s' x = M.load8 s x) (hx : ∃ b, M.load8 s x = .ok b) :
    ∃ b, M.load8 s' x = .ok b := by
  by_cases hnear : (x - a).toNat < 4
  · have hbyte := h (x - a).toNat hnear
    rw [BitVec.ofNat_toNat, BitVec.setWidth_eq, show a + (x - a) = x by bv_omega] at hbyte
    exact ⟨_, hbyte⟩
  · rwa [hsame (by omega)]

/-! ## Memories that agree -/

/-- Storing bytes depends on the byte stores only. -/
theorem storeBytes_congr {M M' : PagedMemory σ ε} (h : M.store8 = M'.store8) :
    M.storeBytes = M'.storeBytes := by
  funext s a bytes n
  rw [PagedMemory.storeBytes, PagedMemory.storeBytes, h]

/-- Loading a word depends on the byte loads only. -/
theorem load32_congr {M M' : PagedMemory σ ε} (h : M.load8 = M'.load8) :
    M.load32 = M'.load32 := by
  funext s a
  rw [PagedMemory.load32, PagedMemory.load32, h]

/-! ## A memory with a set of mapped pages -/

/-- The bytes of memory, and which pages are mapped. -/
structure Flat where
  bytes : Mem
  mapped : ℕ → Bool

/-- Mapping a page always succeeds and keeps its bytes; an access to a page that is
not mapped is the given fault. -/
def flat (fault : ε) : PagedMemory Flat ε where
  mapPage s va := .ok { s with mapped := fun page => page == va.toNat / 4096 || s.mapped page }
  load8 s a := if s.mapped (a.toNat / 4096) then .ok (s.bytes a) else .error fault
  store8 s a b :=
    if s.mapped (a.toNat / 4096) then .ok { s with bytes := Muk.store8 s.bytes a b }
    else .error fault

/-- Memory with one byte at each address is lawful, and mapping a page never fails in it. -/
theorem flat_lawful (fault : ε) (window : Set Word) :
    (flat fault).Lawful (fun _ => True) (fun _ => False) window where
  store8 := by
    intro s a b old _ _ hold
    have hmapped : s.mapped (a.toNat / 4096) = true := by
      by_contra hmapped
      simp [flat, hmapped] at hold
    refine ⟨_, if_pos hmapped, trivial, fun x _ => ?_⟩
    by_cases hx : x = a
    · subst x
      simp [flat, hmapped]
    · simp [flat, hx, Muk.store8]
  mapPage := by
    intro s va _ _
    refine ⟨trivial, fun x _ hpage => ⟨s.bytes x, by simp [flat, hpage]⟩, fun x _ b hb => ?_⟩
    simp only [flat] at hb ⊢
    split_ifs at hb with hmapped
    simpa [hmapped] using hb

end PagedMemory

end Muk
