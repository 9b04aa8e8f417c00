import Muk.Lib.ByteMemory

/-!
# Blocks of memory

Objects that an allocator has handed out occupy blocks that do not overlap. A write into
one block then leaves every other one alone.
-/

namespace Muk

/-- A run of bytes. -/
structure Block where
  start : Word
  length : ℕ

namespace Block

/-- The block contains an address. -/
def Has (b : Block) (x : Word) : Prop := (x - b.start).toNat < b.length

/-- The block ends within the address space. -/
def Fits (b : Block) : Prop := b.start.toNat + b.length ≤ 2 ^ 32

/-- Two blocks do not overlap. -/
def Apart (b b' : Block) : Prop :=
  b.start.toNat + b.length ≤ b'.start.toNat ∨ b'.start.toNat + b'.length ≤ b.start.toNat

instance (b : Block) : Decidable b.Fits := inferInstanceAs (Decidable (_ ≤ _))

instance (b b' : Block) : Decidable (b.Apart b') := inferInstanceAs (Decidable (_ ∨ _))

variable {b b' : Block} {m m' : Mem} {x : Word}

/-- Being apart does not depend on the order of the blocks. -/
theorem Apart.symm (h : b.Apart b') : b'.Apart b := Or.symm h

/-- Blocks that are apart have no address in common. -/
theorem Apart.not_has (h : b.Apart b') (hfits : b.Fits) (hfits' : b'.Fits) (hx : b.Has x) :
    ¬ b'.Has x := by
  simp only [Apart, Fits, Has] at *
  bv_omega

end Block

/-- The live ones of a family of blocks, each within the address space and apart from the
others. -/
structure Layout {ι : Type} (block : ι → Block) (live : ι → Prop) : Prop where
  fits : ∀ r, live r → (block r).Fits
  apart : ∀ r s, live r → live s → r ≠ s → (block r).Apart (block s)

section Layout

variable {ι : Type} {block block' : ι → Block} {live live' : ι → Prop}

/-- A byte of one block is not one of another. -/
theorem Layout.not_has (h : Layout block live) {r s : ι} (hr : live r) (hs : live s)
    (hne : r ≠ s) {x : Word} (hx : (block r).Has x) : ¬ (block s).Has x :=
  (h.apart r s hr hs hne).not_has (h.fits r hr) (h.fits s hs) hx

/-- Blocks that are apart stay so when some of them are left out. -/
theorem Layout.mono (h : Layout block live) (hle : ∀ r, live' r → live r) : Layout block live' :=
  ⟨fun r hr => h.fits r (hle r hr), fun r s hr hs hne => h.apart r s (hle r hr) (hle s hs) hne⟩

/-- The layout depends on the blocks of the live regions only. -/
theorem Layout.congr (h : Layout block live) (hsame : ∀ r, live r → block' r = block r) :
    Layout block' live := by
  refine ⟨fun r hr => ?_, fun r s hr hs hne => ?_⟩
  · rw [hsame r hr]
    exact h.fits r hr
  · rw [hsame r hr, hsame s hs]
    exact h.apart r s hr hs hne

/-- One more block, apart from all live ones. -/
theorem Layout.insert (h : Layout block live) {s : ι} (hfits : (block s).Fits)
    (hapart : ∀ r, live r → r ≠ s → (block s).Apart (block r)) :
    Layout block fun r => live r ∨ r = s := by
  refine ⟨?_, ?_⟩
  · rintro r (hr | rfl)
    · exact h.fits r hr
    · exact hfits
  · rintro r t (hr | rfl) (ht | rfl) hne
    · exact h.apart r t hr ht hne
    · exact (hapart r hr hne).symm
    · exact hapart t ht (Ne.symm hne)
    · exact absurd rfl hne

end Layout

end Muk
