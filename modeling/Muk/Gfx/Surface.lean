import Muk.Lib.Rows
import Mathlib.Data.Int.Notation

/-!
# Surfaces

A surface owns the bytes of its pixels and a dirty flag for each of its rows. It draws a
pixel, scrolls its rows up, and is applied to the back buffer.
-/

namespace Muk

/-- The size of the frame buffer: `frame_width`, `frame_height`, `frame_depth` and
`frame_pitch`, as `Graphics::Setup` takes them over. Its bytes lie in a 32-bit address
space. -/
structure Framebuffer where
  width : ℕ
  height : ℕ
  depth : ℕ
  pitch : ℕ
  height_lt : height < 2 ^ 32
  fits : pitch * height < 2 ^ 32

/-- `Y_FONTWIDTH` -/
def yFontwidth : ℕ := 16

/-- A computation on integers, kept in 32 bits. -/
def uint32 (n : ℤ) : ℕ := (n % 2 ^ 32).toNat

/-- An unsigned counter that does not wrap is the number. -/
theorem uint32_of_lt {n : ℕ} (h : n < 2 ^ 32) : uint32 n = n := by
  unfold uint32
  omega

/-- `VGA_HEIGHT`, from `init_screens`: the rows of cells but the last. -/
def Framebuffer.vgaHeight (f : Framebuffer) : ℕ := uint32 (f.height / yFontwidth - 1)

/-- With 24 or 32 bits for a pixel, and room for them in a row, no pixel runs over the end of
its row. -/
theorem pixel_fits {f : Framebuffer} {x : ℕ} (hdepth : 24 ≤ f.depth)
    (hpitch : f.width * (f.depth / 8) ≤ f.pitch) (hx : x < f.width) :
    x * (f.depth / 8) + 2 < f.pitch := by
  have hthree : 3 ≤ f.depth / 8 := by omega
  have hnext := Nat.mul_le_mul_right (f.depth / 8) (show x + 1 ≤ f.width from hx)
  rw [Nat.succ_mul] at hnext
  omega

/-- `Graphics::RGB` -/
structure RGB where
  r : Byte
  g : Byte
  b : Byte

/-- `Graphics::Vector2` -/
structure Vector2 where
  x : ℕ
  y : ℕ

/-- `BaseSurface`, less its `z_index`. -/
structure BaseSurface where
  buffLoc : Pixels
  dirtyBuffer : ℕ → Bool
  sPitch : ℕ
  pos : Vector2
  dim : Vector2

/-- The buffer that an operation would leave. -/
inductive OutOf where
  | buffLoc
  | dirtyBuffer
  | screenSurfaces

namespace BaseSurface

/-- The first byte of a pixel. -/
def pixelLoc (f : Framebuffer) (s : BaseSurface) (x y : ℕ) : ℕ :=
  uint32 (x * (f.depth / 8) + y * s.sPitch)

/-- `setPixel` writes three bytes, whatever the depth. -/
def setPixel (f : Framebuffer) (s : BaseSurface) (x y : ℕ) (color : RGB) : BaseSurface :=
  if s.dim.x ≤ x ∨ s.dim.y ≤ y then s
  else
    let loc := s.pixelLoc f x y
    let buff := Function.update s.buffLoc loc color.b
    let buff := Function.update buff (loc + 1) color.g
    let buff := Function.update buff (loc + 2) color.r
    { s with buffLoc := buff, dirtyBuffer := Function.update s.dirtyBuffer y true }

/-- The rows that `apply` copies when only the increments are wanted. -/
def applyRows (f : Framebuffer) (s : BaseSurface) (back : Pixels) : ℕ → Pixels
  | 0 => back
  | y + 1 =>
    let back := applyRows f s back y
    if s.dirtyBuffer y then
      back.memcpy (uint32 (s.pos.x * (f.depth / 8) + (y + s.pos.y) * s.sPitch))
        s.buffLoc (uint32 (y * s.sPitch)) s.sPitch
    else back

/-- `apply` returns the back buffer. -/
def apply (f : Framebuffer) (s : BaseSurface) (back : Pixels) (fullRefresh : Bool) : Pixels :=
  if fullRefresh then back.memcpy 0 s.buffLoc 0 (uint32 (s.sPitch * s.dim.y))
  else s.applyRows f back s.dim.y

/-- `from_loc` of `scrollUp` -/
def fromLoc (s : BaseSurface) (numLines : ℕ) : ℕ := uint32 (numLines * s.sPitch)

/-- `size_cpy` of `scrollUp` -/
def sizeCpy (f : Framebuffer) (s : BaseSurface) (numLines : ℕ) : ℕ :=
  uint32 (s.sPitch * f.vgaHeight * numLines)

/-- `scrollUp` marks no row. -/
def scrollUp (f : Framebuffer) (s : BaseSurface) (numLines : ℕ) : Except OutOf BaseSurface :=
  if s.fromLoc numLines + s.sizeCpy f numLines ≤ s.dim.y * s.sPitch then
    .ok { s with
      buffLoc := s.buffLoc.memcpyWithin 0 (s.fromLoc numLines) (s.sizeCpy f numLines) }
  else .error .buffLoc

/-- Row `y` holds a byte that `scrollUp` replaces by another one. -/
def ScrollChanges (f : Framebuffer) (s : BaseSurface) (numLines y : ℕ) : Prop :=
  ∃ i < s.sPitch, y * s.sPitch + i < s.sizeCpy f numLines ∧
    s.buffLoc (y * s.sPitch + i) ≠ s.buffLoc (s.fromLoc numLines + (y * s.sPitch + i))

/-- The surface covers the whole frame, with rows of the frame's length. -/
structure FullScreen (f : Framebuffer) (s : BaseSurface) : Prop where
  pos : s.pos = ⟨0, 0⟩
  dim : s.dim = ⟨f.width, f.height⟩
  pitch : s.sPitch = f.pitch

variable {f : Framebuffer} {s : BaseSurface} {x y y' numLines : ℕ} {color : RGB} {back : Pixels}

/-- Setting a pixel keeps the surface a full-screen one. -/
theorem FullScreen.setPixel (h : s.FullScreen f) : (s.setPixel f x y color).FullScreen f := by
  unfold BaseSurface.setPixel
  split
  · exact h
  · exact ⟨h.pos, h.dim, h.pitch⟩

/-- A pixel that ends within its row changes that row only. -/
theorem FullScreen.row_setPixel (h : s.FullScreen f) (hx : x * (f.depth / 8) + 2 < f.pitch)
    (hy : y ≠ y') : row f.pitch (s.setPixel f x y color).buffLoc y' = row f.pitch s.buffLoc y' := by
  unfold BaseSurface.setPixel
  split
  · rfl
  · rename_i hin
    rw [h.dim] at hin
    simp only [not_or, Nat.not_le] at hin
    obtain ⟨-, hyin⟩ := hin
    have hend := row_end_le f.pitch hyin
    have hfits := f.fits
    rw [Nat.mul_comm] at hfits
    have hloc : s.pixelLoc f x y = x * (f.depth / 8) + y * f.pitch := by
      unfold pixelLoc
      rw [h.pitch]
      exact uint32_of_lt (n := x * (f.depth / 8) + y * f.pitch) (by omega)
    have hrow (loc : ℕ) (hlo : s.pixelLoc f x y ≤ loc) (hhi : loc ≤ s.pixelLoc f x y + 2) :
        loc / f.pitch ≠ y' := by
      rw [Nat.div_eq_of_lt_le (show y * f.pitch ≤ loc by omega) (by rw [Nat.succ_mul]; omega)]
      exact hy
    simp only
    rw [row_update_of_ne (hrow _ (by omega) (by omega)),
      row_update_of_ne (hrow _ (by omega) (by omega)),
      row_update_of_ne (hrow _ (by omega) (by omega))]

/-- A surface of the whole frame, applied in full, makes the back buffer its copy. -/
theorem FullScreen.row_apply (h : s.FullScreen f) (hy : y < f.height) :
    row f.pitch (s.apply f back true) y = row f.pitch s.buffLoc y := by
  unfold BaseSurface.apply
  rw [if_pos rfl, h.pitch, h.dim]
  have hsize : uint32 (f.pitch * f.height) = f.pitch * f.height := by
    exact_mod_cast uint32_of_lt f.fits
  rw [hsize, row_memcpy_all hy]

/-- With at least one row of cells on the screen, scrolling by a row of cells stays within the
surface. -/
theorem FullScreen.scrollUp_ok (h : s.FullScreen f) (hcells : yFontwidth ≤ f.height) :
    ∃ s', s.scrollUp f yFontwidth = .ok s' ∧ s'.FullScreen f := by
  have hheight := f.height_lt
  have hfits := f.fits
  unfold yFontwidth at hcells
  -- the rows of cells but the first are copied, and they end within the surface
  obtain ⟨n, hn⟩ : ∃ n, f.height / 16 = n + 1 := ⟨f.height / 16 - 1, by omega⟩
  have hvga : f.vgaHeight = n := by
    unfold Framebuffer.vgaHeight uint32 yFontwidth
    omega
  have hrows : f.pitch * (16 * (n + 1)) ≤ f.pitch * f.height :=
    Nat.mul_le_mul_left _ (by omega)
  have hsplit : f.pitch * (16 * (n + 1)) = 16 * f.pitch + f.pitch * n * 16 := by
    rw [Nat.mul_comm 16 f.pitch, Nat.mul_assoc, ← Nat.mul_add]
    congr 1
    omega
  have hfrom : s.fromLoc yFontwidth = 16 * f.pitch := by
    unfold fromLoc yFontwidth
    rw [h.pitch]
    exact uint32_of_lt (n := 16 * f.pitch) (by omega)
  have hsize : s.sizeCpy f yFontwidth = f.pitch * n * 16 := by
    unfold sizeCpy yFontwidth
    rw [h.pitch, hvga]
    exact uint32_of_lt (n := f.pitch * n * 16) (by omega)
  unfold scrollUp
  rw [if_pos]
  · exact ⟨_, rfl, h.pos, h.dim, h.pitch⟩
  · rw [hfrom, hsize, h.dim, h.pitch, Nat.mul_comm f.height]
    omega

/-- `scrollUp` keeps a row exactly when it replaces none of its bytes by another one. -/
theorem row_scrollUp_iff {s' : BaseSurface} (h : s.scrollUp f numLines = .ok s') :
    row s.sPitch s'.buffLoc y = row s.sPitch s.buffLoc y ↔ ¬ s.ScrollChanges f numLines y := by
  unfold scrollUp at h
  split at h
  · injection h with h
    subst h
    unfold ScrollChanges
    simp only [row_eq_iff, Pixels.memcpyWithin_apply _ (Nat.zero_le _), Nat.zero_le, Nat.zero_add,
      true_and, Nat.sub_zero, not_exists, not_and, not_not]
    constructor
    · intro h i hi hsize
      have := h i hi
      rw [if_pos hsize] at this
      exact this.symm
    · intro h i hi
      split
      · exact (h i hi ‹_›).symm
      · rfl
  · cases h

end BaseSurface

end Muk
