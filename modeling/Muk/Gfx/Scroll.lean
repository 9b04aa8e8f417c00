import Muk.Gfx.Surface

/-!
# Scrolling by any number of rows

`scrollUp` copies `s_pitch * VGA_HEIGHT * num_lines` bytes: a number of rows of cells times a
number of rows of pixels. On a screen of `VGA_HEIGHT + 1` rows of cells this is what is to be
copied when `num_lines` is the height of a cell and the rows of cells fill the screen.
-/

namespace Muk

/-- `VGA_HEIGHT`, on a screen of at least one row of cells. -/
theorem Framebuffer.vgaHeight_eq {f : Framebuffer} (h : yFontwidth ≤ f.height) :
    f.vgaHeight = f.height / yFontwidth - 1 := by
  have hheight := f.height_lt
  unfold yFontwidth at h
  unfold vgaHeight uint32 yFontwidth
  omega

/-- An unsigned counter is the number modulo `2 ^ 32`. -/
theorem uint32_natCast (n : ℕ) : uint32 n = n % 2 ^ 32 := by
  unfold uint32
  omega

namespace BaseSurface

/-- A surface as high as the frame, with at least two rows of cells. Its bytes lie in a 32-bit
address space. -/
structure FullHeight (f : Framebuffer) (s : BaseSurface) : Prop where
  height : s.dim.y = f.height
  cells : 32 ≤ s.dim.y
  fits : s.dim.y * s.sPitch < 2 ^ 32

/-- `scrollUp` stays inside the surface and moves every row up that has one to take its place. -/
def ScrollsUp (f : Framebuffer) (s : BaseSurface) (numLines : ℕ) : Prop :=
  ∃ s', s.scrollUp f numLines = .ok s' ∧ ∀ y, y + numLines < s.dim.y →
    row s.sPitch s'.buffLoc y = row s.sPitch s.buffLoc (y + numLines)

/-- A row of bytes for each of the rows of cells but one, so often as there are lines, in 32
bits. -/
def textBytes (s : BaseSurface) (numLines : ℕ) : ℕ :=
  s.sPitch * (s.dim.y / yFontwidth - 1) * numLines % 2 ^ 32

variable {f : Framebuffer} {s : BaseSurface} {numLines : ℕ}

/-- The bytes that are copied are those of the rows that stay. -/
theorem FullHeight.sizeCpy_eq (h : s.FullHeight f) :
    s.sizeCpy f numLines = s.textBytes numLines := by
  have hcells := h.cells
  have hvga : f.vgaHeight = s.dim.y / yFontwidth - 1 := by
    rw [h.height]
    exact f.vgaHeight_eq (by unfold yFontwidth; rw [← h.height]; omega)
  unfold sizeCpy textBytes
  rw [hvga]
  exact_mod_cast uint32_natCast (s.sPitch * (s.dim.y / yFontwidth - 1) * numLines)

/-- The copy starts at the first row that stays. -/
theorem FullHeight.fromLoc_eq (h : s.FullHeight f) (hlines : numLines ≤ s.dim.y) :
    s.fromLoc numLines = numLines * s.sPitch := by
  have hle := Nat.mul_le_mul_right s.sPitch hlines
  have hfits := h.fits
  unfold fromLoc
  exact_mod_cast uint32_of_lt (n := numLines * s.sPitch) (by omega)

/-- A row has another one `numLines` below it. -/
theorem forall_lower_rows {height : ℕ} {p : ℕ → Prop} :
    (∀ y, y + numLines < height → p y) ↔ ∀ y < height - numLines, p y :=
  forall_congr' fun _ => by rw [Nat.lt_sub_iff_add_lt]

/-- Where the copy stays inside, the rows that it does not reach must be right already. -/
theorem FullHeight.scrollsUp_iff_bytes (h : s.FullHeight f) (hlines : numLines ≤ s.dim.y) :
    s.ScrollsUp f numLines ↔
      numLines * s.sPitch + s.textBytes numLines ≤ s.dim.y * s.sPitch ∧
      ∀ loc < (s.dim.y - numLines) * s.sPitch, s.textBytes numLines ≤ loc →
        s.buffLoc loc = s.buffLoc (numLines * s.sPitch + loc) := by
  unfold ScrollsUp scrollUp
  rw [h.sizeCpy_eq, h.fromLoc_eq hlines]
  by_cases hin : numLines * s.sPitch + s.textBytes numLines ≤ s.dim.y * s.sPitch
  · rw [if_pos hin, ← rows_memcpyWithin_iff, ← forall_lower_rows]
    constructor
    · rintro ⟨s', hs', hrows⟩
      obtain rfl := Except.ok.inj hs'
      exact ⟨hin, hrows⟩
    · rintro ⟨-, hrows⟩
      exact ⟨_, rfl, hrows⟩
  · rw [if_neg hin]
    constructor
    · rintro ⟨s', hs', -⟩
      cases hs'
    · rintro ⟨hin', -⟩
      exact absurd hin' hin

/-- The conditions on a surface of full height do not depend on the bytes in the surface. -/
theorem FullHeight.withBytes (h : s.FullHeight f) (buff : Pixels) :
    ({ s with buffLoc := buff } : BaseSurface).FullHeight f := ⟨h.height, h.cells, h.fits⟩

/-- Nothing but the right number of bytes is right for all that the surface may hold. -/
theorem FullHeight.scrollsUp_any_iff (h : s.FullHeight f) (hlines : numLines ≤ s.dim.y) :
    (∀ buff, ({ s with buffLoc := buff } : BaseSurface).ScrollsUp f numLines) ↔
      numLines * s.sPitch = 0 ∨
        numLines * s.sPitch + s.textBytes numLines = s.dim.y * s.sPitch := by
  have hany (buff : Pixels) := (h.withBytes buff).scrollsUp_iff_bytes hlines
  have hsub : (s.dim.y - numLines) * s.sPitch = s.dim.y * s.sPitch - numLines * s.sPitch :=
    Nat.sub_mul _ _ _
  have hle := Nat.mul_le_mul_right s.sPitch hlines
  constructor
  · intro hall
    by_contra hneither
    rw [not_or] at hneither
    obtain ⟨hsome, hlength⟩ := hneither
    -- a byte that is not copied, and unlike all others
    obtain ⟨hin, hrest⟩ := (hany fun loc => if loc = s.textBytes numLines then 0 else 1).mp (hall _)
    change numLines * s.sPitch + s.textBytes numLines ≤ s.dim.y * s.sPitch at hin
    have := hrest (s.textBytes numLines) (show _ < (s.dim.y - numLines) * s.sPitch by omega)
      (Nat.le_refl _)
    change (if s.textBytes numLines = s.textBytes numLines then (0 : Byte) else 1) =
      if numLines * s.sPitch + s.textBytes numLines = s.textBytes numLines then 0 else 1 at this
    rw [if_pos rfl, if_neg (by omega)] at this
    exact absurd this (by decide)
  · rintro (hnone | hlength) buff
    · have htext : s.textBytes numLines = 0 := by
        unfold textBytes
        rcases Nat.mul_eq_zero.mp hnone with hzero | hzero
        · rw [hzero, Nat.mul_zero, Nat.zero_mod]
        · rw [hzero, Nat.zero_mul, Nat.zero_mul, Nat.zero_mod]
      refine (hany buff).mpr ⟨?_, fun loc _ _ => ?_⟩
      · change numLines * s.sPitch + s.textBytes numLines ≤ s.dim.y * s.sPitch
        omega
      · change buff loc = buff (numLines * s.sPitch + loc)
        rw [hnone, Nat.zero_add]
    · refine (hany buff).mpr ⟨Nat.le_of_eq hlength, fun loc hloc hbytes => ?_⟩
      change loc < (s.dim.y - numLines) * s.sPitch at hloc
      change s.textBytes numLines ≤ loc at hbytes
      omega

/-- Scrolling by the height of a cell is right on a screen that the rows of cells fill. -/
theorem FullHeight.scrollsUp_of_dvd (h : s.FullHeight f) (hrows : yFontwidth ∣ s.dim.y) :
    s.ScrollsUp f yFontwidth := by
  have hcells := h.cells
  have hfits := h.fits
  have hlines : yFontwidth ≤ s.dim.y := by unfold yFontwidth; omega
  obtain ⟨rows, hrows⟩ := hrows
  obtain ⟨more, rfl⟩ : ∃ more, rows = more + 1 := ⟨rows - 1, by unfold yFontwidth at hrows; omega⟩
  have hdiv : s.dim.y / yFontwidth - 1 = more := by
    rw [hrows, Nat.mul_div_cancel_left _ (by decide), Nat.add_sub_cancel]
  have hall : s.dim.y * s.sPitch = yFontwidth * s.sPitch + s.sPitch * more * yFontwidth := by
    rw [hrows, Nat.mul_succ, Nat.add_mul, Nat.add_comm, Nat.mul_comm s.sPitch more,
      Nat.mul_comm _ yFontwidth, Nat.mul_assoc]
  have htext : s.textBytes yFontwidth = s.sPitch * more * yFontwidth := by
    unfold textBytes
    rw [hdiv]
    exact Nat.mod_eq_of_lt (by omega)
  exact (h.scrollsUp_any_iff hlines).mpr (Or.inr (by rw [htext, hall])) s.buffLoc

/-- **Scrolling moves the picture up when the bytes it counts are the bytes to move.** For a
surface as high as the frame and up to as many lines: `scrollUp` stays inside the surface and puts
every row in the place of the one `numLines` above it, if and only if the bytes that it copies end
within the surface and those to be moved that it does not copy are equal to the ones they are to be
replaced by. It does so whatever the surface holds if and only if there is nothing to scroll by or
the bytes end exactly where the surface ends. -/
theorem scrollsUp_iff (h : s.FullHeight f) (hlines : numLines ≤ s.dim.y) :
    (s.ScrollsUp f numLines ↔
      numLines * s.sPitch + s.textBytes numLines ≤ s.dim.y * s.sPitch ∧
      ∀ loc < (s.dim.y - numLines) * s.sPitch, s.textBytes numLines ≤ loc →
        s.buffLoc loc = s.buffLoc (numLines * s.sPitch + loc)) ∧
    ((∀ buff, ({ s with buffLoc := buff } : BaseSurface).ScrollsUp f numLines) ↔
      numLines * s.sPitch = 0 ∨
        numLines * s.sPitch + s.textBytes numLines = s.dim.y * s.sPitch) :=
  ⟨h.scrollsUp_iff_bytes hlines, h.scrollsUp_any_iff hlines⟩

/-- A screen of 640 by 480 pixels of three bytes: 30 rows of cells. -/
def vga : Framebuffer := ⟨640, 480, 24, 1920, by decide, by decide⟩

def vgaScreen : BaseSurface := ⟨fun _ => 0, fun _ => false, 1920, ⟨0, 0⟩, ⟨640, 480⟩⟩

/-- It is scrolled by a row of cells. -/
theorem vgaScreen_scrollUp : vgaScreen.ScrollsUp vga 16 :=
  (scrollsUp_iff (s := vgaScreen) ⟨rfl, by decide, by decide⟩ (by decide)).2.mpr
    (Or.inr (by decide)) vgaScreen.buffLoc

/-- A screen of 800 by 600 pixels of three bytes: 37 rows of cells and half of one. -/
def svga : Framebuffer := ⟨800, 600, 24, 2400, by decide, by decide⟩

/-- It is black but for its last eight rows. -/
def svgaScreen : BaseSurface :=
  ⟨fun loc => if loc < 592 * 2400 then 0 else 0xFF, fun _ => false, 2400, ⟨0, 0⟩, ⟨800, 600⟩⟩

/-- The surface of the larger screen has its full height. -/
theorem svgaScreen_fullHeight : svgaScreen.FullHeight svga := ⟨rfl, by decide, by decide⟩

/-- By 16 rows of pixels, 576 of the 584 rows below them are moved. By 17, the copy ends after the
surface. -/
theorem svgaScreen_scrollUp :
    ¬ svgaScreen.ScrollsUp svga 16 ∧ ¬ svgaScreen.ScrollsUp svga 17 := by
  rw [svgaScreen_fullHeight.scrollsUp_iff_bytes (by decide),
    svgaScreen_fullHeight.scrollsUp_iff_bytes (by decide)]
  constructor
  · rintro ⟨-, hrest⟩
    exact absurd (hrest (576 * 2400) (by decide) (by decide)) (by decide)
  · rintro ⟨hin, -⟩
    exact absurd hin (by decide)

end BaseSurface

end Muk
