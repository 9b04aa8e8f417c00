import Muk.Drivers.Terminal
import Muk.Gfx.Buffer
import Muk.Gfx.Scroll
import Muk.Gfx.SurfacePixels

/-!
# The screen shows the text

Characters go from the terminal to the surface, from there to the back buffer, and with a refresh
to the screen. Each cell of the terminal's grid has pixels of its own, eight in a row and sixteen
rows that begin four rows below a multiple of sixteen. A character draws over what is in its cell
and clears nothing, so a pixel has the color of the last character in its cell that has a pixel
there. This is for the calls between two scrolls, which `tty_update` makes.
-/

namespace Muk

/-- `X_FONTWIDTH` -/
def xFontwidth : ℕ := 8

/-- What is put on the screen: text in a color, and refreshes. -/
inductive ScreenEvent where
  | text (call : TerminalCall) (colour : RGB)
  | updateBuffers (method : Update)

namespace Graphics

/-- `terminal_putentryat` -/
def terminalPutentryat (f : Framebuffer) (font : Font) (g : Graphics) (d : Glyph) (colour : RGB) :
    Except OutOf Graphics :=
  g.drawcharTransparent f font d.char (d.x * xFontwidth : ℕ) ((d.y + 1) * yFontwidth : ℕ) colour

/-- An event, for the cursor of the terminal and the buffers. -/
def screenEvent (grid : Grid) (f : Framebuffer) (font : Font) (s : Terminal × Graphics) :
    ScreenEvent → Except OutOf (Terminal × Graphics)
  | .text call colour => do
    let (t, glyphs) := s.1.call grid call
    let g ← glyphs.foldlM (fun g d => terminalPutentryat f font g d colour) s.2
    .ok (t, g)
  | .updateBuffers method => .ok (s.1, s.2.updateBuffers f method)

/-- The color of a pixel of the screen. -/
def screenPixel (f : Framebuffer) (g : Graphics) (x y : ℕ) : RGB :=
  let loc := y * f.pitch + x * (f.depth / 8)
  ⟨g.frontBuffer (loc + 2), g.frontBuffer (loc + 1), g.frontBuffer loc⟩

end Graphics

/-! ## The text -/

/-- The characters that are drawn, with their colors. -/
def drawnText (grid : Grid) : Terminal → List ScreenEvent → List (Glyph × RGB)
  | _, [] => []
  | t, .text call colour :: events =>
    (t.call grid call).2.map (fun d => (d, colour)) ++ drawnText grid (t.call grid call).1 events
  | t, .updateBuffers _ :: events => drawnText grid t events

/-- A character has the pixel in column `x` and row `y`. -/
def Glyph.covers (font : Font) (d : Glyph) (x y : ℕ) : Bool :=
  decide (x / 8 = d.x) && decide (4 ≤ y) && decide ((y - 4) / 16 = d.y) &&
    font.lit d.char ((y - 4) % 16) (x % 8)

/-- The color that a text gives to a pixel. -/
def textColour (font : Font) (text : List (Glyph × RGB)) (x y : ℕ) (background : RGB) : RGB :=
  text.foldl (fun colour d => if d.1.covers font x y then d.2 else colour) background

variable {f : Framebuffer} {font : Font} {g : Graphics} {grid : Grid} {surf : BaseSurface}
  {x y : ℕ} {colour : RGB} {d : Glyph}

/-- A screen with 24 or 32 bits for a pixel, room for the pixels in a row, and the grid that
`init_screens` computes. -/
structure ScreenGrid (grid : Grid) (f : Framebuffer) : Prop where
  depth : 24 ≤ f.depth
  pitch : f.width * (f.depth / 8) ≤ f.pitch
  width : grid.width = f.width / xFontwidth
  height : grid.height = f.vgaHeight
  cells : yFontwidth ≤ f.height

/-- The width of the screen is a 32-bit number. -/
theorem ScreenGrid.width_lt (h : ScreenGrid grid f) : f.width < 2 ^ 32 := by
  have hcells := h.cells
  have hfits := f.fits
  have hthree : f.width * 3 ≤ f.pitch :=
    (Nat.mul_le_mul_left _ (by have := h.depth; omega)).trans h.pitch
  have hone : f.pitch * 1 ≤ f.pitch * f.height :=
    Nat.mul_le_mul_left _ (by unfold yFontwidth at hcells; omega)
  omega

/-- The pixels of a cell are on the screen. -/
theorem ScreenGrid.coords (h : ScreenGrid grid f) (hd : grid.Has d) {p : ℕ × ℕ}
    (hp : p ∈ Graphics.glyphPixels) :
    Graphics.xCoord (d.x * xFontwidth : ℕ) p.2 = 8 * d.x + p.2 ∧
      Graphics.yCoord ((d.y + 1) * yFontwidth : ℕ) p.1 = 16 * d.y + 4 + p.1 ∧
      8 * d.x + p.2 < f.width ∧ 16 * d.y + 4 + p.1 < f.height := by
  obtain ⟨hrow, hcolumn⟩ := Graphics.mem_glyphPixels.mp hp
  obtain ⟨hx, hy⟩ := hd
  have hwidth := h.width_lt
  have hheight := f.height_lt
  rw [h.width] at hx
  rw [h.height, Framebuffer.vgaHeight_eq h.cells] at hy
  unfold xFontwidth at *
  unfold yFontwidth at *
  refine ⟨?_, ?_, by omega, by omega⟩
  · have hsum : ((d.x * 8 : ℕ) : ℤ) + p.2 = (8 * d.x + p.2 : ℕ) := by omega
    rw [Graphics.xCoord, hsum, uint32_of_lt (by omega)]
  · have hsum : (((d.y + 1) * 16 : ℕ) : ℤ) + p.1 - 12 = (16 * d.y + 4 + p.1 : ℕ) := by omega
    rw [Graphics.yCoord, hsum, uint32_of_lt (by omega)]

/-- A character covers the pixels at which its glyph is drawn. -/
theorem covers_iff (font : Font) (d : Glyph) (x y : ℕ) : d.covers font x y = true ↔
    ∃ p ∈ Graphics.glyphPixels, font.lit d.char p.1 p.2 ∧ 8 * d.x + p.2 = x ∧
      16 * d.y + 4 + p.1 = y := by
  simp only [Glyph.covers, Bool.and_eq_true, decide_eq_true_eq]
  constructor
  · rintro ⟨⟨⟨hx, hlow⟩, hy⟩, hlit⟩
    exact ⟨((y - 4) % 16, x % 8), Graphics.mem_glyphPixels.mpr ⟨by omega, by omega⟩, hlit,
      by omega, by omega⟩
  · rintro ⟨p, hp, hlit, rfl, rfl⟩
    obtain ⟨hrow, hcolumn⟩ := Graphics.mem_glyphPixels.mp hp
    have hcy : (16 * d.y + 4 + p.1 - 4) % 16 = p.1 := by omega
    have hcx : (8 * d.x + p.2) % 8 = p.2 := by omega
    rw [hcy, hcx]
    exact ⟨⟨⟨by omega, by omega⟩, by omega⟩, hlit⟩

/-- One color for all elements with a property. -/
theorem foldl_ite_const {α β : Type*} (q : α → Prop) [DecidablePred q] (a : β) (l : List α)
    (b : β) : l.foldl (fun c p => if q p then a else c) b = if ∃ p ∈ l, q p then a else b := by
  induction l generalizing b with
  | nil => simp
  | cons p l ih =>
    rw [List.foldl_cons, ih]
    by_cases hp : q p <;> simp [hp]

/-! ## The surface holds the colors -/

/-- The surface holds a table of colors, and the screen shows it but for dirty rows. -/
structure Graphics.Holds (f : Framebuffer) (g : Graphics) (colours : ℕ → ℕ → RGB) : Prop where
  inv : g.Inv f
  pixels : ∀ surf, g.screenSurfaces = [surf] → ∀ x < f.width, ∀ y < f.height,
    surf.pixel f x y = colours x y

namespace Graphics.Holds

variable {colours : ℕ → ℕ → RGB}

/-- A full-screen surface has its pixels inside the buffer, apart from each other. -/
theorem layout (h : ScreenGrid grid f) (hfull : surf.FullScreen f) : surf.Layout f where
  depth := by have := h.depth; omega
  pitch := by rw [hfull.dim, hfull.pitch]; exact h.pitch
  fits := by rw [hfull.dim, hfull.pitch, Nat.mul_comm]; exact f.fits

/-- Drawing one pixel of the screen shows the colour at that place and leaves all other pixels as
they are. -/
theorem drawPixel (h : g.Holds f colours) (hgrid : ScreenGrid grid f) (hx : x < f.width)
    (hy : y < f.height) (colour : RGB) : ∃ g', g.drawPixel f x y colour = .ok g' ∧
      g'.Holds f fun x' y' => if (x, y) = (x', y') then colour else colours x' y' := by
  obtain ⟨g', hdraw, hinv⟩ : ∃ g', g.drawPixel f x y colour = .ok g' ∧ g'.Inv f :=
    h.inv.drawPixel hy (pixel_fits hgrid.depth hgrid.pitch hx)
  obtain ⟨-, surf, hsurf, hfull, -⟩ := h.inv
  refine ⟨g', hdraw, hinv, fun surf' hsurf' x' hx' y' hy' => ?_⟩
  unfold Graphics.drawPixel at hdraw
  simp only [hsurf, if_pos hy, Except.ok.injEq] at hdraw
  rw [← hdraw, List.singleton_inj] at hsurf'
  rw [← hsurf', ← h.pixels surf hsurf x' hx' y' hy']
  exact (layout hgrid hfull).pixel_drawCall (c := ⟨x, y, colour⟩) (by rwa [hfull.dim])
    (by rwa [hfull.dim])

/-- The pixels of a character, one after the other. -/
theorem drawPixels (hgrid : ScreenGrid grid f) (lit : ℕ × ℕ → Bool) (xOf yOf : ℕ × ℕ → ℕ)
    (colour : RGB) (pixels : List (ℕ × ℕ))
    (hpixels : ∀ p ∈ pixels, xOf p < f.width ∧ yOf p < f.height) (h : g.Holds f colours) :
    ∃ g', pixels.foldlM (fun g p =>
        if lit p then g.drawPixel f (xOf p) (yOf p) colour else .ok g) g = .ok g' ∧
      g'.Holds f fun x y => pixels.foldl (fun c p =>
        if lit p ∧ (xOf p, yOf p) = (x, y) then colour else c) (colours x y) := by
  induction pixels generalizing g colours with
  | nil => exact ⟨g, rfl, h⟩
  | cons p pixels ih =>
    rw [List.forall_mem_cons] at hpixels
    obtain ⟨⟨hx, hy⟩, hrest⟩ := hpixels
    by_cases hlit : lit p = true
    · obtain ⟨g₁, hfirst, hheld⟩ := h.drawPixel hgrid hx hy colour
      obtain ⟨g', hmore, hheld'⟩ := ih hrest hheld
      refine ⟨g', ?_, ?_⟩
      · rw [List.foldlM_cons, if_pos hlit, hfirst]
        exact hmore
      · simpa only [List.foldl_cons, hlit, true_and] using hheld'
    · obtain ⟨g', hmore, hheld'⟩ := ih hrest h
      refine ⟨g', ?_, ?_⟩
      · rw [List.foldlM_cons, if_neg hlit]
        exact hmore
      · simpa only [List.foldl_cons, hlit, Bool.false_eq_true, false_and, if_false] using hheld'

variable (font) in
/-- Putting a character at a place of the grid colours the pixels that the glyph covers there, and
no others. -/
theorem putentryat (hgrid : ScreenGrid grid f) (hd : grid.Has d) (h : g.Holds f colours)
    (colour : RGB) : ∃ g', g.terminalPutentryat f font d colour = .ok g' ∧
      g'.Holds f fun x y => if d.covers font x y then colour else colours x y := by
  have hcoords := fun p (hp : p ∈ Graphics.glyphPixels) => hgrid.coords hd hp
  obtain ⟨g', hdraw, hheld⟩ := h.drawPixels hgrid (fun p => font.lit d.char p.1 p.2)
    (fun p => Graphics.xCoord (d.x * xFontwidth : ℕ) p.2)
    (fun p => Graphics.yCoord ((d.y + 1) * yFontwidth : ℕ) p.1) colour Graphics.glyphPixels
    fun p hp => by
      obtain ⟨hx, hy, hlt, hlt'⟩ := hcoords p hp
      exact ⟨by rwa [hx], by rwa [hy]⟩
  refine ⟨g', hdraw, hheld.inv, fun surf hsurf x hx y hy => ?_⟩
  rw [hheld.pixels surf hsurf x hx y hy, foldl_ite_const (fun p : ℕ × ℕ =>
    font.lit d.char p.1 p.2 = true ∧ (Graphics.xCoord (d.x * xFontwidth : ℕ) p.2,
      Graphics.yCoord ((d.y + 1) * yFontwidth : ℕ) p.1) = (x, y))]
  congr 1
  rw [eq_iff_iff, covers_iff]
  refine exists_congr fun p => and_congr_right fun hp => ?_
  obtain ⟨hxp, hyp, -, -⟩ := hcoords p hp
  rw [hxp, hyp, Prod.mk.injEq]

variable (font) in
/-- Putting several characters one after the other shows each pixel as the last of them that covers
it has it. -/
theorem text (hgrid : ScreenGrid grid f) (colour : RGB) (glyphs : List Glyph)
    (hinside : ∀ d ∈ glyphs, grid.Has d) (h : g.Holds f colours) :
    ∃ g', glyphs.foldlM (fun g d => g.terminalPutentryat f font d colour) g = .ok g' ∧
      g'.Holds f fun x y =>
        textColour font (glyphs.map fun d => (d, colour)) x y (colours x y) := by
  induction glyphs generalizing g colours with
  | nil => exact ⟨g, rfl, h⟩
  | cons d glyphs ih =>
    rw [List.forall_mem_cons] at hinside
    obtain ⟨g₁, hfirst, hheld⟩ := h.putentryat font hgrid hinside.1 colour
    obtain ⟨g', hmore, hheld'⟩ := ih hinside.2 hheld
    refine ⟨g', ?_, hheld'⟩
    rw [List.foldlM_cons, hfirst]
    exact hmore

/-- A refresh leaves the surface as it is. -/
theorem updateBuffers (h : g.Holds f colours) (method : Update) :
    (g.updateBuffers f method).Holds f colours :=
  ⟨h.inv.updateBuffers, h.pixels⟩

/-- Where the screen shows a row of the surface, it shows its colors. -/
theorem screenPixel_eq (hgrid : ScreenGrid grid f) (hfull : surf.FullScreen f)
    (hrow : row f.pitch g.frontBuffer y = row f.pitch surf.buffLoc y) (hx : x < f.width) :
    g.screenPixel f x y = surf.pixel f x y := by
  have hfit := pixel_fits hgrid.depth hgrid.pitch hx
  rw [row_eq_iff] at hrow
  have hbyte (i : ℕ) (hi : i ≤ 2) : g.frontBuffer (y * f.pitch + x * (f.depth / 8) + i) =
      surf.buffLoc (y * f.pitch + x * (f.depth / 8) + i) := by
    rw [Nat.add_assoc]
    exact hrow _ (by omega)
  have hfirst := hbyte 0 (by decide)
  rw [Nat.add_zero] at hfirst
  rw [BaseSurface.pixel, hfull.pitch, Graphics.screenPixel, Nat.add_comm (x * (f.depth / 8))]
  simp only [hfirst, hbyte 1 (by decide), hbyte 2 le_rfl]

/-- At the start the surface holds what the screen shows. -/
theorem start (hgrid : ScreenGrid grid f) (hstart : g.Start f) :
    g.Holds f (g.screenPixel f) := by
  refine ⟨hstart.inv, fun surf hsurf x hx y hy => ?_⟩
  obtain ⟨surf', hsurf', hfull, -⟩ := hstart.surface
  obtain ⟨surf₀, hsurf₀, hrow⟩ := hstart.shows y hy
  have heq' : surf' = surf := List.singleton_inj.mp (hsurf'.symm.trans hsurf)
  have heq₀ : surf₀ = surf := List.singleton_inj.mp (hsurf₀.symm.trans hsurf)
  rw [heq'] at hfull
  rw [heq₀] at hrow
  exact (screenPixel_eq hgrid hfull hrow hx).symm

/-- After a refresh the screen shows the colors. -/
theorem screenPixel (hgrid : ScreenGrid grid f) (h : g.Holds f colours) (method : Update)
    (hx : x < f.width) (hy : y < f.height) :
    (g.updateBuffers f method).screenPixel f x y = colours x y := by
  obtain ⟨surf, hsurf, hrow⟩ := h.inv.updateBuffers_shows method hy
  obtain ⟨-, surf', hsurf', hfull, -⟩ := h.inv
  have heq : surf' = surf := List.singleton_inj.mp (hsurf'.symm.trans hsurf)
  rw [heq] at hfull
  rw [← h.pixels surf hsurf x hx y hy, screenPixel_eq hgrid hfull hrow hx]

variable (font) in
/-- The surface holds the text of a run. -/
theorem run (hgrid : ScreenGrid grid f) {t : Terminal} {events : List ScreenEvent}
    (hinside : ∀ d ∈ drawnText grid t events, grid.Has d.1) (h : g.Holds f colours) :
    ∃ s, runEvents (screenEvent grid f font) (t, g) events = .ok s ∧
      s.2.Holds f fun x y => textColour font (drawnText grid t events) x y (colours x y) := by
  induction events generalizing t g colours with
  | nil => exact ⟨(t, g), rfl, h⟩
  | cons e events ih =>
    cases e with
    | text call colour =>
      rw [drawnText, List.forall_mem_append] at hinside
      obtain ⟨g₁, htext, hheld⟩ := h.text font hgrid colour (t.call grid call).2
        fun d hd => hinside.1 (d, colour) (List.mem_map_of_mem hd)
      obtain ⟨s, hrun, hheld'⟩ := ih hinside.2 hheld
      refine ⟨s, ?_, ?_⟩
      · rw [runEvents_cons]
        simp only [screenEvent, htext]
        exact hrun
      · simpa only [drawnText, textColour, List.foldl_append] using hheld'
    | updateBuffers method =>
      obtain ⟨s, hrun, hheld⟩ := ih hinside (h.updateBuffers method)
      exact ⟨s, hrun, hheld⟩

end Graphics.Holds

/-- **The screen shows the text.** In every run of terminal calls that draw in the grid, with
refreshes anywhere, the screen shows after a refresh in each of its pixels the color of the last
character that covers it, and what it showed at first where no character does. -/
theorem screen_shows_text (hgrid : ScreenGrid grid f) (hstart : g.Start f) {t : Terminal}
    {events : List ScreenEvent} (hinside : ∀ d ∈ drawnText grid t events, grid.Has d.1) :
    ∃ s, runEvents (Graphics.screenEvent grid f font) (t, g) events = .ok s ∧
      ∀ method, ∀ x < f.width, ∀ y < f.height, (s.2.updateBuffers f method).screenPixel f x y =
        textColour font (drawnText grid t events) x y (g.screenPixel f x y) := by
  obtain ⟨s, hrun, hheld⟩ := (Graphics.Holds.start hgrid hstart).run font hgrid hinside
  exact ⟨s, hrun, fun method x hx y hy => hheld.screenPixel hgrid method hx hy⟩

/-- The screen of `Terminal.grid80x25`. -/
def screen : Framebuffer where
  width := 640
  height := 416
  depth := 32
  pitch := 2560
  height_lt := by decide
  fits := by decide

/-- A black screen. -/
def blackScreen : Graphics where
  frontBuffer := fun _ => 0
  backBuffer := fun _ => 0
  dirtyBuffer := fun _ => false
  screenSurfaces := [⟨fun _ => 0, fun _ => false, 2560, ⟨0, 0⟩, ⟨640, 416⟩⟩]

/-- The black screen starts with equal buffers. -/
theorem blackScreen_start : blackScreen.Start screen where
  cells := by decide
  surface := ⟨_, rfl, ⟨rfl, rfl, rfl⟩, fun _ _ => rfl⟩
  shows := fun _ _ => ⟨_, rfl, rfl⟩
  clean := fun _ _ => rfl

/-- The grid of 80 by 25 cells fits the screen. -/
theorem screen_grid : ScreenGrid Terminal.grid80x25 screen where
  depth := by decide
  pitch := by decide
  width := rfl
  height := by decide
  cells := by decide

/-- A white character, a refresh, and a blue string in the row below it. -/
def whiteThenBlue : List ScreenEvent := [.text (.putchar 65) ⟨255, 255, 255⟩,
  .updateBuffers .deltaRefresh, .text (.writestring [newline, 66]) ⟨0, 0, 255⟩]

/-- The first cell is white, the one below it blue, and the next row black. -/
theorem screen_shows_text_cells :
    ∃ s, runEvents (Graphics.screenEvent Terminal.grid80x25 screen Graphics.fullCells)
        (⟨0, 0⟩, blackScreen) whiteThenBlue = .ok s ∧
      (s.2.updateBuffers screen .deltaRefresh).screenPixel screen 3 4 = ⟨255, 255, 255⟩ ∧
      (s.2.updateBuffers screen .deltaRefresh).screenPixel screen 3 20 = ⟨0, 0, 255⟩ ∧
      (s.2.updateBuffers screen .deltaRefresh).screenPixel screen 3 40 = ⟨0, 0, 0⟩ := by
  have hinside : ∀ d ∈ drawnText Terminal.grid80x25 ⟨0, 0⟩ whiteThenBlue,
      Terminal.grid80x25.Has d.1 := by
    unfold Grid.Has
    decide
  obtain ⟨s, hrun, hshown⟩ := @screen_shows_text screen Graphics.fullCells blackScreen
    Terminal.grid80x25 screen_grid blackScreen_start ⟨0, 0⟩ whiteThenBlue hinside
  refine ⟨s, hrun, ?_, ?_, ?_⟩
  · rw [hshown .deltaRefresh 3 (by decide) 4 (by decide)]
    rfl
  · rw [hshown .deltaRefresh 3 (by decide) 20 (by decide)]
    rfl
  · rw [hshown .deltaRefresh 3 (by decide) 40 (by decide)]
    rfl

end Muk
