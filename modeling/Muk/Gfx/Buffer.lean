import Muk.Gfx.Surface

/-!
# The delta refresh

`UpdateBuffers` applies the surfaces to the back buffer and copies it to the front buffer: all
its rows for a full refresh, and for a delta refresh those that are marked in the global dirty
buffer. A character marks every row that it draws in. `scrollUp` marks none, so the delta
refresh shows what a full one would as long as the rows that a scroll changes are marked already.
-/

namespace Muk

/-- `Graphics::Update` -/
inductive Update where
  | deltaRefresh
  | fullRefresh
  deriving DecidableEq

/-- The buffers of the namespace `Graphics`, and the vector `screen_surfaces`. -/
structure Graphics where
  frontBuffer : Pixels
  backBuffer : Pixels
  dirtyBuffer : ℕ → Bool
  screenSurfaces : List BaseSurface

/-- `mask` of `drawchar_transparent` -/
def mask : List Byte := [1, 2, 4, 8, 16, 32, 64, 128]

/-- A font: the sixteen rows of the glyph of each character. -/
abbrev Font := Byte → ℕ → Byte

/-- The glyph of a character has a pixel in row `cy` and column `cx`. -/
def Font.lit (font : Font) (c : Byte) (cy cx : ℕ) : Bool :=
  font c cy &&& mask.getD (7 - cx) 0 != 0

namespace Graphics

/-- `ScreenBuffer::CopyFrom`. The height of both buffers is that of the frame. -/
def copyFrom (f : Framebuffer) (front back : Pixels) (dirty : ℕ → Bool) (method : Update) :
    Pixels :=
  copyRows f.pitch front back (fun y => method == .fullRefresh || dirty y) f.height

/-- `UpdateBuffers` -/
def updateBuffers (f : Framebuffer) (g : Graphics) (method : Update) : Graphics :=
  let back := g.screenSurfaces.foldl (fun back surf => surf.apply f back true) g.backBuffer
  { g with
    backBuffer := back
    frontBuffer := copyFrom f g.frontBuffer back g.dirtyBuffer method
    dirtyBuffer := fun y => if y < f.height then false else g.dirtyBuffer y }

/-- `x_coord` of `drawchar_transparent` -/
def xCoord (x : ℤ) (cx : ℕ) : ℕ := uint32 (x + cx)

/-- `y_coord` of `drawchar_transparent` -/
def yCoord (y : ℤ) (cy : ℕ) : ℕ := uint32 (y + cy - 12)

/-- The two statements of `drawchar_transparent` for one pixel. -/
def drawPixel (f : Framebuffer) (g : Graphics) (x y : ℕ) (fgcolor : RGB) : Except OutOf Graphics :=
  match g.screenSurfaces with
  | [] => .error .screenSurfaces
  | surf :: rest =>
    if y < f.height then
      .ok { g with
        screenSurfaces := surf.setPixel f x y fgcolor :: rest
        dirtyBuffer := Function.update g.dirtyBuffer y true }
    else .error .dirtyBuffer

/-- The pixels of a character, in the order in which it is drawn. -/
def glyphPixels : List (ℕ × ℕ) :=
  (List.range 16).flatMap fun cy => (List.range 8).map fun cx => (cy, cx)

/-- The pixels of a glyph are 16 rows of 8. -/
theorem mem_glyphPixels {p : ℕ × ℕ} : p ∈ glyphPixels ↔ p.1 < 16 ∧ p.2 < 8 := by
  unfold glyphPixels
  simp [Prod.ext_iff]

/-- `drawchar_transparent` -/
def drawcharTransparent (f : Framebuffer) (font : Font) (g : Graphics) (c : Byte) (x y : ℤ)
    (fgcolor : RGB) : Except OutOf Graphics :=
  glyphPixels.foldlM (fun g p =>
    if font.lit c p.1 p.2 then g.drawPixel f (xCoord x p.2) (yCoord y p.1) fgcolor else .ok g) g

/-- `screen_surfaces[0]->scrollUp(Y_FONTWIDTH)` -/
def scrollUp (f : Framebuffer) (g : Graphics) : Except OutOf Graphics :=
  match g.screenSurfaces with
  | [] => .error .screenSurfaces
  | surf :: rest => do
    let surf ← surf.scrollUp f yFontwidth
    .ok { g with screenSurfaces := surf :: rest }

/-- The operations on the screen. -/
inductive Op where
  | drawchar (c : Byte) (x y : ℤ) (fgcolor : RGB)
  | scrollUp
  | updateBuffers (method : Update)

/-- One operation. -/
def step (f : Framebuffer) (font : Font) (g : Graphics) : Op → Except OutOf Graphics
  | .drawchar c x y fgcolor => g.drawcharTransparent f font c x y fgcolor
  | .scrollUp => g.scrollUp f
  | .updateBuffers method => .ok (g.updateBuffers f method)

/-- Every pixel that the operation draws is on the screen. -/
def Op.InRange (f : Framebuffer) (font : Font) : Op → Prop
  | .drawchar c x y _ => ∀ p ∈ glyphPixels, font.lit c p.1 p.2 →
      xCoord x p.2 < f.width ∧ yCoord y p.1 < f.height
  | _ => True

/-- The rows that the operation changes are marked, by itself or before: no pixel runs over the
end of its row, and a scroll replaces bytes by other ones in dirty rows only. -/
def ChangesMarked (f : Framebuffer) (font : Font) (g : Graphics) : Op → Prop
  | .drawchar c x _ _ => ∀ p ∈ glyphPixels, font.lit c p.1 p.2 →
      xCoord x p.2 * (f.depth / 8) + 2 < f.pitch
  | .scrollUp => ∀ surf ∈ g.screenSurfaces, ∀ y < f.height,
      surf.ScrollChanges f yFontwidth y → g.dirtyBuffer y
  | .updateBuffers _ => True

/-- Row `y` of the front buffer is the same row of the surface. -/
def Shows (f : Framebuffer) (g : Graphics) (y : ℕ) : Prop :=
  ∃ surf, g.screenSurfaces = [surf] ∧ row f.pitch g.frontBuffer y = row f.pitch surf.buffLoc y

/-- One surface covers the screen, the front buffer equals it, and no row is dirty. -/
structure Start (f : Framebuffer) (g : Graphics) : Prop where
  cells : yFontwidth ≤ f.height
  surface : ∃ surf, g.screenSurfaces = [surf] ∧ surf.FullScreen f ∧
    ∀ y < f.height, surf.dirtyBuffer y = false
  shows : ∀ y < f.height, g.Shows f y
  clean : ∀ y < f.height, g.dirtyBuffer y = false

/-- One surface covers the screen, and the front buffer equals it in every row that is not dirty. -/
def Inv (f : Framebuffer) (g : Graphics) : Prop :=
  yFontwidth ≤ f.height ∧ ∃ surf, g.screenSurfaces = [surf] ∧ surf.FullScreen f ∧
    InSync (fun y : Fin f.height => row f.pitch surf.buffLoc y)
      (fun y => row f.pitch g.frontBuffer y) (fun y => g.dirtyBuffer y)

/-- After every delta refresh of a run each row of the front buffer is that of the surface, which
is what a full refresh would have put there. -/
def DeltaShowsFull (f : Framebuffer) (font : Font) (g : Graphics) (ops : List Op) : Prop :=
  ∀ before after, ops = before ++ .updateBuffers .deltaRefresh :: after →
    ∃ s, runEvents (step f font) g before = .ok s ∧ ∀ y < f.height,
      (s.updateBuffers f .deltaRefresh).Shows f y ∧
        row f.pitch (s.updateBuffers f .deltaRefresh).frontBuffer y =
          row f.pitch (s.updateBuffers f .fullRefresh).frontBuffer y

variable {f : Framebuffer} {font : Font} {g : Graphics} {surf : BaseSurface} {method : Update}

/-- At the start all buffers agree, so that the invariant holds. -/
theorem Start.inv (h : g.Start f) : g.Inv f := by
  obtain ⟨surf, hsurf, hfull, -⟩ := h.surface
  refine ⟨h.cells, surf, hsurf, hfull, inSync_of_eq ?_⟩
  funext y
  obtain ⟨surf', hsurf', hrow⟩ := h.shows y y.isLt
  rw [hsurf, List.singleton_inj] at hsurf'
  rw [hsurf', hrow]

/-- With 24 or 32 bits for a pixel, what a character changes is marked wherever it is drawn. -/
theorem changesMarked_drawchar {c : Byte} {x y : ℤ} {fgcolor : RGB} (hdepth : 24 ≤ f.depth)
    (hpitch : f.width * (f.depth / 8) ≤ f.pitch)
    (h : (Op.drawchar c x y fgcolor).InRange f font) :
    g.ChangesMarked f font (.drawchar c x y fgcolor) := by
  intro p hp hlit
  exact pixel_fits hdepth hpitch (h p hp hlit).1

/-- A refresh brings the rows that it copies up to date with the surface. -/
theorem row_updateBuffers (method : Update) {y : ℕ} (hsurf : g.screenSurfaces = [surf])
    (hfull : surf.FullScreen f) (hy : y < f.height) :
    row f.pitch (g.updateBuffers f method).frontBuffer y =
      if method = .fullRefresh ∨ g.dirtyBuffer y then row f.pitch surf.buffLoc y
      else row f.pitch g.frontBuffer y := by
  unfold updateBuffers copyFrom
  simp only [hsurf, List.foldl_cons, List.foldl_nil, row_copyRows, hy, true_and, hfull.row_apply hy,
    Bool.or_eq_true, beq_iff_eq]

/-- A delta refresh shows the surface exactly when the rows that are not dirty were right. -/
theorem deltaRefresh_shows_iff (hsurf : g.screenSurfaces = [surf]) (hfull : surf.FullScreen f) :
    (∀ y < f.height, (g.updateBuffers f .deltaRefresh).Shows f y) ↔
      InSync (fun y : Fin f.height => row f.pitch surf.buffLoc y)
        (fun y => row f.pitch g.frontBuffer y) (fun y => g.dirtyBuffer y) := by
  rw [← refresh_eq_iff, funext_iff, Fin.forall_iff]
  apply forall₂_congr
  intro y hy
  have hrow := row_updateBuffers .deltaRefresh hsurf hfull hy
  simp only [reduceCtorEq, false_or] at hrow
  unfold refresh
  rw [← hrow]
  constructor
  · rintro ⟨surf', hsurf', hshows⟩
    have heq : [surf] = [surf'] := hsurf.symm.trans hsurf'
    rw [List.singleton_inj] at heq
    rw [hshows, heq]
  · intro h
    exact ⟨surf, hsurf, h⟩

/-- **The refresh step.** If the front buffer is right in all rows that are not dirty, it is right
in all rows after either refresh. -/
theorem Inv.updateBuffers_shows (h : g.Inv f) (method : Update) {y : ℕ} (hy : y < f.height) :
    (g.updateBuffers f method).Shows f y := by
  obtain ⟨-, surf, hsurf, hfull, hsync⟩ := h
  cases method with
  | deltaRefresh => exact (deltaRefresh_shows_iff hsurf hfull).mpr hsync y hy
  | fullRefresh =>
    refine ⟨surf, hsurf, ?_⟩
    rw [row_updateBuffers _ hsurf hfull hy, if_pos (.inl rfl)]

/-- A refresh of either kind keeps the invariant. -/
theorem Inv.updateBuffers (h : g.Inv f) : (g.updateBuffers f method).Inv f := by
  obtain ⟨hcells, surf, hsurf, hfull, -⟩ := id h
  refine ⟨hcells, surf, hsurf, hfull, inSync_of_eq ?_⟩
  funext y
  obtain ⟨surf', hsurf', hrow⟩ := h.updateBuffers_shows method y.isLt
  have heq : [surf] = [surf'] := hsurf.symm.trans hsurf'
  rw [List.singleton_inj] at heq
  rw [heq, hrow]

/-- A pixel within its row marks the row that it changes. -/
theorem Inv.drawPixel {x y : ℕ} {fgcolor : RGB} (h : g.Inv f) (hy : y < f.height)
    (hx : x * (f.depth / 8) + 2 < f.pitch) :
    ∃ g', g.drawPixel f x y fgcolor = .ok g' ∧ g'.Inv f := by
  obtain ⟨hcells, surf, hsurf, hfull, hsync⟩ := h
  unfold Graphics.drawPixel
  simp only [hsurf, if_pos hy]
  refine ⟨_, rfl, hcells, _, rfl, hfull.setPixel, hsync.write ?_ ?_⟩
  · intro k hk
    by_cases hky : (k : ℕ) = y
    · simp [hky]
    · simpa [hky] using hk
  · intro k hk
    apply hfull.row_setPixel hx
    rintro rfl
    simp at hk

/-- A character marks every row in which it draws. -/
theorem Inv.drawcharTransparent {c : Byte} {x y : ℤ} {fgcolor : RGB} (h : g.Inv f)
    (hy : ∀ p ∈ glyphPixels, font.lit c p.1 p.2 → yCoord y p.1 < f.height)
    (hx : ∀ p ∈ glyphPixels, font.lit c p.1 p.2 → xCoord x p.2 * (f.depth / 8) + 2 < f.pitch) :
    ∃ g', g.drawcharTransparent f font c x y fgcolor = .ok g' ∧ g'.Inv f := by
  unfold Graphics.drawcharTransparent
  generalize glyphPixels = pixels at hy hx
  induction pixels generalizing g with
  | nil => exact ⟨g, rfl, h⟩
  | cons p pixels ih =>
    have hp : ∃ g', (if font.lit c p.1 p.2 then
        g.drawPixel f (xCoord x p.2) (yCoord y p.1) fgcolor else .ok g) = .ok g' ∧ g'.Inv f := by
      split
      · exact h.drawPixel (hy p List.mem_cons_self ‹_›) (hx p List.mem_cons_self ‹_›)
      · exact ⟨g, rfl, h⟩
    obtain ⟨g', hg', hinv⟩ := hp
    rw [List.foldlM_cons, hg']
    exact ih hinv (fun q hq => hy q (List.mem_cons_of_mem _ hq))
      (fun q hq => hx q (List.mem_cons_of_mem _ hq))

/-- What a scroll leaves of the rows. -/
theorem Inv.scrollUp_rows (h : g.Inv f) : ∃ g' surf surf', g.scrollUp f = .ok g' ∧
    g.screenSurfaces = [surf] ∧ g' = { g with screenSurfaces := [surf'] } ∧ surf'.FullScreen f ∧
      ∀ y, row f.pitch surf'.buffLoc y = row f.pitch surf.buffLoc y ↔
        ¬ surf.ScrollChanges f yFontwidth y := by
  obtain ⟨hcells, surf, hsurf, hfull, -⟩ := h
  obtain ⟨surf', hscroll, hfull'⟩ := hfull.scrollUp_ok hcells
  refine ⟨{ g with screenSurfaces := [surf'] }, surf, surf', ?_, hsurf, rfl, hfull', fun y => ?_⟩
  · unfold Graphics.scrollUp
    simp only [hsurf, hscroll]
    rfl
  · rw [← BaseSurface.row_scrollUp_iff hscroll, hfull.pitch]

/-- A scroll that changes dirty rows only. -/
theorem Inv.scrollUp (h : g.Inv f) (hmarked : g.ChangesMarked f font .scrollUp) :
    ∃ g', g.scrollUp f = .ok g' ∧ g'.Inv f := by
  obtain ⟨g', surf, surf', hscroll, hsurf, rfl, hfull', hrows⟩ := h.scrollUp_rows
  obtain ⟨hcells, surf₀, hsurf₀, -, hsync⟩ := h
  rw [hsurf, List.singleton_inj] at hsurf₀
  subst hsurf₀
  refine ⟨_, hscroll, hcells, surf', rfl, hfull', hsync.write (fun _ => id) fun y hy => ?_⟩
  exact (hrows y).mpr (mt (hmarked surf (by simp [hsurf]) y y.isLt) hy)

/-- A delta refresh right after a scroll shows the surface exactly when the scroll changed dirty
rows only. -/
theorem Inv.scrollUp_shows_iff (font : Font) {g' : Graphics} (h : g.Inv f)
    (hscroll : g.scrollUp f = .ok g') :
    (∀ y < f.height, (g'.updateBuffers f .deltaRefresh).Shows f y) ↔
      g.ChangesMarked f font .scrollUp := by
  constructor
  · intro hshows surf hmem y hy hchanges
    obtain ⟨g₁, surf₁, surf', hscroll₁, hsurf, rfl, hfull', hrows⟩ := h.scrollUp_rows
    rw [hscroll, Except.ok.injEq] at hscroll₁
    subst hscroll₁
    rw [hsurf, List.mem_singleton] at hmem
    subst hmem
    obtain ⟨-, surf₀, hsurf₀, -, hsync⟩ := h
    rw [hsurf, List.singleton_inj] at hsurf₀
    subst hsurf₀
    by_contra hclean
    -- a clean row of the front buffer is still that of the surface before the scroll
    have hbefore := hsync ⟨y, hy⟩ hclean
    have hafter := (deltaRefresh_shows_iff rfl hfull').mp hshows ⟨y, hy⟩ hclean
    exact (hrows y).mp (hafter.symm.trans hbefore) hchanges
  · intro hmarked y hy
    obtain ⟨g₁, hscroll₁, hinv⟩ := h.scrollUp hmarked
    rw [hscroll, Except.ok.injEq] at hscroll₁
    rw [hscroll₁]
    exact hinv.updateBuffers_shows _ hy

/-- **Step lemma.** An operation in range whose changes are marked keeps the front buffer right in
all rows that are not dirty. -/
theorem Inv.step {op : Op} (h : g.Inv f) (hrange : op.InRange f font)
    (hmarked : g.ChangesMarked f font op) : ∃ g', g.step f font op = .ok g' ∧ g'.Inv f := by
  cases op with
  | drawchar c x y fgcolor =>
    exact h.drawcharTransparent (fun p hp hlit => (hrange p hp hlit).2) hmarked
  | scrollUp => exact h.scrollUp hmarked
  | updateBuffers method => exact ⟨_, rfl, h.updateBuffers⟩

/-- **The delta refresh shows what a full refresh would**, in every run of drawing, scrolling and
refreshing in which the rows that an operation changes are marked. -/
theorem delta_shows_full {ops : List Op} (hstart : g.Start f)
    (hops : AlongOk (step f font) (fun g op => op.InRange f font ∧ g.ChangesMarked f font op)
      g ops) : g.DeltaShowsFull f font ops := by
  rintro before after rfl
  obtain ⟨s, hs, hinv⟩ := hops.left.invariant hstart.inv fun _ _ h hop => h.step hop.1 hop.2
  refine ⟨s, hs, fun y hy => ?_⟩
  have hdelta := hinv.updateBuffers_shows .deltaRefresh hy
  refine ⟨hdelta, ?_⟩
  obtain ⟨surf, hsurf, hrow⟩ := hdelta
  obtain ⟨surf', hsurf', hrow'⟩ := hinv.updateBuffers_shows .fullRefresh hy
  have heq : [surf] = [surf'] := hsurf.symm.trans hsurf'
  rw [List.singleton_inj] at heq
  rw [hrow, hrow', heq]

/-- Two rows of a single cell. -/
def twoCells : Framebuffer where
  width := 8
  height := 32
  depth := 32
  pitch := 32
  height_lt := by decide
  fits := by decide

/-- A font of full cells. -/
def fullCells : Font := fun _ _ => 0xFF

/-- The pixels of `twoCells` with its second cell drawn in white. -/
def secondWhite : Pixels := fun i => if i < 512 then 0 else 0xFF

/-- `secondWhite` on the surface and on the screen. -/
def secondShown : Graphics where
  frontBuffer := secondWhite
  backBuffer := secondWhite
  dirtyBuffer := fun _ => false
  screenSurfaces := [⟨secondWhite, fun _ => false, 32, ⟨0, 0⟩, ⟨8, 32⟩⟩]

/-- The screen with the second cell shown starts with equal buffers. -/
theorem secondShown_start : secondShown.Start twoCells where
  cells := by decide
  surface := ⟨_, rfl, ⟨rfl, rfl, rfl⟩, fun _ _ => rfl⟩
  shows := fun _ _ => ⟨_, rfl, rfl⟩
  clean := fun _ _ => rfl

/-- Drawing the second cell and refreshing the screen. -/
theorem delta_shows_full_cell : secondShown.DeltaShowsFull twoCells fullCells
    [.drawchar 65 0 28 ⟨0, 0, 0⟩, .updateBuffers .deltaRefresh] := by
  have hrange : (Op.drawchar 65 0 28 ⟨0, 0, 0⟩).InRange twoCells fullCells := by
    intro p hp _
    rw [mem_glyphPixels] at hp
    unfold xCoord yCoord uint32 twoCells
    simp only
    omega
  exact delta_shows_full secondShown_start
    ⟨⟨hrange, changesMarked_drawchar (by decide) (by decide) hrange⟩,
      fun _ _ => ⟨⟨trivial, trivial⟩, fun _ _ => trivial⟩⟩

/-- **A scroll is not shown.** The surface has the second cell moved up to the first, and the screen
keeps the first one as it was. -/
theorem scroll_not_shown : secondShown.Start twoCells ∧
    (∀ op ∈ [Op.scrollUp, .updateBuffers .deltaRefresh], op.InRange twoCells fullCells) ∧
      (∃ s, secondShown.scrollUp twoCells = .ok s) ∧
        ¬ secondShown.DeltaShowsFull twoCells fullCells
          [.scrollUp, .updateBuffers .deltaRefresh] := by
  have hinv := secondShown_start.inv
  obtain ⟨g', -, -, hscroll, -⟩ := hinv.scrollUp_rows
  refine ⟨secondShown_start, by simp [Op.InRange], ⟨g', hscroll⟩, fun h => ?_⟩
  obtain ⟨s, hs, hshows⟩ := h [.scrollUp] [] rfl
  rw [runEvents_cons, bind_eq_ok] at hs
  obtain ⟨t, hstep, ht⟩ := hs
  cases ht
  have hmarked := (hinv.scrollUp_shows_iff fullCells hstep).mp
    fun y hy => (hshows y hy).1
  have hchanges : BaseSurface.ScrollChanges twoCells
      ⟨secondWhite, fun _ => false, 32, ⟨0, 0⟩, ⟨8, 32⟩⟩ yFontwidth 0 :=
    ⟨0, by decide, by decide, by decide⟩
  exact absurd (hmarked _ (List.mem_singleton.mpr rfl) 0 (by decide) hchanges) (by decide)

end Graphics

end Muk
