import Muk.Gfx.Surface
import Muk.Lib.LastWrite

/-!
# The pixels of a surface

A surface is a table of pixels: a run of `setPixel` leaves in each pixel the color that was drawn
there last, and marks the rows that were drawn in.
-/

namespace Muk

/-- A call of `setPixel`. -/
structure PixelCall where
  x : ℕ
  y : ℕ
  color : RGB

namespace BaseSurface

/-- Three bytes for a pixel, room for the pixels of a row in it, and a buffer in a 32-bit address
space. -/
structure Layout (f : Framebuffer) (s : BaseSurface) : Prop where
  depth : 3 ≤ f.depth / 8
  pitch : s.dim.x * (f.depth / 8) ≤ s.sPitch
  fits : s.dim.y * s.sPitch < 2 ^ 32

/-- The pixel of a call is on the surface. -/
def InRange (s : BaseSurface) (c : PixelCall) : Prop := c.x < s.dim.x ∧ c.y < s.dim.y

instance (s : BaseSurface) (c : PixelCall) : Decidable (s.InRange c) :=
  inferInstanceAs (Decidable (_ ∧ _))

/-- The color of a pixel. -/
def pixel (f : Framebuffer) (s : BaseSurface) (x y : ℕ) : RGB :=
  let loc := x * (f.depth / 8) + y * s.sPitch
  ⟨s.buffLoc (loc + 2), s.buffLoc (loc + 1), s.buffLoc loc⟩

def drawCall (f : Framebuffer) (s : BaseSurface) (c : PixelCall) : BaseSurface :=
  s.setPixel f c.x c.y c.color

/-- The surface after a sequence of calls. -/
def draw (f : Framebuffer) (s : BaseSurface) (calls : List PixelCall) : BaseSurface :=
  runSteps (drawCall f) s calls

/-- The bytes that a call writes, and where. -/
def written (f : Framebuffer) (s : BaseSurface) (c : PixelCall) : List (ℕ × Byte) :=
  if s.InRange c then
    let loc := s.pixelLoc f c.x c.y
    [(loc, c.color.b), (loc + 1, c.color.g), (loc + 2, c.color.r)]
  else []

/-- Two surfaces of one size, with rows of one length. -/
structure SameShape (s s' : BaseSurface) : Prop where
  dim : s'.dim = s.dim
  pitch : s'.sPitch = s.sPitch

variable {f : Framebuffer} {s s' : BaseSurface} {x y : ℕ} {c : PixelCall} {calls : List PixelCall}

/-! ## One call -/

/-- A call inside the surface writes the bytes of the pixel and marks its row. -/
theorem drawCall_of_inRange (h : s.InRange c) : s.drawCall f c =
    { s with
      buffLoc := writeAll s.buffLoc (s.written f c)
      dirtyBuffer := Function.update s.dirtyBuffer c.y true } := by
  have hin : ¬ (s.dim.x ≤ c.x ∨ s.dim.y ≤ c.y) := by
    rw [not_or, Nat.not_le, Nat.not_le]
    exact h
  unfold drawCall setPixel written
  rw [if_neg hin, if_pos h]
  rfl

/-- A call out of range changes nothing. -/
theorem drawCall_of_not_inRange (h : ¬ s.InRange c) : s.drawCall f c = s := by
  unfold drawCall setPixel
  rw [if_pos]
  rwa [InRange, not_and_or, Nat.not_lt, Nat.not_lt] at h

/-- A call keeps the shape of the surface. -/
theorem sameShape_drawCall (s : BaseSurface) : s.SameShape (s.drawCall f c) := by
  by_cases h : s.InRange c
  · rw [drawCall_of_inRange h]
    exact ⟨rfl, rfl⟩
  · rw [drawCall_of_not_inRange h]
    exact ⟨rfl, rfl⟩

/-- A call writes the bytes of its pixel, or none outside the surface. -/
theorem buffLoc_drawCall : (s.drawCall f c).buffLoc = writeAll s.buffLoc (s.written f c) := by
  by_cases h : s.InRange c
  · rw [drawCall_of_inRange h]
  · rw [drawCall_of_not_inRange h, written, if_neg h]
    rfl

/-- A row is marked after a call if it was before, or if the call draws in it. -/
theorem dirtyBuffer_drawCall : (s.drawCall f c).dirtyBuffer y = true ↔
    s.dirtyBuffer y = true ∨ s.InRange c ∧ c.y = y := by
  by_cases h : s.InRange c
  · rw [drawCall_of_inRange h]
    by_cases hy : y = c.y
    · simp [hy, h]
    · simp [hy, Ne.symm hy]
  · rw [drawCall_of_not_inRange h]
    simp [h]

namespace Layout

/-- The place of a pixel is computed without wrapping around. -/
theorem pixelLoc_eq (h : s.Layout f) (hc : s.InRange c) :
    s.pixelLoc f c.x c.y = c.x * (f.depth / 8) + c.y * s.sPitch := by
  have hend := cell_end_le_buffer h.pitch hc.1 hc.2
  have hfits := h.fits
  exact uint32_of_lt (n := c.x * (f.depth / 8) + c.y * s.sPitch) (by omega)

/-- A call writes to the bytes of its pixel. -/
theorem written_bounds (h : s.Layout f) {w : ℕ × Byte} (hw : w ∈ s.written f c) : s.InRange c ∧
    c.x * (f.depth / 8) + c.y * s.sPitch ≤ w.1 ∧
    w.1 < c.x * (f.depth / 8) + c.y * s.sPitch + f.depth / 8 := by
  unfold written at hw
  split at hw
  · rename_i hc
    have hdepth := h.depth
    rw [h.pixelLoc_eq hc] at hw
    simp only [List.mem_cons, List.not_mem_nil, or_false] at hw
    refine ⟨hc, ?_⟩
    rcases hw with rfl | rfl | rfl
    · exact ⟨Nat.le_refl _, by omega⟩
    · exact ⟨Nat.le_add_right _ 1, by omega⟩
    · exact ⟨Nat.le_add_right _ 2, by omega⟩
  · cases hw

/-- A call writes inside the buffer. -/
theorem written_inside (h : s.Layout f) {w : ℕ × Byte} (hw : w ∈ s.written f c) :
    w.1 < s.dim.y * s.sPitch := by
  obtain ⟨hc, -, hlt⟩ := h.written_bounds hw
  have hend := cell_end_le_buffer h.pitch hc.1 hc.2
  omega

/-- The bytes of a pixel are kept by a call for another one. -/
theorem buffLoc_drawCall_of_ne (h : s.Layout f) (hx : x < s.dim.x) (hne : (c.x, c.y) ≠ (x, y))
    {i : ℕ} (hi : i < f.depth / 8) :
    (s.drawCall f c).buffLoc (x * (f.depth / 8) + y * s.sPitch + i) =
      s.buffLoc (x * (f.depth / 8) + y * s.sPitch + i) := by
  rw [buffLoc_drawCall]
  apply writeAll_of_ne
  intro w hw
  obtain ⟨hc, hle, hlt⟩ := h.written_bounds hw
  have hapart := cell_apart h.pitch hc.1 hx hne
  omega

/-- A call draws its own pixel and no other. -/
theorem pixel_drawCall (h : s.Layout f) (hx : x < s.dim.x) (hy : y < s.dim.y) :
    (s.drawCall f c).pixel f x y = if (c.x, c.y) = (x, y) then c.color else s.pixel f x y := by
  have hdepth := h.depth
  have hpitch : (s.drawCall f c).sPitch = s.sPitch := (sameShape_drawCall s).pitch
  unfold pixel
  rw [hpitch]
  by_cases heq : (c.x, c.y) = (x, y)
  · obtain ⟨rfl, rfl⟩ := Prod.mk.inj heq
    rw [if_pos rfl, buffLoc_drawCall, written, if_pos ⟨hx, hy⟩, h.pixelLoc_eq ⟨hx, hy⟩]
    simp [writeAll]
  · have hblue := h.buffLoc_drawCall_of_ne hx heq (i := 0) (by omega)
    rw [Nat.add_zero] at hblue
    simp only [if_neg heq, hblue, h.buffLoc_drawCall_of_ne hx heq (i := 1) (by omega),
      h.buffLoc_drawCall_of_ne hx heq (i := 2) (by omega)]

end Layout

/-! ## Sequences of calls -/

namespace SameShape

/-- A surface of one shape keeps it over a further call. -/
theorem drawCall (h : s.SameShape s') : s.SameShape (s'.drawCall f c) := by
  have hcall := sameShape_drawCall (f := f) (c := c) s'
  exact ⟨hcall.dim.trans h.dim, hcall.pitch.trans h.pitch⟩

/-- The layout depends on the shape only. -/
theorem layout (h : s.SameShape s') (hlayout : s.Layout f) : s'.Layout f := by
  refine ⟨hlayout.depth, ?_, ?_⟩
  · rw [h.dim, h.pitch]
    exact hlayout.pitch
  · rw [h.dim, h.pitch]
    exact hlayout.fits

/-- Whether a call is inside depends on the shape only. -/
theorem inRange_iff (h : s.SameShape s') : s'.InRange c ↔ s.InRange c := by
  unfold InRange
  rw [h.dim]

/-- Which bytes a call writes depends on the shape only. -/
theorem written_eq (h : s.SameShape s') : s'.written f c = s.written f c := by
  unfold written pixelLoc
  simp only [h.inRange_iff, h.pitch]

end SameShape

/-- Drawing changes neither the size of a surface nor the length of its rows. -/
theorem sameShape_draw : s.SameShape (s.draw f calls) :=
  runSteps_invariant (fun _ _ h => h.drawCall) ⟨rfl, rfl⟩

/-- **Pixels are independent.** For a surface with room for its pixels, and every sequence of calls
with any coordinates: the bytes that the calls write are those of the surface that change, and lie
in its buffer; the calls out of range may be left out; each pixel has the color of the last call
for it, or the color it had; and the dirty rows are those that were dirty and those of the calls in
range. -/
theorem draw_spec (h : s.Layout f) (calls : List PixelCall) :
    ((s.draw f calls).buffLoc = writeAll s.buffLoc (calls.flatMap (s.written f)) ∧
      ∀ w ∈ calls.flatMap (s.written f), w.1 < s.dim.y * s.sPitch) ∧
    s.draw f (calls.filter fun c => s.InRange c) = s.draw f calls ∧
    (∀ x < s.dim.x, ∀ y < s.dim.y, (s.draw f calls).pixel f x y =
      (lastWrite (calls.map fun c => ((c.x, c.y), c.color)) (x, y)).getD (s.pixel f x y)) ∧
    ∀ y, (s.draw f calls).dirtyBuffer y = true ↔
      s.dirtyBuffer y = true ∨ ∃ c ∈ calls, s.InRange c ∧ c.y = y := by
  have hstep : ∀ s' c, s.SameShape s' → s.SameShape (s'.drawCall f c) := fun _ _ h => h.drawCall
  have hs : s.SameShape s := ⟨rfl, rfl⟩
  refine ⟨⟨?_, ?_⟩, ?_, ?_, ?_⟩
  · exact runSteps_writeAll hstep hs fun s' c hs' => by rw [buffLoc_drawCall, hs'.written_eq]
  · intro w hw
    obtain ⟨c, -, hw⟩ := List.mem_flatMap.mp hw
    exact h.written_inside hw
  · refine runSteps_filter hstep hs fun s' c hs' hc => drawCall_of_not_inRange ?_
    rw [hs'.inRange_iff]
    exact of_decide_eq_false hc
  · intro x hx y hy
    refine runSteps_lastWrite (fun s => s.pixel f x y) (fun c => ((c.x, c.y), c.color)) hstep hs
      fun s' c hs' => ?_
    exact (hs'.layout h).pixel_drawCall (by rwa [hs'.dim]) (by rwa [hs'.dim])
  · intro y
    refine runSteps_flag (fun s => s.dirtyBuffer y = true) (fun c => s.InRange c ∧ c.y = y)
      hstep hs fun s' c hs' => ?_
    rw [dirtyBuffer_drawCall, hs'.inRange_iff]

/-- Two by two pixels of three bytes, in rows of eight. -/
def fourPixels : Framebuffer := ⟨2, 2, 24, 8, by decide, by decide⟩

def fourPixelSurface : BaseSurface := ⟨fun _ => 0, fun _ => false, 8, ⟨0, 0⟩, ⟨2, 2⟩⟩

/-- A pixel drawn twice, with a call out of range in between. -/
theorem fourPixelSurface_draw :
    (fourPixelSurface.draw fourPixels
      [⟨1, 0, ⟨1, 2, 3⟩⟩, ⟨2, 1, ⟨4, 5, 6⟩⟩, ⟨1, 0, ⟨7, 8, 9⟩⟩]).pixel fourPixels 1 0 = ⟨7, 8, 9⟩ :=
  (draw_spec (f := fourPixels) (s := fourPixelSurface) ⟨by decide, by decide, by decide⟩
    [⟨1, 0, ⟨1, 2, 3⟩⟩, ⟨2, 1, ⟨4, 5, 6⟩⟩, ⟨1, 0, ⟨7, 8, 9⟩⟩]).2.2.1 1 (by decide) 0 (by decide)

end BaseSurface

end Muk
