import Muk.Drivers.Keyboard
import Muk.Gfx.Surface
import Muk.Lib.Run

/-!
# The cursor of the terminal

`terminal_putchar` draws at the cursor and moves it. A newline moves it to the next row, which may
be the one below the last; only the start of `terminal_writestring` brings it back. A tab moves it
to the next multiple of `TAB_WIDTH`, which may be to the right of the last column.
-/

namespace Muk

/-- `TAB_WIDTH` -/
def tabWidth : ℕ := 12

def carriageReturn : Byte := 0x0D

def tab : Byte := 0x09

/-- `VGA_WIDTH` and `VGA_HEIGHT`: one column and two rows at least. -/
structure Grid where
  width : ℕ
  height : ℕ
  width_pos : 1 ≤ width
  height_ge : 2 ≤ height
  width_lt : width < 2 ^ 32
  height_lt : height < 2 ^ 32

/-- The arguments of `terminal_putentryat`. -/
structure Glyph where
  char : Byte
  x : ℕ
  y : ℕ
  deriving DecidableEq

/-- A cell of the grid. -/
def Grid.Has (g : Grid) (d : Glyph) : Prop := d.x < g.width ∧ d.y < g.height

/-- `terminal_row` and `terminal_column`, unsigned numbers of 32 bits. -/
structure Terminal where
  terminalRow : ℕ
  terminalColumn : ℕ

/-- A call by the rest of the kernel. -/
inductive TerminalCall where
  | writestring (data : List Byte)
  | putchar (c : Byte)

namespace Terminal

variable (g : Grid)

/-- The column that a tab moves to. -/
def nextStop (t : Terminal) : ℕ :=
  uint32 (t.terminalColumn + (tabWidth - t.terminalColumn % tabWidth : ℕ))

/-- The step after a glyph. -/
def advance (t : Terminal) : Terminal :=
  if uint32 (t.terminalColumn + 1) = g.width then
    if uint32 (t.terminalRow + 1) = g.height then { terminalRow := 0, terminalColumn := 0 }
    else { terminalRow := uint32 (t.terminalRow + 1), terminalColumn := 0 }
  else { t with terminalColumn := uint32 (t.terminalColumn + 1) }

/-- `terminal_putchar`, and what it draws. -/
def putchar (t : Terminal) (c : Byte) : Terminal × List Glyph :=
  if c = newline then ({ terminalRow := uint32 (t.terminalRow + 1), terminalColumn := 0 }, [])
  else if c = carriageReturn then ({ t with terminalColumn := 0 }, [])
  else if c = tab then ({ t with terminalColumn := t.nextStop }, [])
  else (t.advance g, [⟨c, t.terminalColumn, t.terminalRow⟩])

/-- `terminal_scrollup` -/
def scrollup (t : Terminal) : Terminal := { t with terminalRow := uint32 (g.height - 1) }

/-- The test at the start of `terminal_writestring`. -/
def startString (t : Terminal) : Terminal :=
  if t.terminalRow = g.height then
    { t.scrollup g with terminalRow := uint32 ((t.scrollup g).terminalRow - 1) }
  else t

/-- `terminal_writestring`, up to the NUL of its string. -/
def writestring (t : Terminal) (data : List Byte) : Terminal × List Glyph :=
  runOutput (putchar g) (t.startString g) (data.takeWhile (· ≠ 0))

def call (t : Terminal) : TerminalCall → Terminal × List Glyph
  | .writestring data => t.writestring g data
  | .putchar c => t.putchar g c

/-- What some calls draw is in the grid. -/
def DrawsInside (t : Terminal) (calls : List TerminalCall) : Prop :=
  ∀ d ∈ (runOutput (call g) t calls).2, g.Has d

end Terminal

/-! ## Starts of strings and characters -/

/-- What the calls amount to: starts of strings, and characters. -/
inductive TerminalEvent where
  | start
  | char (c : Byte)
  deriving DecidableEq

def TerminalCall.events : TerminalCall → List TerminalEvent
  | .writestring data => .start :: (data.takeWhile (· ≠ 0)).map .char
  | .putchar c => [.char c]

namespace TerminalEvent

/-- A character that is drawn. -/
def IsGlyph : TerminalEvent → Prop
  | start => False
  | char c => c ≠ newline ∧ c ≠ carriageReturn ∧ c ≠ tab

instance : DecidablePred IsGlyph
  | start => .isFalse id
  | char c => inferInstanceAs (Decidable (c ≠ newline ∧ c ≠ carriageReturn ∧ c ≠ tab))

/-- No character is drawn. -/
abbrev NoGlyph (es : List TerminalEvent) : Prop := ∀ e ∈ es, ¬ e.IsGlyph

/-- Nothing is drawn before a newline or a carriage return. -/
abbrev NoGlyphBeforeReturn (es : List TerminalEvent) : Prop :=
  NoGlyph (es.takeWhile fun e => e ≠ char newline ∧ e ≠ char carriageReturn)

/-- Nothing is drawn before a string starts, and nothing at all if a newline comes before that. -/
abbrev NoGlyphBeforeStart (es : List TerminalEvent) : Prop :=
  NoGlyph (es.takeWhile (· ≠ start)) ∧ (char newline ∈ es.takeWhile (· ≠ start) → NoGlyph es)

end TerminalEvent

namespace Terminal

open TerminalEvent

variable {g : Grid} {t : Terminal} {e : TerminalEvent} {es : List TerminalEvent}

def event (g : Grid) (t : Terminal) : TerminalEvent → Terminal × List Glyph
  | .start => (t.startString g, [])
  | .char c => t.putchar g c

/-- The calls do what their events do. -/
theorem runOutput_call (t : Terminal) (calls : List TerminalCall) :
    runOutput (call g) t calls = runOutput (event g) t (calls.flatMap TerminalCall.events) := by
  refine runOutput_flatMap (fun t c => ?_) t calls
  cases c with
  | writestring data =>
    have hchars : ∀ (t : Terminal) (cs : List Byte),
        runOutput (putchar g) t cs = runOutput (event g) t (cs.map .char) := by
      intro t cs
      rw [List.map_eq_flatMap]
      exact runOutput_flatMap (fun t c => by simp [runOutput_cons, event]) t cs
    rw [call, writestring, hchars, TerminalCall.events, runOutput_cons]
    rfl
  | putchar c => simp [call, TerminalCall.events, runOutput_cons, event]

/-- What the characters after an event must not be: if it is a newline in the last row, no glyph
before a string starts; if it is a tab past the last column, no glyph before a return. -/
abbrev Followed (g : Grid) (t : Terminal) (e : TerminalEvent) (es : List TerminalEvent) : Prop :=
  (e = .char newline → t.terminalRow + 1 = g.height → NoGlyphBeforeStart es) ∧
    (e = .char tab → g.width ≤ t.nextStop → NoGlyphBeforeReturn es)

/-- Every newline in the last row and every tab past the last column is followed so. -/
def Careful (g : Grid) : Terminal → List TerminalEvent → Prop
  | _, [] => True
  | t, e :: es => Followed g t e es ∧ Careful g (event g t e).1 es

instance decidableCareful (g : Grid) : ∀ t es, Decidable (Careful g t es)
  | _, [] => .isTrue trivial
  | t, _ :: es => @instDecidableAnd _ _ inferInstance (decidableCareful g (event g t _).1 es)

/-- Nothing is drawn any more, or the cursor is in the grid, or it is below or to the right of it
and comes back before something is drawn. -/
def Safe (g : Grid) (t : Terminal) (es : List TerminalEvent) : Prop :=
  NoGlyph es ∨
    (t.terminalRow < g.height ∨ t.terminalRow = g.height ∧ NoGlyphBeforeStart es) ∧
      (t.terminalColumn < g.width ∨ NoGlyphBeforeReturn es)

/-- What some events draw is in the grid. -/
def Inside (g : Grid) (t : Terminal) (es : List TerminalEvent) : Prop :=
  ∀ d ∈ (runOutput (event g) t es).2, g.Has d

end Terminal

namespace TerminalEvent

variable {e : TerminalEvent} {es : List TerminalEvent}

/-- There is no glyph among some events exactly if the first is none and there is none in the
rest. -/
theorem noGlyph_cons : NoGlyph (e :: es) ↔ ¬ e.IsGlyph ∧ NoGlyph es := List.forall_mem_cons

/-- A list that begins with a start has no glyph before its first start. -/
theorem noGlyphBeforeStart_start : NoGlyphBeforeStart (start :: es) := by
  have hnil : (start :: es).takeWhile (· ≠ start) = [] := List.takeWhile_cons_of_neg (by simp)
  unfold NoGlyphBeforeStart
  rw [hnil]
  exact ⟨fun _ h => absurd h List.not_mem_nil, fun h => absurd h List.not_mem_nil⟩

/-- No glyph comes before the next start exactly if the first event is none and the rest has none,
where a newline rules glyphs out to the end. -/
theorem noGlyphBeforeStart_cons (he : e ≠ start) : NoGlyphBeforeStart (e :: es) ↔
    ¬ e.IsGlyph ∧ NoGlyphBeforeStart es ∧ (e = char newline → NoGlyph es) := by
  have hcons : (e :: es).takeWhile (· ≠ start) = e :: es.takeWhile (· ≠ start) :=
    List.takeWhile_cons_of_pos (by simpa using he)
  unfold NoGlyphBeforeStart
  rw [hcons, noGlyph_cons, noGlyph_cons, List.mem_cons]
  constructor
  · rintro ⟨⟨hglyph, hbefore⟩, hline⟩
    exact ⟨hglyph, ⟨hbefore, fun h => (hline (Or.inr h)).2⟩, fun h => (hline (Or.inl h.symm)).2⟩
  · rintro ⟨hglyph, ⟨hbefore, hline⟩, hhead⟩
    refine ⟨⟨hglyph, hbefore⟩, ?_⟩
    rintro (h | h)
    · exact ⟨hglyph, hhead h.symm⟩
    · exact ⟨hglyph, hline h⟩

/-- Without any glyph there is none before the next start. -/
theorem NoGlyph.beforeStart (h : NoGlyph es) : NoGlyphBeforeStart es :=
  ⟨fun e he => h e ((List.takeWhile_sublist _).mem he), fun _ => h⟩

/-- A newline or a carriage return ends the stretch in which no glyph may come. -/
theorem noGlyphBeforeReturn_return (he : e = char newline ∨ e = char carriageReturn) :
    NoGlyphBeforeReturn (e :: es) := by
  unfold NoGlyphBeforeReturn
  rw [List.takeWhile_cons_of_neg (by rcases he with rfl | rfl <;> simp)]
  exact fun _ h => absurd h List.not_mem_nil

/-- Any other event must be no glyph, and neither may those up to the next return. -/
theorem noGlyphBeforeReturn_cons (hline : e ≠ char newline) (hreturn : e ≠ char carriageReturn) :
    NoGlyphBeforeReturn (e :: es) ↔ ¬ e.IsGlyph ∧ NoGlyphBeforeReturn es := by
  unfold NoGlyphBeforeReturn
  rw [List.takeWhile_cons_of_pos (by simp [hline, hreturn]), noGlyph_cons]

/-- An event of the terminal is its start, a newline, a carriage return, a tab, or a character with
a glyph. -/
theorem cases (e : TerminalEvent) : e = start ∨ e = char newline ∨ e = char carriageReturn ∨
    e = char tab ∨ ∃ c, e = char c ∧ (char c).IsGlyph := by
  cases e with
  | start => exact Or.inl rfl
  | char c =>
    by_cases hline : c = newline
    · exact Or.inr (Or.inl (by rw [hline]))
    by_cases hreturn : c = carriageReturn
    · exact Or.inr (Or.inr (Or.inl (by rw [hreturn])))
    by_cases htab : c = tab
    · exact Or.inr (Or.inr (Or.inr (Or.inl (by rw [htab]))))
    · exact Or.inr (Or.inr (Or.inr (Or.inr ⟨c, rfl, hline, hreturn, htab⟩)))

end TerminalEvent

namespace Terminal

open TerminalEvent

variable {g : Grid} {t : Terminal} {e : TerminalEvent} {es : List TerminalEvent} {c : Byte}

/-! ## Single events -/

/-- At the bottom of the grid a start scrolls, and goes on in the last row but one. -/
theorem event_start_bottom (h : t.terminalRow = g.height) :
    event g t .start = ({ t with terminalRow := g.height - 2 }, []) := by
  have hheight := g.height_ge
  have hlt := g.height_lt
  have hrow : uint32 ((t.scrollup g).terminalRow - 1) = g.height - 2 := by
    simp only [scrollup, uint32]
    omega
  rw [event, startString, if_pos h, hrow]
  rfl

/-- Above the bottom a start changes nothing. -/
theorem event_start_other (h : t.terminalRow ≠ g.height) : event g t .start = (t, []) := by
  rw [event, startString, if_neg h]

/-- A newline goes to the beginning of the next row. -/
theorem event_newline : event g t (.char newline) =
    ({ terminalRow := uint32 (t.terminalRow + 1), terminalColumn := 0 }, []) := rfl

/-- A carriage return goes to the beginning of the row. -/
theorem event_return :
    event g t (.char carriageReturn) = ({ t with terminalColumn := 0 }, []) := rfl

/-- A tab goes to the next stop of the row. -/
theorem event_tab : event g t (.char tab) = ({ t with terminalColumn := t.nextStop }, []) := rfl

/-- A glyph is drawn at the cursor, which then advances. -/
theorem event_glyph (h : (char c).IsGlyph) :
    event g t (.char c) = (t.advance g, [⟨c, t.terminalColumn, t.terminalRow⟩]) := by
  obtain ⟨hline, hreturn, htab⟩ := h
  rw [event, putchar, if_neg hline, if_neg hreturn, if_neg htab]

/-- Nothing is drawn but for a glyph. -/
theorem drawn_eq_nil (h : ¬ e.IsGlyph) : (event g t e).2 = [] := by
  rcases e.cases with rfl | rfl | rfl | rfl | ⟨c, rfl, hc⟩
  · rfl
  · rw [event_newline]
  · rw [event_return]
  · rw [event_tab]
  · exact absurd hc h

/-- A glyph in the grid leaves the cursor in the grid. -/
theorem advance_inside (hrow : t.terminalRow < g.height) (hcolumn : t.terminalColumn < g.width) :
    (t.advance g).terminalRow < g.height ∧ (t.advance g).terminalColumn < g.width := by
  have hwidth := g.width_lt
  have hheight := g.height_lt
  unfold advance
  split_ifs with hend hlast
  · exact ⟨by simp only; omega, by simp only; omega⟩
  · unfold uint32 at hend hlast ⊢
    exact ⟨by simp only; omega, by simp only; omega⟩
  · unfold uint32 at hend ⊢
    exact ⟨hrow, by simp only; omega⟩

/-! ## Careful calls -/

/-- An event that is followed as it must be draws in the grid, and the rest is as safe. -/
theorem Safe.event (h : Safe g t (e :: es)) (hfollowed : Followed g t e es) :
    (∀ d ∈ (event g t e).2, g.Has d) ∧ Safe g (event g t e).1 es := by
  have hheight := g.height_lt
  rcases h with hnone | ⟨hrow, hcolumn⟩
  · obtain ⟨he, hes⟩ := noGlyph_cons.mp hnone
    rw [drawn_eq_nil he]
    exact ⟨fun d hd => absurd hd List.not_mem_nil, Or.inl hes⟩
  rcases e.cases with rfl | rfl | rfl | rfl | ⟨c, rfl, hc⟩
  · have hcolumn' : t.terminalColumn < g.width ∨ NoGlyphBeforeReturn es :=
      hcolumn.imp_right fun h => ((noGlyphBeforeReturn_cons (by simp) (by simp)).mp h).2
    by_cases hbottom : t.terminalRow = g.height
    · have hge := g.height_ge
      rw [event_start_bottom hbottom]
      exact ⟨fun d hd => absurd hd List.not_mem_nil,
        Or.inr ⟨Or.inl (by simp only; omega), hcolumn'⟩⟩
    · rw [event_start_other hbottom]
      exact ⟨fun d hd => absurd hd List.not_mem_nil,
        Or.inr ⟨Or.inl (hrow.resolve_right fun h => hbottom h.1), hcolumn'⟩⟩
  · rw [event_newline]
    refine ⟨fun d hd => absurd hd List.not_mem_nil, ?_⟩
    rcases hrow with hrow | ⟨-, hbefore⟩
    · refine Or.inr ⟨?_, Or.inl g.width_pos⟩
      have hnext : uint32 (t.terminalRow + 1) = t.terminalRow + 1 := by
        unfold uint32
        omega
      simp only [hnext]
      by_cases hlast : t.terminalRow + 1 = g.height
      · exact Or.inr ⟨hlast, hfollowed.1 rfl hlast⟩
      · exact Or.inl (by omega)
    · exact Or.inl (((noGlyphBeforeStart_cons (by simp)).mp hbefore).2.2 rfl)
  · rw [event_return]
    refine ⟨fun d hd => absurd hd List.not_mem_nil, Or.inr ⟨?_, Or.inl g.width_pos⟩⟩
    exact hrow.imp_right fun h => ⟨h.1, ((noGlyphBeforeStart_cons (by simp)).mp h.2).2.1⟩
  · rw [event_tab]
    refine ⟨fun d hd => absurd hd List.not_mem_nil, Or.inr ⟨?_, ?_⟩⟩
    · exact hrow.imp_right fun h => ⟨h.1, ((noGlyphBeforeStart_cons (by simp)).mp h.2).2.1⟩
    · by_cases hstop : t.nextStop < g.width
      · exact Or.inl hstop
      · exact Or.inr (hfollowed.2 rfl (by omega))
  · have hline : char c ≠ char newline := fun h => hc.1 (TerminalEvent.char.inj h)
    have hreturn : char c ≠ char carriageReturn := fun h => hc.2.1 (TerminalEvent.char.inj h)
    have hrow' : t.terminalRow < g.height := hrow.resolve_right fun h =>
      ((noGlyphBeforeStart_cons (by simp)).mp h.2).1 hc
    have hcolumn' : t.terminalColumn < g.width := hcolumn.resolve_right fun h =>
      ((noGlyphBeforeReturn_cons hline hreturn).mp h).1 hc
    obtain ⟨hnext, hnext'⟩ := advance_inside hrow' hcolumn'
    rw [event_glyph hc]
    exact ⟨List.forall_mem_singleton.mpr ⟨hcolumn', hrow'⟩,
      Or.inr ⟨Or.inl hnext, Or.inl hnext'⟩⟩

/-- A run draws inside the grid exactly if its first event does and the rest does from there on. -/
theorem inside_cons : Inside g t (e :: es) ↔
    (∀ d ∈ (event g t e).2, g.Has d) ∧ Inside g (event g t e).1 es := by
  unfold Inside
  rw [runOutput_cons]
  exact List.forall_mem_append

/-- From a safe cursor a careful run draws inside the grid, event by event. -/
theorem Safe.inside (h : Safe g t es) (hcareful : Careful g t es) : Inside g t es := by
  induction es generalizing t with
  | nil => exact fun d hd => absurd hd List.not_mem_nil
  | cons e es ih =>
    obtain ⟨hdrawn, hnext⟩ := h.event hcareful.1
    exact inside_cons.mpr ⟨hdrawn, ih hnext hcareful.2⟩

/-! ## Calls that draw in the grid -/

/-- The cursor moves by one row and by `TAB_WIDTH` columns at most. -/
theorem event_le (g : Grid) (t : Terminal) (e : TerminalEvent) :
    (event g t e).1.terminalRow ≤ t.terminalRow + 1 ∧
      (event g t e).1.terminalColumn ≤ t.terminalColumn + 12 := by
  rcases e.cases with rfl | rfl | rfl | rfl | ⟨c, rfl, hc⟩
  · by_cases hbottom : t.terminalRow = g.height
    · rw [event_start_bottom hbottom]
      simp only
      omega
    · rw [event_start_other hbottom]
      simp only
      omega
  · rw [event_newline]
    simp only [uint32]
    omega
  · rw [event_return]
    simp only
    omega
  · rw [event_tab]
    simp only [nextStop, uint32, tabWidth]
    omega
  · rw [event_glyph hc]
    unfold advance
    split_ifs
    · simp only
      omega
    · simp only [uint32]
      omega
    · simp only [uint32]
      omega

/-- Nothing is drawn from outside of the grid. -/
theorem not_isGlyph (hdrawn : ∀ d ∈ (event g t e).2, g.Has d)
    (hout : g.width ≤ t.terminalColumn ∨ g.height ≤ t.terminalRow) : ¬ e.IsGlyph := by
  intro he
  cases e with
  | start => exact he
  | char c =>
    rw [event_glyph he] at hdrawn
    obtain ⟨hcolumn, hrow⟩ := List.forall_mem_singleton.mp hdrawn
    simp only at hcolumn hrow
    omega

/-- A newline adds one to the row, as long as the counter does not wrap. -/
theorem event_row_newline (hlt : t.terminalRow + 1 < 2 ^ 32) :
    (event g t (.char newline)).1.terminalRow = t.terminalRow + 1 := by
  rw [event_newline]
  simp only [uint32]
  omega

/-- The row stays, but for newlines, glyphs and the start of a string below the grid. -/
theorem event_row_eq (he : ¬ e.IsGlyph) (hline : e ≠ .char newline)
    (hstart : e = .start → t.terminalRow ≠ g.height) :
    (event g t e).1.terminalRow = t.terminalRow := by
  rcases e.cases with rfl | rfl | rfl | rfl | ⟨c, rfl, hc⟩
  · rw [event_start_other (hstart rfl)]
  · exact absurd rfl hline
  · rw [event_return]
  · rw [event_tab]
  · exact absurd hc he

/-- The next stop is not before the cursor, as long as the counter does not wrap. -/
theorem le_nextStop (hlt : t.terminalColumn + 12 < 2 ^ 32) : t.terminalColumn ≤ t.nextStop := by
  have hle : tabWidth - t.terminalColumn % tabWidth ≤ 12 := Nat.sub_le _ _
  rw [nextStop, ← Int.natCast_add, uint32_of_lt (by omega)]
  exact Nat.le_add_right _ _

/-- The column does not go back, but for newlines, carriage returns and glyphs. -/
theorem le_event_column (he : ¬ e.IsGlyph) (hline : e ≠ .char newline)
    (hreturn : e ≠ .char carriageReturn) (hlt : t.terminalColumn + 12 < 2 ^ 32) :
    t.terminalColumn ≤ (event g t e).1.terminalColumn := by
  rcases e.cases with rfl | rfl | rfl | rfl | ⟨c, rfl, hc⟩
  · by_cases hbottom : t.terminalRow = g.height
    · rw [event_start_bottom hbottom]
    · rw [event_start_other hbottom]
  · exact absurd rfl hline
  · exact absurd rfl hreturn
  · have htab : (event g t (.char tab)).1.terminalColumn = t.nextStop := by rw [event_tab]
    rw [htab]
    exact le_nextStop hlt
  · exact absurd hc he

/-- A cursor further below than the first row under the grid stays there. -/
theorem noGlyph_of_below (h : Inside g t es) (hrow : g.height < t.terminalRow)
    (hlt : t.terminalRow + es.length < 2 ^ 32) : NoGlyph es := by
  induction es generalizing t with
  | nil => exact fun e he => absurd he List.not_mem_nil
  | cons e es ih =>
    rw [List.length_cons] at hlt
    obtain ⟨hdrawn, hrest⟩ := inside_cons.mp h
    have hglyph := not_isGlyph hdrawn (Or.inr hrow.le)
    refine noGlyph_cons.mpr ⟨hglyph, ih hrest ?_ ?_⟩
    · by_cases hline : e = .char newline
      · rw [hline, event_row_newline (by omega)]
        omega
      · rwa [event_row_eq hglyph hline fun _ => by omega]
    · have hle := (event_le g t e).1
      omega

/-- A cursor in the first row under the grid comes back only where a string starts. -/
theorem noGlyphBeforeStart_of_bottom (h : Inside g t es) (hrow : t.terminalRow = g.height)
    (hlt : t.terminalRow + es.length < 2 ^ 32) : NoGlyphBeforeStart es := by
  induction es generalizing t with
  | nil => exact NoGlyph.beforeStart fun e he => absurd he List.not_mem_nil
  | cons e es ih =>
    rw [List.length_cons] at hlt
    obtain ⟨hdrawn, hrest⟩ := inside_cons.mp h
    have hglyph := not_isGlyph hdrawn (Or.inr hrow.ge)
    have hle := (event_le g t e).1
    by_cases hstart : e = .start
    · rw [hstart]
      exact noGlyphBeforeStart_start
    by_cases hline : e = .char newline
    · have hnext : (event g t e).1.terminalRow = t.terminalRow + 1 := by
        rw [hline]
        exact event_row_newline (by omega)
      have hnone := noGlyph_of_below hrest (by omega) (by omega)
      exact (noGlyph_cons.mpr ⟨hglyph, hnone⟩).beforeStart
    · have hnext : (event g t e).1.terminalRow = t.terminalRow :=
        event_row_eq hglyph hline fun h => absurd h hstart
      exact (noGlyphBeforeStart_cons hstart).mpr
        ⟨hglyph, ih hrest (hnext.trans hrow) (by omega), fun h => absurd h hline⟩

/-- A cursor to the right of the grid comes back only with a newline or a carriage return. -/
theorem noGlyphBeforeReturn_of_right (h : Inside g t es) (hcolumn : g.width ≤ t.terminalColumn)
    (hlt : t.terminalColumn + 12 * es.length < 2 ^ 32) : NoGlyphBeforeReturn es := by
  induction es generalizing t with
  | nil => exact fun e he => absurd he List.not_mem_nil
  | cons e es ih =>
    rw [List.length_cons] at hlt
    obtain ⟨hdrawn, hrest⟩ := inside_cons.mp h
    have hglyph := not_isGlyph hdrawn (Or.inl hcolumn)
    have hle := (event_le g t e).2
    by_cases hline : e = .char newline
    · exact noGlyphBeforeReturn_return (Or.inl hline)
    by_cases hreturn : e = .char carriageReturn
    · exact noGlyphBeforeReturn_return (Or.inr hreturn)
    have hge := le_event_column (g := g) (t := t) hglyph hline hreturn (by omega)
    exact (noGlyphBeforeReturn_cons hline hreturn).mpr
      ⟨hglyph, ih hrest (hcolumn.trans hge) (by omega)⟩

/-- Calls that draw in the grid are careful. -/
theorem careful_of_inside (h : Inside g t es) (hrow : t.terminalRow + es.length < 2 ^ 32)
    (hcolumn : t.terminalColumn + 12 * es.length < 2 ^ 32) : Careful g t es := by
  induction es generalizing t with
  | nil => trivial
  | cons e es ih =>
    rw [List.length_cons] at hrow hcolumn
    obtain ⟨hle, hle'⟩ := event_le g t e
    have hrest := (inside_cons.mp h).2
    refine ⟨⟨?_, ?_⟩, ih hrest (by omega) (by omega)⟩
    · intro hline hlast
      have hnext : (event g t e).1.terminalRow = t.terminalRow + 1 := by
        rw [hline]
        exact event_row_newline (by omega)
      exact noGlyphBeforeStart_of_bottom hrest (hnext.trans hlast) (by omega)
    · intro htab hstop
      have hnext : (event g t e).1.terminalColumn = t.nextStop := by rw [htab, event_tab]
      exact noGlyphBeforeReturn_of_right hrest (hstop.trans_eq hnext.symm) (by omega)

/-- **The terminal draws in its grid if nothing is drawn from outside of it.** For every size of
the grid, every cursor in it and all calls: everything is drawn in the grid if each newline in the
last row has the start of a string after it before the next newline and before anything is drawn,
and each tab past the last column has a newline or a carriage return after it before anything is
drawn. Unless the counters wrap around, nothing less will do. -/
theorem drawsInside_iff (g : Grid) (t : Terminal) (calls : List TerminalCall)
    (hrow : t.terminalRow < g.height) (hcolumn : t.terminalColumn < g.width) :
    (Careful g t (calls.flatMap TerminalCall.events) → t.DrawsInside g calls) ∧
      (t.terminalRow + (calls.flatMap TerminalCall.events).length < 2 ^ 32 →
        t.terminalColumn + 12 * (calls.flatMap TerminalCall.events).length < 2 ^ 32 →
        t.DrawsInside g calls → Careful g t (calls.flatMap TerminalCall.events)) := by
  have hinside : t.DrawsInside g calls ↔ Inside g t (calls.flatMap TerminalCall.events) := by
    rw [DrawsInside, runOutput_call]
    rfl
  rw [hinside]
  refine ⟨fun hcareful => ?_, fun hrow' hcolumn' h => careful_of_inside h hrow' hcolumn'⟩
  have hsafe : Safe g t (calls.flatMap TerminalCall.events) :=
    Or.inr ⟨Or.inl hrow, Or.inl hcolumn⟩
  exact hsafe.inside hcareful

/-- 80 columns and 25 rows. -/
def grid80x25 : Grid := ⟨80, 25, by decide, by decide, by decide, by decide⟩

/-- The first of two strings ends with a newline in the last row. -/
theorem drawsInside_lines : Terminal.DrawsInside grid80x25 ⟨24, 0⟩
    [.writestring [0x61, newline], .writestring [0x62]] :=
  (drawsInside_iff grid80x25 ⟨24, 0⟩ _ (by decide) (by decide)).1 (by decide)

/-- Below the last row, with the newline inside a string, and to the right of the last column,
after a tab. -/
theorem not_drawsInside_line_tab :
    (runOutput (call grid80x25) ⟨24, 0⟩ [.writestring [0x61, newline, 0x62]]).2 =
      [⟨0x61, 0, 24⟩, ⟨0x62, 0, 25⟩] ∧
    (runOutput (call grid80x25) ⟨3, 72⟩ [.putchar tab, .putchar 0x61]).2 = [⟨0x61, 84, 3⟩] ∧
    ¬ Terminal.DrawsInside grid80x25 ⟨24, 0⟩ [.writestring [0x61, newline, 0x62]] := by
  refine ⟨by decide, by decide, fun h => ?_⟩
  have hrow := (h ⟨0x62, 0, 25⟩ (by decide)).2
  exact absurd hrow (by decide)

end Terminal

end Muk
