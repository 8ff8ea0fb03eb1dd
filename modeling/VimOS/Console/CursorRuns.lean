import VimOS.Console.PutConsole
import VimOS.Console.Scroll
import VimOS.Library.Run

/-!
# Where the cursor goes

Calls of `put_console` one after the other, each with memory of its own: a session goes from one
input of a string to the next. Behind the NUL a string goes on with whatever lies there, as a
sequence cut off may be decoded together with it.

Both results about every session rest on one invariant, `Console.Within`, that the cursor and the
saved line lie below given bounds, in steps of a character. It is kept by an input for which there
is room. On the grid the bounds are its edges, and tabs and two of the escape sequences may leave no
room; for the frame buffer they are those of an `int`, and only an overflow leaves none.
-/

namespace VimOS

open GuardedRun Signed32

/-! ## Sessions -/

/-- `put_console` before an iteration: `s` stands at index `pos` of `mem`. Besides, all that
`put_char` has stored so far. -/
structure Session where
  console : Console
  mem : ℕ → Byte
  pos : ℕ
  stores : List (ℤ × Byte)

/-- A call with a string in memory, or the next iteration of its loop. -/
inductive ConsoleEvent
  | call (mem : ℕ → Byte)
  | input (input : Input)

/-- Memory that can be read everywhere. -/
def readable (mem : ℕ → Byte) (i : ℕ) : Except Fault Byte := .ok (mem i)

def Drawing.stores (g : Geometry) (font : ℕ → Byte) : Drawing → List (ℤ × Byte)
  | .putChar glyph => VimOS.putChar g font glyph.c glyph.x glyph.y glyph.colour
  | .scrollScreen => []

/-- The session behind an input of `n` characters. -/
def Session.after (g : Geometry) (font : ℕ → Byte) (s : Session) (input : Input) (n : ℕ) :
    Session where
  console := (s.console.apply g input).1
  mem := s.mem
  pos := s.pos + n
  stores := s.stores ++ (s.console.apply g input).2.flatMap (Drawing.stores g font)

/-- A call comes when the last one has returned, which is at a NUL. -/
inductive Session.Step (g : Geometry) (font : ℕ → Byte) : Session → ConsoleEvent → Session → Prop
  | call {s : Session} (mem : ℕ → Byte) (hend : s.mem s.pos = 0) :
      Session.Step g font s (.call mem) { s with mem := mem, pos := 0 }
  | input {s : Session} {input : Input} {n : ℕ} (hmore : s.mem s.pos ≠ 0)
      (hdecode : decodeInput (readable s.mem) s.pos = .ok (input, n)) :
      Session.Step g font s (.input input) (s.after g font input n)

/-- Before the first call. -/
def Session.start : Session := ⟨.start, fun _ ↦ 0, 0, []⟩

section Runs

variable {g : Geometry} {font : ℕ → Byte} {s s' : Session} {after : Console} {stop fuel : ℕ}
  {drawings : List Drawing}

/-- The first iteration of a loop that goes right, and the rest. -/
theorem exists_next {mem : ℕ → Byte} {pos : ℕ} {k : Console} (hmore : mem pos ≠ 0)
    (h : putConsole g (readable mem) (fuel + 1) pos k = .ok (after, drawings, stop)) :
    ∃ input n rest, decodeInput (readable mem) pos = .ok (input, n) ∧
      putConsole g (readable mem) fuel (pos + n) (k.apply g input).1 = .ok (after, rest, stop) ∧
      drawings = (k.apply g input).2 ++ rest := by
  cases hdecode : decodeInput (readable mem) pos with
  | error fault =>
    rw [putConsole, readable, ok_bind, if_neg hmore, hdecode] at h
    cases h
  | ok decoded =>
    rw [putConsole_succ rfl hmore hdecode] at h
    cases hrest : putConsole g (readable mem) fuel (pos + decoded.2) (k.apply g decoded.1).1 with
    | error fault =>
      rw [hrest] at h
      cases h
    | ok result =>
      rw [hrest] at h
      cases h
      exact ⟨decoded.1, decoded.2, result.2.1, rfl, hrest, rfl⟩

/-- The loop of `put_console` is a run, to a session that has come to the NUL. -/
theorem run_of_putConsole
    (h : putConsole g (readable s.mem) fuel s.pos s.console = .ok (after, drawings, stop)) :
    Run (Session.Step g font) (fun _ _ ↦ True) s
        ⟨after, s.mem, stop, s.stores ++ drawings.flatMap (Drawing.stores g font)⟩ ∧
      s.mem stop = 0 := by
  induction fuel generalizing s drawings with
  | zero => cases h
  | succ fuel ih =>
    by_cases hnul : s.mem s.pos = 0
    · rw [putConsole, readable, ok_bind, if_pos hnul] at h
      cases h
      refine ⟨?_, hnul⟩
      rw [List.flatMap_nil, List.append_nil]
      exact Run.refl _
    · obtain ⟨input, n, rest, hdecode, hrest, rfl⟩ := exists_next hnul h
      obtain ⟨hrun, hend⟩ := ih (s := s.after g font input n) hrest
      refine ⟨Run.head trivial (.input hnul hdecode) ?_, hend⟩
      rw [List.flatMap_append, ← List.append_assoc]
      exact hrun

end Runs

/-! ## Inputs -/

/-- The number of an escape sequence is one digit. -/
def Input.OneDigit : Input → Prop
  | .up num | .down num | .right num | .left num => num ≤ 9
  | _ => True

theorem decodeEscape_oneDigit {mem : ℕ → Byte} {pos n : ℕ} {input : Input}
    (h : decodeEscape (readable mem) pos = .ok (input, n)) : input.OneDigit := by
  rw [decodeEscape] at h
  simp only [readable, ok_bind] at h
  split at h
  next hdigit =>
    have hle : (mem (pos + 2)).toNat - 0x30 ≤ 9 := by
      rw [isDigit, decide_eq_true_eq] at hdigit
      have hnine := hdigit.2
      rw [BitVec.le_def] at hnine
      exact Nat.sub_le_of_le_add hnine
    split_ifs at h <;> cases h <;> first | exact hle | exact trivial
  next =>
    cases h
    exact trivial

theorem decodeInput_oneDigit {mem : ℕ → Byte} {pos n : ℕ} {input : Input}
    (h : decodeInput (readable mem) pos = .ok (input, n)) : input.OneDigit := by
  rw [decodeInput] at h
  simp only [readable, ok_bind] at h
  split at h
  · split at h
    · exact decodeEscape_oneDigit h
    · cases h
      exact trivial
  · split_ifs at h <;> cases h <;> exact trivial

/-! ## Bounds for the cursor -/

/-- A display with at least one character, whose sizes are `int`s. -/
structure Geometry.HasCells (g : Geometry) : Prop where
  width : 8 ≤ g.width
  height : 16 ≤ g.height
  width_lt : g.width < 2 ^ 31
  height_lt : g.height < 2 ^ 31

/-- The saved line, if any, is one below the bound. -/
def Console.SavedWithin (ybound : ℤ) (k : Console) : Prop :=
  k.tmpy = -1 ∨ 0 ≤ k.tmpy ∧ k.tmpy < ybound ∧ 16 ∣ k.tmpy

/-- The cursor lies below the bounds, at the corner of a character, and so does the saved line. -/
structure Console.Within (xbound ybound : ℤ) (k : Console) : Prop where
  x_nonneg : 0 ≤ k.x
  x_lt : k.x < xbound
  x_dvd : 8 ∣ k.x
  y_nonneg : 0 ≤ k.y
  y_lt : k.y < ybound
  y_dvd : 16 ∣ k.y
  saved : k.SavedWithin ybound

/-- The line below is the one behind the last, or lies below the bound. -/
def Console.LineRoom (g : Geometry) (ybound : ℤ) (k : Console) : Prop :=
  k.y + 16 = g.rows ∨ k.y + 16 < ybound

/-- The cursor does not come to a bound where the code has no clamp. -/
def Console.Room (g : Geometry) (xbound ybound : ℤ) (k : Console) : Input → Prop
  | .glyph _ => k.x = g.width ∨ (k.x + 8 = g.cols ∧ k.LineRoom g ybound) ∨
      (k.x + 8 ≠ g.cols ∧ k.x + 8 < xbound)
  | .tab => k.x + tabWidth k.x < xbound
  | .newline => k.tmpy = -1 → k.LineRoom g ybound
  | .down num => k.y + 16 * num < 2 ^ 31 ∧ (k.y + 16 * num ≤ g.rows → k.y + 16 * num < ybound)
  | .right num => k.x + 8 * num < 2 ^ 31 ∧ (k.x + 8 * num ≤ g.cols → k.x + 8 * num < xbound)
  | _ => True

section Within

variable {g : Geometry} {k : Console} {xbound ybound : ℤ} {input : Input} {num : ℕ}

theorem Geometry.HasCells.cols_bounds (h : g.HasCells) :
    8 ≤ g.cols ∧ g.cols ≤ g.width ∧ 8 ∣ g.cols := by
  have hwidth := h.width
  have hlt := h.width_lt
  rw [cols, Int.tdiv_eq_ediv_of_nonneg (by omega), wrap_eq_self (by omega) (by omega)]
  omega

theorem Geometry.HasCells.rows_bounds (h : g.HasCells) :
    16 ≤ g.rows ∧ g.rows ≤ g.height ∧ 16 ∣ g.rows := by
  have hheight := h.height
  have hlt := h.height_lt
  rw [rows, Int.tdiv_eq_ediv_of_nonneg (by omega), wrap_eq_self (by omega) (by omega)]
  omega

theorem Console.tabWidth_cases (x : ℤ) : tabWidth x = 8 ∨ tabWidth x = 16 := by
  rw [tabWidth]
  split
  · exact .inl rfl
  · exact .inr rfl

/-- The bounds are those of `int`s, and the last row and column lie below them. -/
structure Geometry.Bounds (g : Geometry) (xbound ybound : ℤ) : Prop extends g.HasCells where
  x_le : xbound ≤ 2 ^ 31
  y_le : ybound ≤ 2 ^ 31
  cols_le : g.cols ≤ xbound
  rows_le : g.rows ≤ ybound

theorem Console.within_of {x y tmpx tmpy : ℤ} {colour : Rgb} (hx : 0 ≤ x) (hxlt : x < xbound)
    (hxdvd : 8 ∣ x) (hy : 0 ≤ y) (hylt : y < ybound) (hydvd : 16 ∣ y)
    (hsaved : tmpy = -1 ∨ 0 ≤ tmpy ∧ tmpy < ybound ∧ 16 ∣ tmpy) :
    Console.Within xbound ybound ⟨x, y, tmpx, tmpy, colour⟩ :=
  ⟨hx, hxlt, hxdvd, hy, hylt, hydvd, hsaved⟩

theorem Console.lineFeed_within (hg : g.Bounds xbound ybound) (hy : -16 ≤ k.y) (hdvd : 16 ∣ k.y)
    (hroom : k.LineRoom g ybound) (hsaved : k.SavedWithin ybound) :
    (k.lineFeed g).1.Within xbound ybound := by
  have hrows := hg.rows_bounds
  have hcols := hg.cols_bounds
  have hxle := hg.cols_le
  have hyle := hg.rows_le
  have hlt := hg.height_lt
  have hint := hg.y_le
  rw [LineRoom] at hroom
  rw [lineFeed, wrap_eq_self (by omega) (by omega)]
  split
  next heq =>
    dsimp only at heq ⊢
    rw [wrap_eq_self (by omega) (by omega)]
    exact within_of le_rfl (by omega) (dvd_zero _) (by omega) (by omega) (by omega) hsaved
  next hne =>
    dsimp only at hne ⊢
    exact within_of le_rfl (by omega) (dvd_zero _) (by omega) (by omega) (by omega) hsaved

theorem Console.Within.print (h : k.Within xbound ybound) (hg : g.Bounds xbound ybound) (c : Byte)
    (hroom : k.Room g xbound ybound (.glyph c)) : (k.print g c).1.Within xbound ybound := by
  have hcols := hg.cols_bounds
  have hlt := hg.width_lt
  have hint := hg.x_le
  have hx := h.x_nonneg
  have hxlt := h.x_lt
  have hdvd := h.x_dvd
  have hy := h.y_nonneg
  rw [Console.print]
  split
  next hin =>
    have hright : k.x + 8 = g.cols ∧ k.LineRoom g ybound ∨
        k.x + 8 ≠ g.cols ∧ k.x + 8 < xbound := hroom.resolve_left hin
    rw [wrap_eq_self (by omega) (by omega)]
    dsimp only
    split
    next heq =>
      have hline := (hright.resolve_right fun h ↦ h.1 heq).2
      exact lineFeed_within hg (by dsimp only; omega) h.y_dvd hline h.saved
    next hne =>
      have hfree := (hright.resolve_left fun h ↦ hne h.1).2
      exact within_of (by omega) hfree (by omega) h.y_nonneg h.y_lt h.y_dvd h.saved
  next => exact h

theorem Console.Within.backspace (h : k.Within xbound ybound) (hg : g.Bounds xbound ybound) :
    k.backspace.1.Within xbound ybound := by
  have hint := hg.x_le
  have hxlt := h.x_lt
  have hdvd := h.x_dvd
  rw [Console.backspace]
  split
  next hle =>
    dsimp only
    rw [wrap_eq_self (by omega) (by omega)]
    exact within_of (by omega) (by omega) (by omega) h.y_nonneg h.y_lt h.y_dvd h.saved
  next => exact h

theorem Console.Within.newline (h : k.Within xbound ybound) (hg : g.Bounds xbound ybound)
    (hroom : k.Room g xbound ybound .newline) : (k.newline g).1.Within xbound ybound := by
  have hy := h.y_nonneg
  have hint := hg.y_le
  rw [Console.newline]
  rcases h.saved with hnone | ⟨hnonneg, hlt, hdvd⟩
  · rw [if_neg (not_not.mpr hnone)]
    exact lineFeed_within hg (by dsimp only; omega) h.y_dvd (hroom hnone) (.inl rfl)
  · -- the line feed goes on from the line in front of the saved one
    rw [if_pos (by omega : k.tmpy ≠ -1), wrap_eq_self (by omega) (by omega)]
    refine lineFeed_within hg (by dsimp only; omega) (by dsimp only; omega) (.inr ?_) (.inl rfl)
    dsimp only
    omega

/-- An upward or downward sequence saves the line if none is saved. -/
theorem Console.Within.saved_if (h : k.Within xbound ybound) :
    (if k.tmpy = -1 then k.y else k.tmpy) = -1 ∨
      0 ≤ (if k.tmpy = -1 then k.y else k.tmpy) ∧
        (if k.tmpy = -1 then k.y else k.tmpy) < ybound ∧
        16 ∣ (if k.tmpy = -1 then k.y else k.tmpy) := by
  split
  · exact .inr ⟨h.y_nonneg, h.y_lt, h.y_dvd⟩
  · exact h.saved

theorem Console.Within.up (h : k.Within xbound ybound) (hg : g.Bounds xbound ybound)
    (hnum : num ≤ 9) : (k.up num).Within xbound ybound := by
  have hint := hg.y_le
  have hy := h.y_nonneg
  have hlt := h.y_lt
  have hdvd := h.y_dvd
  rw [Console.up, wrap_eq_self (by omega) (by omega)]
  refine within_of h.x_nonneg h.x_lt h.x_dvd ?_ ?_ ?_ h.saved_if <;>
  · split <;> omega

theorem Console.Within.left (h : k.Within xbound ybound) (hg : g.Bounds xbound ybound)
    (hnum : num ≤ 9) : (k.left num).Within xbound ybound := by
  have hint := hg.x_le
  have hx := h.x_nonneg
  have hlt := h.x_lt
  have hdvd := h.x_dvd
  rw [Console.left, wrap_eq_self (by omega) (by omega)]
  refine within_of ?_ ?_ ?_ h.y_nonneg h.y_lt h.y_dvd h.saved <;>
  · split <;> omega

theorem Console.Within.down (h : k.Within xbound ybound) (hg : g.Bounds xbound ybound)
    (hroom : k.Room g xbound ybound (.down num)) : (k.down g num).Within xbound ybound := by
  have hrows := hg.rows_bounds
  have hle := hg.rows_le
  have hlt := hg.height_lt
  have hy := h.y_nonneg
  have hdvd := h.y_dvd
  obtain ⟨hint, hfree⟩ := hroom
  rw [Console.down, wrap_eq_self (by omega) hint, wrap_eq_self (by omega) (by omega)]
  refine within_of h.x_nonneg h.x_lt h.x_dvd ?_ ?_ ?_ h.saved_if <;>
  · split <;> omega

theorem Console.Within.right (h : k.Within xbound ybound) (hg : g.Bounds xbound ybound)
    (hroom : k.Room g xbound ybound (.right num)) : (k.right g num).Within xbound ybound := by
  have hcols := hg.cols_bounds
  have hle := hg.cols_le
  have hlt := hg.width_lt
  have hx := h.x_nonneg
  have hdvd := h.x_dvd
  obtain ⟨hint, hfree⟩ := hroom
  rw [Console.right, wrap_eq_self (by omega) hint, wrap_eq_self (by omega) (by omega)]
  refine within_of ?_ ?_ ?_ h.y_nonneg h.y_lt h.y_dvd h.saved <;>
  · split <;> omega

/-- **The cursor stays below the bounds** while there is room. -/
theorem Console.Within.apply (h : k.Within xbound ybound) (hg : g.Bounds xbound ybound)
    (hdigit : input.OneDigit) (hroom : k.Room g xbound ybound input) :
    (k.apply g input).1.Within xbound ybound := by
  cases input with
  | glyph c => exact h.print hg c hroom
  | tab =>
    have hint := hg.x_le
    have hx := h.x_nonneg
    have hdvd := h.x_dvd
    have hcases := tabWidth_cases k.x
    have hlt : k.x + tabWidth k.x < xbound := hroom
    have hwrap := wrap_eq_self (by omega : -2 ^ 31 ≤ k.x + tabWidth k.x) (by omega)
    rw [Console.apply, hwrap]
    exact within_of (by omega) hlt (by omega) h.y_nonneg h.y_lt h.y_dvd h.saved
  | backspace => exact h.backspace hg
  | newline => exact h.newline hg hroom
  | up num => exact h.up hg hdigit
  | down num => exact h.down hg hroom
  | right num => exact h.right hg hroom
  | left num => exact h.left hg hdigit
  | colour c => exact ⟨h.x_nonneg, h.x_lt, h.x_dvd, h.y_nonneg, h.y_lt, h.y_dvd, h.saved⟩
  | nothing => exact h

end Within

section Sessions

variable {g : Geometry} {font : ℕ → Byte} {s s' : Session} {event : ConsoleEvent}
  {xbound ybound : ℤ}

/-- There is room for the input of an event. -/
def Session.Room (g : Geometry) (xbound ybound : ℤ) (s : Session) : ConsoleEvent → Prop
  | .call _ => True
  | .input input => s.console.Room g xbound ybound input

theorem start_within (hg : g.Bounds xbound ybound) :
    Session.start.console.Within xbound ybound := by
  have hcols := hg.cols_bounds
  have hrows := hg.rows_bounds
  have hxle := hg.cols_le
  have hyle := hg.rows_le
  exact Console.within_of le_rfl (by omega) (dvd_zero _) le_rfl (by omega) (dvd_zero _) (.inl rfl)

theorem Session.Step.within (hstep : Session.Step g font s event s')
    (h : s.console.Within xbound ybound) (hg : g.Bounds xbound ybound)
    (hroom : s.Room g xbound ybound event) : s'.console.Within xbound ybound := by
  cases hstep with
  | call mem _ => exact h
  | input _ hdecode => exact h.apply hg (decodeInput_oneDigit hdecode) hroom

end Sessions

/-! ## The grid -/

/-- The cursor is in a cell of the display. -/
structure Console.OnGrid (g : Geometry) (k : Console) : Prop where
  x_nonneg : 0 ≤ k.x
  x_lt : k.x < g.cols
  y_nonneg : 0 ≤ k.y
  y_lt : k.y < g.rows

/-- No tab takes the cursor to the right edge or beyond, and no escape sequence exactly to the
edge, which is where the clamps let it pass. -/
def Console.StaysOn (g : Geometry) (k : Console) : Input → Prop
  | .tab => k.x + tabWidth k.x < g.cols
  | .down num => k.y + 16 * num ≠ g.rows ∧ k.y + 16 * num < 2 ^ 31
  | .right num => k.x + 8 * num ≠ g.cols ∧ k.x + 8 * num < 2 ^ 31
  | _ => True

/-- The inputs of a session stay on the grid. -/
def Session.StaysOn (g : Geometry) (s : Session) : ConsoleEvent → Prop
  | .call _ => True
  | .input input => s.console.StaysOn g input

section Grid

variable {g : Geometry} {k : Console} {input : Input}

theorem Geometry.HasCells.grid (h : g.HasCells) : g.Bounds g.cols g.rows where
  toHasCells := h
  x_le := h.cols_bounds.2.1.trans h.width_lt.le
  y_le := h.rows_bounds.2.1.trans h.height_lt.le
  cols_le := le_rfl
  rows_le := le_rfl

theorem Console.Within.onGrid (h : k.Within g.cols g.rows) : k.OnGrid g :=
  ⟨h.x_nonneg, h.x_lt, h.y_nonneg, h.y_lt⟩

theorem Console.Within.room_of_staysOn (h : k.Within g.cols g.rows) (hg : g.HasCells)
    (hstays : k.StaysOn g input) : k.Room g g.cols g.rows input := by
  have hcols := hg.cols_bounds
  have hrows := hg.rows_bounds
  have hx := h.x_lt
  have hxdvd := h.x_dvd
  have hy := h.y_lt
  have hydvd := h.y_dvd
  -- both edges are a whole number of characters away
  have hright : k.x + 8 = g.cols ∨ k.x + 8 < g.cols := by omega
  have hline : k.LineRoom g g.rows := by
    rw [LineRoom]
    omega
  cases input with
  | glyph c =>
    refine .inr (hright.imp (fun heq ↦ ⟨heq, hline⟩) fun hlt ↦ ⟨hlt.ne, hlt⟩)
  | tab => exact hstays
  | newline => exact fun _ ↦ hline
  | down num => exact ⟨hstays.2, fun hle ↦ lt_of_le_of_ne hle hstays.1⟩
  | right num => exact ⟨hstays.2, fun hle ↦ lt_of_le_of_ne hle hstays.1⟩
  | _ => exact trivial

/-- A clamp lets the edge itself pass, and a sum that overflows. -/
theorem lt_and_ne_of_clamped {z edge step : ℤ} (hedge : edge < 2 ^ 31) (hz : 0 ≤ z)
    (hzlt : z < 2 ^ 32) (hnonneg : 0 ≤ if edge < wrap z then wrap (edge - step) else wrap z)
    (hlt : (if edge < wrap z then wrap (edge - step) else wrap z) < edge) :
    z ≠ edge ∧ z < 2 ^ 31 := by
  have hwrap : wrap z = z ∧ z < 2 ^ 31 ∨ wrap z < 0 := by
    rw [wrap]
    omega
  split at hnonneg
  next hpast => omega
  next hin =>
    rw [if_neg hin] at hlt
    omega

/-- **One input** leaves the cursor on the grid exactly if it stays there. -/
theorem Console.Within.onGrid_iff (h : k.Within g.cols g.rows) (hg : g.HasCells)
    (hdigit : input.OneDigit) : (k.apply g input).1.OnGrid g ↔ k.StaysOn g input := by
  refine ⟨fun hgrid ↦ ?_, fun hstays ↦
    (h.apply hg.grid hdigit (h.room_of_staysOn hg hstays)).onGrid⟩
  have hcols := hg.cols_bounds
  have hrows := hg.rows_bounds
  have hwidth := hg.width_lt
  have hheight := hg.height_lt
  have hx := h.x_lt
  have hy := h.y_lt
  have hxpos := h.x_nonneg
  have hypos := h.y_nonneg
  have hxdvd := h.x_dvd
  have hydvd := h.y_dvd
  cases input with
  | tab =>
    have hcases := tabWidth_cases k.x
    have hnonneg : 0 ≤ wrap (k.x + tabWidth k.x) := hgrid.x_nonneg
    have hlt : wrap (k.x + tabWidth k.x) < g.cols := hgrid.x_lt
    rw [StaysOn]
    rw [wrap] at hnonneg hlt
    omega
  | down num =>
    have hnum : num ≤ 9 := hdigit
    exact lt_and_ne_of_clamped (by omega) (by omega) (by omega) hgrid.y_nonneg hgrid.y_lt
  | right num =>
    have hnum : num ≤ 9 := hdigit
    exact lt_and_ne_of_clamped (by omega) (by omega) (by omega) hgrid.x_nonneg hgrid.x_lt
  | _ => exact trivial

/-- **The cursor stays on the grid** in every session of which no tab takes it to the right edge
or beyond, and no escape sequence exactly to an edge. -/
theorem cursor_onGrid {font : ℕ → Byte} {s : Session} (hwidth : 8 ≤ g.width)
    (hheight : 16 ≤ g.height) (hwidth' : g.width < 2 ^ 31) (hheight' : g.height < 2 ^ 31)
    (hrun : Run (Session.Step g font) (Session.StaysOn g) .start s) : s.console.OnGrid g := by
  have hg : g.HasCells := ⟨hwidth, hheight, hwidth', hheight'⟩
  have hwithin : s.console.Within g.cols g.rows := by
    refine hrun.invariant (P := fun s ↦ s.console.Within g.cols g.rows) (start_within hg.grid)
      fun s event s' h hstays hstep ↦ hstep.within h hg.grid ?_
    cases event with
    | call mem => exact trivial
    | input input => exact h.room_of_staysOn hg hstays
  exact hwithin.onGrid

/-- Three times nine lines down, and three. -/
def linesDown : ℕ → Byte := fun i ↦
  [0x1b, 0x5b, 0x39, 0x42, 0x1b, 0x5b, 0x39, 0x42, 0x1b, 0x5b, 0x39, 0x42, 0x1b, 0x5b, 0x33,
    0x42].getD i 0

theorem decodeInput_linesDown :
    decodeInput (readable linesDown) 0 = .ok (.down 9, 4) ∧
      decodeInput (readable linesDown) 4 = .ok (.down 9, 4) ∧
      decodeInput (readable linesDown) 8 = .ok (.down 9, 4) ∧
      decodeInput (readable linesDown) 12 = .ok (.down 3, 4) :=
  ⟨rfl, rfl, rfl, rfl⟩

/-- They are passed to `put_console`. -/
def linesCalled : Session := ⟨.start, linesDown, 0, []⟩

def Session.lines (s : Session) (num : ℕ) : Session := s.after vga (fun _ ↦ 0) (.down num) 4

theorem step_linesCalled : Session.Step vga (fun _ ↦ 0) .start (.call linesDown) linesCalled :=
  .call linesDown rfl

theorem cursor_onGrid_lines : (linesCalled.lines 9).console.OnGrid vga := by
  have hstays : linesCalled.StaysOn vga (.input (.down 9)) :=
    And.intro (by decide +kernel) (by decide +kernel)
  have hrun : Run (Session.Step vga fun _ ↦ 0) (Session.StaysOn vga) .start
      (linesCalled.lines 9) :=
    ((Run.refl _).tail trivial step_linesCalled).tail hstays
      (.input (by decide) decodeInput_linesDown.1)
  exact cursor_onGrid (by decide) (by decide) (by decide) (by decide) hrun

/-- All of them take the cursor to the line below the last. -/
theorem not_cursor_onGrid_lines :
    ¬∀ s, Run (Session.Step vga fun _ ↦ 0) (fun _ _ ↦ True) .start s → s.console.OnGrid vga := by
  intro h
  obtain ⟨hfirst, hsecond, hthird, hfourth⟩ := decodeInput_linesDown
  have htwo : Run (Session.Step vga fun _ ↦ 0) (fun _ _ ↦ True) .start
      ((linesCalled.lines 9).lines 9) :=
    (((Run.refl _).tail trivial step_linesCalled).tail trivial (.input (by decide) hfirst)).tail
      trivial (.input (by decide) hsecond)
  have hall : Run (Session.Step vga fun _ ↦ 0) (fun _ _ ↦ True) .start
      ((((linesCalled.lines 9).lines 9).lines 9).lines 3) :=
    (htwo.tail trivial (.input (by decide) hthird)).tail trivial (.input (by decide) hfourth)
  exact absurd (h _ hall).y_lt (by decide +kernel)

end Grid

/-! ## The frame buffer -/

/-- The cursor does not overflow. -/
def Console.NoOverflow (g : Geometry) (k : Console) : Input → Prop
  | .glyph _ => k.x = g.width ∨ k.x + 8 < 2 ^ 31 ∧ (k.x + 8 = g.cols → k.y + 16 < 2 ^ 31)
  | .tab => k.x + tabWidth k.x < 2 ^ 31
  | .newline => k.tmpy = -1 → k.y + 16 < 2 ^ 31
  | .down num => k.y + 16 * num < 2 ^ 31
  | .right num => k.x + 8 * num < 2 ^ 31
  | _ => True

/-- The cursor does not overflow at the inputs of a session. -/
def Session.NoOverflow (g : Geometry) (s : Session) : ConsoleEvent → Prop
  | .call _ => True
  | .input input => s.console.NoOverflow g input

/-- The cursor is at the corner of a character, be it beyond the edges, and every byte stored is
one of a visible pixel. -/
structure Session.Inside (g : Geometry) (s : Session) : Prop where
  x_nonneg : 0 ≤ s.console.x
  x_dvd : 8 ∣ s.console.x
  y_nonneg : 0 ≤ s.console.y
  y_dvd : 16 ∣ s.console.y
  stores : ∀ store ∈ s.stores, g.Visible store.1

section Buffer

variable {g : Geometry} {font : ℕ → Byte} {k : Console} {input : Input}

theorem Geometry.HasCells.ints (h : g.HasCells) : g.Bounds (2 ^ 31) (2 ^ 31) where
  toHasCells := h
  x_le := le_rfl
  y_le := le_rfl
  cols_le := h.cols_bounds.2.1.trans h.width_lt.le
  rows_le := h.rows_bounds.2.1.trans h.height_lt.le

theorem Console.NoOverflow.room (h : k.NoOverflow g input) :
    k.Room g (2 ^ 31) (2 ^ 31) input := by
  cases input with
  | glyph c =>
    refine h.imp_right fun ⟨hx, hline⟩ ↦ ?_
    by_cases hedge : k.x + 8 = g.cols
    · exact .inl ⟨hedge, .inr (hline hedge)⟩
    · exact .inr ⟨hedge, hx⟩
  | tab => exact h
  | newline => exact fun hnone ↦ .inr (h hnone)
  | down num => exact ⟨h, fun _ ↦ h⟩
  | right num => exact ⟨h, fun _ ↦ h⟩
  | _ => exact trivial

theorem lineFeed_stores (g : Geometry) (font : ℕ → Byte) (k : Console) :
    (k.lineFeed g).2.flatMap (Drawing.stores g font) = [] := by
  rw [Console.lineFeed]
  split <;> rfl

/-- A character drawn with its upper left corner at the cursor. -/
theorem Console.Within.glyph_visible (h : k.Within (2 ^ 31) (2 ^ 31)) (hfits : g.Fits)
    (font : ℕ → Byte) (c : Byte) {x : ℤ} (hx : 0 ≤ x) (hxle : x ≤ k.x) (colour : Rgb) :
    ∀ store ∈ putChar g font c x k.y colour, g.Visible store.1 := by
  have hxlt := h.x_lt
  have hxdvd := h.x_dvd
  have hylt := h.y_lt
  have hydvd := h.y_dvd
  exact putChar_visible hfits font c hx (by omega) h.y_nonneg (by omega) colour

theorem Console.Within.stores_visible (h : k.Within (2 ^ 31) (2 ^ 31)) (hfits : g.Fits)
    (font : ℕ → Byte) (input : Input) :
    ∀ store ∈ (k.apply g input).2.flatMap (Drawing.stores g font), g.Visible store.1 := by
  have hx := h.x_nonneg
  have hxlt := h.x_lt
  have hnone : ∀ store ∈ ([] : List (ℤ × Byte)), g.Visible store.1 :=
    fun _ hmem ↦ absurd hmem List.not_mem_nil
  cases input with
  | glyph c =>
    have hglyph := h.glyph_visible hfits font c hx le_rfl k.colour
    rw [Console.apply, Console.print]
    split
    · dsimp only
      split
      · rw [List.flatMap_cons, lineFeed_stores, List.append_nil]
        exact hglyph
      · rw [List.flatMap_singleton]
        exact hglyph
    · exact hnone
  | backspace =>
    rw [Console.apply, Console.backspace]
    split
    next hle =>
      have hrect := h.glyph_visible hfits font 0xdb (x := k.x - 8) (by omega) (by omega) ⟨0, 0, 0⟩
      rw [wrap_eq_self (by omega) (by omega), List.flatMap_singleton]
      exact hrect
    next => exact hnone
  | newline =>
    rw [Console.apply, Console.newline, lineFeed_stores]
    exact hnone
  | _ => exact hnone

theorem Session.Step.stores_visible {s s' : Session} {event : ConsoleEvent}
    (hstep : Session.Step g font s event s') (h : s.console.Within (2 ^ 31) (2 ^ 31))
    (hfits : g.Fits) (hstores : ∀ store ∈ s.stores, g.Visible store.1) :
    ∀ store ∈ s'.stores, g.Visible store.1 := by
  cases hstep with
  | call mem _ => exact hstores
  | input _ _ =>
    intro store hmem
    rw [Session.after, List.mem_append] at hmem
    exact hmem.elim (hstores store) (h.stores_visible hfits font _ store)

/-- **Glyphs are drawn in the frame buffer** in every session in which the cursor does not
overflow, on a display on which no index does. -/
theorem session_inside {s : Session} (hwidth : 8 ≤ g.width) (hheight : 16 ≤ g.height)
    (hwidth' : g.width < 2 ^ 31) (hheight' : g.height < 2 ^ 31) (hfits : g.Fits)
    (hrun : Run (Session.Step g font) (Session.NoOverflow g) .start s) : s.Inside g := by
  have hg : g.HasCells := ⟨hwidth, hheight, hwidth', hheight'⟩
  obtain ⟨hwithin, hstores⟩ : s.console.Within (2 ^ 31) (2 ^ 31) ∧
      ∀ store ∈ s.stores, g.Visible store.1 := by
    refine hrun.invariant (P := fun s ↦ s.console.Within (2 ^ 31) (2 ^ 31) ∧
      ∀ store ∈ s.stores, g.Visible store.1) ⟨start_within hg.ints, ?_⟩
      fun s event s' ⟨h, hstores⟩ hadmits hstep ↦ ⟨hstep.within h hg.ints ?_, ?_⟩
    · exact fun _ hmem ↦ absurd hmem List.not_mem_nil
    · cases event with
      | call mem => exact trivial
      | input input => exact Console.NoOverflow.room hadmits
    · exact hstep.stores_visible h hfits hstores
  exact ⟨hwithin.x_nonneg, hwithin.x_dvd, hwithin.y_nonneg, hwithin.y_dvd, hstores⟩

/-- The full block of the character set. -/
def blockString : ℕ → Byte := fun i ↦ if i = 0 then 0xdb else 0

/-- It is passed to `put_console`. -/
def blockCalled : Session := ⟨.start, blockString, 0, []⟩

/-- A display with only one character, of which the lines are very long. -/
def longLines : Geometry := ⟨8, 16, 2 ^ 29, false⟩

theorem run_block (hadmits : blockCalled.NoOverflow g (.input (.glyph 0xdb))) :
    Run (Session.Step g fun _ ↦ 0xff) (Session.NoOverflow g) .start
      (blockCalled.after g (fun _ ↦ 0xff) (.glyph 0xdb) 1) :=
  ((Run.refl _).tail trivial (.call blockString rfl)).tail hadmits (.input (by decide) rfl)

theorem session_inside_block :
    (blockCalled.after vga (fun _ ↦ 0xff) (.glyph 0xdb) 1).Inside vga :=
  session_inside (by decide) (by decide) (by decide) (by decide) ⟨by decide, by decide⟩
    (run_block (.inr ⟨by decide, by decide +kernel⟩))

/-- The second line of the block is stored in front of the frame buffer. -/
theorem not_session_inside_block :
    ¬∀ s, Run (Session.Step longLines fun _ ↦ 0xff) (Session.NoOverflow longLines) .start s →
      s.Inside longLines := by
  intro h
  have hinside := h _ (run_block (g := longLines) (.inr ⟨by decide, by decide +kernel⟩))
  have hmem : (longLines.index 0 1 0, 0xff) ∈
      (blockCalled.after longLines (fun _ ↦ 0xff) (.glyph 0xdb) 1).stores := by
    decide +kernel
  exact absurd (hinside.stores _ hmem).nonneg (by decide +kernel)

end Buffer

end VimOS
