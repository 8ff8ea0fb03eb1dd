import VimOS.Console.CursorRuns
import VimOS.Console.Inputs
import VimOS.Console.Scroll

/-!
# What the display shows

The stores of `put_char`, `scroll_screen` and `clear_screen` carried out on the frame buffer, and a
picture that says what is seen of it: a colour for each pixel. `Picture.draw` is what a call does to
the picture. On a display on which no index overflows the frame buffer follows it, whatever is
printed (`printed_picture`).

Glyphs are drawn one over the other: of a character that is printed in the place of another the
pixels of both are seen. Only a backspace leaves nothing of what it covers.
-/

namespace VimOS

open Signed32

/-! ## The frame buffer -/

/-- The stores, one after the other. -/
def storeAll (fb : FrameBuffer) (stores : List (ℤ × Byte)) : FrameBuffer :=
  stores.foldl (fun fb store ↦ Function.update fb store.1 store.2) fb

/-- The frame buffer behind a call of `put_console`'s. -/
def Drawing.draw (g : Geometry) (font : ℕ → Byte) (fb : FrameBuffer) : Drawing → FrameBuffer
  | .putChar glyph => storeAll fb (VimOS.putChar g font glyph.c glyph.x glyph.y glyph.colour)
  | .scrollScreen => VimOS.scrollScreen g fb

def black : Rgb := ⟨0x00, 0x00, 0x00⟩

/-- `clear_screen`. -/
def clearScreen (g : Geometry) (fb : FrameBuffer) : FrameBuffer :=
  (List.range g.height.toNat).foldl (fun fb (i : ℕ) ↦ (List.range g.width.toNat).foldl
    (fun fb (j : ℕ) ↦ storeAll fb (putPixel g j i black)) fb) fb

/-- The console and the display. -/
structure Terminal where
  console : Console
  screen : FrameBuffer

/-- A call of `put_console` with all that it draws. -/
def Terminal.print (g : Geometry) (font : ℕ → Byte) (t : Terminal) (s : List Byte) :
    Except Fault Terminal := do
  let (console, drawings) ← callPutConsole g s t.console
  pure ⟨console, drawings.foldl (Drawing.draw g font) t.screen⟩

/-! ## The picture -/

/-- The colours of the pixels. -/
abbrev Picture := ℤ → ℤ → Rgb

/-- A pixel of a glyph. -/
def Glyph.Covers (font : ℕ → Byte) (glyph : Glyph) (x y : ℤ) : Prop :=
  (glyph.x ≤ x ∧ x < glyph.x + 8) ∧ (glyph.y ≤ y ∧ y < glyph.y + 16) ∧
    (font (glyph.c.toNat * 16 + (y - glyph.y).toNat)).getLsbD (7 - (x - glyph.x).toNat) = true

instance (font : ℕ → Byte) (glyph : Glyph) (x y : ℤ) : Decidable (glyph.Covers font x y) :=
  inferInstanceAs (Decidable (_ ∧ _))

/-- What a call does to the picture. A scroll moves the first 400 columns up by one text line, and
makes the last 15 rows black in the first 6400 columns. -/
def Picture.draw (g : Geometry) (font : ℕ → Byte) (p : Picture) : Drawing → Picture
  | .putChar glyph => fun x y ↦ if glyph.Covers font x y then glyph.colour else p x y
  | .scrollScreen => fun x y ↦
    if y < g.height - 16 then if x < 400 then p x (y + 16) else p x y
    else if g.height - 16 < y ∧ x < 6400 then black
    else p x y

/-- The three bytes of a pixel as they lie in memory. -/
def Geometry.channels (g : Geometry) (colour : Rgb) : Rgb :=
  if g.bgr then ⟨colour.b, colour.g, colour.r⟩ else colour

/-- The colour of a pixel. -/
def Geometry.pixel (g : Geometry) (fb : FrameBuffer) (x y : ℤ) : Rgb :=
  g.channels ⟨fb (g.offset x y 0), fb (g.offset x y 1), fb (g.offset x y 2)⟩

/-- A pixel of the display. -/
structure Geometry.OnDisplay (g : Geometry) (x y : ℤ) : Prop where
  x_nonneg : 0 ≤ x
  x_lt : x < g.width
  y_nonneg : 0 ≤ y
  y_lt : y < g.height

/-- The picture is seen on the display. -/
def Geometry.Shows (g : Geometry) (fb : FrameBuffer) (p : Picture) : Prop :=
  ∀ x y, g.OnDisplay x y → g.pixel fb x y = p x y

/-! ## Pixels -/

section Pixels

variable {g : Geometry} {fb : FrameBuffer} {x y x' y' c c' : ℤ} {colour : Rgb}

theorem channels_channels : g.channels (g.channels colour) = colour := by
  rw [Geometry.channels, Geometry.channels]
  split <;> rfl

theorem offset_eq_add (g : Geometry) (x y c : ℤ) : g.offset x y c = g.offset x y 0 + c := by
  rw [Geometry.offset, Geometry.offset, add_zero]

/-- No byte belongs to two pixels. -/
theorem offset_inj (hle : g.width ≤ g.pixelsPerScanline) (h : g.OnDisplay x y)
    (h' : g.OnDisplay x' y') (hc : 0 ≤ c ∧ c < 3) (hc' : 0 ≤ c' ∧ c' < 3)
    (heq : g.offset x y c = g.offset x' y' c') : x = x' ∧ y = y' := by
  have hx := h.x_nonneg
  have hxlt := h.x_lt
  have hx' := h'.x_nonneg
  have hxlt' := h'.x_lt
  have hpps : 0 ≤ g.pixelsPerScanline := by omega
  rw [offset_eq, offset_eq] at heq
  rcases lt_trichotomy y y' with hlt | rfl | hlt
  · have hrow := rowStart_le hpps hlt
    omega
  · exact ⟨by omega, rfl⟩
  · have hrow := rowStart_le hpps hlt
    omega

theorem storeAll_append (s t : List (ℤ × Byte)) :
    storeAll fb (s ++ t) = storeAll (storeAll fb s) t := List.foldl_append

theorem storeAll_flatMap {ι : Type*} (l : List ι) (f : ι → List (ℤ × Byte)) :
    storeAll fb (l.flatMap f) = l.foldl (fun fb i ↦ storeAll fb (f i)) fb := List.foldl_flatMap

/-- The stores for a pixel of the display. -/
theorem putPixel_eq (hg : g.Fits) (h : g.OnDisplay x y) : putPixel g x y colour =
    [(g.offset x y 0, (g.channels colour).r), (g.offset x y 1, (g.channels colour).g),
      (g.offset x y 2, (g.channels colour).b)] := by
  have hindex : ∀ c, 0 ≤ c → c < 3 → g.index x y c = g.offset x y c := fun c hc hc' ↦
    hg.index_eq h.x_nonneg h.x_lt h.y_nonneg h.y_lt hc hc'
  rw [putPixel, if_neg (by rw [not_or, not_le, not_le]; exact ⟨h.x_lt, h.y_lt⟩),
    hindex 0 (by decide) (by decide), hindex 1 (by decide) (by decide),
    hindex 2 (by decide) (by decide), Geometry.channels]
  split <;> rfl

/-- A pixel that is stored is seen, and no other pixel changes. -/
theorem pixel_putPixel (hg : g.Fits) (hx' : 0 ≤ x') (hy' : 0 ≤ y') (h : g.OnDisplay x y) :
    g.pixel (storeAll fb (putPixel g x' y' colour)) x y =
      if x = x' ∧ y = y' then colour else g.pixel fb x y := by
  by_cases hin : x' < g.width ∧ y' < g.height
  · have h' : g.OnDisplay x' y' := ⟨hx', hin.1, hy', hin.2⟩
    rw [putPixel_eq hg h']
    by_cases heq : x = x' ∧ y = y'
    · obtain ⟨rfl, rfl⟩ := heq
      have h01 : g.offset x y 0 ≠ g.offset x y 1 := by rw [offset_eq_add g x y 1]; omega
      have h02 : g.offset x y 0 ≠ g.offset x y 2 := by rw [offset_eq_add g x y 2]; omega
      have h12 : g.offset x y 1 ≠ g.offset x y 2 := by
        rw [offset_eq_add g x y 1, offset_eq_add g x y 2]
        omega
      rw [if_pos ⟨rfl, rfl⟩, Geometry.pixel]
      simp only [storeAll, List.foldl_cons, List.foldl_nil, Function.update_self,
        Function.update_of_ne h01, Function.update_of_ne h02, Function.update_of_ne h12]
      exact channels_channels
    · have hother : ∀ c c', 0 ≤ c ∧ c < 3 → 0 ≤ c' ∧ c' < 3 →
          g.offset x y c ≠ g.offset x' y' c' :=
        fun c c' hc hc' h0 ↦ heq (offset_inj hg.le_pps h h' hc hc' h0)
      have hkept : ∀ c, 0 ≤ c ∧ c < 3 → ∀ r v b : Byte, storeAll fb [(g.offset x' y' 0, r),
          (g.offset x' y' 1, v), (g.offset x' y' 2, b)] (g.offset x y c) =
            fb (g.offset x y c) := by
        intro c hc r v b
        simp only [storeAll, List.foldl_cons, List.foldl_nil]
        rw [Function.update_of_ne (hother c 2 hc (by decide)),
          Function.update_of_ne (hother c 1 hc (by decide)),
          Function.update_of_ne (hother c 0 hc (by decide))]
      rw [if_neg heq, Geometry.pixel, hkept 0 (by decide), hkept 1 (by decide),
        hkept 2 (by decide)]
      rfl
  · have hne : ¬(x = x' ∧ y = y') := by
      rintro ⟨rfl, rfl⟩
      exact hin ⟨h.x_lt, h.y_lt⟩
    have hout : g.width ≤ x' ∨ g.height ≤ y' := by
      rwa [not_and_or, not_lt, not_lt] at hin
    rw [putPixel, if_pos hout, if_neg hne]
    rfl

/-- Many pixels of one colour. -/
theorem pixel_putPixels (hg : g.Fits) {ps : List (ℤ × ℤ)} (hps : ∀ q ∈ ps, 0 ≤ q.1 ∧ 0 ≤ q.2)
    (h : g.OnDisplay x y) :
    g.pixel (storeAll fb (ps.flatMap fun q ↦ putPixel g q.1 q.2 colour)) x y =
      if (x, y) ∈ ps then colour else g.pixel fb x y := by
  induction ps generalizing fb with
  | nil => rfl
  | cons q ps ih =>
    rw [List.forall_mem_cons] at hps
    rw [List.flatMap_cons, storeAll_append, ih hps.2, pixel_putPixel hg hps.1.1 hps.1.2 h]
    by_cases hmem : (x, y) ∈ ps
    · rw [if_pos hmem, if_pos (List.mem_cons_of_mem _ hmem)]
    · simp only [List.mem_cons, hmem, or_false, if_false, Prod.ext_iff]

end Pixels

/-! ## One call -/

/-- A glyph with its upper left corner in the display or beyond, whose pixels have `int`s as
coordinates. -/
structure Glyph.Placed (glyph : Glyph) : Prop where
  x_nonneg : 0 ≤ glyph.x
  x_lt : glyph.x + 7 < 2 ^ 31
  y_nonneg : 0 ≤ glyph.y
  y_lt : glyph.y + 15 < 2 ^ 31

def Drawing.Placed : Drawing → Prop
  | .putChar glyph => glyph.Placed
  | .scrollScreen => True

section Draw

variable {g : Geometry} {font : ℕ → Byte} {fb : FrameBuffer} {p : Picture} {x y : ℤ}
  {glyph : Glyph} {d : Drawing}

/-- The pixels of a glyph, row by row. -/
def Glyph.pixels (font : ℕ → Byte) (glyph : Glyph) : List (ℤ × ℤ) :=
  (List.range 16).flatMap fun i ↦ (List.range 8).flatMap fun k ↦
    if (font (glyph.c.toNat * 16 + i)).getLsbD (7 - k) then [(glyph.x + k, glyph.y + i)] else []

theorem Glyph.mem_pixels : (x, y) ∈ glyph.pixels font ↔ glyph.Covers font x y := by
  simp only [Glyph.pixels, List.mem_flatMap, List.mem_range, Glyph.Covers]
  constructor
  · rintro ⟨i, hi, k, hk, hmem⟩
    split at hmem
    next hbit =>
      rw [List.mem_singleton, Prod.mk.injEq] at hmem
      obtain ⟨rfl, rfl⟩ := hmem
      have hrow : (glyph.y + i - glyph.y).toNat = i := by omega
      have hcol : (glyph.x + k - glyph.x).toNat = k := by omega
      rw [hrow, hcol]
      exact ⟨⟨by omega, by omega⟩, ⟨by omega, by omega⟩, hbit⟩
    next => exact absurd hmem List.not_mem_nil
  · rintro ⟨⟨hx, hx'⟩, ⟨hy, hy'⟩, hbit⟩
    refine ⟨(y - glyph.y).toNat, by omega, (x - glyph.x).toNat, by omega, ?_⟩
    rw [if_pos hbit, List.mem_singleton, Prod.mk.injEq]
    exact ⟨by omega, by omega⟩

theorem Glyph.Placed.nonneg (h : glyph.Placed) : ∀ q ∈ glyph.pixels font, 0 ≤ q.1 ∧ 0 ≤ q.2 := by
  rintro ⟨x, y⟩ hmem
  obtain ⟨⟨hx, -⟩, ⟨hy, -⟩, -⟩ := Glyph.mem_pixels.mp hmem
  exact ⟨h.x_nonneg.trans hx, h.y_nonneg.trans hy⟩

theorem Glyph.Placed.putChar_eq (h : glyph.Placed) :
    putChar g font glyph.c glyph.x glyph.y glyph.colour =
      (glyph.pixels font).flatMap fun q ↦ putPixel g q.1 q.2 glyph.colour := by
  have hx := h.x_nonneg
  have hxlt := h.x_lt
  have hy := h.y_nonneg
  have hylt := h.y_lt
  rw [putChar, Glyph.pixels, List.flatMap_assoc]
  refine List.flatMap_congr fun i hi ↦ ?_
  rw [List.flatMap_assoc]
  refine List.flatMap_congr fun k hk ↦ ?_
  rw [List.mem_range] at hi hk
  rw [wrap_eq_self (by omega) (by omega), wrap_eq_self (by omega) (by omega)]
  split
  · rw [List.flatMap_singleton]
  · rfl

/-- **A glyph is drawn over what is there.** -/
theorem shows_putChar (hg : g.Fits) (h : g.Shows fb p) (hglyph : glyph.Placed) :
    g.Shows (Drawing.draw g font fb (.putChar glyph)) (p.draw g font (.putChar glyph)) := by
  intro x y hxy
  rw [Drawing.draw, hglyph.putChar_eq, pixel_putPixels hg hglyph.nonneg hxy, h x y hxy,
    Picture.draw]
  simp only [Glyph.mem_pixels]

/-- A display on which `scroll_screen` reads no byte behind the frame buffer. -/
structure Geometry.Draws (g : Geometry) : Prop extends g.Scrolls where
  wide : 400 ≤ g.pixelsPerScanline

theorem Geometry.Scrolls.toFits (h : g.Scrolls) : g.Fits where
  le_pps := h.le_pps
  last := by
    have hle := h.le_pps
    have hlt := h.fits
    have hmul : 4 * (g.pixelsPerScanline * g.height) =
        4 * (g.pixelsPerScanline * (g.height - 1)) + 4 * g.pixelsPerScanline := by ring
    omega

theorem pixel_congr {fb' : FrameBuffer} {x' y' : ℤ}
    (h : ∀ c, 0 ≤ c → c < 3 → fb' (g.offset x y c) = fb (g.offset x' y' c)) :
    g.pixel fb' x y = g.pixel fb x' y' := by
  rw [Geometry.pixel, Geometry.pixel, h 0 (by decide) (by decide), h 1 (by decide) (by decide),
    h 2 (by decide) (by decide)]

theorem pixel_black (h : ∀ c, 0 ≤ c → c < 3 → fb (g.offset x y c) = 0) :
    g.pixel fb x y = black := by
  rw [Geometry.pixel, h 0 (by decide) (by decide), h 1 (by decide) (by decide),
    h 2 (by decide) (by decide), Geometry.channels]
  split <;> rfl

/-- **A scroll** moves what it moves. -/
theorem shows_scrollScreen (hg : g.Draws) (h : g.Shows fb p) :
    g.Shows (Drawing.draw g font fb .scrollScreen) (p.draw g font .scrollScreen) := by
  intro x y hxy
  have hx := hxy.x_nonneg
  have hxlt := hxy.x_lt
  have hwide := hg.wide
  have hs := hg.toScrolls
  have hheight := hs.le_height
  rw [Drawing.draw, Picture.draw]
  dsimp only
  split_ifs with habove hleft hblack
  · rw [← h x (y + 16) ⟨hx, hxlt, by have := hxy.y_nonneg; omega, by omega⟩]
    exact pixel_congr fun c hc hc' ↦
      scrollScreen_shift hs hx hxlt hleft hxy.y_nonneg habove hc hc'
  · rw [← h x y hxy]
    exact pixel_congr fun c hc hc' ↦
      scrollScreen_right hs (not_lt.mp hleft) hxlt habove hc hc'
  · exact pixel_black fun c hc hc' ↦
      scrollScreen_cleared hs hx hblack.2 (by omega) hxy.y_lt hc hc'
  · rw [← h x y hxy]
    rcases (not_lt.mp habove).eq_or_lt with heq | hlt
    · -- the row that is neither moved nor cleared
      have hgap : ¬(16 < g.height ∧ g.pixelsPerScanline + x < 400) := by omega
      refine pixel_congr fun c hc hc' ↦ ?_
      rw [← heq, scrollScreen_gap hs hx hxlt hc hc', if_neg hgap]
    · have hcorner : 6400 ≤ x := not_lt.mp fun hx' ↦ hblack ⟨hlt, hx'⟩
      exact pixel_congr fun c hc hc' ↦ scrollScreen_corner hs hcorner hxlt hc hc'

theorem shows_draw (hg : g.Draws) (h : g.Shows fb p) (hd : d.Placed) :
    g.Shows (d.draw g font fb) (p.draw g font d) := by
  cases d with
  | putChar glyph => exact shows_putChar hg.toScrolls.toFits h hd
  | scrollScreen => exact shows_scrollScreen hg h

theorem shows_foldl (hg : g.Draws) {ds : List Drawing} (h : g.Shows fb p)
    (hds : ∀ d ∈ ds, d.Placed) :
    g.Shows (ds.foldl (Drawing.draw g font) fb) (ds.foldl (Picture.draw g font) p) := by
  induction ds generalizing fb p with
  | nil => exact h
  | cons d ds ih =>
    rw [List.forall_mem_cons] at hds
    exact ih (shows_draw hg h hds.1) hds.2

/-- A cleared display is black. -/
theorem shows_clearScreen (hg : g.Fits) : g.Shows (clearScreen g fb) fun _ _ ↦ black := by
  intro x y hxy
  have hall : clearScreen g fb = storeAll fb (((List.range g.height.toNat).flatMap fun i : ℕ ↦
      (List.range g.width.toNat).map fun j : ℕ ↦ ((j : ℤ), (i : ℤ))).flatMap
        fun q ↦ putPixel g q.1 q.2 black) := by
    rw [List.flatMap_assoc, storeAll_flatMap, clearScreen]
    simp only [List.flatMap_map, storeAll_flatMap]
  have hx := hxy.x_nonneg
  have hxlt := hxy.x_lt
  have hy := hxy.y_nonneg
  have hylt := hxy.y_lt
  rw [hall, pixel_putPixels hg _ hxy, if_pos]
  · simp only [List.mem_flatMap, List.mem_map, List.mem_range, Prod.mk.injEq]
    exact ⟨y.toNat, by omega, x.toNat, by omega, by omega, by omega⟩
  · rintro q hq
    simp only [List.mem_flatMap, List.mem_map, List.mem_range] at hq
    obtain ⟨i, -, j, -, rfl⟩ := hq
    exact ⟨Int.natCast_nonneg j, Int.natCast_nonneg i⟩

end Draw

/-! ## Printing -/

/-- The cursor does not overflow at any of the inputs. -/
def Console.Admits (g : Geometry) (k : Console) : List Input → Prop
  | [] => True
  | input :: rest => k.NoOverflow g input ∧ (k.apply g input).1.Admits g rest

section Print

variable {g : Geometry} {font : ℕ → Byte} {fb : FrameBuffer} {p : Picture} {k : Console}
  {input : Input} {is js : List Input} {s : List Byte}

theorem placed_lineFeed (k : Console) : ∀ d ∈ (k.lineFeed g).2, d.Placed := by
  rw [Console.lineFeed]
  dsimp only
  split
  · rintro d hd
    rw [List.mem_singleton.mp hd]
    trivial
  · exact fun d hd ↦ absurd hd List.not_mem_nil

theorem Console.Within.placed_glyph (h : k.Within (2 ^ 31) (2 ^ 31)) (c : Byte) {x : ℤ}
    (hx : 0 ≤ x) (hxle : x ≤ k.x) (colour : Rgb) : Glyph.Placed ⟨c, x, k.y, colour⟩ := by
  have hxlt := h.x_lt
  have hxdvd := h.x_dvd
  have hylt := h.y_lt
  have hydvd := h.y_dvd
  exact ⟨hx, by dsimp only; omega, h.y_nonneg, by dsimp only; omega⟩

/-- What an input draws lies in the display or to the right of it or below it. -/
theorem Console.Within.placed (h : k.Within (2 ^ 31) (2 ^ 31)) (input : Input) :
    ∀ d ∈ (k.apply g input).2, d.Placed := by
  have hx := h.x_nonneg
  have hxlt := h.x_lt
  have hnone : ∀ d ∈ ([] : List Drawing), d.Placed := fun _ hmem ↦ absurd hmem List.not_mem_nil
  cases input with
  | glyph c =>
    have hglyph : Drawing.Placed (.putChar ⟨c, k.x, k.y, k.colour⟩) :=
      h.placed_glyph c hx le_rfl k.colour
    rw [Console.apply, Console.print]
    split
    · dsimp only
      split
      · exact List.forall_mem_cons.mpr ⟨hglyph, placed_lineFeed _⟩
      · exact List.forall_mem_singleton.mpr hglyph
    · exact hnone
  | backspace =>
    rw [Console.apply, Console.backspace]
    split
    next hle =>
      have hrect : Drawing.Placed (.putChar ⟨0xdb, k.x - 8, k.y, ⟨0, 0, 0⟩⟩) :=
        h.placed_glyph 0xdb (by omega) (by omega) _
      rw [wrap_eq_self (by omega) (by omega)]
      exact List.forall_mem_singleton.mpr hrect
    next => exact hnone
  | newline =>
    rw [Console.apply, Console.newline]
    exact placed_lineFeed _
  | _ => exact hnone

theorem Input.Writable.oneDigit (h : input.Writable) : input.OneDigit := by
  cases input <;> first | exact h | trivial

/-- Inputs that do not make the cursor overflow draw what is seen. -/
theorem Console.Within.shows_perform (font : ℕ → Byte) (h : k.Within (2 ^ 31) (2 ^ 31))
    (hcells : g.HasCells) (hg : g.Draws) (hshows : g.Shows fb p)
    (his : ∀ input ∈ is, input.Writable)
    (hadmits : k.Admits g is) : (k.perform g is).1.Within (2 ^ 31) (2 ^ 31) ∧
      g.Shows ((k.perform g is).2.foldl (Drawing.draw g font) fb)
        ((k.perform g is).2.foldl (Picture.draw g font) p) := by
  induction is generalizing k fb p with
  | nil => exact ⟨h, hshows⟩
  | cons input is ih =>
    rw [List.forall_mem_cons] at his
    rw [Console.perform, List.foldl_append, List.foldl_append]
    exact ih (h.apply hcells.ints his.1.oneDigit hadmits.1.room)
      (shows_foldl hg hshows (h.placed input)) his.2 hadmits.2

theorem Console.admits_append : k.Admits g (is ++ js) ↔
    k.Admits g is ∧ (k.perform g is).1.Admits g js := by
  induction is generalizing k with
  | nil => exact (true_and _).symm ▸ Iff.rfl
  | cons input is ih => rw [List.cons_append, Admits, ih, Admits, perform, and_assoc]

/-- A string that ends and is not cut off in the unfinished sequence. -/
def Whole (s : List Byte) : Prop := 0 ∉ s ∧ ¬unfinished <:+ s

theorem Terminal.print_eq (h : Whole s) (t : Terminal) : t.print g font s =
    .ok ⟨(t.console.perform g (inputs s)).1,
      (t.console.perform g (inputs s)).2.foldl (Drawing.draw g font) t.screen⟩ := by
  rw [Terminal.print, callPutConsole_eq h.1, if_neg h.2]
  rfl

theorem foldlM_print {texts : List (List Byte)} (h : k.Within (2 ^ 31) (2 ^ 31))
    (hcells : g.HasCells) (hg : g.Draws) (hshows : g.Shows fb p) (htexts : ∀ s ∈ texts, Whole s)
    (hadmits : k.Admits g (texts.flatMap inputs)) :
    ∃ t, texts.foldlM (Terminal.print g font) ⟨k, fb⟩ = .ok t ∧
      t.console = (k.perform g (texts.flatMap inputs)).1 ∧
      g.Shows t.screen
        ((k.perform g (texts.flatMap inputs)).2.foldl (Picture.draw g font) p) := by
  induction texts generalizing k fb p with
  | nil => exact ⟨⟨k, fb⟩, rfl, rfl, hshows⟩
  | cons s texts ih =>
    rw [List.forall_mem_cons] at htexts
    rw [List.flatMap_cons, Console.admits_append] at hadmits
    obtain ⟨hwithin, hseen⟩ := h.shows_perform font hcells hg hshows
      (inputs_writable htexts.1.1) hadmits.1
    obtain ⟨t, hrun, hconsole, hshown⟩ := ih hwithin hseen htexts.2 hadmits.2
    rw [List.flatMap_cons, Console.perform_append, List.foldl_append, List.foldlM_cons,
      Terminal.print_eq htexts.1]
    exact ⟨t, hrun, hconsole, hshown⟩

end Print

/-- **What is printed is seen**. On a display on which no index overflows, with at least 400 pixels
in a row, and for strings at which the cursor does not, what `put_console` leaves on a cleared
display is the picture that its calls draw. -/
theorem printed_picture {g : Geometry} (hcells : g.HasCells) (hg : g.Draws) (font : ℕ → Byte)
    (fb : FrameBuffer) {texts : List (List Byte)} (htexts : ∀ s ∈ texts, Whole s)
    (hadmits : Console.start.Admits g (texts.flatMap inputs)) :
    ∃ t, texts.foldlM (Terminal.print g font) ⟨.start, clearScreen g fb⟩ = .ok t ∧
      t.console = (Console.start.perform g (texts.flatMap inputs)).1 ∧
      g.Shows t.screen ((Console.start.perform g (texts.flatMap inputs)).2.foldl
        (Picture.draw g font) fun _ _ ↦ black) :=
  foldlM_print (start_within hcells.ints) hcells hg (shows_clearScreen hg.toScrolls.toFits) htexts
    hadmits

theorem inputs_letter : inputs [0x41] = [.glyph 0x41] := by
  have hfirst : firstInput 0x41 [] = (.glyph 0x41, []) := rfl
  rw [inputs_cons, hfirst, inputs]

/-- A letter on a display of 640 by 480 pixels. -/
theorem printed_picture_letter : ∃ t,
    [[0x41]].foldlM (Terminal.print vga fun _ ↦ 0xff) ⟨.start, clearScreen vga fun _ ↦ 0xff⟩ =
      .ok t ∧ t.console = (Console.start.perform vga ([[0x41]].flatMap inputs)).1 ∧
      vga.Shows t.screen ((Console.start.perform vga ([[0x41]].flatMap inputs)).2.foldl
        (Picture.draw vga fun _ ↦ 0xff) fun _ _ ↦ black) := by
  refine printed_picture ⟨by decide, by decide, by decide, by decide⟩
    ⟨⟨by decide, by decide, by decide, by decide⟩, by decide⟩ _ _
    (List.forall_mem_singleton.mpr ⟨by decide, by decide⟩) ?_
  rw [List.flatMap_singleton, inputs_letter]
  exact ⟨.inr ⟨by decide, by decide⟩, trivial⟩

section Backspace

variable {g : Geometry} {font : ℕ → Byte} {k : Console}

/-- The pixels of the character at the cursor. -/
def Console.InCell (k : Console) (x y : ℤ) : Prop :=
  (k.x ≤ x ∧ x < k.x + 8) ∧ (k.y ≤ y ∧ y < k.y + 16)

instance (k : Console) (x y : ℤ) : Decidable (k.InCell x y) :=
  inferInstanceAs (Decidable (_ ∧ _))

/-- All pixels of the full block are set. -/
def FullBlock (font : ℕ → Byte) : Prop := ∀ i < 16, font (0xdb * 16 + i) = 0xff

theorem covers_block (hfont : FullBlock font) {x y : ℤ} {colour : Rgb} :
    Glyph.Covers font ⟨0xdb, k.x, k.y, colour⟩ x y ↔ k.InCell x y := by
  rw [Glyph.Covers, Console.InCell, and_congr_right_iff]
  refine fun hx ↦ and_iff_left_of_imp fun hy ↦ ?_
  dsimp only at hx hy
  have hrow := hfont (y - k.y).toNat (by omega)
  have hchar : (0xdb : Byte).toNat = 0xdb := rfl
  dsimp only
  rw [hchar, hrow]
  have hbit : ∀ i < 8, (0xff : Byte).getLsbD i = true := by decide
  exact hbit _ (by omega)

/-- The two inputs where the character does not end its line. -/
theorem perform_backspace (h : k.Within (2 ^ 31) (2 ^ 31)) (c : Byte)
    (hno : k.NoOverflow g (.glyph c)) (hx : k.x ≠ g.width) (hcols : k.x + 8 ≠ g.cols) :
    k.perform g [.glyph c, .backspace] =
      (k, [.putChar ⟨c, k.x, k.y, k.colour⟩, .putChar ⟨0xdb, k.x, k.y, black⟩]) := by
  have hpos := h.x_nonneg
  have hlt := (hno.resolve_left hx).1
  have hright : wrap (k.x + 8) = k.x + 8 := wrap_eq_self (by omega) hlt
  have hleft : wrap (k.x + 8 - 8) = k.x := by
    rw [add_sub_cancel_right]
    exact wrap_eq_self (by omega) (by omega)
  have hprint : k.apply g (.glyph c) = ({ k with x := k.x + 8 }, [.putChar ⟨c, k.x, k.y,
      k.colour⟩]) := by
    rw [Console.apply, Console.print, if_pos hx]
    dsimp only
    rw [hright, if_neg hcols]
  have hback : Console.apply g { k with x := k.x + 8 } .backspace =
      (k, [.putChar ⟨0xdb, k.x, k.y, black⟩]) := by
    rw [Console.apply, Console.backspace]
    dsimp only
    rw [if_pos (by omega), hleft]
    rfl
  rw [Console.perform, hprint, Console.perform, hback]
  rfl

/-- A character that ends its line is left for good. -/
theorem perform_backspace_end (h : k.Within (2 ^ 31) (2 ^ 31)) (c : Byte)
    (hno : k.NoOverflow g (.glyph c)) (hx : k.x ≠ g.width) (hcols : k.x + 8 = g.cols) :
    (k.perform g [.glyph c, .backspace]).1 =
      { k with x := 0, y := if k.y + 16 = g.rows then k.y else k.y + 16 } := by
  have hpos := h.x_nonneg
  have hy := h.y_nonneg
  have hlt := hno.resolve_left hx
  have hright : wrap (k.x + 8) = k.x + 8 := wrap_eq_self (by omega) hlt.1
  have hdown : wrap (k.y + 16) = k.y + 16 := wrap_eq_self (by omega) (hlt.2 hcols)
  have hup : wrap (k.y + 16 - 16) = k.y := by
    rw [add_sub_cancel_right]
    exact wrap_eq_self (by omega) (by have := hlt.2 hcols; omega)
  have hprint : (k.apply g (.glyph c)).1 =
      { k with x := 0, y := if k.y + 16 = g.rows then k.y else k.y + 16 } := by
    rw [Console.apply, Console.print, if_pos hx]
    dsimp only
    rw [hright, if_pos hcols, Console.lineFeed]
    dsimp only
    rw [hdown]
    split_ifs
    · dsimp only
      rw [hup]
    · rfl
  have hback : ∀ k' : Console, k'.x = 0 → (k'.apply g .backspace).1 = k' := by
    intro k' hzero
    rw [Console.apply, Console.backspace, if_neg (by omega)]
  rw [Console.perform, Console.perform, Console.perform, hback _ (by rw [hprint]), hprint]

/-- **A backspace takes a character back**, and the black rectangle leaves nothing of it, wherever
the character does not end its line. From the end of a line there is no way back, unless the line
is the last and has a single column. -/
theorem backspace_undoes (h : k.Within (2 ^ 31) (2 ^ 31)) (c : Byte)
    (hno : k.NoOverflow g (.glyph c)) (hx : k.x ≠ g.width) (hfont : FullBlock font) :
    ((k.perform g [.glyph c, .backspace]).1 = k ↔
      k.x + 8 ≠ g.cols ∨ k.x = 0 ∧ k.y + 16 = g.rows) ∧
    (k.x + 8 ≠ g.cols → ∀ (p : Picture) (x y : ℤ),
      ((k.perform g [.glyph c, .backspace]).2.foldl (Picture.draw g font) p) x y =
        if k.InCell x y then black else p x y) := by
  refine ⟨?_, fun hcols p x y ↦ ?_⟩
  · by_cases hcols : k.x + 8 = g.cols
    · rw [perform_backspace_end h c hno hx hcols]
      obtain ⟨x, y, tmpx, tmpy, colour⟩ := k
      dsimp only at hcols ⊢
      rw [Console.mk.injEq]
      split_ifs with hrows
      · simp [hcols, hrows, eq_comm]
      · simp [hcols, hrows]
    · rw [perform_backspace h c hno hx hcols]
      exact iff_of_true rfl (.inl hcols)
  · rw [perform_backspace h c hno hx hcols, List.foldl_cons, List.foldl_cons, List.foldl_nil,
      Picture.draw, Picture.draw]
    dsimp only
    simp only [covers_block hfont]
    split_ifs with hcell hcover
    · rfl
    · exact absurd ⟨hcover.1, hcover.2.1⟩ hcell
    · rfl

theorem backspace_undoes_letter :
    (Console.start.perform vga [.glyph 0x41, .backspace]).1 = .start ∧
      ∀ (p : Picture) (x y : ℤ), ((Console.start.perform vga [.glyph 0x41, .backspace]).2.foldl
        (Picture.draw vga fun _ ↦ 0xff) p) x y =
          if Console.start.InCell x y then black else p x y := by
  have hcells : vga.HasCells := ⟨by decide, by decide, by decide, by decide⟩
  have hfont : FullBlock fun _ ↦ 0xff := fun _ _ ↦ rfl
  have hstart : Console.start.Within (2 ^ 31) (2 ^ 31) := start_within hcells.ints
  have hno : Console.start.NoOverflow vga (.glyph 0x41) := .inr ⟨by decide, by decide⟩
  have hx : Console.start.x ≠ vga.width := by decide
  obtain ⟨hiff, hpicture⟩ := backspace_undoes hstart 0x41 hno hx hfont
  exact ⟨hiff.mpr (.inl (by decide)), hpicture (by decide)⟩

end Backspace

end VimOS
