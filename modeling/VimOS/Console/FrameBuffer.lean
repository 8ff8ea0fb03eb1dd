import VimOS.Library.Signed32
import VimOS.Paging.Address

/-!
# Pixels

`putPixel_RGB`, `putPixel_BGR` and `put_char` of `kernel/uefi_graphics.c` as lists of stores. An
index into the frame buffer is an `int` expression, so it wraps; the test of a pixel's coordinates
has upper bounds only.
-/

namespace VimOS

open Signed32

/-! ## The code -/

/-- The display: `width`, `height`, `pixels_per_scanline`, and whether `putPixel` is
`putPixel_BGR`. -/
structure Geometry where
  width : ℤ
  height : ℤ
  pixelsPerScanline : ℤ
  bgr : Bool

/-- A colour. -/
structure Rgb where
  r : Byte
  g : Byte
  b : Byte
  deriving DecidableEq

/-- `(y * pixels_per_scanline + x) * 4 + c`. -/
def Geometry.index (g : Geometry) (x y c : ℤ) : ℤ :=
  wrap (wrap (wrap (wrap (y * g.pixelsPerScanline) + x) * 4) + c)

/-- `putPixel`: the bytes stored with their indices into the frame buffer. -/
def putPixel (g : Geometry) (x y : ℤ) (colour : Rgb) : List (ℤ × Byte) :=
  if g.width ≤ x ∨ g.height ≤ y then []
  else if g.bgr then
    [(g.index x y 0, colour.b), (g.index x y 1, colour.g), (g.index x y 2, colour.r)]
  else [(g.index x y 0, colour.r), (g.index x y 1, colour.g), (g.index x y 2, colour.b)]

/-- `put_char`: bit 7 of each of the 16 bytes of a glyph is its leftmost pixel. -/
def putChar (g : Geometry) (font : ℕ → Byte) (c : Byte) (x y : ℤ) (colour : Rgb) :
    List (ℤ × Byte) :=
  (List.range 16).flatMap fun i ↦ (List.range 8).flatMap fun k ↦
    if (font (c.toNat * 16 + i)).getLsbD (7 - k) then
      putPixel g (wrap (x + k)) (wrap (y + i)) colour
    else []

/-- The arguments of a call of `put_char`. -/
structure Glyph where
  c : Byte
  x : ℤ
  y : ℤ
  colour : Rgb
  deriving DecidableEq

/-! ## Where the stores go -/

/-- The offset of a byte of a pixel. -/
def Geometry.offset (g : Geometry) (x y c : ℤ) : ℤ := (y * g.pixelsPerScanline + x) * 4 + c

/-- The index is one of the frame buffer and that of a visible pixel's colour. -/
structure Geometry.Visible (g : Geometry) (index : ℤ) : Prop where
  nonneg : 0 ≤ index
  le : index ≤ 4 * g.pixelsPerScanline * g.height - 1
  pixel : ∃ x y c, 0 ≤ x ∧ x < g.width ∧ 0 ≤ y ∧ y < g.height ∧ 0 ≤ c ∧ c < 3 ∧
    index = g.offset x y c

/-- A display on which no index overflows. -/
structure Geometry.Fits (g : Geometry) : Prop where
  le_pps : g.width ≤ g.pixelsPerScanline
  last : 4 * (g.pixelsPerScanline * (g.height - 1) + g.width) ≤ 2 ^ 31

section Stores

variable {g : Geometry} {x y c : ℤ}

theorem mul_pps_le (hpps : 0 ≤ g.pixelsPerScanline) (hy : y < g.height) :
    y * g.pixelsPerScanline ≤ g.pixelsPerScanline * (g.height - 1) := by
  rw [mul_comm]
  exact mul_le_mul_of_nonneg_left (Int.le_sub_one_of_lt hy) hpps

/-- On such a display the code computes the offset. -/
theorem Geometry.Fits.index_eq (h : g.Fits) (hx : 0 ≤ x) (hx' : x < g.width) (hy : 0 ≤ y)
    (hy' : y < g.height) (hc : 0 ≤ c) (hc' : c < 3) : g.index x y c = g.offset x y c := by
  have hpps : 0 ≤ g.pixelsPerScanline := by have := h.le_pps; omega
  have hrow := mul_pps_le hpps hy'
  have hpos : 0 ≤ y * g.pixelsPerScanline := mul_nonneg hy hpps
  have hlast := h.last
  have hwrap : wrap (y * g.pixelsPerScanline) = y * g.pixelsPerScanline :=
    wrap_eq_self (by omega) (by omega)
  rw [index, hwrap, wrap_eq_self (x := y * g.pixelsPerScanline + x) (by omega) (by omega),
    wrap_wrap_add, wrap_eq_self (by omega) (by omega), offset]

theorem Geometry.Fits.visible (h : g.Fits) (hx : 0 ≤ x) (hx' : x < g.width) (hy : 0 ≤ y)
    (hy' : y < g.height) (hc : 0 ≤ c) (hc' : c < 3) : g.Visible (g.index x y c) := by
  have hpps : 0 ≤ g.pixelsPerScanline := by have := h.le_pps; omega
  have hrow := mul_pps_le hpps hy'
  have hpos : 0 ≤ y * g.pixelsPerScanline := mul_nonneg hy hpps
  have hle := h.le_pps
  rw [h.index_eq hx hx' hy hy' hc hc']
  refine ⟨?_, ?_, x, y, c, hx, hx', hy, hy', hc, hc', rfl⟩
  · rw [offset]
    omega
  · have hmul : 4 * g.pixelsPerScanline * g.height
        = 4 * (g.pixelsPerScanline * (g.height - 1)) + 4 * g.pixelsPerScanline := by ring
    rw [offset, hmul]
    omega

/-- `putPixel` checks the upper bounds, so its stores are in order when the coordinates are not
negative. -/
theorem putPixel_visible (h : g.Fits) (hx : 0 ≤ x) (hy : 0 ≤ y) (colour : Rgb) :
    ∀ store ∈ putPixel g x y colour, g.Visible store.1 := by
  rw [putPixel]
  split
  next => exact nofun
  next hin =>
    rw [not_or, not_le, not_le] at hin
    have hvisible : ∀ c, 0 ≤ c → c < 3 → g.Visible (g.index x y c) := fun c hc hc' ↦
      h.visible hx hin.1 hy hin.2 hc hc'
    split <;>
    · simp only [List.forall_mem_cons]
      exact ⟨hvisible 0 (by decide) (by decide), hvisible 1 (by decide) (by decide),
        hvisible 2 (by decide) (by decide), nofun⟩

theorem putChar_visible (h : g.Fits) (font : ℕ → Byte) (ch : Byte) (hx : 0 ≤ x)
    (hx' : x + 7 < 2 ^ 31) (hy : 0 ≤ y) (hy' : y + 15 < 2 ^ 31) (colour : Rgb) :
    ∀ store ∈ putChar g font ch x y colour, g.Visible store.1 := by
  intro store hmem
  rw [putChar, List.mem_flatMap] at hmem
  obtain ⟨i, hi, hmem⟩ := hmem
  rw [List.mem_flatMap] at hmem
  obtain ⟨k, hk, hmem⟩ := hmem
  rw [List.mem_range] at hi hk
  split at hmem
  next =>
    rw [wrap_eq_self (by omega) (by omega), wrap_eq_self (by omega) (by omega)] at hmem
    exact putPixel_visible h (by omega) (by omega) colour store hmem
  next => exact absurd hmem List.not_mem_nil

end Stores

end VimOS
