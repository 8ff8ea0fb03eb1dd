import VimOS.Console.FrameBuffer

/-!
# Scrolling

`scroll_screen` of `kernel/uefi_graphics.c` copies 400 pixels of each row from 16 rows below and
then clears 25600 bytes from the start of each of the rows `height` up to `height - 15`: neither
length is that of a row, and the row `height - 16` is not among those cleared. What a byte holds
after the copies is the old byte at its `landing`; the clearing is looked at row by row.

Which bytes are touched at all is recorded by a second reading of the same loops. Offsets are
`int`s, so the row that lies behind the frame buffer is only missed when they come round.
-/

namespace VimOS

open Signed32

/-! ## The code -/

/-- The bytes by their offset from `frame_buffer`. -/
abbrev FrameBuffer := ℤ → Byte

/-- `memcpy`: one byte after the other, in ascending order. -/
def copyBytes (fb : FrameBuffer) (dst src : ℤ) : ℕ → FrameBuffer
  | 0 => fb
  | n + 1 => copyBytes (Function.update fb dst (fb src)) (dst + 1) (src + 1) n

/-- `memset` to zero. -/
def clearBytes (fb : FrameBuffer) (dst : ℤ) : ℕ → FrameBuffer
  | 0 => fb
  | n + 1 => clearBytes (Function.update fb dst 0) (dst + 1) n

/-- The first loop, up to `i = t`. -/
def copyRows (g : Geometry) (fb : FrameBuffer) : ℕ → FrameBuffer
  | 0 => fb
  | t + 1 => copyBytes (copyRows g fb t) (wrap (wrap (t * g.pixelsPerScanline) * 4))
      (wrap (wrap ((t + 16) * g.pixelsPerScanline) * 4)) (400 * 4)

/-- The second loop, up to `i = t`. -/
def clearRows (g : Geometry) (fb : FrameBuffer) : ℕ → FrameBuffer
  | 0 => fb
  | t + 1 => clearBytes (clearRows g fb t)
      (wrap (wrap (g.pixelsPerScanline * (g.height - t)) * 4)) (400 * 16 * 4)

/-- `scroll_screen`. -/
def scrollScreen (g : Geometry) (fb : FrameBuffer) : FrameBuffer :=
  clearRows g (copyRows g fb (g.height - 16).toNat) 16

/-! ## One copy and one clearing -/

section Bytes

variable {fb : FrameBuffer} {dst src a : ℤ} {n t : ℕ}

/-- Copied downwards, every byte is read before it is overwritten. -/
theorem copyBytes_apply (h : dst < src) (n : ℕ) (a : ℤ) :
    copyBytes fb dst src n a = if dst ≤ a ∧ a < dst + n then fb (a + (src - dst)) else fb a := by
  induction n generalizing fb dst src with
  | zero =>
    rw [copyBytes, if_neg]
    omega
  | succ n ih =>
    have hdist : src + 1 - (dst + 1) = src - dst := by omega
    rw [copyBytes, ih (by omega), hdist]
    by_cases ha : a = dst
    · have hsrc : a + (src - dst) = src := by omega
      rw [if_neg (by omega), if_pos (by omega), hsrc, ha, Function.update_self]
    · have hne : a + (src - dst) ≠ dst ∨ ¬(dst + 1 ≤ a ∧ a < dst + 1 + n) := by omega
      rw [Function.update_of_ne ha]
      by_cases hin : dst + 1 ≤ a ∧ a < dst + 1 + n
      · rw [if_pos hin, if_pos (by omega),
          Function.update_of_ne (hne.resolve_right (not_not.mpr hin))]
      · rw [if_neg hin, if_neg (by omega)]

theorem clearBytes_apply (dst : ℤ) (n : ℕ) (a : ℤ) :
    clearBytes fb dst n a = if dst ≤ a ∧ a < dst + n then 0 else fb a := by
  induction n generalizing fb dst with
  | zero =>
    rw [clearBytes, if_neg]
    omega
  | succ n ih =>
    rw [clearBytes, ih]
    by_cases ha : a = dst
    · rw [if_neg (by omega), if_pos (by omega), ha, Function.update_self]
    · rw [Function.update_of_ne ha]
      by_cases hin : dst + 1 ≤ a ∧ a < dst + 1 + n
      · rw [if_pos hin, if_pos (by omega)]
      · rw [if_neg hin, if_neg (by omega)]

/-- A buffer of one value stays as it is, wherever the copies go. -/
theorem copyBytes_const (v : Byte) (dst src : ℤ) (n : ℕ) :
    copyBytes (fun _ ↦ v) dst src n = fun _ ↦ v := by
  induction n generalizing dst src with
  | zero => rfl
  | succ n ih => rw [copyBytes, Function.update_eq_self_iff.mpr rfl, ih]

theorem copyRows_const (g : Geometry) (v : Byte) (t : ℕ) :
    copyRows g (fun _ ↦ v) t = fun _ ↦ v := by
  induction t with
  | zero => rfl
  | succ t ih => rw [copyRows, ih, copyBytes_const]

/-- The offset of the clearing with the counter `t`. -/
def clearStart (g : Geometry) (t : ℕ) : ℤ := wrap (4 * (g.pixelsPerScanline * (g.height - t)))

theorem clearRows_succ (g : Geometry) (t : ℕ) :
    clearRows g fb (t + 1) a = if clearStart g t ≤ a ∧ a < clearStart g t + 25600 then 0
      else clearRows g fb t a := by
  rw [clearRows, clearBytes_apply, wrap_wrap_mul, clearStart, mul_comm _ (4 : ℤ)]
  rfl

theorem clearRows_of_forall {g : Geometry}
    (h : ∀ i < t, ¬(clearStart g i ≤ a ∧ a < clearStart g i + 25600)) :
    clearRows g fb t a = fb a := by
  induction t with
  | zero => rfl
  | succ t ih =>
    rw [clearRows_succ, if_neg (h t (Nat.lt_succ_self _)), ih fun i hi ↦ h i (Nat.lt_succ_of_lt hi)]

theorem clearRows_of_exists {g : Geometry}
    (h : ∃ i < t, clearStart g i ≤ a ∧ a < clearStart g i + 25600) :
    clearRows g fb t a = 0 := by
  induction t with
  | zero => exact absurd h (by simp)
  | succ t ih =>
    rw [clearRows_succ]
    split
    next => rfl
    next hout =>
      obtain ⟨i, hi, hin⟩ := h
      have hne : i ≠ t := fun heq ↦ hout (heq ▸ hin)
      exact ih ⟨i, by omega, hin⟩

end Bytes

/-! ## Where the copies come from -/

/-- The offset of a row. -/
def rowStart (g : Geometry) (y : ℤ) : ℤ := 4 * (g.pixelsPerScanline * y)

/-- The byte whose old value the offset `a` holds after `t` rows are copied. -/
def landing (g : Geometry) : ℕ → ℤ → ℤ
  | 0, a => a
  | t + 1, a =>
    if rowStart g t ≤ a ∧ a < rowStart g t + 1600 then landing g t (a + 64 * g.pixelsPerScanline)
    else landing g t a

section Landing

variable {g : Geometry} {fb : FrameBuffer} {x y c a : ℤ} {t : ℕ}

theorem offset_eq (g : Geometry) (x y c : ℤ) : g.offset x y c = rowStart g y + 4 * x + c := by
  rw [Geometry.offset, rowStart]
  ring

theorem rowStart_add (g : Geometry) (y k : ℤ) :
    rowStart g (y + k) = rowStart g y + 4 * (g.pixelsPerScanline * k) := by
  rw [rowStart, rowStart]
  ring

/-- Rows do not overlap. -/
theorem rowStart_le (hpps : 0 ≤ g.pixelsPerScanline) (h : x < y) :
    rowStart g x + 4 * g.pixelsPerScanline ≤ rowStart g y := by
  have hmul := mul_le_mul_of_nonneg_left (Int.add_one_le_of_lt h) hpps
  rw [mul_add, mul_one] at hmul
  rw [rowStart, rowStart]
  omega

theorem copyRows_apply (hpps : 0 < g.pixelsPerScanline)
    (hfits : 4 * (g.pixelsPerScanline * g.height) < 2 ^ 31) (ht : (t : ℤ) ≤ g.height - 16) (a : ℤ) :
    copyRows g fb t a = fb (landing g t a) := by
  induction t generalizing a with
  | zero => rfl
  | succ t ih =>
    push_cast at ht
    have hlast := mul_le_mul_of_nonneg_left (by omega : (t : ℤ) + 16 ≤ g.height) hpps.le
    have hpos : 0 ≤ g.pixelsPerScanline * t := mul_nonneg hpps.le t.cast_nonneg
    have hshift : g.pixelsPerScanline * ((t : ℤ) + 16)
        = g.pixelsPerScanline * t + 16 * g.pixelsPerScanline := by ring
    have hdst : wrap (wrap (t * g.pixelsPerScanline) * 4) = rowStart g t := by
      rw [wrap_wrap_mul, mul_comm (t : ℤ), rowStart, mul_comm _ (4 : ℤ),
        wrap_eq_self (by omega) (by omega)]
    have hsrc : wrap (wrap (((t : ℤ) + 16) * g.pixelsPerScanline) * 4)
        = rowStart g t + 64 * g.pixelsPerScanline := by
      rw [wrap_wrap_mul, mul_comm ((t : ℤ) + 16), hshift, rowStart,
        wrap_eq_self (by omega) (by omega)]
      ring
    rw [copyRows, hdst, hsrc, copyBytes_apply (by omega), landing, add_sub_cancel_left,
      ih (by omega), ih (by omega)]
    norm_num
    split_ifs <;> rfl

/-- No row copied so far reaches the offset. -/
theorem landing_of_forall
    (h : ∀ j : ℕ, j < t → ¬(rowStart g j ≤ a ∧ a < rowStart g j + 1600)) : landing g t a = a := by
  induction t with
  | zero => rfl
  | succ t ih =>
    rw [landing, if_neg (h t (Nat.lt_succ_self _)), ih fun j hj ↦ h j (Nat.lt_succ_of_lt hj)]

/-- The first 400 pixels of a row come from 16 rows below. -/
theorem landing_shift (hpps : 24 ≤ g.pixelsPerScanline) (hx : 0 ≤ x) (hx' : x < 400)
    (hxpps : x < g.pixelsPerScanline) (hc : 0 ≤ c) (hc' : c < 4) {y : ℕ} (hy : y < t) :
    landing g t (g.offset x y c) = g.offset x (y + 16) c := by
  have hnext := rowStart_add g y 16
  rw [offset_eq, offset_eq, hnext]
  induction t with
  | zero => exact absurd hy (Nat.not_lt_zero _)
  | succ t ih =>
    rw [landing]
    rcases Nat.lt_succ_iff_lt_or_eq.mp hy with hlt | rfl
    · have hrow : rowStart g y + 4 * g.pixelsPerScanline ≤ rowStart g t :=
        rowStart_le (by omega) (by omega)
      rw [if_neg (by omega), ih hlt]
    · rw [if_pos (by omega), landing_of_forall]
      · ring
      · intro j hj hin
        have hrow : rowStart g j + 4 * g.pixelsPerScanline ≤ rowStart g y :=
          rowStart_le (by omega) (by omega)
        omega

/-- Beyond the first 400 pixels nothing is copied. -/
theorem landing_right (hpps : 0 ≤ g.pixelsPerScanline) (hx : 400 ≤ x)
    (hxpps : x < g.pixelsPerScanline) (hc : 0 ≤ c) (hc' : c < 4) (y : ℤ) :
    landing g t (g.offset x y c) = g.offset x y c := by
  rw [offset_eq]
  refine landing_of_forall fun j _ hin ↦ ?_
  rcases lt_trichotomy (j : ℤ) y with h | h | h
  · have hrow := rowStart_le hpps h
    omega
  · rw [h] at hin
    omega
  · have hrow := rowStart_le hpps h
    omega

/-- The row behind the last one that is copied is reached by that copy if rows are short. -/
theorem landing_gap (hpps : 24 ≤ g.pixelsPerScanline) (hx : 0 ≤ x)
    (hxpps : x < g.pixelsPerScanline) (hc : 0 ≤ c) (hc' : c < 4) (t : ℕ) :
    landing g t (g.offset x t c) =
      if 0 < t ∧ g.pixelsPerScanline + x < 400 then g.offset x (t + 16) c
      else g.offset x t c := by
  rw [offset_eq, offset_eq, rowStart_add]
  split
  next h =>
    obtain ⟨t, rfl⟩ := Nat.exists_eq_add_one_of_ne_zero h.1.ne'
    have hlast := rowStart_add g t 1
    push_cast
    rw [landing, hlast, if_pos (by omega), landing_of_forall]
    · ring
    · intro j hj hin
      have hrow : rowStart g j + 4 * g.pixelsPerScanline ≤ rowStart g t :=
        rowStart_le (by omega) (by omega)
      omega
  next h =>
    refine landing_of_forall fun j hj hin ↦ h ⟨by omega, ?_⟩
    have hrow : rowStart g j + 4 * g.pixelsPerScanline ≤ rowStart g t :=
      rowStart_le (by omega) (by omega)
    omega

end Landing

/-! ## What scrolling should do -/

/-- The visible pixels are those of one text line below, and the last text line is black. -/
structure Scrolled (g : Geometry) (before after : FrameBuffer) : Prop where
  shifted : ∀ x y c : ℤ, 0 ≤ x → x < g.width → 0 ≤ y → y < g.height - 16 → 0 ≤ c → c < 3 →
    after (g.offset x y c) = before (g.offset x (y + 16) c)
  cleared : ∀ x y c : ℤ, 0 ≤ x → x < g.width → g.height - 16 ≤ y → y < g.height → 0 ≤ c → c < 3 →
    after (g.offset x y c) = 0

/-- What the code leaves out looks right already: to the right of 400 pixels the picture is the
same one text line below, the row that is not cleared is black (or black pixels are copied there),
and so is the last text line, its first row apart, to the right of 6400 pixels. -/
structure LooksScrolled (g : Geometry) (before : FrameBuffer) : Prop where
  right : ∀ x y c : ℤ, 400 ≤ x → x < g.width → 0 ≤ y → y < g.height - 16 → 0 ≤ c → c < 3 →
    before (g.offset x y c) = before (g.offset x (y + 16) c)
  gap : ∀ x c : ℤ, 0 ≤ x → x < g.width → 0 ≤ c → c < 3 →
    before (if 16 < g.height ∧ g.pixelsPerScanline + x < 400 then g.offset x g.height c
      else g.offset x (g.height - 16) c) = 0
  corner : ∀ x y c : ℤ, 6400 ≤ x → x < g.width → g.height - 15 ≤ y → y < g.height → 0 ≤ c →
    c < 3 → before (g.offset x y c) = 0

section Shift

variable {g : Geometry} {fb before : FrameBuffer} {x y c a : ℤ}

/-- A display without overflow, with at least 24 pixels in a row. -/
structure Geometry.Scrolls (g : Geometry) : Prop where
  le_height : 16 ≤ g.height
  le_pps : g.width ≤ g.pixelsPerScanline
  pps : 24 ≤ g.pixelsPerScanline
  fits : 4 * (g.pixelsPerScanline * g.height) < 2 ^ 31

theorem clearStart_eq (h : g.Scrolls) {i : ℕ} (hi : i < 16) :
    clearStart g i = rowStart g (g.height - i) := by
  have hheight := h.le_height
  have hpps := h.pps
  have hfits := h.fits
  have hle := mul_le_mul_of_nonneg_left (by omega : g.height - i ≤ g.height)
    (by omega : 0 ≤ g.pixelsPerScanline)
  have hpos := mul_nonneg (by omega : 0 ≤ g.pixelsPerScanline) (by omega : 0 ≤ g.height - i)
  rw [clearStart, rowStart, wrap_eq_self (by omega) (by omega)]

theorem scrollScreen_of_forall (h : g.Scrolls)
    (ha : ∀ i : ℕ, i < 16 → ¬(rowStart g (g.height - i) ≤ a ∧
      a < rowStart g (g.height - i) + 25600)) :
    scrollScreen g fb a = fb (landing g (g.height - 16).toNat a) := by
  have hheight := h.le_height
  have hpps := h.pps
  rw [scrollScreen, clearRows_of_forall fun i hi ↦ by rw [clearStart_eq h hi]; exact ha i hi,
    copyRows_apply (by omega) h.fits (by omega)]

/-- Above the rows that are cleared. -/
theorem scrollScreen_above (h : g.Scrolls) (hx' : x < g.width) (hy : y ≤ g.height - 16)
    (hc' : c < 4) :
    scrollScreen g fb (g.offset x y c) = fb (landing g (g.height - 16).toNat (g.offset x y c)) := by
  have hpps := h.pps
  have hle := h.le_pps
  refine scrollScreen_of_forall h fun i hi hin ↦ ?_
  have hrow : rowStart g y + 4 * g.pixelsPerScanline ≤ rowStart g (g.height - i) :=
    rowStart_le (by omega) (by omega)
  rw [offset_eq] at hin
  omega

theorem scrollScreen_shift (h : g.Scrolls) (hx : 0 ≤ x) (hx' : x < g.width) (hxl : x < 400)
    (hy : 0 ≤ y) (hy' : y < g.height - 16) (hc : 0 ≤ c) (hc' : c < 3) :
    scrollScreen g fb (g.offset x y c) = fb (g.offset x (y + 16) c) := by
  have hle := h.le_pps
  obtain ⟨y, rfl⟩ := Int.eq_ofNat_of_zero_le hy
  rw [scrollScreen_above h hx' hy'.le (by omega),
    landing_shift h.pps hx hxl (by omega) hc (by omega) (by omega)]

theorem scrollScreen_right (h : g.Scrolls) (hx : 400 ≤ x) (hx' : x < g.width)
    (hy' : y < g.height - 16) (hc : 0 ≤ c) (hc' : c < 3) :
    scrollScreen g fb (g.offset x y c) = fb (g.offset x y c) := by
  have hle := h.le_pps
  have hpps := h.pps
  rw [scrollScreen_above h hx' hy'.le (by omega),
    landing_right (by omega) hx (by omega) hc (by omega)]

theorem scrollScreen_gap (h : g.Scrolls) (hx : 0 ≤ x) (hx' : x < g.width) (hc : 0 ≤ c)
    (hc' : c < 3) :
    scrollScreen g fb (g.offset x (g.height - 16) c) =
      fb (if 16 < g.height ∧ g.pixelsPerScanline + x < 400 then g.offset x g.height c
        else g.offset x (g.height - 16) c) := by
  have hle := h.le_pps
  have hheight := h.le_height
  have hcast : ((g.height - 16).toNat : ℤ) = g.height - 16 := by omega
  have hgap := landing_gap h.pps hx (by omega : x < g.pixelsPerScanline) hc (by omega : c < 4)
    (g.height - 16).toNat
  have hiff : 0 < (g.height - 16).toNat ↔ 16 < g.height := by omega
  rw [hcast, sub_add_cancel] at hgap
  rw [scrollScreen_above h hx' le_rfl (by omega), hgap]
  simp only [hiff]

theorem scrollScreen_cleared (h : g.Scrolls) (hx : 0 ≤ x) (hxl : x < 6400)
    (hy : g.height - 15 ≤ y) (hy' : y < g.height) (hc : 0 ≤ c) (hc' : c < 3) :
    scrollScreen g fb (g.offset x y c) = 0 := by
  have hrow : g.height - ((g.height - y).toNat : ℤ) = y := by omega
  refine clearRows_of_exists ⟨(g.height - y).toNat, by omega, ?_⟩
  rw [clearStart_eq h (by omega), hrow, offset_eq]
  omega

theorem scrollScreen_corner (h : g.Scrolls) (hx : 6400 ≤ x) (hx' : x < g.width)
    (hc : 0 ≤ c) (hc' : c < 3) :
    scrollScreen g fb (g.offset x y c) = fb (g.offset x y c) := by
  have hle := h.le_pps
  have hpps := h.pps
  rw [scrollScreen_of_forall h, landing_right (by omega) (by omega) (by omega) hc (by omega)]
  intro i hi hin
  rw [offset_eq] at hin
  rcases lt_trichotomy (g.height - i : ℤ) y with hlt | heq | hgt
  · have hrow := rowStart_le (by omega : 0 ≤ g.pixelsPerScanline) hlt
    omega
  · rw [heq] at hin
    omega
  · have hrow := rowStart_le (by omega : 0 ≤ g.pixelsPerScanline) hgt
    omega

/-- **Scrolling is a shift by one text line** exactly for the contents on which what is left out
makes no difference. -/
theorem scrolled_iff_looksScrolled (h : g.Scrolls) (before : FrameBuffer) :
    Scrolled g before (scrollScreen g before) ↔ LooksScrolled g before := by
  have hheight := h.le_height
  constructor
  · intro hscrolled
    refine ⟨fun x y c hx hx' hy hy' hc hc' ↦ ?_, fun x c hx hx' hc hc' ↦ ?_,
      fun x y c hx hx' hy hy' hc hc' ↦ ?_⟩
    · rw [← hscrolled.shifted x y c (by omega) hx' hy hy' hc hc',
        scrollScreen_right h hx hx' hy' hc hc']
    · exact (scrollScreen_gap h hx hx' hc hc').symm.trans
        (hscrolled.cleared x _ c hx hx' le_rfl (by omega) hc hc')
    · exact (scrollScreen_corner h hx hx' hc hc').symm.trans
        (hscrolled.cleared x y c (by omega) hx' (by omega) hy' hc hc')
  · intro hlooks
    refine ⟨fun x y c hx hx' hy hy' hc hc' ↦ ?_, fun x y c hx hx' hy hy' hc hc' ↦ ?_⟩
    · rcases lt_or_ge x 400 with hxl | hxr
      · exact scrollScreen_shift h hx hx' hxl hy hy' hc hc'
      · rw [scrollScreen_right h hxr hx' hy' hc hc']
        exact hlooks.right x y c hxr hx' hy hy' hc hc'
    · rcases eq_or_lt_of_le hy with rfl | hlt
      · rw [scrollScreen_gap h hx hx' hc hc']
        exact hlooks.gap x c hx hx' hc hc'
      · rcases lt_or_ge x 6400 with hxl | hxr
        · exact scrollScreen_cleared h hx hxl (by omega) hy' hc hc'
        · rw [scrollScreen_corner h hxr hx' hc hc']
          exact hlooks.corner x y c hxr hx' (by omega) hy' hc hc'

end Shift

/-! ## Every display loses pixels -/

section White

variable {g : Geometry}

/-- The clearing does not reach the first pixel of the row that is 16 rows above the last one, as
long as offsets do not come round. -/
theorem gap_not_cleared (hpps : 0 < g.pixelsPerScanline)
    (hshort : g.pixelsPerScanline < 2 ^ 26 - 400) {i : ℕ} (hi : i < 16) :
    ¬(clearStart g i ≤ g.offset 0 (g.height - 16) 0 ∧
      g.offset 0 (g.height - 16) 0 < clearStart g i + 25600) := by
  have hstart : g.pixelsPerScanline * (g.height - i)
      = g.pixelsPerScanline * (g.height - 16) + g.pixelsPerScanline * (16 - i) := by ring
  have hpos : g.pixelsPerScanline * 1 ≤ g.pixelsPerScanline * (16 - i : ℤ) :=
    mul_le_mul_of_nonneg_left (by omega) hpps.le
  have hle : g.pixelsPerScanline * (16 - i : ℤ) ≤ g.pixelsPerScanline * 16 :=
    mul_le_mul_of_nonneg_left (by omega) hpps.le
  rw [clearStart, hstart, offset_eq, rowStart, wrap]
  omega

/-- On a larger display the last row is out of the clearing's reach. -/
theorem last_not_cleared (hheight : 16 ≤ g.height)
    (hlong : 2 ^ 26 - 400 ≤ g.pixelsPerScanline) (i : ℕ) :
    ¬(clearStart g i ≤ g.offset 0 (g.height - 1) 0 ∧
      g.offset 0 (g.height - 1) 0 < clearStart g i + 25600) := by
  have hrow : g.pixelsPerScanline * 15 ≤ g.pixelsPerScanline * (g.height - 1) :=
    mul_le_mul_of_nonneg_left (by omega) (by omega)
  have hlt := wrap_lt (4 * (g.pixelsPerScanline * (g.height - i)))
  rw [offset_eq, rowStart, clearStart]
  omega

/-- A white screen is not scrolled as it should be, on any display. -/
theorem not_scrolled_white (hwidth : 0 < g.width) (hheight : 16 ≤ g.height)
    (hpps : g.width ≤ g.pixelsPerScanline) :
    ¬Scrolled g (fun _ ↦ 0xff) (scrollScreen g fun _ ↦ 0xff) := by
  intro hscrolled
  have hwhite : ∀ a, (∀ i < 16, ¬(clearStart g i ≤ a ∧ a < clearStart g i + 25600)) →
      scrollScreen g (fun _ ↦ 0xff) a = 0xff := fun a ha ↦ by
    rw [scrollScreen, clearRows_of_forall ha, copyRows_const]
  rcases lt_or_ge g.pixelsPerScanline (2 ^ 26 - 400) with hshort | hlong
  · have hblack := hscrolled.cleared 0 (g.height - 16) 0 le_rfl hwidth le_rfl (by omega) le_rfl
      (by decide)
    rw [hwhite _ fun i hi ↦ gap_not_cleared (by omega) hshort hi] at hblack
    exact absurd hblack (by decide)
  · have hblack := hscrolled.cleared 0 (g.height - 1) 0 le_rfl hwidth (by omega) (by omega) le_rfl
      (by decide)
    rw [hwhite _ fun i _ ↦ last_not_cleared hheight hlong i] at hblack
    exact absurd hblack (by decide)

/-- **Scrolling is a shift by one text line** for every content on no display, and, offsets being
`int`s and rows not shorter than 24 pixels, for exactly the contents that look scrolled already
where the code leaves something out. -/
theorem scrolled_iff (hheight : 16 ≤ g.height) (hpps : g.width ≤ g.pixelsPerScanline) :
    ((∀ before, Scrolled g before (scrollScreen g before)) ↔ g.width ≤ 0) ∧
      (24 ≤ g.pixelsPerScanline → 4 * (g.pixelsPerScanline * g.height) < 2 ^ 31 →
        ∀ before, Scrolled g before (scrollScreen g before) ↔ LooksScrolled g before) := by
  refine ⟨⟨fun h ↦ ?_, fun h before ↦ ⟨?_, ?_⟩⟩, fun hrow hfits before ↦ ?_⟩
  · by_contra hwidth
    exact not_scrolled_white (not_le.mp hwidth) hheight hpps (h _)
  · intro x y c hx hx'
    exact absurd (hx.trans_lt hx') (not_lt.mpr h)
  · intro x y c hx hx'
    exact absurd (hx.trans_lt hx') (not_lt.mpr h)
  · exact scrolled_iff_looksScrolled ⟨hheight, hpps, hrow, hfits⟩ before

/-- A display of 640 by 480 pixels. -/
def vga : Geometry := ⟨640, 480, 640, false⟩

theorem scrolled_iff_black : Scrolled vga (fun _ ↦ 0) (scrollScreen vga fun _ ↦ 0) :=
  ((scrolled_iff (by decide) (by decide)).2 (by decide) (by decide) _).mpr
    ⟨fun _ _ _ _ _ _ _ _ _ ↦ rfl, fun _ _ _ _ _ _ ↦ rfl, fun _ _ _ _ _ _ _ _ _ ↦ rfl⟩

theorem not_scrolled_vga : ¬Scrolled vga (fun _ ↦ 0xff) (scrollScreen vga fun _ ↦ 0xff) :=
  not_scrolled_white (by decide) (by decide) (by decide)

end White

/-! ## What scrolling touches -/

/-- A frame buffer with the offsets read or written so far. -/
structure Screen where
  fb : FrameBuffer
  touched : List ℤ

/-- `memcpy`, with the bytes it touches. -/
def Screen.copyBytes (s : Screen) (dst src : ℤ) : ℕ → Screen
  | 0 => s
  | n + 1 => Screen.copyBytes ⟨Function.update s.fb dst (s.fb src), src :: dst :: s.touched⟩
      (dst + 1) (src + 1) n

/-- `memset` to zero, with the bytes it touches. -/
def Screen.clearBytes (s : Screen) (dst : ℤ) : ℕ → Screen
  | 0 => s
  | n + 1 => Screen.clearBytes ⟨Function.update s.fb dst 0, dst :: s.touched⟩ (dst + 1) n

/-- The first loop, up to `i = t`. -/
def Screen.copyRows (g : Geometry) (s : Screen) : ℕ → Screen
  | 0 => s
  | t + 1 => (s.copyRows g t).copyBytes (wrap (wrap (t * g.pixelsPerScanline) * 4))
      (wrap (wrap ((t + 16) * g.pixelsPerScanline) * 4)) (400 * 4)

/-- The second loop, up to `i = t`. -/
def Screen.clearRows (g : Geometry) (s : Screen) : ℕ → Screen
  | 0 => s
  | t + 1 => (s.clearRows g t).clearBytes
      (wrap (wrap (g.pixelsPerScanline * (g.height - t)) * 4)) (400 * 16 * 4)

/-- `scroll_screen`, with the bytes it touches. -/
def Screen.scroll (g : Geometry) (s : Screen) : Screen :=
  (s.copyRows g (g.height - 16).toNat).clearRows g 16

/-- The offsets of the frame buffer. -/
def Geometry.inBuffer (g : Geometry) (a : ℤ) : Prop :=
  0 ≤ a ∧ a ≤ 4 * g.pixelsPerScanline * g.height - 1

section Touched

variable {g : Geometry} {s : Screen} {fb : FrameBuffer} {dst src a : ℤ} {n t : ℕ}

theorem Screen.fb_copyBytes (s : Screen) (dst src : ℤ) (n : ℕ) :
    (s.copyBytes dst src n).fb = VimOS.copyBytes s.fb dst src n := by
  induction n generalizing s dst src with
  | zero => rfl
  | succ n ih =>
    rw [copyBytes, ih]
    rfl

theorem Screen.fb_clearBytes (s : Screen) (dst : ℤ) (n : ℕ) :
    (s.clearBytes dst n).fb = VimOS.clearBytes s.fb dst n := by
  induction n generalizing s dst with
  | zero => rfl
  | succ n ih =>
    rw [clearBytes, ih]
    rfl

theorem Screen.fb_copyRows (g : Geometry) (s : Screen) (t : ℕ) :
    (s.copyRows g t).fb = VimOS.copyRows g s.fb t := by
  induction t with
  | zero => rfl
  | succ t ih => rw [copyRows, fb_copyBytes, ih, VimOS.copyRows]

theorem Screen.fb_clearRows (g : Geometry) (s : Screen) (t : ℕ) :
    (s.clearRows g t).fb = VimOS.clearRows g s.fb t := by
  induction t with
  | zero => rfl
  | succ t ih => rw [clearRows, fb_clearBytes, ih, VimOS.clearRows]

/-- The offsets are recorded of the run that scrolls the frame buffer. -/
theorem Screen.fb_scroll (g : Geometry) (s : Screen) :
    (s.scroll g).fb = scrollScreen g s.fb := by
  rw [scroll, fb_clearRows, fb_copyRows, scrollScreen]

theorem Screen.mem_copyBytes : a ∈ (s.copyBytes dst src n).touched ↔
    a ∈ s.touched ∨ (dst ≤ a ∧ a < dst + n) ∨ (src ≤ a ∧ a < src + n) := by
  induction n generalizing s dst src with
  | zero =>
    rw [copyBytes, iff_self_or]
    omega
  | succ n ih =>
    rw [copyBytes, ih, List.mem_cons, List.mem_cons]
    push_cast
    by_cases hmem : a ∈ s.touched
    · simp only [hmem, or_true, true_or]
    · simp only [hmem, or_false, false_or]
      omega

theorem Screen.mem_clearBytes : a ∈ (s.clearBytes dst n).touched ↔
    a ∈ s.touched ∨ (dst ≤ a ∧ a < dst + n) := by
  induction n generalizing s dst with
  | zero =>
    rw [clearBytes, iff_self_or]
    omega
  | succ n ih =>
    rw [clearBytes, ih, List.mem_cons]
    push_cast
    by_cases hmem : a ∈ s.touched
    · simp only [hmem, or_true, true_or]
    · simp only [hmem, or_false, false_or]
      omega

/-- The offset at which the code begins a row. -/
def wrappedStart (g : Geometry) (y : ℤ) : ℤ := wrap (rowStart g y)

theorem wrappedStart_eq (g : Geometry) (y : ℤ) :
    wrap (wrap (y * g.pixelsPerScanline) * 4) = wrappedStart g y := by
  rw [wrap_wrap_mul, wrappedStart, rowStart]
  congr 1
  ring

theorem Screen.mem_copyRows : a ∈ (s.copyRows g t).touched ↔ a ∈ s.touched ∨ ∃ i < t,
    (wrappedStart g i ≤ a ∧ a < wrappedStart g i + 1600) ∨
      (wrappedStart g (i + 16) ≤ a ∧ a < wrappedStart g (i + 16) + 1600) := by
  induction t with
  | zero => simp [copyRows]
  | succ t ih =>
    rw [copyRows, mem_copyBytes, ih, wrappedStart_eq, wrappedStart_eq, or_assoc,
      Nat.exists_lt_succ_right]
    rfl

theorem Screen.mem_clearRows : a ∈ (s.clearRows g t).touched ↔ a ∈ s.touched ∨ ∃ i < t,
    wrappedStart g (g.height - i) ≤ a ∧ a < wrappedStart g (g.height - i) + 25600 := by
  induction t with
  | zero => simp [clearRows]
  | succ t ih =>
    rw [Screen.clearRows, mem_clearBytes, ih, or_assoc, Nat.exists_lt_succ_right, wrap_wrap_mul,
      mul_comm _ (4 : ℤ)]
    rfl

/-- `n` bytes from the offset `a` on lie in the frame buffer. -/
def Geometry.rangeInBuffer (g : Geometry) (a : ℤ) (n : ℕ) : Prop :=
  0 ≤ a ∧ a + n ≤ 4 * g.pixelsPerScanline * g.height

/-- Every byte that `scroll_screen` reads or writes is one of the frame buffer. -/
def TouchesOnlyBuffer (g : Geometry) : Prop :=
  ∀ fb, ∀ a ∈ (Screen.scroll g ⟨fb, []⟩).touched, g.inBuffer a

theorem forall_inBuffer_iff (hn : 0 < n) :
    (∀ a, dst ≤ a ∧ a < dst + n → g.inBuffer a) ↔ g.rangeInBuffer dst n := by
  constructor
  · intro h
    have hfirst := h dst ⟨le_rfl, by omega⟩
    have hlast := h (dst + n - 1) ⟨by omega, by omega⟩
    exact ⟨hfirst.1, by have := hlast.2; omega⟩
  · rintro ⟨hnonneg, hle⟩ a ⟨ha, ha'⟩
    exact ⟨by omega, by omega⟩

theorem touchesOnlyBuffer_iff_ranges : TouchesOnlyBuffer g ↔
    (∀ i < (g.height - 16).toNat, g.rangeInBuffer (wrappedStart g i) 1600 ∧
      g.rangeInBuffer (wrappedStart g (i + 16)) 1600) ∧
    ∀ i < 16, g.rangeInBuffer (wrappedStart g (g.height - (i : ℕ))) 25600 := by
  simp only [← forall_inBuffer_iff (Nat.succ_pos _), TouchesOnlyBuffer, Screen.scroll,
    Screen.mem_clearRows, Screen.mem_copyRows, List.not_mem_nil, false_or]
  constructor
  · intro h
    refine ⟨fun i hi ↦ ⟨fun a ha ↦ ?_, fun a ha ↦ ?_⟩, fun i hi a ha ↦ ?_⟩
    · exact h (fun _ ↦ 0) a (.inl ⟨i, hi, .inl ha⟩)
    · exact h (fun _ ↦ 0) a (.inl ⟨i, hi, .inr ha⟩)
    · exact h (fun _ ↦ 0) a (.inr ⟨i, hi, ha⟩)
  · rintro ⟨hcopy, hclear⟩ - a (⟨i, hi, ha | ha⟩ | ⟨i, hi, ha⟩)
    · exact (hcopy i hi).1 a ha
    · exact (hcopy i hi).2 a ha
    · exact hclear i hi a ha

/-! ### The starts of the rows -/

theorem le_wrappedStart (g : Geometry) (y : ℤ) : -2 ^ 31 ≤ wrappedStart g y := le_wrap _

theorem wrappedStart_lt (g : Geometry) (y : ℤ) : wrappedStart g y < 2 ^ 31 := wrap_lt _

theorem wrappedStart_zero (g : Geometry) : wrappedStart g 0 = 0 := by
  rw [wrappedStart, rowStart, mul_zero, mul_zero]
  rfl

theorem wrappedStart_add (g : Geometry) (x y : ℤ) :
    wrappedStart g (x + y) = wrap (wrappedStart g x + wrappedStart g y) := by
  rw [wrappedStart, wrappedStart, wrappedStart, wrap_wrap_add, add_comm (rowStart g x),
    wrap_wrap_add, rowStart_add, ← rowStart, add_comm]

/-- A sum that wraps to an offset within the frame buffer did not wrap. -/
theorem wrap_add_eq {x v : ℤ} (hx : 0 ≤ x) (hx' : x < 2 ^ 31) (hv : -2 ^ 31 ≤ v) (hv' : v < 2 ^ 31)
    (h : 0 ≤ wrap (x + v)) : wrap (x + v) = x + v := by
  rw [wrap] at h ⊢
  omega

/-- Rows that begin at an offset of the buffer, one after the other, are equally far apart. -/
theorem wrappedStart_add_eq {y : ℤ} (h : ∀ k ≤ n, 0 ≤ wrappedStart g (y + (k : ℕ))) :
    wrappedStart g (y + n) = wrappedStart g y + wrappedStart g 1 * n := by
  induction n with
  | zero => rw [Nat.cast_zero, add_zero, mul_zero, add_zero]
  | succ n ih =>
    have hprev := h n (Nat.le_succ n)
    have hnext := h (n + 1) le_rfl
    push_cast at hnext ⊢
    rw [← add_assoc, wrappedStart_add] at hnext ⊢
    rw [wrap_add_eq hprev (wrappedStart_lt g _) (le_wrappedStart g _) (wrappedStart_lt g _) hnext,
      ih fun k hk ↦ h k (hk.trans (Nat.le_succ n))]
    ring

/-- The rows that are cleared follow one another. -/
theorem TouchesOnlyBuffer.starts_eq (h : TouchesOnlyBuffer g) :
    wrappedStart g g.height = wrappedStart g (g.height - 15) + wrappedStart g 1 * 15 := by
  have hblock : ∀ k ≤ 15, 0 ≤ wrappedStart g (g.height - 15 + (k : ℕ)) := by
    intro k hk
    have hrow : g.height - 15 + (k : ℤ) = g.height - ((15 - k : ℕ) : ℤ) := by omega
    rw [hrow]
    exact ((touchesOnlyBuffer_iff_ranges.mp h).2 (15 - k) (by omega)).1
  have heq := wrappedStart_add_eq hblock
  rw [Nat.cast_ofNat, sub_add_cancel] at heq
  exact heq

/-- The rows above are copied, from the first one on, so the offsets are multiples. -/
theorem TouchesOnlyBuffer.first_eq (h : TouchesOnlyBuffer g) (hheight : 16 ≤ g.height) :
    wrappedStart g (g.height - 15) = wrappedStart g 1 * (g.height - 15) := by
  obtain ⟨hcopy, hclear⟩ := touchesOnlyBuffer_iff_ranges.mp h
  have hfirst := (hclear 15 (by decide)).1
  have hlast := (hclear 0 (by decide)).1
  rw [Nat.cast_zero, sub_zero, h.starts_eq] at hlast
  rw [Nat.cast_ofNat] at hfirst
  have hlt := wrappedStart_lt g (g.height - 15)
  have hend := wrappedStart_lt g g.height
  rw [h.starts_eq] at hend
  rcases eq_or_lt_of_le hheight with heq | hgt
  · rw [← heq]
    norm_num
  · have hcopied : ∀ k ≤ (g.height - 17).toNat, 0 ≤ wrappedStart g (0 + (k : ℕ)) := by
      intro k hk
      rw [zero_add]
      exact (hcopy k (by omega)).1.1
    have htop := wrappedStart_add_eq hcopied
    have hnonneg := hcopied _ le_rfl
    have hcast : ((g.height - 17).toNat : ℤ) = g.height - 17 := by omega
    rw [hcast, zero_add] at htop hnonneg
    rw [wrappedStart_zero, zero_add] at htop
    have htwo : wrappedStart g 2 = wrappedStart g 1 * 2 := by
      have hsum := wrappedStart_add g 1 1
      rw [wrap_eq_self (by omega) (by omega)] at hsum
      norm_num at hsum
      omega
    -- the row `height - 16` is not touched when there are fewer than 32 rows
    have hskip := wrappedStart_add g (g.height - 17) 2
    have hrow : g.height - 17 + 2 = g.height - 15 := by omega
    rw [hrow] at hskip
    rw [hskip] at hfirst ⊢
    rw [wrap_add_eq hnonneg (wrappedStart_lt g _) (by omega) (by omega) hfirst, htop, htwo]
    ring

theorem wrappedStart_one : wrappedStart g 1 = wrap (4 * g.pixelsPerScanline) := by
  rw [wrappedStart, rowStart, mul_one]

/-- Where nothing else is touched, the offset of a row has come round. -/
theorem TouchesOnlyBuffer.pixelsPerScanline_ge (h : TouchesOnlyBuffer g) (hheight : 16 ≤ g.height)
    (hpps : 8 ≤ g.pixelsPerScanline) (hint : g.pixelsPerScanline < 2 ^ 31) :
    2 ^ 30 ≤ g.pixelsPerScanline ∧ (4 * g.pixelsPerScanline - 2 ^ 32) * g.height < 2 ^ 31 := by
  have hone := @wrappedStart_one g
  have hfirst := h.first_eq hheight
  have hstarts : wrappedStart g g.height = wrappedStart g 1 * g.height := by
    rw [h.starts_eq, hfirst]
    ring
  have hnonneg := ((touchesOnlyBuffer_iff_ranges.mp h).2 15 (by decide)).1
  rw [Nat.cast_ofNat, hfirst] at hnonneg
  have hone' : 0 ≤ wrappedStart g 1 := nonneg_of_mul_nonneg_left hnonneg (by omega)
  have hlt := wrappedStart_lt g g.height
  have hend := ((touchesOnlyBuffer_iff_ranges.mp h).2 0 (by decide)).2
  rw [Nat.cast_zero, sub_zero] at hend
  rw [hstarts] at hlt hend
  have hge : 2 ^ 30 ≤ g.pixelsPerScanline := by
    by_contra hsmall
    have hself : wrappedStart g 1 = 4 * g.pixelsPerScanline := by
      rw [hone, wrap] at hone' ⊢
      omega
    -- then the range that is cleared first begins behind the last row
    rw [hself] at hend
    omega
  have hself : wrappedStart g 1 = 4 * g.pixelsPerScanline - 2 ^ 32 := by
    rw [hone, wrap] at hone' ⊢
    omega
  exact ⟨hge, hself ▸ hlt⟩

/-- The offsets that have come round are those of short rows at the beginning of the buffer. -/
theorem rangeInBuffer_of_ge (hge : 2 ^ 30 ≤ g.pixelsPerScanline) (hheight : 16 ≤ g.height)
    (hlt : (4 * g.pixelsPerScanline - 2 ^ 32) * g.height < 2 ^ 31) {y : ℤ} {n : ℕ} (hy : 0 ≤ y)
    (hy' : y ≤ g.height) (hn : n ≤ 25600) : g.rangeInBuffer (wrappedStart g y) n := by
  have hle := mul_le_mul_of_nonneg_left hy' (by omega : 0 ≤ 4 * g.pixelsPerScanline - 2 ^ 32)
  have hpos := mul_nonneg (by omega : 0 ≤ 4 * g.pixelsPerScanline - 2 ^ 32) hy
  have hbig := mul_le_mul (by omega : 2 ^ 32 ≤ 4 * g.pixelsPerScanline) hheight (by norm_num)
    (by omega)
  have hstart : wrappedStart g y = (4 * g.pixelsPerScanline - 2 ^ 32) * y := by
    have hcongr : rowStart g y ≡ (4 * g.pixelsPerScanline - 2 ^ 32) * y [ZMOD 2 ^ 32] := by
      rw [Int.modEq_iff_dvd, rowStart]
      exact ⟨-y, by ring⟩
    rw [wrappedStart, wrap_congr hcongr, wrap_eq_self (by omega) (by omega)]
  rw [hstart]
  exact ⟨hpos, by omega⟩

/-- **Scrolling touches only the frame buffer** on no display whose offsets do not overflow: only
with at least `2 ^ 30` pixels in a scan line, where the offsets come round to the first bytes. The
offsets are those of the run that scrolls the frame buffer. -/
theorem touchesOnlyBuffer_iff (hwidth : 8 ≤ g.width) (hheight : 16 ≤ g.height)
    (hpps : g.width ≤ g.pixelsPerScanline) (hint : g.pixelsPerScanline < 2 ^ 31) :
    (TouchesOnlyBuffer g ↔
      2 ^ 30 ≤ g.pixelsPerScanline ∧ (4 * g.pixelsPerScanline - 2 ^ 32) * g.height < 2 ^ 31) ∧
    ∀ s : Screen, (s.scroll g).fb = scrollScreen g s.fb := by
  refine ⟨⟨fun h ↦ h.pixelsPerScanline_ge hheight (hwidth.trans hpps) hint, ?_⟩,
    Screen.fb_scroll g⟩
  rintro ⟨hge, hlt⟩
  refine touchesOnlyBuffer_iff_ranges.mpr ⟨fun i hi ↦ ⟨?_, ?_⟩, fun i hi ↦ ?_⟩
  · exact rangeInBuffer_of_ge hge hheight hlt (by omega) (by omega) (by norm_num)
  · exact rangeInBuffer_of_ge hge hheight hlt (by omega) (by omega) (by norm_num)
  · exact rangeInBuffer_of_ge hge hheight hlt (by omega) (by omega) le_rfl

theorem touchesOnlyBuffer_iff_long : TouchesOnlyBuffer ⟨640, 480, 2 ^ 30, false⟩ :=
  (touchesOnlyBuffer_iff (by norm_num) (by norm_num) (by norm_num) (by norm_num)).1.mpr
    (by norm_num)

/-- The first byte that is cleared is the first one behind the frame buffer. -/
theorem not_touchesOnlyBuffer_vga : ¬TouchesOnlyBuffer vga := by
  intro h
  have hend := ((touchesOnlyBuffer_iff_ranges.mp h).2 0 (by decide)).2
  revert hend
  decide

end Touched

end VimOS
