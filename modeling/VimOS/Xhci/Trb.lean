import VimOS.Paging.Address

/-!
# Transfer request blocks

The words the driver and the controller exchange: a TRB is four 32-bit words, its cycle bit the
lowest bit of the last. The bit fields of `include/xhci.h` are read off the words here, and the TRBs
the driver makes are spelled out as words.
-/

namespace VimOS

abbrev Word := BitVec 32

/-! ## TRBs -/

/-- Sixteen bytes as four words. -/
structure Trb where
  w0 : Word
  w1 : Word
  w2 : Word
  w3 : Word
  deriving DecidableEq

namespace Trb

/-- The cycle bit. -/
def c (t : Trb) : Bool := t.w3.getLsbD 0

/-- The field `type`. -/
def type (t : Trb) : BitVec 6 := t.w3.extractLsb' 10 6

/-- The field `tc` of a Link TRB: the consumer toggles its cycle state. -/
def tc (t : Trb) : Bool := t.w3.getLsbD 1

/-- The pointer in the first two words: `ring_ptr` of a Link TRB, `ptr` of an event. -/
def ptr (t : Trb) : Addr := t.w1 ++ t.w0

/-- The field `code` of an event. -/
def code (t : Trb) : Byte := t.w2.extractLsb' 24 8

/-- The field `slot_id` of an event or a command. -/
def slotId (t : Trb) : Byte := t.w3.extractLsb' 24 8

/-- `tdata[3] | (uint32_t)cycle_bit`. -/
def withCycle (t : Trb) (c : Bool) : Trb := { t with w3 := t.w3 ||| (BitVec.ofBool c).setWidth 32 }

/-- The TRB apart from its cycle bit. -/
def clearCycle (t : Trb) : Trb := { t with w3 := t.w3 &&& ~~~1#32 }

variable {t : Trb} {c : Bool}

theorem c_withCycle (h : t.c = false) : (t.withCycle c).c = c := by
  have h0 : t.w3[0] = false := h
  rw [Trb.c, withCycle]
  cases c <;> simp [h0]

@[simp] theorem type_clearCycle : t.clearCycle.type = t.type := by
  rw [type, type, clearCycle]
  ext i hi
  simp only [BitVec.getElem_extractLsb', BitVec.getLsbD_and, BitVec.getLsbD_not,
    BitVec.getLsbD_one]
  grind

theorem clearCycle_withCycle (h : t.c = false) : (t.withCycle c).clearCycle = t := by
  have h0 : t.w3[0] = false := h
  have hw : (t.w3 ||| (BitVec.ofBool c).setWidth 32) &&& ~~~1#32 = t.w3 := by
    ext i hi
    by_cases hi0 : i = 0
    · subst hi0
      simp [h0]
    · rw [BitVec.getElem_and, BitVec.getElem_not, BitVec.getElem_one]
      simp [hi0]
  rw [clearCycle, withCycle]
  simp only [hw]

end Trb

/-- `init_normal_trb(trb, buf)`: `type = 1`, `ioc = 1`. -/
def initNormalTrb (buf : Addr) : Trb :=
  ⟨buf.setWidth 32, (buf >>> 32).setWidth 32, 0, 1#32 <<< 10 ||| 1#32 <<< 5⟩

/-- The last word of the Link TRB: `type = 6`, `tc = 1`. -/
def linkFlags : Word := 6#32 <<< 10 ||| 1#32 <<< 1

/-- The Link TRB of `write_ring`. -/
def linkTrb (ringPtr : Addr) : Trb :=
  ⟨ringPtr.setWidth 32, (ringPtr >>> 32).setWidth 32, 0, linkFlags⟩

@[simp] theorem linkTrb_c (a : Addr) : (linkTrb a).c = false := by
  have h : linkFlags.getLsbD 0 = false := by decide
  exact h

@[simp] theorem linkTrb_type (a : Addr) : (linkTrb a).type = 6 := by
  have h : linkFlags.extractLsb' 10 6 = 6 := by decide
  exact h

@[simp] theorem linkTrb_tc (a : Addr) : (linkTrb a).tc = true := by
  have h : linkFlags.getLsbD 1 = true := by decide
  exact h

@[simp] theorem linkTrb_ptr (a : Addr) : (linkTrb a).ptr = a := by
  rw [Trb.ptr, linkTrb]
  ext i hi
  simp only [BitVec.getElem_append, BitVec.getElem_setWidth, BitVec.getLsbD_ushiftRight]
  split_ifs with h
  · rw [BitVec.getLsbD_eq_getElem hi]
  · rw [show 32 + (i - 32) = i by omega, BitVec.getLsbD_eq_getElem hi]

end VimOS
