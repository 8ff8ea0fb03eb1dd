import VimOS.Xhci.Trb

/-!
# TRBs in memory

A ring is a page of physical memory, seen as 256 slots of one TRB each.
-/

namespace VimOS

/-- Physical memory, by the address of each word. -/
abbrev PhysMem := Addr → Word

/-- The TRB at a physical address. -/
def readTrb (mem : PhysMem) (a : Addr) : Trb := ⟨mem a, mem (a + 4), mem (a + 8), mem (a + 12)⟩

/-- The TRB in a slot of the page at `base`. -/
def slotTrb (base : Addr) (mem : PhysMem) (j : ℕ) : Trb :=
  readTrb mem (base + BitVec.ofNat 64 (16 * j))

/-- A page of physical memory, as it is mapped. -/
def ringPage : Addr := 0xffff806000100000

/-! ## Stores to a slot -/

section Store

variable {base : Addr} {mem : PhysMem} {v : Word} {o : Addr} {j j' : ℕ}

/-- A store to one slot leaves the others alone. -/
theorem slotTrb_store_ne (hj : j < 256) (hj' : j' < 256) (hne : j' ≠ j) (ho : o.toNat < 16) :
    slotTrb base (Function.update mem (base + BitVec.ofNat 64 (16 * j) + o) v) j' =
      slotTrb base mem j' := by
  rw [slotTrb, readTrb, Function.update_of_ne (by bv_omega), Function.update_of_ne (by bv_omega),
    Function.update_of_ne (by bv_omega), Function.update_of_ne (by bv_omega)]
  rfl

theorem slotTrb_store_w0 :
    slotTrb base (Function.update mem (base + BitVec.ofNat 64 (16 * j)) v) j =
      { slotTrb base mem j with w0 := v } := by
  rw [slotTrb, readTrb, Function.update_self, Function.update_of_ne (by bv_omega),
    Function.update_of_ne (by bv_omega), Function.update_of_ne (by bv_omega)]
  rfl

theorem slotTrb_store_w1 :
    slotTrb base (Function.update mem (base + BitVec.ofNat 64 (16 * j) + 4) v) j =
      { slotTrb base mem j with w1 := v } := by
  rw [slotTrb, readTrb, Function.update_self, Function.update_of_ne (by bv_omega),
    Function.update_of_ne (by bv_omega), Function.update_of_ne (by bv_omega)]
  rfl

theorem slotTrb_store_w2 :
    slotTrb base (Function.update mem (base + BitVec.ofNat 64 (16 * j) + 8) v) j =
      { slotTrb base mem j with w2 := v } := by
  rw [slotTrb, readTrb, Function.update_self, Function.update_of_ne (by bv_omega),
    Function.update_of_ne (by bv_omega), Function.update_of_ne (by bv_omega)]
  rfl

theorem slotTrb_store_w3 :
    slotTrb base (Function.update mem (base + BitVec.ofNat 64 (16 * j) + 12) v) j =
      { slotTrb base mem j with w3 := v } := by
  rw [slotTrb, readTrb, Function.update_self, Function.update_of_ne (by bv_omega),
    Function.update_of_ne (by bv_omega), Function.update_of_ne (by bv_omega)]
  rfl

/-- The physical address of a word of a slot. -/
theorem v2p_slot {buf : Addr} (hbuf : buf.toNat % 4096 = 0) (hj : j < 256) (ho : o.toNat < 16) :
    v2p (buf + BitVec.ofNat 64 (16 * j) + o) = v2p buf + BitVec.ofNat 64 (16 * j) + o := by
  rw [BitVec.add_assoc, v2p_add hbuf (by bv_omega), BitVec.add_assoc]

theorem v2p_slot_start {buf : Addr} (hbuf : buf.toNat % 4096 = 0) (hj : j < 256) :
    v2p (buf + BitVec.ofNat 64 (16 * j)) = v2p buf + BitVec.ofNat 64 (16 * j) := by
  simpa using v2p_slot (o := 0) hbuf hj (by decide)

end Store

end VimOS
