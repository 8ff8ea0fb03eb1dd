import Mathlib.Tactic

/-!
# Virtual and physical addresses

`p2v` and `v2p` are the address translations of `include/paging.h` and `kernel/paging.c`: a device
is given physical addresses, the CPU uses virtual ones.
-/

namespace VimOS

/-- A 64-bit address, virtual or physical. -/
abbrev Addr := BitVec 64

abbrev Byte := BitVec 8

/-- `PAGE_OFFSET`: where physical memory is mapped. -/
def pageOffset : Addr := 0xffff806000000000

/-- `KERNEL_MAPPING`: where the kernel image is mapped. -/
def kernelMapping : Addr := 0xffff800000000000

/-- The macro `P2V`. -/
def p2v (a : Addr) : Addr := pageOffset + a

/-- `uint64_t _v2p(uint64_t v)`. -/
def v2p (v : Addr) : Addr :=
  if v - pageOffset < v then v - pageOffset else v - kernelMapping + 0x100000

/-- The test of `_v2p` asks whether the address is mapped by `PAGE_OFFSET`. -/
theorem sub_pageOffset_lt_iff (v : Addr) : v - pageOffset < v ↔ pageOffset ≤ v := by
  rw [pageOffset]
  bv_omega

theorem v2p_p2v {a : Addr} (h : a.toNat < 2 ^ 64 - pageOffset.toNat) : v2p (p2v a) = a := by
  have hge : pageOffset ≤ p2v a := by
    rw [pageOffset] at h
    rw [p2v, pageOffset]
    bv_omega
  rw [v2p, if_pos ((sub_pageOffset_lt_iff _).mpr hge), p2v]
  bv_omega

/-- Both mappings are by whole pages, so translation does not depend on the place in the page. -/
theorem v2p_add {v k : Addr} (hv : v.toNat % 4096 = 0) (hk : k.toNat < 4096) :
    v2p (v + k) = v2p v + k := by
  have hiff : pageOffset ≤ v + k ↔ pageOffset ≤ v := by
    rw [pageOffset]
    bv_omega
  rw [v2p, v2p]
  simp only [sub_pageOffset_lt_iff, hiff]
  split_ifs
  · bv_omega
  · bv_omega

theorem toNat_v2p_direct {v : Addr} (h : pageOffset ≤ v) :
    (v2p v).toNat = v.toNat - 0xffff806000000000 := by
  rw [v2p, if_pos ((sub_pageOffset_lt_iff v).mpr h), BitVec.toNat_sub_of_le h]
  rfl

theorem toNat_v2p_kernel {v : Addr} (h : kernelMapping ≤ v) (hlt : v < pageOffset) :
    (v2p v).toNat = v.toNat - 0xffff800000000000 + 0x100000 := by
  have hnot : ¬ v - pageOffset < v := fun hlt' ↦
    BitVec.not_le.mpr hlt ((sub_pageOffset_lt_iff v).mp hlt')
  have hker : kernelMapping.toNat = 0xffff800000000000 := rfl
  have hmeg : (0x100000 : Addr).toNat = 0x100000 := rfl
  have hv := v.isLt
  rw [v2p, if_neg hnot, BitVec.toNat_add, BitVec.toNat_sub_of_le h, hker, hmeg, Nat.mod_eq_of_lt]
  omega

end VimOS
