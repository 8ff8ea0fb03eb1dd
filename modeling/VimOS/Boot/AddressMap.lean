import VimOS.Boot.PageTables
import VimOS.Paging.Address

/-!
# The address map of the boot tables

The four-level walk of the tables `BootMain` leaves, for every canonical address, next to the
arithmetic of `_v2p` and `P2V` that the kernel uses in its place.
-/

namespace VimOS

open PageWalk

/-! ## Steps of the walk -/

variable {base : Table → ℕ} {mem : Mem} {level v k k' addr : ℕ} {t t' : Table}

theorem bootTables_entryAddr (h : TablesAllocated base) (hk : k < t.pages) :
    bootTables base mem (entryAddr level (base t + 4096 * k) v) =
      tableEntry base t (512 * k + index level v) := by
  have haddr : entryAddr level (base t + 4096 * k) v =
      cellAddr base (t, 512 * k + index level v) := by
    simp only [entryAddr, cellAddr]
    omega
  have hvalid : Cell.Valid (t, 512 * k + index level v) := by
    have hi := index_lt level v
    simp only [Cell.Valid]
    omega
  rw [haddr, bootTables_eq h hvalid]

/-- An entry of a table of the blocks leads to the next table. -/
theorem walk_boot_table (h : TablesAllocated base) (hk : k < t.pages) (hk' : k' < t'.pages)
    (he : tableEntry base t (512 * k + index (level + 1) v) = entry (base t' + 4096 * k') 0x003) :
    walk (bootTables base mem) (level + 1) (base t + 4096 * k) v =
      walk (bootTables base mem) level (base t' + 4096 * k') v := by
  have haligned := h.aligned t'
  have hbelow := h.below t'
  have hmod : (base t' + 4096 * k') % 4096 = 0 := by omega
  have hframe : frame (entry (base t' + 4096 * k') 0x003) = base t' + 4096 * k' :=
    frame_entry hmod (by omega) (by decide)
  rw [walk_table ((bootTables_entryAddr h hk).trans he), hframe]
  · exact getLsbD_entry hmod (by decide)
  · exact getLsbD_entry hmod (by decide)

/-- An entry of a directory maps a page of 2 MiB. -/
theorem walk_boot_large (h : TablesAllocated base) (hk : k < t.pages) (haddr : addr < 2 ^ 31)
    (he : tableEntry base t (512 * k + index 2 v) = entry (0x200000 * addr) 0x083) :
    walk (bootTables base mem) 2 (base t + 4096 * k) v =
      some (0x200000 * addr + v % 0x200000) := by
  have hmod : 0x200000 * addr % 4096 = 0 := by omega
  have hspan : span 2 = 0x200000 := rfl
  have hframe : frame (entry (0x200000 * addr) 0x083) = 0x200000 * addr :=
    frame_entry hmod (by omega) (by decide)
  rw [walk_large ((bootTables_entryAddr h hk).trans he) (getLsbD_entry hmod (by decide))
    (getLsbD_entry hmod (by decide)) (.inl rfl), hframe, hspan,
    Nat.mul_div_cancel_left _ (by decide), Nat.mul_comm]

/-- An entry of a page table maps a page of 4 KiB. -/
theorem walk_boot_page (h : TablesAllocated base) (hk : k < t.pages) (hmod : addr % 4096 = 0)
    (haddr : addr < 2 ^ 52)
    (he : tableEntry base t (512 * k + index 1 v) = entry addr 0x003) :
    walk (bootTables base mem) 1 (base t + 4096 * k) v = some (addr + v % 4096) := by
  rw [walk_table ((bootTables_entryAddr h hk).trans he) (getLsbD_entry hmod (by decide))
    (getLsbD_entry hmod (by decide)), frame_entry hmod haddr (by decide), walk]

theorem walk_boot_none (h : TablesAllocated base) (hk : k < t.pages)
    (he : tableEntry base t (512 * k + index (level + 1) v) = 0) :
    walk (bootTables base mem) (level + 1) (base t + 4096 * k) v = none :=
  walk_not_present ((bootTables_entryAddr h hk).trans he) rfl

/-! ## The map -/

/-- Bits 63 to 47 are the same. -/
def Canonical (v : Addr) : Prop := v.toNat < 2 ^ 47 ∨ 2 ^ 64 - 2 ^ 47 ≤ v.toNat

/-- What the tables are to map: the identity on 128 GiB, the kernel window of 32 MiB and the direct
map of 640 GiB. -/
def bootMap (v : ℕ) : Option ℕ :=
  if v < 128 * 2 ^ 30 then some v
  else if 0xffff800000000000 ≤ v ∧ v < 0xffff800000000000 + 32 * 2 ^ 20 then
    some (v - 0xffff800000000000 + 0x100000)
  else if 0xffff806000000000 ≤ v ∧ v < 0xffff806000000000 + 640 * 2 ^ 30 then
    some (v - 0xffff806000000000)
  else none

theorem index_four (v : ℕ) : index 4 v = v / 2 ^ 39 % 512 := rfl

theorem index_three (v : ℕ) : index 3 v = v / 2 ^ 30 % 512 := rfl

theorem index_two (v : ℕ) : index 2 v = v / 2 ^ 21 % 512 := rfl

theorem index_one (v : ℕ) : index 1 v = v / 2 ^ 12 % 512 := rfl

/-- Under entry 0 of the highest table. -/
theorem walk_identity (h : TablesAllocated base) (hv : v < 2 ^ 39) :
    walk (bootTables base mem) 3 (base .pdp) v = bootMap v := by
  by_cases hlow : v < 2 ^ 37
  · have h3 : index 3 v < 128 := by
      rw [index_three]
      omega
    have he : tableEntry base .pdp (512 * 0 + index 3 v) =
        entry (base .pageDir + 4096 * index 3 v) 0x003 := by
      rw [tableEntry, if_pos (by omega), Nat.mul_zero, Nat.zero_add]
    have hmap : 0x200000 * (512 * index 3 v + index 2 v) + v % 0x200000 = v := by
      rw [index_three, index_two]
      omega
    have hsmall : 512 * index 3 v + index 2 v < 2 ^ 31 := by
      have h2 := index_lt 2 v
      omega
    refine (walk_boot_table h (k := 0) (t := .pdp) Nat.one_pos h3 he).trans ?_
    rw [walk_boot_large h h3 hsmall rfl, hmap, bootMap, if_pos (by omega)]
  · have he : tableEntry base .pdp (512 * 0 + index 3 v) = 0 := by
      rw [tableEntry, if_neg]
      rw [index_three]
      omega
    refine (walk_boot_none h (k := 0) (t := .pdp) Nat.one_pos he).trans ?_
    rw [bootMap, if_neg (by omega), if_neg (by omega), if_neg (by omega)]

/-- Under entry 0 below entry 256: the kernel window. -/
theorem walk_kernel (h : TablesAllocated base) (hlo : 0xffff800000000000 ≤ v)
    (hhi : v < 0xffff800040000000) :
    walk (bootTables base mem) 3 (base .kernelPdp) v = bootMap v := by
  have he : tableEntry base .kernelPdp (512 * 0 + index 3 v) =
      entry (base .kernelPageDirectory + 4096 * 0) 0x003 := by
    rw [tableEntry, if_pos, Nat.mul_zero, Nat.add_zero]
    rw [index_three]
    omega
  refine (walk_boot_table h (k := 0) (t := .kernelPdp) Nat.one_pos Nat.one_pos he).trans ?_
  by_cases hwindow : v < 0xffff800002000000
  · have h2 : index 2 v < 16 := by
      rw [index_two]
      omega
    have he : tableEntry base .kernelPageDirectory (512 * 0 + index 2 v) =
        entry (base .kernelPageTable + 4096 * index 2 v) 0x003 := by
      rw [tableEntry, if_pos (by omega), Nat.mul_zero, Nat.zero_add]
    have hmap : 0x100000 + 4096 * (512 * index 2 v + index 1 v) + v % 4096 =
        v - 0xffff800000000000 + 0x100000 := by
      rw [index_two, index_one]
      omega
    have hlt : 0x100000 + 4096 * (512 * index 2 v + index 1 v) < 2 ^ 52 := by
      have h1 := index_lt 1 v
      omega
    refine (walk_boot_table h (k := 0) (t := .kernelPageDirectory) Nat.one_pos h2 he).trans ?_
    rw [walk_boot_page h h2 (by omega) hlt rfl, hmap, bootMap, if_neg (by omega),
      if_pos (by omega)]
  · -- only 16 of the page tables are there
    have he : tableEntry base .kernelPageDirectory (512 * 0 + index 2 v) = 0 := by
      rw [tableEntry, if_neg]
      rw [index_two]
      omega
    refine (walk_boot_none h (k := 0) (t := .kernelPageDirectory) Nat.one_pos he).trans ?_
    rw [bootMap, if_neg (by omega), if_neg (by omega), if_neg (by omega)]

/-- Under the other entries below entry 256: the lower part of the direct map, from entry 384 on. -/
theorem walk_lower_direct (h : TablesAllocated base) (hlo : 0xffff800040000000 ≤ v)
    (hhi : v < 0xffff808000000000) :
    walk (bootTables base mem) 3 (base .kernelPdp) v = bootMap v := by
  by_cases hdirect : 0xffff806000000000 ≤ v
  · have h3 : index 3 v - 384 < 128 := by
      have h3 := index_lt 3 v
      omega
    have hge : 384 ≤ index 3 v := by
      rw [index_three]
      omega
    have he : tableEntry base .kernelPdp (512 * 0 + index 3 v) =
        entry (base .actualPageDir + 4096 * (index 3 v - 384)) 0x003 := by
      rw [tableEntry, if_neg (by omega), if_pos (by omega), Nat.mul_zero, Nat.zero_add]
    have hmap : 0x200000 * (512 * (index 3 v - 384) + index 2 v) + v % 0x200000 =
        v - 0xffff806000000000 := by
      rw [index_three, index_two]
      omega
    have hsmall : 512 * (index 3 v - 384) + index 2 v < 2 ^ 31 := by
      have h2 := index_lt 2 v
      omega
    refine (walk_boot_table h (k := 0) (t := .kernelPdp) Nat.one_pos h3 he).trans ?_
    rw [walk_boot_large h h3 hsmall rfl, hmap, bootMap, if_neg (by omega), if_neg (by omega),
      if_pos (by omega)]
  · have he : tableEntry base .kernelPdp (512 * 0 + index 3 v) = 0 := by
      rw [tableEntry, if_neg, if_neg]
      · rw [index_three]
        omega
      · rw [index_three]
        omega
    refine (walk_boot_none h (k := 0) (t := .kernelPdp) Nat.one_pos he).trans ?_
    rw [bootMap, if_neg (by omega), if_neg (by omega), if_neg (by omega)]

/-- Under entry 256: the kernel window and the lower part of the direct map. -/
theorem walk_window (h : TablesAllocated base) (hlo : 0xffff800000000000 ≤ v)
    (hhi : v < 0xffff808000000000) :
    walk (bootTables base mem) 3 (base .kernelPdp) v = bootMap v := by
  rcases Nat.lt_or_ge v 0xffff800040000000 with hfirst | hother
  · exact walk_kernel h hlo hfirst
  · exact walk_lower_direct h hother hhi

/-- Under entry 257: the direct map from 128 GiB on. -/
theorem walk_direct (h : TablesAllocated base) (hlo : 0xffff808000000000 ≤ v)
    (hhi : v < 0xffff810000000000) :
    walk (bootTables base mem) 3 (base .kernelPdp2) v = bootMap v := by
  have h3 : index 3 v < 512 := index_lt 3 v
  have he : tableEntry base .kernelPdp2 (512 * 0 + index 3 v) =
      entry (base .actualPageDir2 + 4096 * index 3 v) 0x003 := by
    rw [tableEntry, Nat.mul_zero, Nat.zero_add]
  have he2 : tableEntry base .actualPageDir2 (512 * index 3 v + index 2 v) =
      entry (0x200000 * (0x10000 + (512 * index 3 v + index 2 v))) 0x083 := by
    rw [tableEntry, Nat.mul_add 0x200000 0x10000]
  have hmap : 0x200000 * (0x10000 + (512 * index 3 v + index 2 v)) + v % 0x200000 =
      v - 0xffff806000000000 := by
    rw [index_three, index_two]
    omega
  have hsmall : 0x10000 + (512 * index 3 v + index 2 v) < 2 ^ 31 := by
    have h2 := index_lt 2 v
    omega
  refine (walk_boot_table h (k := 0) (t := .kernelPdp2) Nat.one_pos h3 he).trans ?_
  rw [walk_boot_large h h3 hsmall he2, hmap, bootMap, if_neg (by omega), if_neg (by omega),
    if_pos (by omega)]

/-- The tables map every canonical address as they are meant to. -/
theorem walk_bootTables (h : TablesAllocated base) (hv : v < 2 ^ 47 ∨ 2 ^ 64 - 2 ^ 47 ≤ v)
    (hlt : v < 2 ^ 64) : walk (bootTables base mem) 4 (base .pml4) v = bootMap v := by
  by_cases h0 : index 4 v = 0
  · have he : tableEntry base .pml4 (512 * 0 + index 4 v) = entry (base .pdp + 4096 * 0) 0x003 := by
      rw [tableEntry, if_pos (by omega), Nat.mul_zero, Nat.add_zero]
    refine (walk_boot_table h (k := 0) (t := .pml4) Nat.one_pos Nat.one_pos he).trans ?_
    rw [index_four] at h0
    exact walk_identity h (by omega)
  by_cases h1 : index 4 v = 256
  · have he : tableEntry base .pml4 (512 * 0 + index 4 v) =
        entry (base .kernelPdp + 4096 * 0) 0x003 := by
      rw [tableEntry, if_neg (by omega), if_pos (by omega), Nat.mul_zero, Nat.add_zero]
    refine (walk_boot_table h (k := 0) (t := .pml4) Nat.one_pos Nat.one_pos he).trans ?_
    rw [index_four] at h1
    exact walk_window h (by omega) (by omega)
  by_cases h2 : index 4 v = 257
  · have he : tableEntry base .pml4 (512 * 0 + index 4 v) =
        entry (base .kernelPdp2 + 4096 * 0) 0x003 := by
      rw [tableEntry, if_neg (by omega), if_neg (by omega), if_pos (by omega), Nat.mul_zero,
        Nat.add_zero]
    refine (walk_boot_table h (k := 0) (t := .pml4) Nat.one_pos Nat.one_pos he).trans ?_
    rw [index_four] at h2
    exact walk_direct h (by omega) (by omega)
  · have he : tableEntry base .pml4 (512 * 0 + index 4 v) = 0 := by
      rw [tableEntry, if_neg (by omega), if_neg (by omega), if_neg (by omega)]
    refine (walk_boot_none h (k := 0) (t := .pml4) Nat.one_pos he).trans ?_
    rw [index_four] at h0 h1 h2
    rw [bootMap, if_neg (by omega), if_neg (by omega), if_neg (by omega)]

/-- In the upper half a mapped address is mapped where `_v2p` says. -/
theorem bootMap_eq_v2p {v : Addr} {p : ℕ} (hv : 2 ^ 47 ≤ v.toNat) (hp : bootMap v.toNat = some p) :
    p = (v2p v).toNat := by
  rw [bootMap] at hp
  split_ifs at hp with hlow hwindow hdirect
  · omega
  · rw [toNat_v2p_kernel (BitVec.le_def.mpr hwindow.1) (BitVec.lt_def.mpr ?_)]
    · exact (Option.some.inj hp).symm
    · exact Nat.lt_trans hwindow.2 (by decide)
  · rw [toNat_v2p_direct (BitVec.le_def.mpr hdirect.1)]
    exact (Option.some.inj hp).symm

theorem toNat_p2v {p : Addr} (hp : p.toNat < 640 * 2 ^ 30) :
    (p2v p).toNat = 0xffff806000000000 + p.toNat := by
  have hoffset : pageOffset.toNat = 0xffff806000000000 := rfl
  rw [p2v, BitVec.toNat_add, hoffset, Nat.mod_eq_of_lt]
  omega

/-- The walk of the boot tables is the map they are meant to be: it agrees with `_v2p` in the upper
half, and `P2V` leads back to the physical address. -/
theorem boot_address_map (base : Table → ℕ) (h : TablesAllocated base) (mem : Mem) :
    (∀ v : Addr, Canonical v →
      walk (bootTables base mem) 4 (base .pml4) v.toNat = bootMap v.toNat) ∧
    (∀ v : Addr, Canonical v → 2 ^ 47 ≤ v.toNat → ∀ p,
      walk (bootTables base mem) 4 (base .pml4) v.toNat = some p → p = (v2p v).toNat) ∧
    ∀ p : Addr, p.toNat < 640 * 2 ^ 30 →
      walk (bootTables base mem) 4 (base .pml4) (p2v p).toNat = some p.toNat ∧ v2p (p2v p) = p := by
  refine ⟨fun v hv ↦ walk_bootTables h hv v.isLt, fun v hv hhi p hp ↦ ?_, fun p hp ↦ ⟨?_, ?_⟩⟩
  · rw [walk_bootTables h hv v.isLt] at hp
    exact bootMap_eq_v2p hhi hp
  · rw [toNat_p2v hp, walk_bootTables h (.inr (by omega)) (by omega), bootMap, if_neg (by omega),
      if_neg (by omega), if_pos (by omega), Nat.add_sub_cancel_left]
  · refine v2p_p2v ?_
    have hoffset : pageOffset.toNat = 0xffff806000000000 := rfl
    omega

/-- Blocks one after another from 8 MiB on. -/
def consecutive : Table → ℕ
  | .pml4 => 0x800000
  | .pdp => 0x801000
  | .pageDir => 0x802000
  | .actualPageDir => 0x882000
  | .actualPageDir2 => 0x902000
  | .kernelPdp => 0xb02000
  | .kernelPdp2 => 0xb03000
  | .kernelPageDirectory => 0xb04000
  | .kernelPageTable => 0xb05000

theorem consecutive_allocated : TablesAllocated consecutive where
  aligned t := by cases t <;> decide
  below t := by cases t <;> decide
  disjoint t t' := by cases t <;> cases t' <;> decide

theorem boot_address_map_consecutive : TablesAllocated consecutive ∧
    walk (bootTables consecutive fun _ ↦ 0) 4 (consecutive .pml4) 0xffff800000500000 =
      some 0x600000 :=
  ⟨consecutive_allocated,
    (boot_address_map consecutive consecutive_allocated fun _ ↦ 0).1 0xffff800000500000#64
      (.inr (by decide))⟩

end VimOS
