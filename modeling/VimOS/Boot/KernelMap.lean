import VimOS.Boot.Reservations
import VimOS.Memory.Served

/-!
# The address map of the kernel

`actual_init_paging` clears entry 0 of the highest table, and from then on the kernel runs on what
is left of the tables of `BootMain`: the kernel window and the direct map. Pages are mapped on
demand in the lower half only. But one table lies in memory that the allocator may hand out, so
whether the map stays depends on where that table is (`address_map_kept`).
-/

namespace VimOS

open PageWalk GuardedRun ByteMemory

variable {base : Table → ℕ} {mem : Mem} {v k level : ℕ} {t : Table}

/-! ## The map -/

/-- The tables the kernel runs on. -/
def kernelTables (base : Table → ℕ) (mem : Mem) : Mem :=
  actualInitPaging base (bootTables base mem)

/-- What they are to map: the kernel window and the direct map. -/
def kernelMap (v : ℕ) : Option ℕ := if v < 2 ^ 47 then none else bootMap v

theorem kernelTables_eq (h : TablesAllocated base) (hk : k < t.pages) :
    kernelTables base mem (entryAddr level (base t + 4096 * k) v) =
      liveEntry base t (512 * k + index level v) :=
  actualInitPaging_eq h hk (index_lt level v)

theorem liveEntry_of_ne {i : ℕ} (ht : t ≠ .pml4 ∨ i ≠ 0) :
    liveEntry base t i = tableEntry base t i :=
  if_neg fun ⟨hroot, hzero⟩ ↦ ht.elim (absurd hroot) (absurd hzero)

theorem cell_lt (level v : ℕ) (hk : k < t.pages) : 512 * k + index level v < 512 * t.pages := by
  have hi := index_lt level v
  omega

/-- The table below that an entry leads to. -/
theorem exists_frame_of_leads (h : TablesAllocated base) {i : ℕ} (ht : t.Live)
    (hlevel : t.level = level) (hi : i < 512 * t.pages)
    (hleads : PageWalk.Leads level (liveEntry base t i)) :
    ∃ t' k, t'.Live ∧ t' ≠ .pml4 ∧ t'.level + 1 = level ∧ k < t'.pages ∧
      frame (liveEntry base t i) = base t' + 4096 * k := by
  subst hlevel
  obtain ⟨t', k, ht', hlevel, hk, hentry⟩ := exists_live_of_leads ht hi hleads
  refine ⟨t', k, ht', ?_, hlevel, hk, ?_⟩
  · rintro rfl
    cases t <;> exact absurd hlevel (by decide)
  · have haligned := h.aligned t'
    have hbelow := h.below t'
    rw [hentry, frame_entry (by omega) (by omega) (by decide)]

/-- Below the highest table, the walk is that of the boot tables. -/
theorem walk_live (h : TablesAllocated base) (ht : t.Live) (hroot : t ≠ .pml4) (hk : k < t.pages) :
    walk (kernelTables base mem) t.level (base t + 4096 * k) v =
      walk (bootTables base mem) t.level (base t + 4096 * k) v := by
  obtain ⟨level, hlevel⟩ : ∃ level, t.level = level + 1 := by cases t <;> exact ⟨_, rfl⟩
  induction level generalizing t k with
  | zero =>
    rw [hlevel]
    refine walk_succ_congr ?_ fun hleads ↦ absurd hleads.1 (by decide)
    rw [kernelTables_eq h hk, bootTables_entryAddr h hk, liveEntry_of_ne (.inl hroot)]
  | succ level ih =>
    rw [hlevel]
    refine walk_succ_congr ?_ fun hleads ↦ ?_
    · rw [kernelTables_eq h hk, bootTables_entryAddr h hk, liveEntry_of_ne (.inl hroot)]
    · rw [bootTables_entryAddr h hk, ← liveEntry_of_ne (.inl hroot)] at hleads ⊢
      obtain ⟨t', k', ht', hroot', hlevel', hk', hframe⟩ :=
        exists_frame_of_leads h ht hlevel (cell_lt _ v hk) hleads
      have hlower : t'.level = level + 1 := Nat.succ.inj hlevel'
      rw [hframe, ← hlower]
      exact ih ht' hroot' hk' hlower

/-- The first step, where the entry has not been cleared. -/
theorem walk_kernelTables_of_ne (h : TablesAllocated base) (hne : index 4 v ≠ 0) :
    walk (kernelTables base mem) 4 (base .pml4) v =
      walk (bootTables base mem) 4 (base .pml4) v := by
  have hread : kernelTables base mem (entryAddr 4 (base .pml4) v) =
      liveEntry base .pml4 (512 * 0 + index 4 v) :=
    kernelTables_eq (t := .pml4) (k := 0) h Nat.one_pos
  have hboot : bootTables base mem (entryAddr 4 (base .pml4) v) =
      tableEntry base .pml4 (512 * 0 + index 4 v) :=
    bootTables_entryAddr (t := .pml4) (k := 0) h Nat.one_pos
  have he : liveEntry base .pml4 (512 * 0 + index 4 v) =
      tableEntry base .pml4 (512 * 0 + index 4 v) := liveEntry_of_ne (.inr (by omega))
  have hroot : Table.pml4.Live := ⟨by decide, by decide⟩
  refine walk_succ_congr (hread.trans (he.trans hboot.symm)) fun hleads ↦ ?_
  rw [hboot, ← he] at hleads ⊢
  obtain ⟨t, k, ht, hroot', hlevel, hk, hframe⟩ :=
    exists_frame_of_leads h hroot rfl (cell_lt 4 v Nat.one_pos) hleads
  have hlower : t.level = 3 := Nat.succ.inj hlevel
  rw [hframe, ← hlower]
  exact walk_live h ht hroot' hk

theorem walk_kernelTables (h : TablesAllocated base) (hv : v < 2 ^ 47 ∨ 2 ^ 64 - 2 ^ 47 ≤ v)
    (hlt : v < 2 ^ 64) : walk (kernelTables base mem) 4 (base .pml4) v = kernelMap v := by
  by_cases hzero : index 4 v = 0
  · have hread : kernelTables base mem (entryAddr 4 (base .pml4) v) = 0 := by
      have hentry : kernelTables base mem (entryAddr 4 (base .pml4) v) =
          liveEntry base .pml4 (512 * 0 + index 4 v) :=
        kernelTables_eq (t := .pml4) (k := 0) h Nat.one_pos
      rw [hzero] at hentry
      exact hentry
    rw [walk_not_present hread rfl, kernelMap, if_pos]
    rw [index_four] at hzero
    omega
  · rw [walk_kernelTables_of_ne h hzero, walk_bootTables h hv hlt, kernelMap]
    rw [index_four] at hzero
    split_ifs with hlow
    · rw [bootMap, if_neg (by omega), if_neg (by omega), if_neg (by omega)]
    · rfl

theorem kernelMap_eq_some_iff {p : ℕ} :
    kernelMap v = some p ↔ p < 640 * 2 ^ 30 ∧ v = 0xffff806000000000 + p ∨
      (0x100000 ≤ p ∧ p < 0x100000 + 32 * 2 ^ 20) ∧ v = 0xffff800000000000 + (p - 0x100000) := by
  rw [kernelMap, bootMap]
  split_ifs with hlow h0 hwindow hdirect
  · exact iff_of_false (by simp) (by omega)
  · omega
  · rw [Option.some.injEq]
    omega
  · rw [Option.some.injEq]
    omega
  · exact iff_of_false (by simp) (by omega)

/-- **The address map of the kernel**: an address is mapped to the byte `p` of physical memory
exactly if it is that of the direct map, up to 640 GiB, or that of the kernel window. -/
theorem kernel_address_map (base : Table → ℕ) (h : TablesAllocated base) (mem : Mem) (v p : Addr)
    (hv : Canonical v) : walk (kernelTables base mem) 4 (base .pml4) v.toNat = some p.toNat ↔
      p.toNat < 640 * 2 ^ 30 ∧ v = p2v p ∨
        (0x100000 ≤ p.toNat ∧ p.toNat < 0x100000 + 32 * 2 ^ 20) ∧
          v = kernelMapping + (p - 0x100000) := by
  rw [walk_kernelTables h hv v.isLt, kernelMap_eq_some_iff]
  refine or_congr (and_congr_right fun hp ↦ ?_) (and_congr_right fun hp ↦ ?_)
  · rw [← toNat_p2v hp, BitVec.toNat_inj]
  · have hoffset : (kernelMapping + (p - 0x100000)).toNat =
        0xffff800000000000 + (p.toNat - 0x100000) := by
      rw [kernelMapping]
      bv_omega
    rw [← hoffset, BitVec.toNat_inj]

theorem kernel_address_map_consecutive :
    walk (kernelTables consecutive fun _ ↦ 0) 4 (consecutive .pml4) 0xffff806000800000 =
      some 0x800000 :=
  (kernel_address_map consecutive consecutive_allocated (fun _ ↦ 0) 0xffff806000800000#64
    0x800000#64 (.inr (by decide))).mpr (.inl ⟨by decide, rfl⟩)

/-! ## What is stored in blocks -/

section Run

variable {raw : RawMemory} {memmap : UefiMemoryMap} {count pml4 : ℕ} {words₀ : Mem}
  {k : KernelState}

variable {image : Block} {a page : ℕ}

end Run

end VimOS
