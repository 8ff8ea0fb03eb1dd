import VimOS.Boot.AddressMap
import VimOS.Memory.Reclaim

/-!
# What the boot loader reserves

Memory that `BootMain` still needs when the kernel runs is allocated as `EfiUnusableMemory`, so that
`init_mem` leaves it alone. Two of its allocations miss this: the range for the stack is not where
the stack is mapped, and the table `kernel_pdp2` is allocated as `EfiLoaderData`.
-/

namespace VimOS

open PageWalk

variable {base : Table → ℕ} {mem : Mem} {descs : List EfiMemoryDescriptor} {raw raw' : RawMemory}
  {memmap : UefiMemoryMap} {fuel : ℕ}

/-! ## The allocations -/

/-- The type passed to `AllocatePages`. -/
def Table.memoryType : Table → EfiMemoryType
  | .pml4 | .actualPageDir | .actualPageDir2 | .kernelPdp | .kernelPageDirectory
  | .kernelPageTable => .unusableMemory
  | .pdp | .pageDir | .kernelPdp2 => .loaderData

/-- The ranges allocated by `BootMain`, with their types: the kernel image, the stack and the blocks
of tables. -/
def allocations (image : Block) (base : Table → ℕ) : List (Block × EfiMemoryType) :=
  (image, .unusableMemory) :: (⟨0x500000, 256⟩, .unusableMemory) ::
    Table.all.map fun t ↦ (⟨base t, t.pages⟩, t.memoryType)

/-- The memory map reports the range with this type. -/
def Reports (descs : List EfiMemoryDescriptor) (a : Block × EfiMemoryType) : Prop :=
  ∀ x ∈ a.1.bytes, ∃ d ∈ descs, x ∈ d.bytes ∧ d.type.toNat = a.2.value

/-- Memory reported as unusable is not gathered. -/
theorem Reports.not_gathers {b : Block} (h : Reports descs (b, .unusableMemory))
    (hmap : SortedMap descs) {x : ℕ} (hx : x ∈ b.bytes) : ¬ Gathers descs x := by
  intro hgathers
  obtain ⟨d, hd, hxd, htype⟩ := h x hx
  obtain ⟨d', hd', hxd', htaken, -⟩ := hgathers.exists_desc hmap
  rw [← hmap.eq_of_mem_bytes hd hd' hxd hxd'] at htaken
  have heq : d.type.setWidth 16 = 8 := by
    refine BitVec.eq_of_toNat_eq ?_
    rw [BitVec.toNat_setWidth, htype]
    rfl
  rw [EfiMemoryDescriptor.Taken, heq] at htaken
  exact absurd htaken (by decide)

theorem reports_of_mem {a : Block × EfiMemoryType} {d : EfiMemoryDescriptor} (hd : d ∈ descs)
    (hlo : d.addr ≤ a.1.addr) (hhi : a.1.stop ≤ d.stop) (htype : d.type.toNat = a.2.value) :
    Reports descs a := by
  intro x hx
  rw [Block.bytes, Set.mem_Ico] at hx
  exact ⟨d, hd, ⟨by omega, by omega⟩, htype⟩

/-- The kernel image in front of the stack. -/
def image : Block := ⟨0x100000, 0x400⟩

/-- A map for the blocks `consecutive`, with conventional memory behind the range for the stack. -/
def consecutiveMap : List EfiMemoryDescriptor :=
  [⟨8, 0x100000, 0x500⟩, ⟨7, 0x600000, 0x100⟩, ⟨8, 0x700000, 0x101⟩, ⟨2, 0x801000, 129⟩,
    ⟨8, 0x882000, 0x281⟩, ⟨2, 0xb03000, 1⟩, ⟨8, 0xb04000, 17⟩]

theorem sortedMap_consecutiveMap : SortedMap consecutiveMap := ⟨by decide, by decide, by decide⟩

theorem reports_consecutiveMap :
    ∀ a ∈ allocations image consecutive, Reports consecutiveMap a := by
  have hall : ∀ a ∈ allocations image consecutive, ∃ d ∈ consecutiveMap,
      d.addr ≤ a.1.addr ∧ a.1.stop ≤ d.stop ∧ d.type.toNat = a.2.value := by
    decide +kernel
  intro a ha
  obtain ⟨d, hd, hlo, hhi, htype⟩ := hall a ha
  exact reports_of_mem hd hlo hhi htype

/-! ## The stack -/

/-- The stack of 1 MiB below the initial stack pointer of `_vMain`. -/
def InStack (v : Addr) : Prop := 0xffff800000500000 ≤ v.toNat ∧ v.toNat < 0xffff800000600000

theorem walk_stack (h : TablesAllocated base) {v : Addr} (hv : InStack v) :
    walk (bootTables base mem) 4 (base .pml4) v.toNat =
      some (v.toNat - 0xffff800000000000 + 0x100000) := by
  obtain ⟨hlo, hhi⟩ := hv
  rw [walk_bootTables h (.inr (by omega)) v.isLt, bootMap, if_neg (by omega), if_pos (by omega)]

/-- The stack is off the free list. -/
def StackKept (base : Table → ℕ) (mem : Mem) (L : List Block) : Prop :=
  ∀ v, InStack v → ∀ p, walk (bootTables base mem) 4 (base .pml4) v.toNat = some p →
    ∀ b ∈ L, p ∉ b.phys

theorem HoldsGathered.stackKept_iff {L : List Block} (hL : HoldsGathered descs L)
    (hbase : TablesAllocated base) :
    StackKept base mem L ↔ ∀ a, 0x600000 ≤ a → a < 0x700000 → ¬ Gathers descs a := by
  constructor
  · intro hkept a hlo hhi hgathers
    obtain ⟨b, hb, hab⟩ := (hL a).mpr hgathers
    have hv : (BitVec.ofNat 64 (0xffff800000000000 + a - 0x100000)).toNat =
        0xffff800000000000 + a - 0x100000 := by
      rw [BitVec.toNat_ofNat]
      omega
    have hin : InStack (.ofNat 64 (0xffff800000000000 + a - 0x100000)) := by
      rw [InStack, hv]
      omega
    refine hkept _ hin a ?_ b hb hab
    rw [walk_stack hbase hin, hv]
    refine congrArg some ?_
    omega
  · intro hspared v hv p hp b hb hpb
    rw [walk_stack hbase hv] at hp
    obtain ⟨hlo, hhi⟩ := hv
    have heq := Option.some.inj hp
    exact hspared p (by omega) (by omega) ((hL p).mp ⟨b, hb, hpb⟩)

/-- The pages the stack is mapped to are kept off the free list exactly if the map's runs spare the
MiB from `0x600000` on. -/
theorem stack_pages_kept (base : Table → ℕ) (hbase : TablesAllocated base) (mem : Mem)
    (raw : RawMemory) (hraw : raw.memlist = ⟨0, 0⟩) (descs : List EfiMemoryDescriptor)
    (hmap : SortedMap descs) :
    (∃ L, FreeList (initMemFrom raw descs).nodes L ∧ ∀ v, InStack v → ∀ p,
      walk (bootTables base mem) 4 (base .pml4) v.toNat = some p → ∀ b ∈ L, p ∉ b.phys) ↔
    ∀ a, 0x600000 ≤ a → a < 0x700000 → ¬ Gathers descs a :=
  exists_freeList_iff hraw hmap fun _ hL ↦ hL.stackKept_iff hbase

/-- So it is after a call of `init_mem`, for the map as the call has read it. -/
theorem initMem_stackKept_iff (h : initMem fuel raw memmap = some raw')
    (hraw : raw.memlist = ⟨0, 0⟩) (hmap : SortedMap (mapRead fuel raw memmap))
    (hbase : TablesAllocated base) (mem : Mem) :
    (∃ L, FreeList raw'.nodes L ∧ StackKept base mem L) ↔
      ∀ a, 0x600000 ≤ a → a < 0x700000 → ¬ Gathers (mapRead fuel raw memmap) a := by
  rw [eq_initMemFrom h]
  exact exists_freeList_iff hraw hmap fun _ hL ↦ hL.stackKept_iff hbase

theorem stack_page_free : TablesAllocated consecutive ∧ SortedMap consecutiveMap ∧
    (∀ a ∈ allocations image consecutive, Reports consecutiveMap a) ∧
    ¬ ∃ L, FreeList (initMemFrom .blank consecutiveMap).nodes L ∧ ∀ v, InStack v → ∀ p,
      walk (bootTables consecutive fun _ ↦ 0) 4 (consecutive .pml4) v.toNat = some p →
      ∀ b ∈ L, p ∉ b.phys := by
  refine ⟨consecutive_allocated, sortedMap_consecutiveMap, reports_consecutiveMap, ?_⟩
  rintro ⟨L, hL, hkept⟩
  have hgathers : Gathers consecutiveMap 0x600000 := by
    refine ⟨_, runOf_singleton (p := [⟨8, 0x100000, 0x500⟩]) ?_ (d := ⟨7, 0x600000, 0x100⟩)
      (by decide) (by decide) (by decide), fun _ _ _ ↦ ?_, ?_, ?_⟩
    · exact idle_snoc (p := []).mpr fun h ↦ absurd h (by decide)
    all_goals decide
  obtain ⟨b, hb, hpage⟩ := (free_iff rfl sortedMap_consecutiveMap hL _).mpr hgathers
  have hin : InStack 0xffff800000500000 := ⟨by decide, by decide⟩
  exact hkept _ hin _ (walk_stack consecutive_allocated hin) b hb hpage

/-- A map that reports the MiB behind the range for the stack as unusable too, before conventional
memory that becomes free. -/
def stackSparedMap : List EfiMemoryDescriptor :=
  [⟨8, 0x100000, 0x600⟩, ⟨7, 0x700000, 16⟩, ⟨0, 0x710000, 1⟩]

theorem freeBlocks_stackSparedMap :
    freeBlocks stackSparedMap = [⟨0xffff806000700000, 16⟩] := by
  decide +kernel

theorem stack_pages_kept_unusable : freeBlocks stackSparedMap ≠ [] ∧ ∃ L,
    FreeList (initMemFrom .blank stackSparedMap).nodes L ∧ ∀ v, InStack v → ∀ p,
      walk (bootTables consecutive fun _ ↦ 0) 4 (consecutive .pml4) v.toNat = some p →
      ∀ b ∈ L, p ∉ b.phys := by
  have hmap : SortedMap stackSparedMap := ⟨by decide, by decide, by decide⟩
  refine ⟨by simp [freeBlocks_stackSparedMap], (stack_pages_kept consecutive consecutive_allocated
    (fun _ ↦ 0) _ rfl _ hmap).mpr fun a _ hhi hgathers ↦ ?_⟩
  obtain ⟨b, hb, ha⟩ := (exists_freeBlocks_iff hmap a).mpr hgathers
  rw [freeBlocks_stackSparedMap, List.mem_singleton] at hb
  rw [hb] at ha
  have hle : 0x700000 ≤ a := le_trans (by decide) ha.1
  omega

/-! ## The tables -/

/-- The level of the tables in a block. -/
def Table.level : Table → ℕ
  | .pml4 => 4
  | .pdp | .kernelPdp | .kernelPdp2 => 3
  | .pageDir | .actualPageDir | .actualPageDir2 | .kernelPageDirectory => 2
  | .kernelPageTable => 1

/-- The blocks whose tables are in use when `pml4[0]` has been cleared. -/
def Table.Live (t : Table) : Prop := t ≠ .pdp ∧ t ≠ .pageDir

/-- `actual_init_paging`. -/
def actualInitPaging (base : Table → ℕ) (mem : Mem) : Mem := Function.update mem (base .pml4) 0

/-- What the entries of the tables are then. -/
def liveEntry (base : Table → ℕ) (t : Table) (i : ℕ) : BitVec 64 :=
  if t = .pml4 ∧ i = 0 then 0 else tableEntry base t i

theorem actualInitPaging_eq (h : TablesAllocated base) {t : Table} {k i : ℕ} (hk : k < t.pages)
    (hi : i < 512) : actualInitPaging base (bootTables base mem) (base t + 4096 * k + 8 * i) =
      liveEntry base t (512 * k + i) := by
  have hvalid : Cell.Valid (t, 512 * k + i) := by
    rw [Cell.Valid]
    dsimp only
    omega
  have haddr : base t + 4096 * k + 8 * i = cellAddr base (t, 512 * k + i) := by
    rw [cellAddr]
    dsimp only
    omega
  have hfirst : base .pml4 = cellAddr base (.pml4, 0) := rfl
  rw [actualInitPaging, haddr, liveEntry]
  split_ifs with hne
  · rw [hne.1, hne.2, ← hfirst, Function.update_self]
  · rw [Function.update_of_ne, bootTables_eq h hvalid]
    rw [hfirst]
    intro heq
    have hzero : Cell.Valid (.pml4, 0) := by
      rw [Cell.Valid]
      decide
    have hcell := cellAddr_injective h hvalid hzero heq
    exact hne (Prod.mk.inj hcell)

theorem not_leads_zero (level : ℕ) : ¬ Leads level 0 := fun h ↦ absurd h.2.1 (by decide)

theorem not_leads_large {addr : ℕ} : ¬ Leads 2 (entry (0x200000 * addr) 0x083) := by
  intro h
  have hlarge : large (entry (0x200000 * addr) 0x083) = true :=
    getLsbD_entry (by omega) (by decide)
  exact h.2.2 hlarge (.inl rfl)

/-- An entry that leads to a table leads to a live one, one level below. -/
theorem exists_live_of_leads {t : Table} {i : ℕ} (ht : t.Live) (hi : i < 512 * t.pages)
    (hleads : Leads t.level (liveEntry base t i)) :
    ∃ t' k, t'.Live ∧ t'.level + 1 = t.level ∧ k < t'.pages ∧
      liveEntry base t i = entry (base t' + 4096 * k) 0x003 := by
  by_cases hzero : liveEntry base t i = 0
  · exact absurd (hzero ▸ hleads) (not_leads_zero _)
  · rw [liveEntry] at hleads hzero ⊢
    split_ifs at hleads hzero ⊢ with hclear
    · exact absurd rfl hzero
    · cases t with
      | pml4 =>
        rw [tableEntry] at hzero ⊢
        split_ifs at hzero ⊢ with h0 h1 h2
        · exact absurd ⟨rfl, h0⟩ hclear
        · exact ⟨.kernelPdp, 0, by simp [Table.Live], rfl, Nat.one_pos, rfl⟩
        · exact ⟨.kernelPdp2, 0, by simp [Table.Live], rfl, Nat.one_pos, rfl⟩
        · exact absurd rfl hzero
      | pdp => exact absurd rfl ht.1
      | pageDir => exact absurd rfl ht.2
      | actualPageDir => exact absurd hleads not_leads_large
      | actualPageDir2 =>
        have he : tableEntry base .actualPageDir2 i = entry (0x200000 * (0x10000 + i)) 0x083 := by
          rw [tableEntry, Nat.mul_add 0x200000 0x10000]
        exact absurd (he ▸ hleads) not_leads_large
      | kernelPdp =>
        rw [tableEntry] at hzero ⊢
        split_ifs at hzero ⊢ with h0 h1
        · exact ⟨.kernelPageDirectory, 0, by simp [Table.Live], rfl, Nat.one_pos, rfl⟩
        · refine ⟨.actualPageDir, i - 384, by simp [Table.Live], rfl, ?_, rfl⟩
          simp only [Table.pages] at hi ⊢
          omega
        · exact absurd rfl hzero
      | kernelPdp2 => exact ⟨.actualPageDir2, i, by simp [Table.Live], rfl, hi, rfl⟩
      | kernelPageDirectory =>
        rw [tableEntry] at hzero ⊢
        split_ifs at hzero ⊢ with h0
        · exact ⟨.kernelPageTable, i, by simp [Table.Live], rfl, h0, rfl⟩
        · exact absurd rfl hzero
      | kernelPageTable => exact absurd hleads.1 (by decide)

/-- Every table in use is a table of a live block. -/
theorem exists_live_of_isTable (h : TablesAllocated base) {level page : ℕ}
    (htable : IsTable (actualInitPaging base (bootTables base mem)) (base .pml4) level page) :
    ∃ t k, t.Live ∧ t.level = level ∧ k < t.pages ∧ page = base t + 4096 * k := by
  induction htable with
  | root => exact ⟨.pml4, 0, by simp [Table.Live], rfl, Nat.one_pos, rfl⟩
  | @entry level page i _ hi hleads ih =>
    obtain ⟨t, k, ht, hlevel, hk, rfl⟩ := ih
    rw [actualInitPaging_eq h hk hi] at hleads ⊢
    obtain ⟨t', k', ht', hlevel', hk', he⟩ := exists_live_of_leads ht (by omega) (hlevel ▸ hleads)
    refine ⟨t', k', ht', by omega, hk', ?_⟩
    have haligned := h.aligned t'
    have hbelow := h.below t'
    rw [he, frame_entry (by omega) (by omega) (by decide)]

/-- The table `kernel_pdp2` is in use. -/
theorem isTable_kernelPdp2 (h : TablesAllocated base) :
    IsTable (actualInitPaging base (bootTables base mem)) (base .pml4) 3 (base .kernelPdp2) := by
  have he : actualInitPaging base (bootTables base mem) (base .pml4 + 8 * 257) =
      entry (base .kernelPdp2) 0x003 :=
    actualInitPaging_eq h (t := .pml4) (k := 0) (i := 257) Nat.one_pos (by decide)
  have haligned := h.aligned .kernelPdp2
  have hbelow : base .kernelPdp2 + 4096 * 1 ≤ 2 ^ 52 := h.below .kernelPdp2
  have hleads : Leads 4 (entry (base .kernelPdp2) 0x003) :=
    ⟨by decide, getLsbD_entry haligned (by decide), fun _ ↦ by decide⟩
  have hframe : frame (actualInitPaging base (bootTables base mem) (base .pml4 + 8 * 257)) =
      base .kernelPdp2 := by
    rw [he, frame_entry haligned (by omega) (by decide)]
  rw [← hframe]
  exact .entry .root (by decide) (he ▸ hleads)

/-- The tables in use are off the free list. -/
def TablesKept (base : Table → ℕ) (mem : Mem) (L : List Block) : Prop :=
  ∀ level page, IsTable (actualInitPaging base (bootTables base mem)) (base .pml4) level page →
    ∀ a, page ≤ a → a < page + 4096 → ∀ b ∈ L, a ∉ b.phys

theorem HoldsGathered.tablesKept_iff {L : List Block} {image : Block}
    (hL : HoldsGathered descs L) (hmap : SortedMap descs) (hbase : TablesAllocated base)
    (hreports : ∀ a ∈ allocations image base, Reports descs a) :
    TablesKept base mem L ↔
      ∀ a, base .kernelPdp2 ≤ a → a < base .kernelPdp2 + 4096 → ¬ Gathers descs a := by
  constructor
  · intro hkept a hlo hhi hgathers
    obtain ⟨b, hb, hab⟩ := (hL a).mpr hgathers
    exact hkept 3 _ (isTable_kernelPdp2 hbase) a hlo hhi b hb hab
  · intro hspared level page htable a hlo hhi b hb hab
    have hgathers := (hL a).mp ⟨b, hb, hab⟩
    obtain ⟨t, k, ht, -, hk, rfl⟩ := exists_live_of_isTable hbase htable
    by_cases hpdp2 : t = .kernelPdp2
    · subst hpdp2
      have hk0 : k = 0 := Nat.lt_one_iff.mp hk
      subst hk0
      exact hspared a hlo hhi hgathers
    · have htype : t.memoryType = .unusableMemory := by
        cases t with
        | pdp => exact absurd rfl ht.1
        | pageDir => exact absurd rfl ht.2
        | kernelPdp2 => exact absurd rfl hpdp2
        | _ => rfl
      have hmem : ((⟨base t, t.pages⟩ : Block), EfiMemoryType.unusableMemory) ∈
          allocations image base := by
        rw [← htype]
        exact List.mem_cons_of_mem _ (List.mem_cons_of_mem _
          (List.mem_map.mpr ⟨t, mem_tableAll t, rfl⟩))
      refine (hreports _ hmem).not_gathers hmap ?_ hgathers
      rw [Block.bytes, Set.mem_Ico, Block.stop]
      dsimp only
      omega

/-- The tables in use are kept off the free list exactly if the map's runs spare the page of
`kernel_pdp2`. -/
theorem table_pages_kept (image : Block) (base : Table → ℕ) (hbase : TablesAllocated base)
    (mem : Mem) (raw : RawMemory) (hraw : raw.memlist = ⟨0, 0⟩)
    (descs : List EfiMemoryDescriptor) (hmap : SortedMap descs)
    (hreports : ∀ a ∈ allocations image base, Reports descs a) :
    (∃ L, FreeList (initMemFrom raw descs).nodes L ∧ ∀ level page,
      IsTable (actualInitPaging base (bootTables base mem)) (base .pml4) level page →
      ∀ a, page ≤ a → a < page + 4096 → ∀ b ∈ L, a ∉ b.phys) ↔
    ∀ a, base .kernelPdp2 ≤ a → a < base .kernelPdp2 + 4096 → ¬ Gathers descs a :=
  exists_freeList_iff hraw hmap fun _ hL ↦ hL.tablesKept_iff hmap hbase hreports

/-- So it is after a call of `init_mem`, for the map as the call has read it. -/
theorem initMem_tablesKept_iff (h : initMem fuel raw memmap = some raw')
    (hraw : raw.memlist = ⟨0, 0⟩) (hmap : SortedMap (mapRead fuel raw memmap))
    (hbase : TablesAllocated base) (mem : Mem) (image : Block)
    (hreports : ∀ a ∈ allocations image base, Reports (mapRead fuel raw memmap) a) :
    (∃ L, FreeList raw'.nodes L ∧ TablesKept base mem L) ↔
      ∀ a, base .kernelPdp2 ≤ a → a < base .kernelPdp2 + 4096 →
        ¬ Gathers (mapRead fuel raw memmap) a := by
  rw [eq_initMemFrom h]
  exact exists_freeList_iff hraw hmap fun _ hL ↦ hL.tablesKept_iff hmap hbase hreports

theorem table_page_free : TablesAllocated consecutive ∧ SortedMap consecutiveMap ∧
    (∀ a ∈ allocations image consecutive, Reports consecutiveMap a) ∧
    ¬ ∃ L, FreeList (initMemFrom .blank consecutiveMap).nodes L ∧ ∀ level page,
      IsTable (actualInitPaging consecutive (bootTables consecutive fun _ ↦ 0))
        (consecutive .pml4) level
        page → ∀ a, page ≤ a → a < page + 4096 → ∀ b ∈ L, a ∉ b.phys := by
  refine ⟨consecutive_allocated, sortedMap_consecutiveMap, reports_consecutiveMap, ?_⟩
  rintro ⟨L, hL, hkept⟩
  have hgathers : Gathers consecutiveMap 0xb03000 := by
    refine ⟨_, runOf_singleton (p := [_, _, _, _, ⟨8, 0x882000, 0x281⟩]) ?_
      (d := ⟨2, 0xb03000, 1⟩) (by decide) (by decide) (by decide), fun _ _ _ ↦ ?_, ?_, ?_⟩
    · exact idle_snoc (p := [_, _, _, _]).mpr fun h ↦ absurd h (by decide)
    all_goals decide
  obtain ⟨b, hb, hpage⟩ := (free_iff rfl sortedMap_consecutiveMap hL _).mpr hgathers
  exact hkept 3 _ (isTable_kernelPdp2 consecutive_allocated) _ le_rfl (by decide) b hb hpage

/-- The blocks `consecutive`, but for `kernel_pdp2` at the end of memory. -/
def pdp2Last (t : Table) : ℕ := if t = .kernelPdp2 then 0xc00000 else consecutive t

def pdp2LastMap : List EfiMemoryDescriptor :=
  [⟨8, 0x100000, 0x701⟩, ⟨2, 0x801000, 129⟩, ⟨8, 0x882000, 0x37e⟩, ⟨2, 0xc00000, 1⟩]

theorem table_pages_kept_pdp2Last : ∃ L,
    FreeList (initMemFrom .blank pdp2LastMap).nodes L ∧ ∀ level page,
      IsTable (actualInitPaging pdp2Last (bootTables pdp2Last fun _ ↦ 0))
        (pdp2Last .pml4) level page →
      ∀ a, page ≤ a → a < page + 4096 → ∀ b ∈ L, a ∉ b.phys := by
  have hbase : TablesAllocated pdp2Last := by
    refine ⟨fun t ↦ ?_, fun t ↦ ?_, fun t t' ↦ ?_⟩
    · cases t <;> decide
    · cases t <;> decide
    · cases t <;> cases t' <;> decide
  have hmap : SortedMap pdp2LastMap := ⟨by decide, by decide, by decide⟩
  have hall : ∀ a ∈ allocations image pdp2Last, ∃ d ∈ pdp2LastMap,
      d.addr ≤ a.1.addr ∧ a.1.stop ≤ d.stop ∧ d.type.toNat = a.2.value := by
    decide +kernel
  refine (table_pages_kept image pdp2Last hbase (fun _ ↦ 0) _ rfl _ hmap fun a ha ↦ ?_).mpr ?_
  · obtain ⟨d, hd, hlo, hhi, htype⟩ := hall a ha
    exact reports_of_mem hd hlo hhi htype
  · intro a hlo hhi hgathers
    obtain ⟨b, hb, ha⟩ := (exists_freeBlocks_iff hmap a).mpr hgathers
    have hfree : freeBlocks pdp2LastMap = [⟨0xffff806000801000, 129⟩] := by decide +kernel
    rw [hfree, List.mem_singleton] at hb
    rw [hb] at ha
    have hlt : a < 0xc00000 := Nat.lt_of_lt_of_le ha.2 (by decide)
    exact absurd hlo (Nat.not_le.mpr hlt)

end VimOS
