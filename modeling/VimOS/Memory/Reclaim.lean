import VimOS.Memory.InitMem

/-!
# Which memory becomes free

What `init_mem` makes of the types of a memory map: that only usable memory becomes free, and that
all of it does. Neither holds of every map; both are tied to the runs of the map.
-/

namespace VimOS

variable {descs p run : List EfiMemoryDescriptor} {d d' : EfiMemoryDescriptor} {a fuel : ℕ}
  {mem mem' : RawMemory} {memmap : UefiMemoryMap}

/-! ## Descriptors of a run -/

theorem EfiMemoryDescriptor.addr_mem_bytes (h : 0 < d.numberOfPage.toNat) : d.addr ∈ d.bytes := by
  rw [EfiMemoryDescriptor.bytes, Set.mem_Ico, EfiMemoryDescriptor.stop]
  omega

/-- An address lies in one descriptor of a map only. -/
theorem SortedMap.eq_of_mem_bytes (hmap : SortedMap descs) (hd : d ∈ descs) (hd' : d' ∈ descs)
    (ha : a ∈ d.bytes) (ha' : a ∈ d'.bytes) : d = d' := by
  by_contra hne
  obtain ⟨p, q, rfl⟩ := List.append_of_mem hd
  rw [EfiMemoryDescriptor.bytes, Set.mem_Ico] at ha ha'
  rcases List.mem_append.mp hd' with hp | hq
  · have hle := hmap.stop_le hp List.mem_cons_self
    omega
  · have hq : d' ∈ q := (List.mem_cons.mp hq).resolve_left (Ne.symm hne)
    rw [List.append_cons] at hmap
    have hle := hmap.stop_le (List.mem_append_right p (List.mem_singleton_self d)) hq
    omega

/-- A run is made up of its descriptors. -/
theorem exists_mem_bytes_of_joined (h : Joined run) (hle : runAddr run ≤ a)
    (hlt : a < runStop run) : ∃ d ∈ run, a ∈ d.bytes := by
  induction run using List.reverseRecOn with
  | nil =>
    rw [runStop, runPages, List.map_nil, List.sum_nil] at hlt
    omega
  | append_singleton run d ih =>
    rw [runStop_snoc h] at hlt
    by_cases hrun : run = []
    · subst hrun
      exact ⟨d, by simp, hle, hlt⟩
    · rw [runAddr_append hrun] at hle
      by_cases had : a < d.addr
      · rw [← runStop_of_joined hrun h] at had
        obtain ⟨d', hd', ha⟩ := ih (List.isChain_append.mp h).1 hle had
        exact ⟨d', List.mem_append_left _ hd', ha⟩
      · exact ⟨d, by simp, Nat.le_of_not_lt had, hlt⟩

/-- An address below the counted end of a run lies in a descriptor of the run. -/
theorem RunOf.exists_mem_bytes (h : RunOf descs run) (hle : runAddr run ≤ a)
    (hlt : a < runAddr run + 4096 * (runPages run % 2 ^ 32)) : ∃ d ∈ run, a ∈ d.bytes := by
  obtain ⟨p, last, after, rfl, ⟨before, dropped, rfl, -, -, hjoin, -, -⟩, -⟩ := h
  refine exists_mem_bytes_of_joined hjoin hle ?_
  have hmod := Nat.mod_le (runPages run) (2 ^ 32)
  rw [runStop]
  omega

/-- A gathered address lies in a descriptor that is taken and whose first address is gathered
too. -/
theorem Gathers.exists_desc (h : Gathers descs a) (hmap : SortedMap descs) :
    ∃ d ∈ descs, a ∈ d.bytes ∧ d.Taken ∧ Gathers descs d.addr := by
  obtain ⟨run, hrun, hreached, hle, hlt⟩ := h
  obtain ⟨d, hd, ha⟩ := hrun.exists_mem_bytes hle hlt
  refine ⟨d, hrun.subset hd, ha, hrun.taken hd, run, hrun, hreached, hrun.addr_le hmap hd, ?_⟩
  exact Nat.lt_of_le_of_lt ha.1 hlt

/-! ## Only usable memory -/

theorem HoldsGathered.usable_iff {L : List Block} (hL : HoldsGathered descs L)
    (hmap : SortedMap descs) :
    (∀ b ∈ L, ∀ a ∈ b.phys, ∃ d ∈ descs, a ∈ d.bytes ∧ d.Usable) ↔
      ∀ d ∈ descs, Gathers descs d.addr → d.type.toNat < 2 ^ 16 := by
  constructor
  · intro hall d hd hgathers
    obtain ⟨b, hb, ha⟩ := (hL d.addr).mpr hgathers
    obtain ⟨d', hd', ha', husable⟩ := hall b hb d.addr ha
    have hself := d.addr_mem_bytes (hmap.nonempty d hd)
    rw [hmap.eq_of_mem_bytes hd hd' hself ha']
    exact (d'.usable_iff.mp husable).2
  · intro htype b hb a ha
    have hgathers := (hL a).mp ⟨b, hb, ha⟩
    obtain ⟨d, hd, had, htaken, hfirst⟩ := hgathers.exists_desc hmap
    exact ⟨d, hd, had, d.usable_iff.mpr ⟨htaken, htype d hd hfirst⟩⟩

/-- Every page of the free list is of a usable type exactly if no descriptor with a type of more
than 16 bits is gathered. -/
theorem free_pages_usable (mem : RawMemory) (hmem : mem.memlist = ⟨0, 0⟩)
    (descs : List EfiMemoryDescriptor) (hmap : SortedMap descs) :
    (∃ L, FreeList (initMemFrom mem descs).nodes L ∧
      ∀ b ∈ L, ∀ a ∈ b.phys, ∃ d ∈ descs, a ∈ d.bytes ∧ d.Usable) ↔
    ∀ d ∈ descs, Gathers descs d.addr → d.type.toNat < 2 ^ 16 :=
  exists_freeList_iff hmem hmap fun _ hL ↦ hL.usable_iff hmap

/-- So it is after a call of `init_mem`, for the map as the call has read it. -/
theorem initMem_usable_iff (h : initMem fuel mem memmap = some mem')
    (hmem : mem.memlist = ⟨0, 0⟩) (hmap : SortedMap (mapRead fuel mem memmap)) :
    (∃ L, FreeList mem'.nodes L ∧
      ∀ b ∈ L, ∀ a ∈ b.phys, ∃ d ∈ mapRead fuel mem memmap, a ∈ d.bytes ∧ d.Usable) ↔
    ∀ d ∈ mapRead fuel mem memmap, Gathers (mapRead fuel mem memmap) d.addr →
      d.type.toNat < 2 ^ 16 := by
  rw [eq_initMemFrom h]
  exact exists_freeList_iff hmem hmap fun _ hL ↦ hL.usable_iff hmap

/-- A page of an OEM type, whose low 16 bits are those of `EfiLoaderCode`, before a reserved
page. -/
def oemMap : List EfiMemoryDescriptor := [⟨0x70000001, 0x100000, 1⟩, ⟨0, 0x101000, 1⟩]

theorem sortedMap_oemMap : SortedMap oemMap :=
  sortedMap_pair (by decide) (by decide) (by decide) (by decide)

theorem free_page_oem : SortedMap oemMap ∧
    ¬ ∃ L, FreeList (initMemFrom .blank oemMap).nodes L ∧
      ∀ b ∈ L, ∀ a ∈ b.phys, ∃ d ∈ oemMap, a ∈ d.bytes ∧ d.Usable := by
  refine ⟨sortedMap_oemMap, fun ⟨L, hL, hall⟩ ↦ ?_⟩
  have hgathers : Gathers oemMap 0x100000 := by
    refine ⟨_, runOf_singleton (p := []) (by simp [Idle]) (by decide) (by decide) (by decide),
      fun _ _ _ ↦ ?_, ?_, ?_⟩
    all_goals decide
  obtain ⟨b, hb, ha⟩ := (free_iff rfl sortedMap_oemMap hL _).mpr hgathers
  obtain ⟨d, hd, -, husable⟩ := hall b hb _ ha
  have hnone : ∀ d ∈ oemMap, ¬ d.Usable := by decide
  exact hnone d hd husable

/-- A page of conventional memory before a reserved page. -/
def pageMap : List EfiMemoryDescriptor := [⟨7, 0x100000, 1⟩, ⟨0, 0x101000, 1⟩]

theorem sortedMap_pageMap : SortedMap pageMap :=
  sortedMap_pair (by decide) (by decide) (by decide) (by decide)

theorem free_pages_usable_page : ∃ L, FreeList (initMemFrom .blank pageMap).nodes L ∧
    ∀ b ∈ L, ∀ a ∈ b.phys, ∃ d ∈ pageMap, a ∈ d.bytes ∧ d.Usable := by
  have htype : ∀ d ∈ pageMap, d.type.toNat < 2 ^ 16 := by decide
  exact (free_pages_usable _ rfl pageMap sortedMap_pageMap).mpr fun d hd _ ↦ htype d hd

/-! ## All usable memory -/

/-- The descriptor stands in a run of the map that the list comes to, within its counted pages. -/
def StandsInRun (descs : List EfiMemoryDescriptor) (d : EfiMemoryDescriptor) : Prop :=
  ∃ run, RunOf descs run ∧ Reached descs run ∧ d ∈ run ∧
    d.stop ≤ runAddr run + 4096 * (runPages run % 2 ^ 32)

theorem HoldsGathered.free_iff_standsInRun {L : List Block} (hL : HoldsGathered descs L)
    (hmap : SortedMap descs) :
    (∀ d ∈ descs, d.Usable → d.addr ≠ 0 → ∀ a ∈ d.bytes, ∃ b ∈ L, a ∈ b.phys) ↔
      ∀ d ∈ descs, d.Usable → d.addr ≠ 0 → StandsInRun descs d := by
  constructor
  · intro hall d hd husable hzero
    have hpages := hmap.nonempty d hd
    have hlast : d.stop - 1 ∈ d.bytes := by
      rw [EfiMemoryDescriptor.bytes, Set.mem_Ico, EfiMemoryDescriptor.stop]
      omega
    obtain ⟨run, hrun, hreached, hle, hlt⟩ := (hL _).mp (hall d hd husable hzero _ hlast)
    obtain ⟨d', hd', ha'⟩ := hrun.exists_mem_bytes hle hlt
    have heq := hmap.eq_of_mem_bytes hd (hrun.subset hd') hlast ha'
    exact ⟨run, hrun, hreached, heq ▸ hd', by omega⟩
  · intro hstands d hd husable hzero a ha
    obtain ⟨run, hrun, hreached, hdrun, hstop⟩ := hstands d hd husable hzero
    refine (hL a).mpr ⟨run, hrun, hreached, ?_, ?_⟩
    · exact (hrun.addr_le hmap hdrun).trans ha.1
    · exact Nat.lt_of_lt_of_le ha.2 hstop

/-- All usable memory is free exactly if each usable descriptor stands in a run of the map that the
list comes to, within its counted pages. -/
theorem usable_pages_free (mem : RawMemory) (hmem : mem.memlist = ⟨0, 0⟩)
    (descs : List EfiMemoryDescriptor) (hmap : SortedMap descs) :
    (∃ L, FreeList (initMemFrom mem descs).nodes L ∧
      ∀ d ∈ descs, d.Usable → d.addr ≠ 0 → ∀ a ∈ d.bytes, ∃ b ∈ L, a ∈ b.phys) ↔
    ∀ d ∈ descs, d.Usable → d.addr ≠ 0 → ∃ run, RunOf descs run ∧ Reached descs run ∧ d ∈ run ∧
      d.stop ≤ runAddr run + 4096 * (runPages run % 2 ^ 32) :=
  exists_freeList_iff hmem hmap fun _ hL ↦ hL.free_iff_standsInRun hmap

/-- So it is after a call of `init_mem`, for the map as the call has read it. -/
theorem initMem_free_iff (h : initMem fuel mem memmap = some mem')
    (hmem : mem.memlist = ⟨0, 0⟩) (hmap : SortedMap (mapRead fuel mem memmap)) :
    (∃ L, FreeList mem'.nodes L ∧ ∀ d ∈ mapRead fuel mem memmap, d.Usable → d.addr ≠ 0 →
      ∀ a ∈ d.bytes, ∃ b ∈ L, a ∈ b.phys) ↔
    ∀ d ∈ mapRead fuel mem memmap, d.Usable → d.addr ≠ 0 →
      StandsInRun (mapRead fuel mem memmap) d := by
  rw [eq_initMemFrom h]
  exact exists_freeList_iff hmem hmap fun _ hL ↦ hL.free_iff_standsInRun hmap

theorem usable_pages_free_page : ∃ L, FreeList (initMemFrom .blank pageMap).nodes L ∧
    ∀ d ∈ pageMap, d.Usable → d.addr ≠ 0 → ∀ a ∈ d.bytes, ∃ b ∈ L, a ∈ b.phys := by
  refine (usable_pages_free _ rfl pageMap sortedMap_pageMap).mpr fun d hd husable _ ↦ ?_
  have hfirst : ∀ d ∈ pageMap, d.Usable → d = ⟨7, 0x100000, 1⟩ := by decide
  rw [hfirst d hd husable]
  refine ⟨_, runOf_singleton (p := []) (by simp [Idle]) (by decide) (by decide)
    (by decide), fun _ _ _ ↦ ?_,
    List.mem_singleton_self _, ?_⟩
  all_goals decide

/-- The last descriptor of a map is lost. -/
theorem usable_page_lost : SortedMap [⟨7, 0x100000, 1⟩] ∧
    ¬ ∃ L, FreeList (initMemFrom .blank [⟨7, 0x100000, 1⟩]).nodes L ∧
      ∀ d ∈ [(⟨7, 0x100000, 1⟩ : EfiMemoryDescriptor)], d.Usable → d.addr ≠ 0 →
        ∀ a ∈ d.bytes, ∃ b ∈ L, a ∈ b.phys := by
  have hmap : SortedMap [⟨7, 0x100000, 1⟩] := SortedMap.left (q := [_]) sortedMap_pageMap
  refine ⟨hmap, fun ⟨L, hL, hall⟩ ↦ ?_⟩
  have hfree := hall _ (List.mem_singleton_self _) (by decide) (by decide) _
    (EfiMemoryDescriptor.addr_mem_bytes (by decide))
  obtain ⟨run, ⟨p, last, after, heq, -, hlast⟩, -⟩ := (free_iff rfl hmap hL _).mp hfree
  have hmem : last ∈ [(⟨7, 0x100000, 1⟩ : EfiMemoryDescriptor)] := heq ▸ by simp
  rw [List.mem_singleton.mp hmem] at hlast
  exact hlast (by decide)

end VimOS
