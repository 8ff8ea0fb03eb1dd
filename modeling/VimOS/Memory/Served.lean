import VimOS.Memory.AllocSafety
import VimOS.Memory.InitList

/-!
# From the memory map to the blocks in use

`init_mem` and the allocator together. What the allocator's runs keep is known of the list they
start from, and what that list is made of is known of the map: so a block that is handed out, after
any calls, lies in memory that the firmware reports as usable, and no byte of that memory is in two
blocks.
-/

namespace VimOS

open Block ByteMemory GuardedRun

/-! ## The list at the start -/

/-- What `init_mem` is called with: a blank allocator, and a map in memory that no node is written
over. Usable memory ends below the address where `P2V` wraps, and is nowhere as long as 4 GiB. -/
structure BootMap (mem : RawMemory) (memmap : UefiMemoryMap) (count : ℕ) : Prop where
  buffer : MapBuffer memmap count
  blank : mem.memlist = ⟨0, 0⟩
  sorted : SortedMap (mapDescriptors mem.bytes memmap count)
  spared : ∀ d ∈ mapDescriptors mem.bytes memmap count, d.Taken →
    Apart memmap.buffer memmap.mapsize.toNat d.physicalStart 16
  direct : ∀ d ∈ mapDescriptors mem.bytes memmap count, d.Taken → d.stop < directEnd
  short : ∀ run, RunOf (mapDescriptors mem.bytes memmap count) run → runPages run < 2 ^ 20

section Start

variable {descs run : List EfiMemoryDescriptor} {mem : RawMemory} {memmap : UefiMemoryMap}
  {count a : ℕ}

/-- A run is made up of its descriptors. -/
theorem exists_mem_of_joined (hjoined : Joined run) (ha : runAddr run ≤ a) (ha' : a < runStop run) :
    ∃ d ∈ run, a ∈ d.bytes := by
  induction run using List.reverseRecOn with
  | nil => exact absurd (ha.trans_lt ha') (lt_irrefl _)
  | append_singleton run d ih =>
    rcases eq_or_ne run [] with rfl | hrun
    · rw [List.nil_append, runStop_singleton] at ha'
      exact ⟨d, List.mem_append_right _ List.mem_cons_self, ha, ha'⟩
    · have htouch := runStop_of_joined hrun hjoined
      rw [runAddr_append hrun] at ha
      rw [runStop_snoc hjoined] at ha'
      rcases lt_or_ge a (runStop run) with hlt | hge
      · obtain ⟨c, hc, hac⟩ := ih (List.isChain_append.mp hjoined).1 ha hlt
        exact ⟨c, List.mem_append_left _ hc, hac⟩
      · exact ⟨d, List.mem_append_right _ List.mem_cons_self, htouch ▸ hge, ha'⟩

theorem RunOf.joined (h : RunOf descs run) : Joined run := by
  obtain ⟨p, last, after, -, ⟨before, dropped, -, -, -, hjoined, -⟩, -⟩ := h
  exact hjoined

/-- What is gathered is usable. -/
theorem Gathers.exists_taken (h : Gathers descs a) : ∃ d ∈ descs, d.Taken ∧ a ∈ d.bytes := by
  obtain ⟨run, hrun, -, ha, ha'⟩ := h
  have hle : runPages run % 2 ^ 32 ≤ runPages run := Nat.mod_le _ _
  have hstop : a < runStop run := by
    rw [runStop]
    omega
  obtain ⟨d, hd, had⟩ := exists_mem_of_joined hrun.joined ha hstop
  exact ⟨d, hrun.subset hd, hrun.taken hd, had⟩

theorem RunOf.stop_lt (h : RunOf descs run) (hdirect : ∀ d ∈ descs, d.Taken → d.stop < directEnd) :
    runStop run < directEnd := by
  obtain ⟨run', d, rfl⟩ := (List.eq_nil_or_concat' run).resolve_left h.ne_nil
  have hd : d ∈ run' ++ [d] := List.mem_append_right _ List.mem_cons_self
  rw [runStop_snoc h.joined]
  exact hdirect d (h.subset hd) (h.taken hd)

/-- The block of a run, where nothing wraps and no number of pages is cut. -/
theorem runBlock_eq (hstop : runStop run < directEnd) (hpages : runPages run < 2 ^ 20) :
    runBlock run = ⟨pageOffset.toNat + runAddr run, runPages run⟩ := by
  rw [runStop] at hstop
  rw [runBlock, toNat_runNode_of_lt (by omega), Nat.mod_eq_of_lt (by omega)]

/-- `init_mem` leaves a list that the allocator can start from. -/
theorem BootMap.initial (h : BootMap mem memmap count) :
    Initial (initMemFrom mem (mapDescriptors mem.bytes memmap count)).nodes
      (freeBlocks (mapDescriptors mem.bytes memmap count)) := by
  have hrun : ∀ run, RunOf (mapDescriptors mem.bytes memmap count) run →
      runStop run < directEnd ∧ 0 < runPages run ∧
        runBlock run = ⟨pageOffset.toNat + runAddr run, runPages run⟩ := fun run hrun ↦
    ⟨hrun.stop_lt h.direct, hrun.pages_pos h.sorted,
      runBlock_eq (hrun.stop_lt h.direct) (h.short run hrun)⟩
  have hoffset : pageOffset.toNat = 0xffff806000000000 := rfl
  refine ⟨initMemFrom_freeList h.blank h.sorted, fun b hb ↦ ?_, fun b hb ↦ ?_, ?_⟩
  · obtain ⟨run, hr, -, rfl⟩ := (mem_freeBlocks h.sorted).mp hb
    obtain ⟨hstop, hpos, heq⟩ := hrun run hr
    rw [runStop, directEnd] at hstop
    rw [heq]
    refine ⟨?_, hpos, ?_⟩
    · exact Nat.add_pos_left (by decide) _
    · rw [stop]
      dsimp only
      omega
  · obtain ⟨run, hr, -, rfl⟩ := (mem_freeBlocks h.sorted).mp hb
    rw [(hrun run hr).2.2]
    exact h.short run hr
  · refine List.Pairwise.sublist (List.takeWhile_prefix _).sublist ?_
    rw [List.pairwise_map]
    refine (closed_pairwise h.sorted).imp_of_mem fun {r r'} hr hr' hgap ↦ ?_
    have heq := (hrun r (runOf_of_mem_closed h.sorted hr)).2.2
    have heq' := (hrun r' (runOf_of_mem_closed h.sorted hr')).2.2
    rw [runStop] at hgap
    rw [heq, heq', stop]
    dsimp only
    omega

theorem BootMap.initMem_eq (h : BootMap mem memmap count) : initMem (count + 1) mem memmap =
    some (initMemFrom mem (mapDescriptors mem.bytes memmap count)) :=
  VimOS.initMem_eq h.buffer fun d hd htaken ↦ (h.spared d hd htaken).add_left pageOffset

/-- The bytes of the list are the gathered memory, where it is mapped. -/
theorem BootMap.cover_iff (h : BootMap mem memmap count) :
    pageOffset.toNat + a ∈ cover (freeBlocks (mapDescriptors mem.bytes memmap count)) ↔
      Gathers (mapDescriptors mem.bytes memmap count) a := by
  rw [mem_cover, Gathers]
  constructor
  · rintro ⟨b, hb, ha⟩
    obtain ⟨run, hr, hreached, rfl⟩ := (mem_freeBlocks h.sorted).mp hb
    have hshort := h.short run hr
    rw [runBlock_eq (hr.stop_lt h.direct) hshort, bytes, stop, Set.mem_Ico] at ha
    dsimp only at ha
    refine ⟨run, hr, hreached, by omega, ?_⟩
    rw [Nat.mod_eq_of_lt (by omega)]
    omega
  · rintro ⟨run, hr, hreached, ha, ha'⟩
    have hshort := h.short run hr
    refine ⟨_, (mem_freeBlocks h.sorted).mpr ⟨run, hr, hreached, rfl⟩, ?_⟩
    rw [Nat.mod_eq_of_lt (by omega)] at ha'
    rw [runBlock_eq (hr.stop_lt h.direct) hshort, bytes, stop, Set.mem_Ico]
    dsimp only
    omega

theorem BootMap.offset_le (h : BootMap mem memmap count) {q : ℕ}
    (hq : q ∈ cover (freeBlocks (mapDescriptors mem.bytes memmap count))) :
    pageOffset.toNat ≤ q := by
  obtain ⟨b, hb, ha⟩ := mem_cover.mp hq
  obtain ⟨run, hr, hreached, rfl⟩ := (mem_freeBlocks h.sorted).mp hb
  rw [runBlock_eq (hr.stop_lt h.direct) (h.short run hr), bytes, Set.mem_Ico] at ha
  exact (Nat.le_add_right _ _).trans ha.1

end Start

/-! ## What a run keeps -/

section Run

variable {mem : Memory} {L₀ : List Block} {s s' : AllocState} {c : Call} {b : Block} {a : ℕ}

/-- A step adds no page to those in use and in the list. -/
theorem AllocInv.cover_step {L : List Block} (hi : AllocInv s L) (hg : FreesMeet MergesApart s c)
    (h : Step s c s') :
    ∃ L', AllocInv s' L' ∧ cover (s'.live ++ L') ⊆ cover (s.live ++ L) := by
  obtain ⟨L', hi', hls⟩ := hi.step hg h
  refine ⟨L', hi', ?_⟩
  generalize s'.live = live' at hls
  cases hls with
  | take hp ht => exact (cover_take ht).subset
  | full hp ht => exact subset_rfl
  | give hb hw =>
    have hfreed := cover_freeWalk_subset (hi.freed hb) hw
    rw [cover_append, cover_append, cover_erase hb]
    rintro q (hq | hq)
    · exact .inl (.inr hq)
    · exact (hfreed hq).elim .inr fun hq ↦ .inl (.inl hq)
  | write => exact subset_rfl

/-- Where the freed block meets `KeepsPages`, a step takes none away either. -/
theorem AllocInv.cover_eq_step {L : List Block} (hi : AllocInv s L) (hg : FreesMeet KeepsPages s c)
    (h : Step s c s') :
    ∃ L', AllocInv s' L' ∧ cover (s'.live ++ L') = cover (s.live ++ L) := by
  obtain ⟨L', hi', hls⟩ := hi.step (hg.mono fun _ _ h ↦ h.mergesApart) h
  refine ⟨L', hi', ?_⟩
  generalize s'.live = live' at hls
  cases hls with
  | take hp ht => exact cover_take ht
  | full hp ht => rfl
  | give hb hw =>
    have hfreed := (cover_freeWalk_subset (hi.freed hb) hw).antisymm
      (subset_cover_freeWalk (hi.freed hb) (hg L hi.freeList).2 hw)
    rw [cover_append, cover_append, cover_erase hb, hfreed]
    ext q
    simp only [Set.mem_union]
    tauto
  | write => rfl

/-- **No page comes from elsewhere**, in any state of a run in which each freed block meets
`MergesApart`. -/
theorem pages_from_start (h₀ : Initial mem L₀)
    (hrun : Run Step (FreesMeet MergesApart) ⟨mem, []⟩ s) :
    ∃ L, AllocInv s L ∧ cover (s.live ++ L) ⊆ cover L₀ := by
  refine hrun.invariant (P := fun s ↦ ∃ L, AllocInv s L ∧ cover (s.live ++ L) ⊆ cover L₀)
    ⟨L₀, h₀.allocInv, subset_rfl⟩ ?_
  rintro s c s' ⟨L, hi, hcover⟩ hg hs
  obtain ⟨L', hi', hsub⟩ := hi.cover_step hg hs
  exact ⟨L', hi', hsub.trans hcover⟩

/-- **The pages stay the same** in a run in which each freed block meets `KeepsPages`. -/
theorem pages_of_start (h₀ : Initial mem L₀) (hrun : Run Step (FreesMeet KeepsPages) ⟨mem, []⟩ s) :
    ∃ L, AllocInv s L ∧ cover (s.live ++ L) = cover L₀ := by
  refine hrun.invariant (P := fun s ↦ ∃ L, AllocInv s L ∧ cover (s.live ++ L) = cover L₀)
    ⟨L₀, h₀.allocInv, rfl⟩ ?_
  rintro s c s' ⟨L, hi, hcover⟩ hg hs
  obtain ⟨L', hi', heq⟩ := hi.cover_eq_step hg hs
  exact ⟨L', hi', heq.trans hcover⟩

/-- Physical addresses of a block in the direct map. -/
theorem Block.mem_phys (hb : b.Valid) (hdirect : pageOffset.toNat ≤ b.addr) :
    a ∈ b.phys ↔ pageOffset.toNat + a ∈ b.bytes := by
  have hstop := hb.stop_lt
  have hoffset : pageOffset.toNat = 0xffff806000000000 := rfl
  rw [stop] at hstop
  rw [phys, bytes, stop, Set.mem_Ico, Set.mem_Ico, directEnd]
  omega

/-- The physical addresses of blocks that are made up of the memory at the start. -/
theorem BootMap.mem_phys {mem : RawMemory} {memmap : UefiMemoryMap} {count : ℕ}
    (h : BootMap mem memmap count) {K : List Block} (hvalid : ∀ b ∈ K, b.Valid)
    (hcover : cover K ⊆ cover (freeBlocks (mapDescriptors mem.bytes memmap count)))
    (hb : b ∈ K) : a ∈ b.phys ↔ pageOffset.toNat + a ∈ b.bytes := by
  refine Block.mem_phys (hvalid b hb) (h.offset_le (hcover (mem_cover.mpr ⟨b, hb, le_rfl, ?_⟩)))
  have hpos := (hvalid b hb).pages_pos
  rw [stop]
  omega

/-- A run behind `init_mem`: what its blocks are, as physical memory. -/
theorem BootMap.run_blocks {mem : RawMemory} {memmap : UefiMemoryMap} {count : ℕ}
    (h : BootMap mem memmap count) (hrun : Run Step (FreesMeet MergesApart)
      ⟨(initMemFrom mem (mapDescriptors mem.bytes memmap count)).nodes, []⟩ s) :
    ∃ L, AllocInv s L ∧
      cover (s.live ++ L) ⊆ cover (freeBlocks (mapDescriptors mem.bytes memmap count)) ∧
      ∀ b ∈ s.live ++ L, ∀ a, a ∈ b.phys ↔ pageOffset.toNat + a ∈ b.bytes := by
  obtain ⟨L, hi, hcover⟩ := pages_from_start h.initial hrun
  exact ⟨L, hi, hcover, fun b hb a ↦ h.mem_phys hi.valid hcover hb⟩

/-- **What is handed out is usable memory**: `init_mem` ends on the map, and after any calls from
then on, each freed block meeting `MergesApart`, every block in use or in the list lies in the
usable memory of the map, and no byte of physical memory is in two of them. -/
theorem memory_served (mem : RawMemory) (memmap : UefiMemoryMap) (count : ℕ)
    (h : BootMap mem memmap count) : ∃ fuel mem', initMem fuel mem memmap = some mem' ∧
      ∀ s, Run Step (FreesMeet MergesApart) ⟨mem'.nodes, []⟩ s → ∃ L, FreeList s.mem L ∧
        (s.live ++ L).Pairwise (fun b b' ↦ Disjoint b.phys b'.phys) ∧
        ∀ b ∈ s.live ++ L, ∀ a ∈ b.phys,
          ∃ d ∈ mapDescriptors mem.bytes memmap count, d.Taken ∧ a ∈ d.bytes := by
  refine ⟨_, _, h.initMem_eq, fun s hrun ↦ ?_⟩
  obtain ⟨L, hi, hcover, hphys⟩ := h.run_blocks hrun
  refine ⟨L, hi.freeList, hi.apart.imp_of_mem fun {b b'} hb hb' hab ↦ ?_, fun b hb a ha ↦ ?_⟩
  · have hdis := (apart_iff_disjoint (hi.valid b hb) (hi.valid b' hb')).mp hab
    refine Set.disjoint_left.mpr fun a ha ha' ↦ ?_
    exact Set.disjoint_left.mp hdis ((hphys b hb a).mp ha) ((hphys b' hb' a).mp ha')
  · have hmem := hcover (mem_cover.mpr ⟨b, hb, (hphys b hb a).mp ha⟩)
    exact (h.cover_iff.mp hmem).exists_taken

/-- **All of it stays there**: where each freed block meets `KeepsPages`, the blocks in use and
those of the list are, at any time, exactly the memory that `init_mem` has gathered. -/
theorem memory_partitioned (mem : RawMemory) (memmap : UefiMemoryMap) (count : ℕ)
    (h : BootMap mem memmap count) : ∃ fuel mem', initMem fuel mem memmap = some mem' ∧
      ∀ s, Run Step (FreesMeet KeepsPages) ⟨mem'.nodes, []⟩ s → ∃ L, FreeList s.mem L ∧
        ∀ a, Gathers (mapDescriptors mem.bytes memmap count) a ↔
          ∃! b, b ∈ s.live ++ L ∧ a ∈ b.phys := by
  refine ⟨_, _, h.initMem_eq, fun s hrun ↦ ?_⟩
  obtain ⟨L, hi, hcover⟩ := pages_of_start h.initial hrun
  have hphys : ∀ b ∈ s.live ++ L, ∀ a, a ∈ b.phys ↔ pageOffset.toNat + a ∈ b.bytes :=
    fun b hb a ↦ h.mem_phys hi.valid hcover.subset hb
  refine ⟨L, hi.freeList, fun a ↦ ⟨fun ha ↦ ?_, ?_⟩⟩
  · obtain ⟨b, hb, hab⟩ := mem_cover.mp (hcover.superset (h.cover_iff.mpr ha))
    refine ⟨b, ⟨hb, (hphys b hb a).mpr hab⟩, ?_⟩
    rintro b' ⟨hb', hab'⟩
    by_contra hne
    have hdis := (apart_iff_disjoint (hi.valid b' hb') (hi.valid b hb)).mp
      (hi.apart.forall hb' hb hne)
    exact Set.disjoint_left.mp hdis ((hphys b' hb' a).mp hab') hab
  · rintro ⟨b, ⟨hb, ha⟩, -⟩
    exact h.cover_iff.mp (hcover.subset (mem_cover.mpr ⟨b, hb, (hphys b hb a).mp ha⟩))

/-- A page of conventional memory. -/
theorem bootMap_two : BootMap ⟨⟨0, 0⟩, twoPages 0x100000⟩ twoMap 2 where
  buffer := mapBuffer_twoMap
  blank := rfl
  sorted := by
    rw [mapDescriptors_twoPages]
    exact sortedMap_pair (by decide) (by decide) (by decide) (by decide)
  spared := by
    rw [mapDescriptors_twoPages]
    refine List.forall_mem_cons.mpr ⟨fun _ ↦ ByteMemory.apart_of_le ?_ ?_ ?_, ?_⟩
    · decide
    · decide
    · decide
    · exact List.forall_mem_singleton.mpr fun h ↦ absurd h (by decide)
  direct := by
    rw [mapDescriptors_twoPages]
    decide
  short run hrun := by
    rw [mapDescriptors_twoPages, ← mem_closed_iff (sortedMap_pair (by decide) (by decide)
      (by decide) (by decide))] at hrun
    have hclosed : (gather [⟨7, 0x100000, 1⟩, ⟨0, 0x101000, 1⟩]).closed
        = [[⟨7, 0x100000, 1⟩]] := rfl
    rw [hclosed, List.mem_singleton] at hrun
    rw [hrun]
    decide

theorem memory_served_two : ∃ fuel mem',
    initMem fuel ⟨⟨0, 0⟩, twoPages 0x100000⟩ twoMap = some mem' ∧
      ∀ s, Run Step (FreesMeet MergesApart) ⟨mem'.nodes, []⟩ s → ∃ L, FreeList s.mem L ∧
        (s.live ++ L).Pairwise (fun b b' ↦ Disjoint b.phys b'.phys) ∧
        ∀ b ∈ s.live ++ L, ∀ a ∈ b.phys,
          ∃ d ∈ mapDescriptors (twoPages 0x100000) twoMap 2, d.Taken ∧ a ∈ d.bytes :=
  memory_served _ _ _ bootMap_two

theorem memory_partitioned_two : ∃ fuel mem',
    initMem fuel ⟨⟨0, 0⟩, twoPages 0x100000⟩ twoMap = some mem' ∧
      ∀ s, Run Step (FreesMeet KeepsPages) ⟨mem'.nodes, []⟩ s → ∃ L, FreeList s.mem L ∧
        ∀ a, Gathers (mapDescriptors (twoPages 0x100000) twoMap 2) a ↔
          ∃! b, b ∈ s.live ++ L ∧ a ∈ b.phys :=
  memory_partitioned _ _ _ bootMap_two

end Run

end VimOS
