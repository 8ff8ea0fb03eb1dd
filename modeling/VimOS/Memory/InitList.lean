import VimOS.Memory.InitMem

/-!
# The list `init_mem` leaves for the allocator

`init_mem` on a map that lies in memory. As long as no node is written over the map, the descriptors
it reads are those of the map, and the list is in the form `alloc_mem` and `free_mem` rely on.
-/

namespace VimOS

open ByteMemory RawMemory

variable {descs p : List EfiMemoryDescriptor} {d : EfiMemoryDescriptor} {mem : RawMemory}
  {s : InitMem} {memmap : UefiMemoryMap} {base : Addr} {bytes : Bytes} {count n : ℕ}

/-! ## The map in memory -/

/-- The buffer holds `count` descriptors and lies in the address space. -/
structure MapBuffer (memmap : UefiMemoryMap) (count : ℕ) : Prop where
  /-- A descriptor takes 40 bytes at least. -/
  descsize : 40 ≤ memmap.descsize.toNat
  mapsize : memmap.mapsize.toNat = count * memmap.descsize.toNat
  fits : (p2v memmap.buffer).toNat + memmap.mapsize.toNat < 2 ^ 64

/-- The address of the descriptor with index `i`. -/
def descAddr (memmap : UefiMemoryMap) (i : ℕ) : Addr :=
  p2v memmap.buffer + BitVec.ofNat 64 (i * memmap.descsize.toNat)

/-- The descriptors of the map. -/
def mapDescriptors (bytes : Bytes) (memmap : UefiMemoryMap) (count : ℕ) :
    List EfiMemoryDescriptor :=
  (List.range count).map fun i : ℕ ↦ readDescriptor bytes (descAddr memmap i)

/-! ## Nodes stay off the map -/

/-- The `n` bytes at `base` are as they were, and none of them is in a node that may still be
written. -/
structure SparesMap (base : Addr) (n : ℕ) (bytes : Bytes) (s : InitMem) : Prop where
  same : ∀ k < n, s.mem.bytes (base + BitVec.ofNat 64 k) = bytes (base + BitVec.ofNat 64 k)
  start : s.start ≠ 0 → Apart base n (p2v s.start) 16
  cur : ∀ c ∈ s.curMemlist, Apart base n c 16

theorem setNext_apply {q : Option Addr} (h : ∀ c ∈ q, Apart base n c 16) (v : Addr) {k : ℕ}
    (hk : k < n) : (mem.setNext q v).bytes (base + BitVec.ofNat 64 k) =
      mem.bytes (base + BitVec.ofNat 64 k) := by
  cases q with
  | none => rfl
  | some c => exact store_apply_of_le (Nat.le_trans (by decide) (h c rfl k hk))

theorem setPages_apply {c : Addr} (h : Apart base n c 16) (v : BitVec 32) {k : ℕ} (hk : k < n) :
    (mem.setPages c v).bytes (base + BitVec.ofNat 64 k) = mem.bytes (base + BitVec.ofNat 64 k) := by
  have hfar : Apart base n (c + 8) 4 := by
    have hpart := h.part (i := 0) (j := 8) (v := 4) (Nat.zero_add n).le (by decide)
    rwa [BitVec.add_zero] at hpart
  exact store_apply_of_le (hfar k hk)

theorem SparesMap.writeRun (h : SparesMap base n bytes s) (hs : s.start ≠ 0) :
    SparesMap base n bytes (writeRun s) where
  same k hk := by
    have hml := h.start hs
    refine (setNext_apply h.cur _ hk).trans ?_
    refine (setPages_apply hml _ hk).trans ?_
    refine (setNext_apply ?_ _ hk).trans (h.same k hk)
    intro c hc
    rwa [← Option.some.inj hc]
  start hne := absurd rfl hne
  cur c hc := by
    rw [← Option.some.inj hc]
    exact h.start hs

/-- A descriptor keeps the map when, in case it is taken, its first 16 bytes are off the map. -/
theorem SparesMap.step (h : SparesMap base n bytes s)
    (hd : d.Taken → Apart base n (p2v d.physicalStart) 16) :
    SparesMap base n bytes (initMemBody s d) := by
  by_cases htaken : d.Taken
  · have hfar := hd htaken
    by_cases hs : s.start = 0
    · rw [initMemBody_of_idle htaken hs]
      split_ifs
      · exact ⟨h.same, fun _ ↦ hfar, h.cur⟩
      · exact ⟨h.same, fun _ ↦ hfar, h.cur⟩
    · rw [initMemBody_of_pending htaken hs]
      split_ifs
      · exact ⟨h.same, h.start, h.cur⟩
      · exact h
  · rw [initMemBody_of_not_taken htaken]
    split_ifs with hs
    · exact h.writeRun hs
    · exact h

/-! ## The loop over the buffer -/

theorem readDescriptor_eq_of_same {mem mem' : Bytes} {o : ℕ}
    (h : ∀ k < n, mem (base + BitVec.ofNat 64 k) = mem' (base + BitVec.ofNat 64 k))
    (ho : o + 40 ≤ n) : readDescriptor mem (base + BitVec.ofNat 64 o) =
      readDescriptor mem' (base + BitVec.ofNat 64 o) := by
  have hoff : ∀ j, base + BitVec.ofNat 64 o + BitVec.ofNat 64 j = base + BitVec.ofNat 64 (o + j) :=
    fun j ↦ by rw [BitVec.add_assoc, ← BitVec.ofNat_add]
  have htype := load_eq_of_same (o := o) (m := 4) h (by omega)
  have hstart := load_eq_of_same (o := o + 8) (m := 8) h (by omega)
  have hpages := load_eq_of_same (o := o + 24) (m := 8) h (by omega)
  rw [← hoff] at hstart hpages
  show EfiMemoryDescriptor.mk _ _ _ = EfiMemoryDescriptor.mk _ _ _
  rw [htype]
  exact congrArg₂ _ (congrArg _ hstart) (congrArg _ hpages)

/-- The test of the loop counts descriptors. -/
theorem descAddr_lt_iff (h : MapBuffer memmap count) {i : ℕ} (hi : i ≤ count) :
    descAddr memmap i < p2v memmap.buffer + memmap.mapsize ↔ i < count := by
  have hfits := h.fits
  have hdesc := h.descsize
  have hsize := h.mapsize
  have hle : i * memmap.descsize.toNat ≤ count * memmap.descsize.toNat :=
    Nat.mul_le_mul_right _ hi
  rw [BitVec.lt_def, descAddr, BitVec.toNat_add, BitVec.toNat_add, BitVec.toNat_ofNat,
    Nat.mod_eq_of_lt (a := i * _) (by omega), Nat.mod_eq_of_lt (by omega),
    Nat.mod_eq_of_lt (by omega), hsize, Nat.add_lt_add_iff_left,
    Nat.mul_lt_mul_right (by omega)]

theorem descAddr_succ (memmap : UefiMemoryMap) (i : ℕ) :
    descAddr memmap i + memmap.descsize = descAddr memmap (i + 1) := by
  rw [descAddr, descAddr, Nat.succ_mul, BitVec.ofNat_add, BitVec.ofNat_toNat, BitVec.setWidth_eq,
    BitVec.add_assoc]

/-- The descriptors with the indices from `i` on. -/
theorem mapDescriptors_drop {i : ℕ} (hi : i < count) :
    (mapDescriptors bytes memmap count).drop i =
      readDescriptor bytes (descAddr memmap i) ::
        (mapDescriptors bytes memmap count).drop (i + 1) := by
  have hlen : i < (mapDescriptors bytes memmap count).length := by
    rwa [mapDescriptors, List.length_map, List.length_range]
  rw [List.drop_eq_getElem_cons hlen]
  congr 1
  simp only [mapDescriptors, List.getElem_map, List.getElem_range]

/-- From the descriptor with index `i` on the loop reads the rest of the map. -/
theorem initMemLoop_eq (h : MapBuffer memmap count)
    (hspared : ∀ d ∈ mapDescriptors bytes memmap count, d.Taken →
      Apart (p2v memmap.buffer) memmap.mapsize.toNat (p2v d.physicalStart) 16)
    {i k : ℕ} (hik : i + k = count)
    (hs : SparesMap (p2v memmap.buffer) memmap.mapsize.toNat bytes s) :
    initMemLoop memmap (k + 1) s (descAddr memmap i) =
      some (((mapDescriptors bytes memmap count).drop i).foldl initMemBody s) := by
  induction k generalizing i s with
  | zero =>
    rw [initMemLoop, if_neg (mt (descAddr_lt_iff h (by omega)).mp (by omega)),
      List.drop_eq_nil_of_le,
      List.foldl_nil]
    rw [mapDescriptors, List.length_map, List.length_range]
    omega
  | succ k ih =>
    have hi : i < count := by omega
    have hread : readDescriptor s.mem.bytes (descAddr memmap i) =
        readDescriptor bytes (descAddr memmap i) := by
      refine readDescriptor_eq_of_same hs.same ?_
      have hle : (i + 1) * memmap.descsize.toNat ≤ count * memmap.descsize.toNat :=
        Nat.mul_le_mul_right _ hi
      have hdesc := h.descsize
      rw [h.mapsize]
      rw [Nat.succ_mul] at hle
      omega
    have hmem : readDescriptor bytes (descAddr memmap i) ∈ mapDescriptors bytes memmap count :=
      List.mem_map.mpr ⟨i, List.mem_range.mpr hi, rfl⟩
    rw [initMemLoop, if_pos ((descAddr_lt_iff h hi.le).mpr hi), hread, descAddr_succ,
      ih (by omega) (hs.step (hspared _ hmem)), mapDescriptors_drop hi, List.foldl_cons]

/-- The loop over the buffer is the loop over the map. -/
theorem initMem_eq (h : MapBuffer memmap count)
    (hspared : ∀ d ∈ mapDescriptors mem.bytes memmap count, d.Taken →
      Apart (p2v memmap.buffer) memmap.mapsize.toNat (p2v d.physicalStart) 16) :
    initMem (count + 1) mem memmap =
      some (initMemFrom mem (mapDescriptors mem.bytes memmap count)) := by
  have hbegin : SparesMap (p2v memmap.buffer) memmap.mapsize.toNat mem.bytes (.begin mem) :=
    ⟨fun _ _ ↦ rfl, fun hne ↦ absurd rfl hne, fun c hc ↦ absurd hc (by simp [InitMem.begin])⟩
  have hloop := initMemLoop_eq h hspared (Nat.zero_add count) hbegin
  have hfirst : descAddr memmap 0 = p2v memmap.buffer := by
    rw [descAddr, Nat.zero_mul, BitVec.add_zero]
  rw [hfirst, List.drop_zero] at hloop
  rw [initMem, hloop]
  rfl

/-- The loop ends in one way only. -/
theorem initMemLoop_fuel {fuel fuel' : ℕ} {s' : InitMem} {m : Addr} (hle : fuel ≤ fuel')
    (h : initMemLoop memmap fuel s m = some s') : initMemLoop memmap fuel' s m = some s' := by
  induction fuel generalizing fuel' s m with
  | zero => exact absurd h (by simp [initMemLoop])
  | succ fuel ih =>
    obtain ⟨fuel', rfl⟩ : ∃ k, fuel' = k + 1 := ⟨fuel' - 1, by omega⟩
    rw [initMemLoop] at h ⊢
    split_ifs at h ⊢
    · exact ih (by omega) h
    · exact h

theorem initMem_unique {fuel fuel' : ℕ} {mem' mem'' : RawMemory}
    (h : initMem fuel mem memmap = some mem') (h' : initMem fuel' mem memmap = some mem'') :
    mem' = mem'' := by
  obtain ⟨s', hs', rfl⟩ := Option.map_eq_some_iff.mp h
  obtain ⟨s'', hs'', rfl⟩ := Option.map_eq_some_iff.mp h'
  have heq := (initMemLoop_fuel (le_max_left fuel fuel') hs').symm.trans
    (initMemLoop_fuel (le_max_right fuel fuel') hs'')
  rw [Option.some.inj heq]

/-! ## The form of the list -/

theorem runPages_gather_le (p : List EfiMemoryDescriptor) :
    ((gather p).closed.map runPages).sum + runPages (gather p).pending ≤ runPages p := by
  induction p using List.reverseRecOn with
  | nil => exact le_rfl
  | append_singleton p d ih =>
    rw [gather_snoc, runPages_append, runPages_singleton]
    generalize gather p = g at ih
    rw [gatherStep]
    have hnil : runPages [] = 0 := rfl
    split_ifs with hd hp ha hs hp
    · omega
    · dsimp only
      rw [runPages_singleton]
      omega
    · dsimp only
      rw [runPages_append, runPages_singleton]
      omega
    · omega
    · omega
    · dsimp only
      rw [List.map_append, List.sum_append, List.map_singleton, List.sum_singleton]
      omega

/-- Runs of the direct map's memory have their nodes in order behind `PAGE_OFFSET`. -/
theorem toNat_runNode_of_lt {run : List EfiMemoryDescriptor} (h : runAddr run < directEnd) :
    (runNode run).toNat = pageOffset.toNat + runAddr run := by
  rw [directEnd] at h
  rw [toNat_runNode, Nat.mod_eq_of_lt (by omega)]

/-- The list that the allocator relies on: its blocks have pages, lie in ascending order with a page
between neighbours at least, and are counted in `memlist.pages`. -/
structure InitialList (mem : RawMemory) (L : List Block) : Prop where
  list : FreeList mem.nodes L
  pages_pos : ∀ b ∈ L, 0 < b.pages
  ascending : L.Pairwise fun b b' ↦ b.stop + 4096 ≤ b'.addr
  total : mem.memlist.pages = (L.map Block.pages).sum

theorem initialList_initMemFrom (hmem : mem.memlist = ⟨0, 0⟩) (hmap : SortedMap descs)
    (htotal : runPages descs < 2 ^ 32) (hdirect : ∀ d ∈ descs, d.Taken → d.stop ≤ directEnd) :
    InitialList (initMemFrom mem descs) ((gather descs).closed.map runBlock) := by
  have hlt : ∀ r ∈ (gather descs).closed, runAddr r < directEnd := by
    intro r hr
    have hrun := runOf_of_mem_closed hmap hr
    obtain ⟨f, r, rfl⟩ := List.exists_cons_of_ne_nil hrun.ne_nil
    have hf := hrun.subset List.mem_cons_self
    have hstop := hdirect f hf (hrun.taken List.mem_cons_self)
    have hpages := hmap.nonempty f hf
    rw [EfiMemoryDescriptor.stop] at hstop
    rw [runAddr]
    omega
  -- no run is so long that its number of pages is cut
  have hpages : ∀ r ∈ (gather descs).closed, runPages r % 2 ^ 32 = runPages r := by
    intro r hr
    have hle := runPages_gather_le descs
    have hsum := List.single_le_sum (fun _ _ ↦ Nat.zero_le _) _
        (List.mem_map_of_mem (f := runPages) hr)
    exact Nat.mod_eq_of_lt (by omega)
  -- no node lies at the address 0, where the list would end
  have hblocks : freeBlocks descs = (gather descs).closed.map runBlock := by
    refine List.takeWhile_eq_self_iff.mpr fun b hb ↦ decide_eq_true ?_
    obtain ⟨r, hr, rfl⟩ := List.mem_map.mp hb
    rw [runBlock, toNat_runNode_of_lt (hlt r hr)]
    exact (Nat.add_pos_left (by decide) _).ne'
  constructor
  · rw [← hblocks]
    exact initMemFrom_freeList hmem hmap
  · intro b hb
    obtain ⟨r, hr, rfl⟩ := List.mem_map.mp hb
    rw [runBlock, hpages r hr]
    exact (runOf_of_mem_closed hmap hr).pages_pos hmap
  · rw [List.pairwise_map]
    refine (closed_pairwise hmap).imp_of_mem fun {r r'} hr hr' hgap ↦ ?_
    rw [runBlock, runBlock, Block.stop]
    dsimp only
    rw [hpages r hr, toNat_runNode_of_lt (hlt r hr), toNat_runNode_of_lt (hlt r' hr')]
    rw [runStop] at hgap
    omega
  · have hsum : (((gather descs).closed.map runBlock).map Block.pages) =
        (gather descs).closed.map runPages := by
      rw [List.map_map]
      exact List.map_congr_left hpages
    have hle := runPages_gather_le descs
    rw [hsum, initMemFrom, (represents_foldl hmem hmap).total, Nat.mod_eq_of_lt (by omega)]

/-- On a map in memory that no node is written over, `init_mem` ends and leaves the list the
allocator relies on, when the usable memory is such that `P2V` does not wrap. -/
theorem init_mem_list (mem : RawMemory) (memmap : UefiMemoryMap) (count : ℕ)
    (hbuf : MapBuffer memmap count) (hmem : mem.memlist = ⟨0, 0⟩)
    (hmap : SortedMap (mapDescriptors mem.bytes memmap count))
    (htotal : runPages (mapDescriptors mem.bytes memmap count) < 2 ^ 32)
    (hspared : ∀ d ∈ mapDescriptors mem.bytes memmap count, d.Taken →
      Apart memmap.buffer memmap.mapsize.toNat d.physicalStart 16)
    (hdirect : ∀ d ∈ mapDescriptors mem.bytes memmap count, d.Taken → d.stop ≤ directEnd) :
    ∃ fuel mem', initMem fuel mem memmap = some mem' ∧ ∃ L, InitialList mem' L := by
  refine ⟨count + 1, _, initMem_eq hbuf fun d hd htaken ↦ ?_, _,
    initialList_initMemFrom hmem hmap htotal hdirect⟩
  exact (hspared d hd htaken).add_left pageOffset

/-- A map of two descriptors at 2 MiB: a page of conventional memory and a reserved page behind
it. -/
def twoPages (start : Addr) : Bytes :=
  let base : Addr := 0xffff806000200000
  let bytes := store (fun _ ↦ 0) base 4 EfiMemoryType.conventionalMemory.value
  let bytes := store bytes (base + 8) 8 start.toNat
  let bytes := store bytes (base + 24) 8 1
  let bytes := store bytes (base + 40) 4 EfiMemoryType.reservedMemoryType.value
  let bytes := store bytes (base + 48) 8 (start.toNat + 4096)
  store bytes (base + 64) 8 1

def twoMap : UefiMemoryMap := ⟨0x200000, 80, 40⟩

theorem mapBuffer_twoMap : MapBuffer twoMap 2 := ⟨by decide, by decide, by decide⟩

theorem mapDescriptors_twoPages : mapDescriptors (twoPages 0x100000) twoMap 2 =
    [⟨7, 0x100000, 1⟩, ⟨0, 0x101000, 1⟩] := by
  decide +kernel

theorem mapDescriptors_twoPages_end : mapDescriptors (twoPages 0x7fa000000000) twoMap 2 =
    [⟨7, 0x7fa000000000, 1⟩, ⟨0, 0x7fa000001000, 1⟩] := by
  decide +kernel

theorem init_mem_list_two :
    ∃ fuel mem', initMem fuel ⟨⟨0, 0⟩, twoPages 0x100000⟩ twoMap = some mem' ∧
    ∃ L, InitialList mem' L := by
  refine init_mem_list _ twoMap 2 mapBuffer_twoMap rfl ?_ ?_ ?_ ?_
  · rw [mapDescriptors_twoPages]
    exact sortedMap_pair (by decide) (by decide) (by decide) (by decide)
  · rw [mapDescriptors_twoPages]
    decide
  · rw [mapDescriptors_twoPages]
    refine List.forall_mem_cons.mpr ⟨fun _ ↦ apart_of_le ?_ ?_ ?_, ?_⟩
    · decide
    · decide
    · decide
    · exact List.forall_mem_singleton.mpr fun h ↦ absurd h (by decide)
  · rw [mapDescriptors_twoPages]
    decide

/-- A page whose node would be at `NULL` is counted in `memlist.pages` and not in the list. -/
theorem init_mem_list_null : MapBuffer twoMap 2 ∧
    SortedMap (mapDescriptors (twoPages 0x7fa000000000) twoMap 2) ∧
    runPages (mapDescriptors (twoPages 0x7fa000000000) twoMap 2) < 2 ^ 32 ∧
    (∀ d ∈ mapDescriptors (twoPages 0x7fa000000000) twoMap 2, d.Taken →
      Apart twoMap.buffer twoMap.mapsize.toNat d.physicalStart 16) ∧
    ¬ ∃ fuel mem', initMem fuel ⟨⟨0, 0⟩, twoPages 0x7fa000000000⟩ twoMap = some mem' ∧
      ∃ L, InitialList mem' L := by
  have hmap : SortedMap [⟨7, 0x7fa000000000, 1⟩, ⟨0, 0x7fa000001000, 1⟩] :=
    sortedMap_pair (by decide) (by decide) (by decide) (by decide)
  have hspared : ∀ d ∈ [(⟨7, 0x7fa000000000, 1⟩ : EfiMemoryDescriptor), ⟨0, 0x7fa000001000, 1⟩],
      d.Taken → Apart twoMap.buffer twoMap.mapsize.toNat d.physicalStart 16 := by
    refine List.forall_mem_cons.mpr ⟨fun _ ↦ apart_of_le ?_ ?_ ?_, ?_⟩
    · decide
    · decide
    · decide
    · exact List.forall_mem_singleton.mpr fun h ↦ absurd h (by decide)
  have hinit : initMem 3 ⟨⟨0, 0⟩, twoPages 0x7fa000000000⟩ twoMap =
      some (initMemFrom ⟨⟨0, 0⟩, twoPages 0x7fa000000000⟩
        (mapDescriptors (twoPages 0x7fa000000000) twoMap 2)) := initMem_eq mapBuffer_twoMap ?_
  · rw [mapDescriptors_twoPages_end] at hinit ⊢
    refine ⟨mapBuffer_twoMap, hmap, by decide, hspared, ?_⟩
    rintro ⟨fuel, mem', hmem', L, hL⟩
    rw [initMem_unique hmem' hinit] at hL
    have hempty : freeBlocks [⟨7, 0x7fa000000000, 1⟩, ⟨0, 0x7fa000001000, 1⟩] = [] := by
      decide +kernel
    have hnil : L = [] := (hL.list.unique (initMemFrom_freeList rfl hmap)).trans hempty
    have hpages : (initMemFrom ⟨⟨0, 0⟩, twoPages 0x7fa000000000⟩
        [⟨7, 0x7fa000000000, 1⟩, ⟨0, 0x7fa000001000, 1⟩]).memlist.pages = 1 := rfl
    rw [hL.total, hnil] at hpages
    exact absurd hpages (by decide)
  · rw [mapDescriptors_twoPages_end]
    exact fun d hd htaken ↦ (hspared d hd htaken).add_left pageOffset

end VimOS
