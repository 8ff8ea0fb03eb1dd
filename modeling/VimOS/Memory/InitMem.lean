import VimOS.Memory.FreeList
import VimOS.Memory.Runs

/-!
# The free list `init_mem` builds

The loop of `init_mem` follows `gather`: a node is written for each closed run, at the start of the
run, and linked behind the node before. The list from `memlist.next` ends early only where a node
lies at the address 0.
-/

namespace VimOS

open LinkedChain RawMemory

variable {descs p run run' : List EfiMemoryDescriptor} {d : EfiMemoryDescriptor}
  {mem : RawMemory} {s : InitMem} {g : Gathered}

/-! ## Nodes of runs -/

/-- The address of the node of a run. -/
def runNode (run : List EfiMemoryDescriptor) : Addr := p2v (.ofNat 64 (runAddr run))

/-- The block the node heads. -/
def runBlock (run : List EfiMemoryDescriptor) : Block :=
  ⟨(runNode run).toNat, runPages run % 2 ^ 32⟩

/-- The nodes of the runs have no byte in common. -/
def NodesApart (run run' : List EfiMemoryDescriptor) : Prop :=
  ByteMemory.Apart (runNode run) 16 (runNode run') 16

instance : Std.Symm NodesApart := ⟨fun _ _ h ↦ h.symm⟩

/-- Nodes of runs that lie apart have no byte in common. -/
theorem RunsApart.nodesApart (h : RunsApart run run') (hstop : runStop run ≤ 2 ^ 64)
    (hstop' : runStop run' ≤ 2 ^ 64) (hpages : 0 < runPages run) (hpages' : 0 < runPages run') :
    NodesApart run run' := by
  rw [RunsApart, runStop, runStop] at h
  rw [runStop] at hstop hstop'
  refine (ByteMemory.apart_of_le ?_ ?_ ?_).add_left _
  · rw [BitVec.toNat_ofNat, Nat.mod_eq_of_lt (by omega)]
    omega
  · rw [BitVec.toNat_ofNat, Nat.mod_eq_of_lt (by omega)]
    omega
  · rw [BitVec.toNat_ofNat, BitVec.toNat_ofNat, Nat.mod_eq_of_lt (by omega),
      Nat.mod_eq_of_lt (by omega)]
    omega

theorem closed_nodes_apart (hmap : SortedMap descs) :
    (gather descs).closed.Pairwise NodesApart := by
  refine (closed_pairwise hmap).imp_of_mem fun {r r'} hr hr' hgap ↦ ?_
  have hrun := runOf_of_mem_closed hmap hr
  have hrun' := runOf_of_mem_closed hmap hr'
  exact RunsApart.nodesApart (.inl hgap) (hrun.stop_le_bound hmap) (hrun'.stop_le_bound hmap)
    (hrun.pages_pos hmap) (hrun'.pages_pos hmap)

/-! ## What `writeRun` writes -/

theorem nextAt_addPages (mem : RawMemory) (pages : BitVec 64) (q : Option Addr) :
    (mem.addPages pages).nextAt q = mem.nextAt q := by
  cases q <;> rfl

theorem pagesAt_addPages (mem : RawMemory) (pages : BitVec 64) (a : Addr) :
    (mem.addPages pages).pagesAt (some a) = mem.pagesAt (some a) := rfl

theorem nextAt_writeRun {q : Option Addr} (hq : Separate q (some (p2v s.start)))
    (hqc : Separate q s.curMemlist) : (writeRun s).mem.nextAt q =
      if q = s.curMemlist then (p2v s.start).toNat
      else if q = some (p2v s.start) then 0 else s.mem.nextAt q := by
  rw [writeRun, nextAt_setNext hqc, nextAt_addPages, nextAt_setPages hq, nextAt_setNext hq]
  rfl

theorem pagesAt_writeRun {a : Addr} (ha : Separate (some a) (some (p2v s.start)))
    (hac : Separate (some a) s.curMemlist) : (writeRun s).mem.pagesAt (some a) =
      if some a = some (p2v s.start) then s.pages.toNat % 2 ^ 32 else s.mem.pagesAt (some a) := by
  rw [writeRun, pagesAt_setNext hac, pagesAt_addPages, pagesAt_setPages ha, pagesAt_setNext ha,
    BitVec.toNat_setWidth]

theorem memlist_pages_writeRun (s : InitMem) :
    (writeRun s).mem.memlist.pages = (s.mem.memlist.pages + s.pages.toNat) % 2 ^ 32 := by
  rw [writeRun]
  cases s.curMemlist <;> rfl

/-! ## The loop follows `gather` -/

/-- The variables of the loop and the list in memory are those of what has been gathered. -/
structure Represents (s : InitMem) (g : Gathered) : Prop where
  idle : g.pending = [] → s.start = 0
  start : g.pending ≠ [] → s.start.toNat = runAddr g.pending
  pages : g.pending ≠ [] → s.pages.toNat = runPages g.pending
  cur : s.curMemlist = g.closed.getLast?.map runNode
  seg : Seg s.mem.nodes.next none (g.closed.map fun r ↦ (runNode r).toNat)
    (s.curMemlist.map BitVec.toNat)
  last : s.mem.nextAt s.curMemlist = 0
  nodes : ∀ r ∈ g.closed, s.mem.pagesAt (some (runNode r)) = runPages r % 2 ^ 32
  total : s.mem.memlist.pages = (g.closed.map runPages).sum % 2 ^ 32

theorem represents_begin (hmem : mem.memlist = ⟨0, 0⟩) : Represents (.begin mem) (gather []) where
  idle _ := rfl
  start h := absurd rfl h
  pages h := absurd rfl h
  cur := rfl
  seg := rfl
  last := congrArg MemList.next hmem
  nodes := List.forall_mem_nil _
  total := congrArg MemList.pages hmem

/-- A descriptor that is taken changes the variables only. -/
theorem Represents.of_vars {start : Addr} {pages : BitVec 64} {pending : List EfiMemoryDescriptor}
    (h : Represents s g) (hne : pending ≠ []) (hstart : start.toNat = runAddr pending)
    (hpages : pages.toNat = runPages pending) :
    Represents { s with start := start, pages := pages } { g with pending := pending } where
  idle hnil := absurd hnil hne
  start _ := hstart
  pages _ := hpages
  cur := h.cur
  seg := h.seg
  last := h.last
  nodes := h.nodes
  total := h.total

/-- The nodes of the closed runs lie apart from each other and from the place of the next node. -/
structure PlaceFree (s : InitMem) (g : Gathered) : Prop where
  cur_mem : ∀ c ∈ s.curMemlist, ∃ r ∈ g.closed, c = runNode r
  closed : g.closed.Pairwise NodesApart
  far : ∀ r ∈ g.closed, ByteMemory.Apart (runNode r) 16 (p2v s.start) 16

section Place

variable {r : List EfiMemoryDescriptor} (h : PlaceFree s g)

include h

theorem PlaceFree.ne (hr : r ∈ g.closed) : some (runNode r) ≠ some (p2v s.start) :=
  fun heq ↦ (h.far r hr).ne (by decide) (by decide) (Option.some.inj heq)

theorem PlaceFree.separate (hr : r ∈ g.closed) :
    Separate (some (runNode r)) (some (p2v s.start)) :=
  separate_some.mpr (.inr (h.far r hr))

/-- The node of a closed run is the last one, or has no byte in common with it. -/
theorem PlaceFree.separate_cur (hr : r ∈ g.closed) :
    Separate (some (runNode r)) s.curMemlist := by
  rintro a ha c hc
  obtain ⟨r', hr', rfl⟩ := h.cur_mem c hc
  rw [← Option.some.inj ha]
  by_cases heq : r = r'
  · exact .inl (congrArg runNode heq)
  · exact .inr (h.closed.forall hr hr' heq)

theorem PlaceFree.cur_separate : Separate (some (p2v s.start)) s.curMemlist := by
  intro a ha c hc
  obtain ⟨r, hr, rfl⟩ := h.cur_mem c hc
  rw [← Option.some.inj ha]
  exact .inr (h.far r hr).symm

theorem PlaceFree.ne_cur : some (p2v s.start) ≠ s.curMemlist := by
  intro heq
  obtain ⟨r, hr, hrr⟩ := h.cur_mem _ heq.symm
  exact h.ne hr (congrArg some hrr.symm)

theorem PlaceFree.nodup : (none :: (g.closed.map fun r ↦ (runNode r).toNat).map some).Nodup := by
  rw [List.nodup_cons]
  refine ⟨by simp, List.Nodup.map (Option.some_injective _) ?_⟩
  rw [List.Nodup, List.pairwise_map]
  exact h.closed.imp fun hab heq ↦ hab.ne (by decide) (by decide) (BitVec.eq_of_toNat_eq heq)

/-- The node written is the end of the walk, and the pointers in front of it are kept. -/
theorem PlaceFree.seg_writeRun (hseg : Seg s.mem.nodes.next none
      (g.closed.map fun r ↦ (runNode r).toNat) (s.curMemlist.map BitVec.toNat)) :
    Seg (writeRun s).mem.nodes.next none
      ((g.closed.map fun r ↦ (runNode r).toNat) ++ [(p2v s.start).toNat])
      (some (p2v s.start).toNat) := by
  have hnext : (writeRun s).mem.nodes.next (s.curMemlist.map BitVec.toNat) =
      (p2v s.start).toNat := by
    refine (nextAt_writeRun ?_ ?_).trans (if_pos rfl)
    · exact fun c hc a ha ↦ (h.cur_separate a ha c hc).imp Eq.symm ByteMemory.Apart.symm
    · exact fun c hc c' hc' ↦ .inl (Option.mem_unique hc hc')
  refine Seg.snoc (hseg.congr h.nodup fun q hq hqcur ↦ ?_) hnext
  rcases List.mem_cons.mp hq with rfl | hq
  · -- the header is not the last node, so its pointer stays
    refine (nextAt_writeRun separate_none.1 separate_none.1).trans ?_
    have hne : (none : Option Addr) ≠ s.curMemlist := fun heq ↦ hqcur (heq ▸ rfl)
    rw [if_neg hne, if_neg (by simp)]
    rfl
  · simp only [List.map_map, List.mem_map] at hq
    obtain ⟨r, hr, rfl⟩ := hq
    refine (nextAt_writeRun (h.separate hr) (h.separate_cur hr)).trans ?_
    have hne : some (runNode r) ≠ s.curMemlist := fun heq ↦ hqcur (heq ▸ rfl)
    rw [if_neg hne, if_neg (h.ne hr)]
    rfl

end Place

/-- The pending run is closed by writing its node. -/
theorem Represents.writeRun (h : Represents s g) (hne : g.pending ≠ [])
    (hpw : (g.closed ++ [g.pending]).Pairwise NodesApart) :
    Represents (writeRun s) ⟨g.closed ++ [g.pending], []⟩ := by
  have hml : p2v s.start = runNode g.pending := by
    rw [runNode, ← h.start hne, ofNat_toNat]
  obtain ⟨hclosed, -, hnew⟩ := List.pairwise_append.mp hpw
  have hplace : PlaceFree s g := by
    refine ⟨fun c hc ↦ ?_, hclosed, fun r hr ↦ hml ▸ hnew r hr _ (List.mem_singleton_self _)⟩
    rw [h.cur] at hc
    obtain ⟨r, hr, rfl⟩ := Option.mem_map.mp hc
    exact ⟨r, List.mem_of_getLast? hr, rfl⟩
  have hself : Separate (some (p2v s.start)) (some (p2v s.start)) := separate_some.mpr (.inl rfl)
  refine { idle := fun _ ↦ rfl, start := fun hnil ↦ absurd rfl hnil,
           pages := fun hnil ↦ absurd rfl hnil, cur := ?_, seg := ?_, last := ?_, nodes := ?_,
           total := ?_ }
  · rw [List.getLast?_append]
    exact congrArg some hml
  · have hseg := hplace.seg_writeRun h.seg
    rw [List.map_append, List.map_singleton, ← hml]
    exact hseg
  · show (VimOS.writeRun s).mem.nextAt (some (p2v s.start)) = 0
    rw [nextAt_writeRun hself hplace.cur_separate, if_neg hplace.ne_cur, if_pos rfl]
  · intro r hr
    rcases List.mem_append.mp hr with hr | hr
    · rw [pagesAt_writeRun (hplace.separate hr) (hplace.separate_cur hr), if_neg (hplace.ne hr),
        h.nodes r hr]
    · rw [List.mem_singleton.mp hr, ← hml, pagesAt_writeRun hself hplace.cur_separate, if_pos rfl,
        h.pages hne]
  · rw [memlist_pages_writeRun, h.total, h.pages hne, List.map_append, List.sum_append,
      List.map_singleton, List.sum_singleton, Nat.mod_add_mod]

/-! ### The body of the loop -/

theorem initMemBody_of_not_taken (hd : ¬ d.Taken) :
    initMemBody s d = if s.start ≠ 0 then writeRun s else s := if_neg hd

theorem initMemBody_of_idle (hd : d.Taken) (hs : s.start = 0) : initMemBody s d =
    if d.physicalStart + d.numberOfPage * 4096 = d.physicalStart then
      { s with start := d.physicalStart, pages := d.numberOfPage + d.numberOfPage }
    else { s with start := d.physicalStart, pages := d.numberOfPage } := by
  refine (if_pos hd).trans ?_
  rw [if_pos hs]

theorem initMemBody_of_pending (hd : d.Taken) (hs : s.start ≠ 0) : initMemBody s d =
    if s.start + s.pages * 4096 = d.physicalStart then
      { s with pages := s.pages + d.numberOfPage } else s := by
  refine (if_pos hd).trans ?_
  rw [if_neg hs]

theorem initMemBody_begin (hd : d.Taken) (hs : s.start = 0) (hpages : 0 < d.numberOfPage.toNat)
    (hlt : d.numberOfPage.toNat < 2 ^ 52) : initMemBody s d =
      { s with start := d.physicalStart, pages := d.numberOfPage } := by
  have hne : d.physicalStart + d.numberOfPage * 4096 ≠ d.physicalStart := by
    bv_omega
  rw [initMemBody_of_idle hd hs, if_neg hne]

/-- A descriptor at address 0 leaves `start` at 0, which stands for no pending run. -/
theorem initMemBody_zero (hd : d.Taken) (hs : s.start = 0) (ha : d.addr = 0) :
    ∃ pages, initMemBody s d = { s with pages := pages } := by
  have hzero : d.physicalStart = 0 := BitVec.eq_of_toNat_eq (y := 0) ha
  have hstart : d.physicalStart = s.start := hzero.trans hs.symm
  rw [initMemBody_of_idle hd hs, hstart]
  split_ifs
  · exact ⟨_, rfl⟩
  · exact ⟨_, rfl⟩

/-- The test of the code is the test of `gatherStep`. -/
theorem touches_iff {start : Addr} {pages : BitVec 64} (hstart : start.toNat = runAddr run)
    (hpages : pages.toNat = runPages run) (hstop : runStop run < 2 ^ 64) :
    start + pages * 4096 = d.physicalStart ↔ runStop run = d.addr := by
  rw [← BitVec.toNat_inj, BitVec.toNat_add, BitVec.toNat_mul, hstart, hpages]
  rw [runStop] at hstop ⊢
  have hconst : (4096 : BitVec 64).toNat = 4096 := rfl
  rw [hconst, Nat.mul_comm, Nat.add_mod_mod, Nat.mod_eq_of_lt hstop, EfiMemoryDescriptor.addr]

/-- One descriptor. -/
theorem Represents.step (hmap : SortedMap (p ++ [d])) (h : Represents s (gather p)) :
    Represents (initMemBody s d) (gather (p ++ [d])) := by
  have hclosed := closed_nodes_apart hmap
  have hpages : 0 < d.numberOfPage.toNat := hmap.nonempty d (by simp)
  have hbound : d.stop ≤ 2 ^ 64 := hmap.bounded d (by simp)
  rw [gather_snoc] at hclosed ⊢
  rcases pending_gather hmap.left with ⟨hnil, -⟩ | hpending
  · have hs := h.idle hnil
    by_cases hd : d.Taken
    · by_cases ha : d.addr = 0
      · obtain ⟨pages, hbody⟩ := initMemBody_zero hd hs ha
        rw [gatherStep_zero hd hnil ha, hbody]
        exact ⟨h.idle, h.start, fun hne ↦ absurd hnil hne, h.cur, h.seg, h.last, h.nodes, h.total⟩
      · rw [EfiMemoryDescriptor.stop] at hbound
        rw [gatherStep_begin hd hnil ha, initMemBody_begin hd hs hpages (by omega)]
        refine h.of_vars (by simp) ?_ ?_
        · rfl
        · exact runPages_singleton.symm
    · rw [gatherStep_skip hd hnil, initMemBody_of_not_taken hd, if_neg (not_not_intro hs)]
      exact h
  · have hne := hpending.ne_nil
    have hs : s.start ≠ 0 := by
      intro hzero
      have hstart := h.start hne
      obtain ⟨_, _, _, _, haddr, _⟩ := hpending
      rw [hzero] at hstart
      exact haddr hstart.symm
    have hlt : runStop (gather p).pending < 2 ^ 64 :=
      Nat.lt_of_le_of_lt (hpending.stop_le hmap) d.physicalStart.isLt
    have htouch := touches_iff (d := d) (h.start hne) (h.pages hne) hlt
    by_cases hd : d.Taken
    · by_cases ha : runStop (gather p).pending = d.addr
      · rw [gatherStep_join hd hne ha, initMemBody_of_pending hd hs, if_pos (htouch.mpr ha)]
        refine h.of_vars (by simp) ?_ ?_
        · rw [runAddr_append hne, h.start hne]
        · rw [BitVec.toNat_add, h.pages hne, runPages_append, runPages_singleton,
            Nat.mod_eq_of_lt]
          rw [EfiMemoryDescriptor.stop, ← ha, runStop] at hbound
          omega
      · rw [gatherStep_drop hd hne ha, initMemBody_of_pending hd hs,
          if_neg fun heq ↦ ha (htouch.mp heq)]
        exact h
    · rw [gatherStep_close hd hne] at hclosed ⊢
      rw [initMemBody_of_not_taken hd, if_pos hs]
      exact h.writeRun hne hclosed

theorem represents_foldl (hmem : mem.memlist = ⟨0, 0⟩) (hmap : SortedMap descs) :
    Represents (descs.foldl initMemBody (.begin mem)) (gather descs) := by
  induction descs using List.reverseRecOn with
  | nil => exact represents_begin hmem
  | append_singleton p d ih =>
    rw [List.foldl_append]
    exact (ih hmap.left).step hmap

/-! ## The list -/

/-- The blocks of the closed runs, up to a node at `NULL`. -/
def freeBlocks (descs : List EfiMemoryDescriptor) : List Block :=
  ((gather descs).closed.map runBlock).takeWhile fun b ↦ b.addr ≠ 0

/-- `init_mem` builds a free list. -/
theorem initMemFrom_freeList (hmem : mem.memlist = ⟨0, 0⟩) (hmap : SortedMap descs) :
    FreeList (initMemFrom mem descs).nodes (freeBlocks descs) := by
  have h := represents_foldl hmem hmap
  constructor
  · have hchain := h.seg.tail_takeWhile h.last
    have hmap : (freeBlocks descs).map Block.addr =
        ((gather descs).closed.map fun r ↦ (runNode r).toNat).takeWhile (· ≠ 0) := by
      rw [freeBlocks, List.takeWhile_map, List.takeWhile_map, List.map_map]
      rfl
    rw [hmap]
    exact hchain
  · intro b hb
    have hmem := (List.takeWhile_prefix _).subset hb
    obtain ⟨r, hr, rfl⟩ := List.mem_map.mp hmem
    exact h.nodes r hr

/-! ## What is free -/

/-- From this physical address on `P2V` wraps: the address itself is translated to `NULL`. -/
def directEnd : ℕ := 2 ^ 64 - pageOffset.toNat

/-- The physical addresses of a block's pages. -/
def Block.phys (b : Block) : Set ℕ :=
  Set.Ico ((b.addr + directEnd) % 2 ^ 64) ((b.addr + directEnd) % 2 ^ 64 + 4096 * b.pages)

/-- The list comes as far as the run: no run up to it has its node at the address 0. -/
def Reached (descs run : List EfiMemoryDescriptor) : Prop :=
  ∀ run', RunOf descs run' → runAddr run' = directEnd → runAddr run < directEnd

/-- The physical address `a` lies in a run of the map that the list comes to, within its pages as
far as 32 bits count them. -/
def Gathers (descs : List EfiMemoryDescriptor) (a : ℕ) : Prop :=
  ∃ run, RunOf descs run ∧ Reached descs run ∧ runAddr run ≤ a ∧
    a < runAddr run + 4096 * (runPages run % 2 ^ 32)

theorem toNat_runNode (run : List EfiMemoryDescriptor) :
    (runNode run).toNat = (pageOffset.toNat + runAddr run) % 2 ^ 64 := by
  rw [runNode, p2v, BitVec.toNat_add, BitVec.toNat_ofNat, Nat.add_mod_mod]

theorem RunOf.addr_lt (h : RunOf descs run) (hmap : SortedMap descs) : runAddr run < 2 ^ 64 := by
  have hstop := h.stop_le_bound hmap
  have hpages := h.pages_pos hmap
  rw [runStop] at hstop
  omega

theorem toNat_runNode_eq_zero (h : RunOf descs run) (hmap : SortedMap descs) :
    (runNode run).toNat = 0 ↔ runAddr run = directEnd := by
  have hlt := h.addr_lt hmap
  have hoffset : pageOffset.toNat = 0xffff806000000000 := rfl
  rw [toNat_runNode, directEnd, hoffset]
  omega

/-- The pages of a run's block are those of the run, as far as 32 bits count them. -/
theorem phys_runBlock (h : RunOf descs run) (hmap : SortedMap descs) : (runBlock run).phys =
    Set.Ico (runAddr run) (runAddr run + 4096 * (runPages run % 2 ^ 32)) := by
  have hlt := h.addr_lt hmap
  have hoffset : pageOffset.toNat = 0xffff806000000000 := rfl
  have haddr : ((runNode run).toNat + directEnd) % 2 ^ 64 = runAddr run := by
    rw [toNat_runNode, directEnd, hoffset]
    omega
  rw [Block.phys, runBlock, haddr]

theorem mem_takeWhile_of_sorted {α : Type*} {f : α → ℕ} {q : α → Bool} {l : List α} {x : α}
    (h : l.Pairwise fun a b ↦ f a < f b) :
    x ∈ l.takeWhile q ↔ x ∈ l ∧ ∀ y ∈ l, q y = false → f x < f y := by
  induction l with
  | nil => simp
  | cons a l ih =>
    obtain ⟨ha, hl⟩ := List.pairwise_cons.mp h
    cases hq : q a with
    | true =>
      rw [List.takeWhile_cons_of_pos hq, List.mem_cons, List.mem_cons, ih hl]
      constructor
      · rintro (rfl | ⟨hx, hall⟩)
        · refine ⟨.inl rfl, List.forall_mem_cons.mpr ⟨fun hf ↦ ?_, fun y hy _ ↦ ha y hy⟩⟩
          exact absurd (hq.symm.trans hf) (by decide)
        · refine ⟨.inr hx, List.forall_mem_cons.mpr ⟨fun hf ↦ ?_, hall⟩⟩
          exact absurd (hq.symm.trans hf) (by decide)
      · rintro ⟨rfl | hx, hall⟩
        · exact .inl rfl
        · exact .inr ⟨hx, fun y hy ↦ hall y (List.mem_cons_of_mem _ hy)⟩
    | false =>
      rw [List.takeWhile_cons_of_neg (by simp [hq])]
      refine ⟨fun hx ↦ absurd hx List.not_mem_nil, fun ⟨hx, hall⟩ ↦ ?_⟩
      have hlt := hall a List.mem_cons_self hq
      rcases List.mem_cons.mp hx with rfl | hx
      · exact absurd hlt (lt_irrefl _)
      · exact absurd (ha x hx) (Nat.lt_asymm hlt)

theorem mem_freeBlocks (hmap : SortedMap descs) {b : Block} :
    b ∈ freeBlocks descs ↔ ∃ run, RunOf descs run ∧ Reached descs run ∧ b = runBlock run := by
  have hsorted : (gather descs).closed.Pairwise fun r r' ↦ runAddr r < runAddr r' := by
    refine (closed_pairwise hmap).imp fun hgap ↦ ?_
    rw [runStop] at hgap
    omega
  rw [freeBlocks, List.takeWhile_map, List.mem_map]
  constructor
  · rintro ⟨run, hrun, rfl⟩
    rw [mem_takeWhile_of_sorted hsorted] at hrun
    refine ⟨run, runOf_of_mem_closed hmap hrun.1, fun run' hrun' hend ↦ ?_, rfl⟩
    rw [← hend]
    exact hrun.2 run' (hrun'.mem_closed hmap)
      (decide_eq_false fun hne ↦ hne ((toNat_runNode_eq_zero hrun' hmap).mpr hend))
  · rintro ⟨run, hrun, hreached, rfl⟩
    refine ⟨run, (mem_takeWhile_of_sorted hsorted).mpr ⟨hrun.mem_closed hmap, ?_⟩, rfl⟩
    intro run' hclosed hzero
    have hrun' := runOf_of_mem_closed hmap hclosed
    have hend : runAddr run' = directEnd :=
      (toNat_runNode_eq_zero hrun' hmap).mp (not_not.mp (of_decide_eq_false hzero))
    rw [hend]
    exact hreached run' hrun' hend

/-- What lies in the free list is what is gathered. -/
theorem exists_freeBlocks_iff (hmap : SortedMap descs) (a : ℕ) :
    (∃ b ∈ freeBlocks descs, a ∈ b.phys) ↔ Gathers descs a := by
  constructor
  · rintro ⟨b, hb, ha⟩
    obtain ⟨run, hrun, hreached, rfl⟩ := (mem_freeBlocks hmap).mp hb
    rw [phys_runBlock hrun hmap, Set.mem_Ico] at ha
    exact ⟨run, hrun, hreached, ha.1, ha.2⟩
  · rintro ⟨run, hrun, hreached, ha⟩
    refine ⟨runBlock run, (mem_freeBlocks hmap).mpr ⟨run, hrun, hreached, rfl⟩, ?_⟩
    rwa [phys_runBlock hrun hmap]

theorem free_iff (hmem : mem.memlist = ⟨0, 0⟩) (hmap : SortedMap descs) {L : List Block}
    (hL : FreeList (initMemFrom mem descs).nodes L) (a : ℕ) :
    (∃ b ∈ L, a ∈ b.phys) ↔ Gathers descs a := by
  rw [hL.unique (initMemFrom_freeList hmem hmap)]
  exact exists_freeBlocks_iff hmap a

/-- The blocks of `L` hold what is gathered of the map. -/
def HoldsGathered (descs : List EfiMemoryDescriptor) (L : List Block) : Prop :=
  ∀ a, (∃ b ∈ L, a ∈ b.phys) ↔ Gathers descs a

/-- What is true of a list that holds what is gathered is true of the free list. -/
theorem exists_freeList_iff {P : List Block → Prop} {Q : Prop} (hmem : mem.memlist = ⟨0, 0⟩)
    (hmap : SortedMap descs) (h : ∀ L, HoldsGathered descs L → (P L ↔ Q)) :
    (∃ L, FreeList (initMemFrom mem descs).nodes L ∧ P L) ↔ Q := by
  constructor
  · rintro ⟨L, hL, hP⟩
    exact (h L (free_iff hmem hmap hL)).mp hP
  · intro hQ
    exact ⟨_, initMemFrom_freeList hmem hmap, (h _ (exists_freeBlocks_iff hmap)).mpr hQ⟩

end VimOS
