import VimOS.Memory.FreePages

/-!
# The scratchpad array

`init_xhci` reads from HCSPARAMS2 how many scratchpad pages the controller wants, allocates an array
for their addresses and then the pages, and gives the array's address to the controller as entry 0
of the device contexts. The number of pages of the array is rounded up from its bytes, so that for
no scratchpad pages the request is for 0 pages. `alloc_mem(0)` returns the first block of the free
list and leaves it there: the controller is given memory that the next call hands out again.

The driver's stores to the pages it holds may leave there whatever they like (`junk`), since the
nodes of the free list are elsewhere.
-/

namespace VimOS

open Block

/-! ## The code -/

/-- The number of scratchpad pages, from its two parts in HCSPARAMS2. -/
def scratchpads (params2 : BitVec 32) : ℕ :=
  ((params2 >>> 27 &&& 0x1f#32) ||| (params2 >>> 21 &&& 0x1f#32) <<< 5).toNat

/-- `alloc_mem`, `none` being a panic of the caller. -/
def allocPages (fuel : ℕ) (mem : Memory) (pages : ℕ) : Option (Memory × ℕ) :=
  match allocMem fuel mem pages with
  | .ok (mem, ptr) => if ptr = 0 then none else some (mem, ptr)
  | .error _ => none

/-- The loop over the scratchpad pages, from the `i`-th on, with what it stores in the array. -/
def scratchpadPages (junk : ℕ → ℕ → MemList) (fuel : ℕ) (pagesize : BitVec 32) (array : Block) :
    ℕ → ℕ → Memory → Option (Memory × List Addr)
  | 0, _, mem => some (mem, [])
  | count + 1, i, mem =>
    if pagesize = 0x01 then do
      let (mem, buf) ← allocPages fuel mem 1
      let mem := mem.clobber array (junk i)
      let (mem, listed) ← scratchpadPages junk fuel pagesize array count (i + 1) mem
      some (mem, v2p (BitVec.ofNat 64 buf) :: listed)
    else none

/-- The free list afterwards, `device_contexts[0]` and the contents of the array. -/
structure Scratchpads where
  mem : Memory
  entry : Addr
  listed : List Addr

/-- The part of `init_xhci` that allocates the device contexts and the scratchpad. The number of
scratchpad pages is below 1024, so nothing wraps. -/
def initScratchpads (junk : ℕ → ℕ → MemList) (fuel : ℕ) (params2 pagesize : BitVec 32)
    (mem : Memory) : Option Scratchpads := do
  let (mem, contexts) ← allocPages fuel mem 1
  let mem := mem.clobber ⟨contexts, 1⟩ (junk 0)
  let count := scratchpads params2
  let arrayPages := (count * 8 + 4095) / 4096
  let (mem, array) ← allocPages fuel mem arrayPages
  let (mem, listed) ← scratchpadPages junk fuel pagesize ⟨array, arrayPages⟩ count 1 mem
  let mem := mem.clobber ⟨contexts, 1⟩ (junk (count + 1))
  some ⟨mem, v2p (BitVec.ofNat 64 array), listed⟩

/-! ## The free list -/

section Pool

variable {mem mem' : Memory} {L : List Block} {fuel p ptr : ℕ} {x b : Block}

theorem allocPages_eq_some : allocPages fuel mem p = some (mem', ptr) ↔
    allocMem fuel mem p = .ok (mem', ptr) ∧ ptr ≠ 0 := by
  rw [allocPages]
  split
  · rename_i mem₁ ptr₁ h
    rw [h, Except.ok.injEq]
    split_ifs with hzero
    · simp only [false_iff, not_and, not_not, Prod.mk.injEq]
      rintro ⟨rfl, rfl⟩
      exact hzero
    · simp only [Option.some.injEq, Prod.mk.injEq, iff_self_and]
      rintro ⟨rfl, rfl⟩
      exact hzero
  · rename_i h
    rw [h]
    simp

/-- A call that returns a pointer takes the pages from the first block that has as many. -/
theorem Pool.alloc (h : Pool mem L) (hp : 0 < p) (hlt : p < 2 ^ 20)
    (hrun : allocPages fuel mem p = some (mem', ptr)) :
    ∃ A b B, L = A ++ b :: B ∧ (∀ a ∈ A, a.pages < p) ∧ p ≤ b.pages ∧ ptr = b.addr ∧
      Pool mem' (A ++ remainder p b ++ B) := by
  obtain ⟨hrun, hptr⟩ := allocPages_eq_some.mp hrun
  obtain ⟨mem₁, hrun₁, hlist⟩ := allocMem_spec_of_lt hp hlt h.freeList h.valid
    (h.sorted.imp .inl) (Nat.lt_succ_self _)
  obtain ⟨rfl, hptr'⟩ := Prod.mk.injEq .. ▸ allocMem_unique hrun hrun₁
  rcases firstFit_cases p L with hall | ⟨A, b, B, rfl, hA, hb⟩
  · rw [takeFirst_small hall] at hptr'
    exact absurd hptr' hptr
  · rw [takeFirst_fit hA hb] at hptr' hlist
    exact ⟨A, b, B, rfl, hA, hb, hptr', h.split hb hlist⟩

/-- The pages that a call hands out leave the list. -/
theorem Pool.take (h : Pool mem L) (hp : 0 < p) (hlt : p < 2 ^ 20)
    (hrun : allocPages fuel mem p = some (mem', ptr)) :
    ∃ L', Pool mem' L' ∧ pageOffset.toNat ≤ ptr ∧ (⟨ptr, p⟩ : Block).stop < 2 ^ 64 ∧
      (⟨ptr, p⟩ : Block).bytes ⊆ cover L ∧ cover L' = cover L \ (⟨ptr, p⟩ : Block).bytes := by
  obtain ⟨A, b, B, rfl, -, hle, rfl, hpool⟩ := h.alloc hp hlt hrun
  obtain ⟨hunion, hdiff⟩ := cover_split hle h.sorted
  have hstop := (h.valid b (by simp)).stop_lt
  refine ⟨_, hpool, h.direct b (by simp), ?_, ?_, hdiff⟩
  · simp only [stop] at hstop ⊢
    omega
  · rw [hunion]
    exact Set.subset_union_left

/-- After a call for one page nothing is free up to this page. -/
theorem Pool.lt_of_take_one (h : Pool mem L) {L' : List Block}
    (hrun : allocPages fuel mem 1 = some (mem', ptr)) (hL' : Pool mem' L') (hb : b ∈ L') :
    pageOffset.toNat < b.addr := by
  obtain ⟨A, c, B, rfl, hA, hle, rfl, hpool⟩ := h.alloc Nat.one_pos (by decide) hrun
  rw [hL'.freeList.unique hpool.freeList, List.append_assoc, List.mem_append, List.mem_append] at hb
  have hdirect := h.direct c (by simp)
  have hpos := (h.valid c (by simp)).pages_pos
  have hsorted := h.sorted
  rw [Sorted, List.pairwise_append, List.pairwise_cons] at hsorted
  rcases hb with hb | hb | hb
  · have hsmall := hA b hb
    have hpages := (h.valid b (List.mem_append_left _ hb)).pages_pos
    omega
  · rw [(remainder_bounds hle hb).1]
    omega
  · have hbehind := hsorted.2.1.1 b hb
    rw [stop] at hbehind
    omega

theorem Pool.bounds (h : Pool mem L) {q : ℕ} (hq : q ∈ cover L) :
    pageOffset.toNat ≤ q ∧ q < 2 ^ 64 := by
  obtain ⟨b, hb, hle, hlt⟩ := mem_cover.mp hq
  exact ⟨(h.direct b hb).trans hle, hlt.trans (h.valid b hb).stop_lt⟩

/-- Stores that change no field that is read later. -/
theorem Pool.congr (h : Pool mem L) (hnext : ∀ q, mem'.next q = mem.next q)
    (hpages : ∀ q, (mem'.node q).pages = (mem.node q).pages) : Pool mem' L := by
  refine ⟨⟨?_, fun b hb ↦ (hpages _).trans (h.freeList.pages b hb)⟩, h.sorted, h.valid, h.direct⟩
  rw [hnext none]
  exact h.freeList.chain.congr fun a _ ↦ hnext (some a)

/-- **A request for no pages** returns the first block, which stays in the list. -/
theorem Pool.alloc_zero (h : Pool mem L) (hrun : allocPages fuel mem 0 = some (mem', ptr)) :
    Pool mem' L ∧ ∃ b ∈ L, ptr = b.addr := by
  obtain ⟨hrun, hptr⟩ := allocPages_eq_some.mp hrun
  obtain ⟨fuel, rfl⟩ : ∃ fuel', fuel = fuel' + 1 := by
    cases fuel with
    | zero => cases hrun
    | succ fuel => exact ⟨fuel, rfl⟩
  rw [allocMem, allocLoop] at hrun
  cases L with
  | nil =>
    have hnull : mem.next none = 0 := h.freeList.chain
    rw [if_pos hnull, Except.ok.injEq, Prod.mk.injEq] at hrun
    exact absurd hrun.2.symm hptr
  | cons b L =>
    obtain ⟨hhead, -, -⟩ := h.freeList.chain
    have hb := h.valid b List.mem_cons_self
    have hpos := hb.pages_pos
    have hsize := h.freeList.pages b List.mem_cons_self
    have hend : blockEnd b.addr 0 = b.addr := by
      have hstop := hb.stop_lt
      rw [stop] at hstop
      rw [blockEnd_eq (by decide) (by omega)]
      rfl
    -- the new node is the old one, and its fields are assigned what they hold
    rw [hhead] at hrun
    simp only [hsize, hend] at hrun
    rw [if_neg hb.addr_pos.ne', if_neg hpos.ne', if_pos (Nat.zero_le _), Except.ok.injEq,
      Prod.mk.injEq] at hrun
    obtain ⟨rfl, rfl⟩ := hrun
    refine ⟨h.congr (fun q ↦ ?_) (fun q ↦ ?_), b, List.mem_cons_self, rfl⟩
    · simp only [Memory.next_setPages, Memory.next_setNext, reduceCtorEq, if_false]
      split_ifs with hself hnone
      · rw [hself]
      · rw [hnone, hhead]
      · rfl
    · simp only [Memory.pages_setPages, Memory.pages_setNext, Nat.sub_zero]
      split_ifs with hself
      · rw [hself]
      · rfl

end Pool

/-! ## The scratchpad pages -/

/-- Pages of the direct mapping have different physical addresses. -/
theorem v2p_inj {a b : ℕ} (ha : pageOffset.toNat ≤ a) (hb : pageOffset.toNat ≤ b) (ha' : a < 2 ^ 64)
    (hb' : b < 2 ^ 64) (h : v2p (BitVec.ofNat 64 a) = v2p (BitVec.ofNat 64 b)) : a = b := by
  have htoNat : ∀ c : ℕ, pageOffset.toNat ≤ c → c < 2 ^ 64 →
      (v2p (BitVec.ofNat 64 c)).toNat = c - 0xffff806000000000 := by
    intro c hc hc'
    have hmod : (BitVec.ofNat 64 c).toNat = c := Nat.mod_eq_of_lt hc'
    rw [toNat_v2p_direct (BitVec.le_def.mpr (by rw [hmod]; exact hc)), hmod]
  have heq := congrArg BitVec.toNat h
  have hoffset : pageOffset.toNat = 0xffff806000000000 := rfl
  rw [htoNat a ha ha', htoNat b hb hb'] at heq
  omega

/-- The physical address of pages that were free and are not in the list any more. -/
def Removed (L L' : List Block) (p : Addr) (pages : ℕ) : Prop :=
  ∃ a : ℕ, p = v2p (BitVec.ofNat 64 a) ∧ (⟨a, pages⟩ : Block).bytes ⊆ cover L ∧
    Disjoint (⟨a, pages⟩ : Block).bytes (cover L')

/-- The loop hands out different pages, none of which remains free. -/
theorem scratchpadPages_spec {junk : ℕ → ℕ → MemList} {fuel count i : ℕ} {pagesize : BitVec 32}
    {array : Block} {mem mem' : Memory} {L : List Block} {listed : List Addr} (h : Pool mem L)
    (harray : 0 < array.pages) (hfree : Disjoint array.bytes (cover L))
    (hrun : scratchpadPages junk fuel pagesize array count i mem = some (mem', listed)) :
    ∃ L', Pool mem' L' ∧ cover L' ⊆ cover L ∧ listed.length = count ∧ listed.Nodup ∧
      ∀ p ∈ listed, Removed L L' p 1 := by
  induction count generalizing i mem L listed with
  | zero =>
    obtain ⟨rfl, rfl⟩ := Prod.mk.injEq .. ▸ Option.some.inj hrun
    exact ⟨L, h, subset_rfl, rfl, List.nodup_nil, List.forall_mem_nil _⟩
  | succ count ih =>
    rw [scratchpadPages] at hrun
    split_ifs at hrun
    obtain ⟨⟨mem₁, buf⟩, halloc, hrun⟩ := Option.bind_eq_some_iff.mp hrun
    obtain ⟨⟨mem₂, rest⟩, hrest, hrun⟩ := Option.bind_eq_some_iff.mp hrun
    obtain ⟨rfl, rfl⟩ := Prod.mk.injEq .. ▸ Option.some.inj hrun
    obtain ⟨L₁, hpool, hdirect, hstop, hsub, hdiff⟩ := h.take Nat.one_pos (by decide) halloc
    have hle : cover L₁ ⊆ cover L := by
      rw [hdiff]
      exact Set.sdiff_subset
    obtain ⟨L', hpool', hle', hlen, hnodup, hremoved⟩ :=
      ih (hpool.clobber (junk i) harray (hfree.mono_right hle)) (hfree.mono_right hle) hrest
    have hbuf : buf ∈ (⟨buf, 1⟩ : Block).bytes := ⟨le_rfl, by simp [stop]⟩
    have hgone : Disjoint (⟨buf, 1⟩ : Block).bytes (cover L₁) := by
      rw [hdiff]
      exact Set.disjoint_sdiff_right
    refine ⟨L', hpool', hle'.trans hle, ?_, List.nodup_cons.mpr ⟨fun hmem ↦ ?_, hnodup⟩, ?_⟩
    · rw [List.length_cons, hlen]
    · obtain ⟨a, ha, hasub, -⟩ := hremoved _ hmem
      have hin : a ∈ (⟨a, 1⟩ : Block).bytes := ⟨le_rfl, by simp [stop]⟩
      obtain ⟨hge, hlt⟩ := hpool.bounds (hasub hin)
      have hlt' : buf < 2 ^ 64 := hbuf.2.trans hstop
      obtain rfl := v2p_inj hdirect hge hlt' hlt ha
      exact Set.disjoint_left.mp hgone hbuf (hasub hin)
    · refine List.forall_mem_cons.mpr ⟨⟨buf, rfl, hsub, hgone.mono_right hle'⟩, fun p hp ↦ ?_⟩
      obtain ⟨a, ha, hasub, hagone⟩ := hremoved p hp
      exact ⟨a, ha, hasub.trans hle, hagone⟩

/-- What the controller is to be given: no array, or one that the driver holds and that is large
enough, with different pages that the driver holds. `L` is the free list before, `L'` the one
afterwards. -/
structure ScratchpadHeld (L L' : List Block) (count : ℕ) (r : Scratchpads) : Prop where
  entry : r.entry = 0 ∨ ∃ pages, 0 < pages ∧ 8 * count ≤ 4096 * pages ∧ Removed L L' r.entry pages
  length : r.listed.length = count
  nodup : r.listed.Nodup
  pages : ∀ p ∈ r.listed, Removed L L' p 1

theorem scratchpads_lt (params2 : BitVec 32) : scratchpads params2 < 1024 := by
  have hmask : ∀ v : BitVec 32, (v &&& 0x1f#32).toNat ≤ 31 := by
    intro v
    rw [BitVec.toNat_and]
    exact Nat.and_le_right
  have hlo := hmask (params2 >>> 27)
  have hhi := hmask (params2 >>> 21)
  have hshift : ((params2 >>> 21 &&& 0x1f#32) <<< 5).toNat =
      (params2 >>> 21 &&& 0x1f#32).toNat * 32 := by
    rw [BitVec.toNat_shiftLeft, Nat.shiftLeft_eq]
    exact Nat.mod_eq_of_lt (by omega)
  rw [scratchpads, BitVec.toNat_or, hshift]
  exact Nat.or_lt_two_pow (n := 10) (by omega) (by omega)

section Init

variable {mem : Memory} {L : List Block} {junk : ℕ → ℕ → MemList} {fuel : ℕ}
  {params2 pagesize : BitVec 32} {r : Scratchpads}

/-- The steps of a call that ends without a panic. -/
theorem initScratchpads_eq_some (hrun : initScratchpads junk fuel params2 pagesize mem = some r) :
    ∃ mem₁ mem₂ mem₃ contexts array, allocPages fuel mem 1 = some (mem₁, contexts) ∧
      allocPages fuel (mem₁.clobber ⟨contexts, 1⟩ (junk 0))
        ((scratchpads params2 * 8 + 4095) / 4096) =
        some (mem₂, array) ∧
      scratchpadPages junk fuel pagesize ⟨array, (scratchpads params2 * 8 + 4095) / 4096⟩
        (scratchpads params2) 1 mem₂ = some (mem₃, r.listed) ∧
      r.mem = mem₃.clobber ⟨contexts, 1⟩ (junk (scratchpads params2 + 1)) ∧
      r.entry = v2p (BitVec.ofNat 64 array) := by
  obtain ⟨⟨mem₁, contexts⟩, hcontexts, hrun⟩ := Option.bind_eq_some_iff.mp hrun
  obtain ⟨⟨mem₂, array⟩, harray, hrun⟩ := Option.bind_eq_some_iff.mp hrun
  obtain ⟨⟨mem₃, listed⟩, hlisted, hrun⟩ := Option.bind_eq_some_iff.mp hrun
  obtain rfl := Option.some.inj hrun
  exact ⟨mem₁, mem₂, mem₃, contexts, array, hcontexts, harray, hlisted, rfl, rfl⟩

/-- Without scratchpad pages, the first free block is given away. -/
theorem not_scratchpadHeld (h : Pool mem L) (hn : scratchpads params2 = 0)
    (hrun : initScratchpads junk fuel params2 pagesize mem = some r) :
    ∃ L', FreeList r.mem L' ∧ ¬ ScratchpadHeld L L' 0 r := by
  obtain ⟨mem₁, mem₂, mem₃, contexts, array, hcontexts, harray, hlisted, hmem, hentry⟩ :=
    initScratchpads_eq_some hrun
  rw [hn] at harray hlisted hmem
  obtain ⟨L₁, hpool₁, -, -, -, hdiff₁⟩ := h.take Nat.one_pos (by decide) hcontexts
  have hcontexts₁ : Disjoint (⟨contexts, 1⟩ : Block).bytes (cover L₁) := by
    rw [hdiff₁]
    exact Set.disjoint_sdiff_right
  obtain ⟨hpool₂, b, hb, rfl⟩ := (hpool₁.clobber (junk 0) Nat.one_pos hcontexts₁).alloc_zero harray
  obtain ⟨rfl, -⟩ := Prod.mk.injEq .. ▸ Option.some.inj hlisted
  refine ⟨L₁, ?_, fun hheld ↦ ?_⟩
  · rw [hmem]
    exact (hpool₂.clobber (junk 1) Nat.one_pos hcontexts₁).freeList
  have hpos := (hpool₁.valid b hb).pages_pos
  have hin : b.addr ∈ cover L₁ := mem_cover.mpr ⟨b, hb, le_rfl, by
    rw [stop]
    omega⟩
  obtain ⟨hge, hlt⟩ := hpool₁.bounds hin
  rcases hheld.entry with hnull | ⟨pages, hpages, -, a, ha, hasub, hagone⟩
  · have hlt' := h.lt_of_take_one hcontexts hpool₁ hb
    have hoffset : v2p (BitVec.ofNat 64 pageOffset.toNat) = 0 := by decide
    rw [hentry, ← hoffset] at hnull
    exact hlt'.ne' (v2p_inj hge le_rfl hlt (by decide) hnull)
  · have hain : a ∈ (⟨a, pages⟩ : Block).bytes := ⟨le_rfl, by
      simp only [stop]
      omega⟩
    obtain ⟨hage, halt⟩ := h.bounds (hasub hain)
    obtain rfl := v2p_inj hage hge halt hlt (ha.symm.trans hentry)
    exact Set.disjoint_left.mp hagone hain hin

theorem scratchpadHeld_of_ne (h : Pool mem L) (hn : scratchpads params2 ≠ 0)
    (hrun : initScratchpads junk fuel params2 pagesize mem = some r) :
    ∃ L', FreeList r.mem L' ∧ ScratchpadHeld L L' (scratchpads params2) r := by
  obtain ⟨mem₁, mem₂, mem₃, contexts, array, hcontexts, harray, hlisted, hmem, hentry⟩ :=
    initScratchpads_eq_some hrun
  have hcount := scratchpads_lt params2
  generalize scratchpads params2 = count at hn harray hlisted hmem hcount ⊢
  obtain ⟨L₁, hpool₁, -, -, -, hdiff₁⟩ := h.take Nat.one_pos (by decide) hcontexts
  have hsub₁ : cover L₁ ⊆ cover L := by
    rw [hdiff₁]
    exact Set.sdiff_subset
  have hcontexts₁ : Disjoint (⟨contexts, 1⟩ : Block).bytes (cover L₁) := by
    rw [hdiff₁]
    exact Set.disjoint_sdiff_right
  have hpages : 0 < (count * 8 + 4095) / 4096 := by omega
  obtain ⟨L₂, hpool₂, -, -, hbytes, hdiff₂⟩ :=
    (hpool₁.clobber (junk 0) Nat.one_pos hcontexts₁).take hpages (by omega) harray
  have hsub₂ : cover L₂ ⊆ cover L₁ := by
    rw [hdiff₂]
    exact Set.sdiff_subset
  have hgone₂ : Disjoint (⟨array, (count * 8 + 4095) / 4096⟩ : Block).bytes (cover L₂) := by
    rw [hdiff₂]
    exact Set.disjoint_sdiff_right
  obtain ⟨L₃, hpool₃, hsub₃, hlen, hnodup, hremoved⟩ :=
    scratchpadPages_spec hpool₂ hpages hgone₂ hlisted
  refine ⟨L₃, ?_, .inr ⟨_, hpages, by omega, array, hentry, hbytes.trans hsub₁,
    hgone₂.mono_right hsub₃⟩, hlen, hnodup, fun p hp ↦ ?_⟩
  · rw [hmem]
    exact (hpool₃.clobber (junk (count + 1)) Nat.one_pos
      (hcontexts₁.mono_right (hsub₃.trans hsub₂))).freeList
  · obtain ⟨a, ha, hasub, hagone⟩ := hremoved p hp
    exact ⟨a, ha, hasub.trans (hsub₂.trans hsub₁), hagone⟩

end Init

/-- **The scratchpad array.** When the allocations succeed, the controller is given memory that the
driver holds if and only if it asks for scratchpad pages at all. -/
theorem scratchpad_held_iff {mem : Memory} {L : List Block} (h : Pool mem L)
    {junk : ℕ → ℕ → MemList} {fuel : ℕ} {params2 pagesize : BitVec 32} {r : Scratchpads}
    (hrun : initScratchpads junk fuel params2 pagesize mem = some r) :
    ∃ L', FreeList r.mem L' ∧
      (ScratchpadHeld L L' (scratchpads params2) r ↔ scratchpads params2 ≠ 0) := by
  by_cases hn : scratchpads params2 = 0
  · obtain ⟨L', hL', hnot⟩ := not_scratchpadHeld h hn hrun
    rw [hn]
    exact ⟨L', hL', iff_of_false hnot (not_not.mpr rfl)⟩
  · obtain ⟨L', hL', hheld⟩ := scratchpadHeld_of_ne h hn hrun
    exact ⟨L', hL', iff_of_true hheld hn⟩

/-- A free list of one block, three pages at 1 MiB. -/
theorem pool_threePages : Pool (oneNode ⟨0xffff806000100000, 3⟩) [⟨0xffff806000100000, 3⟩] :=
  pool_oneNode ⟨by decide, by decide, by decide⟩ (by decide)

/-- One scratchpad page. -/
theorem scratchpad_held_iff_one : ∃ r L', initScratchpads (fun _ _ ↦ ⟨0, 0⟩) 2 (1 <<< 27) 1
      (oneNode ⟨0xffff806000100000, 3⟩) = some r ∧ FreeList r.mem L' ∧
    ScratchpadHeld [⟨0xffff806000100000, 3⟩] L' (scratchpads (1 <<< 27)) r := by
  obtain ⟨r, hrun⟩ : ∃ r, initScratchpads (fun _ _ ↦ ⟨0, 0⟩) 2 (1 <<< 27) 1
      (oneNode ⟨0xffff806000100000, 3⟩) = some r := ⟨_, rfl⟩
  obtain ⟨L', hL', hiff⟩ := scratchpad_held_iff pool_threePages hrun
  exact ⟨r, L', hrun, hL', hiff.mpr (by decide)⟩

/-- HCSPARAMS2 is 0. -/
theorem not_scratchpad_held : ¬∀ (mem : Memory) (L L' : List Block) (junk : ℕ → ℕ → MemList)
    (fuel : ℕ) (params2 pagesize : BitVec 32) (r : Scratchpads), Pool mem L →
      initScratchpads junk fuel params2 pagesize mem = some r → FreeList r.mem L' →
        ScratchpadHeld L L' (scratchpads params2) r := by
  intro h
  obtain ⟨r, hrun⟩ : ∃ r, initScratchpads (fun _ _ ↦ ⟨0, 0⟩) 2 0 1
      (oneNode ⟨0xffff806000100000, 3⟩) = some r := ⟨_, rfl⟩
  obtain ⟨L', hL', hnot⟩ := not_scratchpadHeld pool_threePages (by decide) hrun
  exact hnot (h _ _ L' _ _ _ _ r pool_threePages hrun hL')

end VimOS
