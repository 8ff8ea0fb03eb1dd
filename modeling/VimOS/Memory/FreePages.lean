import VimOS.Memory.FirstFit
import VimOS.Paging.Address

/-!
# One page after another

The kernel's free list lies where physical memory is mapped. `alloc_mem(1)`, called again and again,
hands out the pages of its blocks in their order (`freePages`) and then returns `NULL`
(`allocPool_eq`). Whoever is given a page writes to it; the nodes of the list are elsewhere, so that
the calls to come find the list as it was left.
-/

namespace VimOS

open Block

/-! ## The free list -/

/-- Stores to a block that was handed out; every node that meets it may be another one. -/
def Memory.clobber (mem : Memory) (x : Block) (junk : ℕ → MemList) : Memory :=
  { mem with heap := fun a ↦ if a < x.stop ∧ x.addr < a + 16 then junk a else mem.heap a }

/-- The free list of the kernel: increasing blocks that lie where physical memory is mapped. -/
structure Pool (mem : Memory) (L : List Block) : Prop where
  freeList : FreeList mem L
  sorted : Sorted L
  valid : ∀ b ∈ L, b.Valid
  direct : ∀ b ∈ L, pageOffset.toNat ≤ b.addr

section Pool

variable {mem mem' : Memory} {L A B : List Block} {p : ℕ} {x b : Block}

/-- Stores to pages that are not free leave the list as it is. -/
theorem Pool.clobber (h : Pool mem L) (junk : ℕ → MemList) (hx : 0 < x.pages)
    (hfree : Disjoint x.bytes (cover L)) : Pool (mem.clobber x junk) L := by
  have hnode : ∀ b ∈ L, (mem.clobber x junk).heap b.addr = mem.heap b.addr := by
    intro b hb
    refine if_neg fun hmeet ↦ ?_
    have hpos := (h.valid b hb).pages_pos
    have hin : max b.addr x.addr ∈ x.bytes ∧ max b.addr x.addr ∈ b.bytes := by
      simp only [bytes, stop, Set.mem_Ico] at hmeet ⊢
      omega
    exact Set.disjoint_left.mp hfree hin.1 (mem_cover.mpr ⟨b, hb, hin.2⟩)
  refine ⟨⟨h.freeList.chain.congr fun a ha ↦ ?_, fun b hb ↦ ?_⟩, h.sorted, h.valid, h.direct⟩
  · obtain ⟨b, hb, rfl⟩ := List.mem_map.mp ha
    exact congrArg MemList.next (hnode b hb)
  · rw [← h.freeList.pages b hb]
    exact congrArg MemList.pages (hnode b hb)

/-- What remains of a block takes its place. -/
theorem Pool.split (h : Pool mem (A ++ b :: B)) (hle : p ≤ b.pages)
    (hlist : FreeList mem' (A ++ remainder p b ++ B)) : Pool mem' (A ++ remainder p b ++ B) := by
  have hb : b ∈ A ++ b :: B := by simp
  refine ⟨hlist, sorted_split hle h.sorted, fun c hc ↦ ?_, fun c hc ↦ ?_⟩
  · rw [List.append_assoc, List.mem_append, List.mem_append] at hc
    rcases hc with hc | hc | hc
    · exact h.valid c (List.mem_append_left _ hc)
    · exact remainder_valid hle (h.valid b hb) hc
    · exact h.valid c (List.mem_append_right _ (List.mem_cons_of_mem _ hc))
  · rw [List.append_assoc, List.mem_append, List.mem_append] at hc
    rcases hc with hc | hc | hc
    · exact h.direct c (List.mem_append_left _ hc)
    · rw [(remainder_bounds hle hc).1]
      exact (h.direct b hb).trans (Nat.le_add_right _ _)
    · exact h.direct c (List.mem_append_right _ (List.mem_cons_of_mem _ hc))

end Pool

/-! ## The free pages -/

/-- The pages of a block. -/
def Block.pageList (b : Block) : List ℕ := (List.range b.pages).map fun i ↦ b.addr + 4096 * i

/-- The pages of the free list, in their order. -/
def freePages (L : List Block) : List ℕ := L.flatMap Block.pageList

section FreePages

variable {mem : Memory} {L : List Block} {b : Block} {p : ℕ}

theorem Block.mem_pageList : p ∈ b.pageList ↔ ∃ i < b.pages, b.addr + 4096 * i = p := by
  rw [pageList, List.mem_map]
  simp only [List.mem_range]

theorem length_freePages : (freePages L).length = (L.map Block.pages).sum := by
  rw [freePages, List.length_flatMap]
  congr 1
  refine List.map_congr_left fun b _ ↦ ?_
  rw [Block.pageList, List.length_map, List.length_range]

/-- The first page is handed out, and the others remain. -/
theorem freePages_cons (hpos : 0 < b.pages) :
    freePages (b :: L) = b.addr :: freePages (remainder 1 b ++ L) := by
  obtain ⟨n, hn⟩ := Nat.exists_eq_succ_of_ne_zero hpos.ne'
  have hlist : b.pageList = b.addr :: freePages (remainder 1 b) := by
    have hbehind : ∀ i, b.addr + 4096 * (i + 1) = b.addr + 4096 * 1 + 4096 * i := by omega
    rw [Block.pageList, hn, Nat.succ_eq_add_one, List.range_succ_eq_map, List.map_cons,
      List.map_map, remainder]
    refine congrArg _ ?_
    split_ifs with hone
    · obtain rfl : n = 0 := by omega
      rfl
    · rw [freePages, List.flatMap_singleton, Block.pageList, hn, Nat.succ_sub_one]
      exact List.map_congr_left fun i _ ↦ hbehind i
  calc freePages (b :: L) = b.pageList ++ freePages L := List.flatMap_cons
    _ = b.addr :: (freePages (remainder 1 b) ++ freePages L) := by rw [hlist, List.cons_append]
    _ = b.addr :: freePages (remainder 1 b ++ L) := congrArg _ List.flatMap_append.symm

theorem mem_cover_of_freePages (h : p ∈ freePages L) : p ∈ cover L := by
  obtain ⟨b, hb, hp⟩ := List.mem_flatMap.mp h
  obtain ⟨i, hi, rfl⟩ := Block.mem_pageList.mp hp
  refine mem_cover.mpr ⟨b, hb, Nat.le_add_right _ _, ?_⟩
  rw [stop]
  omega

/-- A free page lies where physical memory is mapped. -/
theorem Pool.page_bounds (h : Pool mem L) (hp : p ∈ freePages L) :
    pageOffset.toNat ≤ p ∧ p + 4096 ≤ 2 ^ 64 := by
  obtain ⟨b, hb, hp⟩ := List.mem_flatMap.mp hp
  obtain ⟨i, hi, rfl⟩ := Block.mem_pageList.mp hp
  have hstop := (h.valid b hb).stop_lt
  have hdirect := h.direct b hb
  rw [stop] at hstop
  omega

theorem Pool.nodup_freePages (h : Pool mem L) : (freePages L).Nodup := by
  refine List.nodup_flatMap.mpr ⟨fun b _ ↦ ?_, h.sorted.imp fun {b c} hbc ↦ ?_⟩
  · refine List.nodup_range.map fun i j hij ↦ ?_
    have hij : b.addr + 4096 * i = b.addr + 4096 * j := hij
    omega
  · intro p hp hp'
    obtain ⟨i, hi, rfl⟩ := Block.mem_pageList.mp hp
    obtain ⟨j, hj, heq⟩ := Block.mem_pageList.mp hp'
    rw [stop] at hbc
    omega

end FreePages

/-! ## Call after call -/

/-- What the calls of `alloc_mem(1)` return, one after another; in between the page handed out is
written. -/
def allocPool (fuel : ℕ) (junk : ℕ → ℕ → MemList) : ℕ → Memory → Addr
  | call, mem =>
    match allocMem fuel mem 1 with
    | .error _ => 0
    | .ok (mem, ptr) =>
      match call with
      | 0 => BitVec.ofNat 64 ptr
      | call + 1 =>
        allocPool fuel junk call (if ptr = 0 then mem else mem.clobber ⟨ptr, 1⟩ (junk call))

section AllocPool

variable {mem : Memory} {L : List Block} {b : Block} {fuel : ℕ}

theorem Pool.alloc_empty (h : Pool mem []) (hfuel : 0 < fuel) :
    ∃ mem', allocMem fuel mem 1 = .ok (mem', 0) ∧ Pool mem' [] := by
  obtain ⟨mem', hrun, hlist⟩ :=
    allocMem_spec_of_lt Nat.one_pos (by decide) h.freeList h.valid (h.sorted.imp .inl) hfuel
  exact ⟨mem', hrun, hlist, h.sorted, h.valid, h.direct⟩

/-- The first page is handed out and written. -/
theorem Pool.alloc_page (h : Pool mem (b :: L)) (hfuel : (b :: L).length < fuel)
    (junk : ℕ → MemList) : ∃ mem', allocMem fuel mem 1 = .ok (mem', b.addr) ∧
      Pool (mem'.clobber ⟨b.addr, 1⟩ junk) (remainder 1 b ++ L) := by
  have hpos := (h.valid b List.mem_cons_self).pages_pos
  obtain ⟨mem', hrun, hlist⟩ :=
    allocMem_spec_of_lt Nat.one_pos (by decide) h.freeList h.valid (h.sorted.imp .inl) hfuel
  have htake : takeFirst 1 (b :: L) = some (⟨b.addr, 1⟩, remainder 1 b ++ L) :=
    takeFirst_fit (A := []) (fun a ha ↦ absurd ha List.not_mem_nil) hpos
  rw [htake] at hrun hlist
  refine ⟨mem', hrun, (Pool.split (A := []) h hpos hlist).clobber junk Nat.one_pos ?_⟩
  have hcover := (cover_split (A := []) hpos h.sorted).2
  rw [List.nil_append] at hcover
  rw [List.nil_append, hcover]
  exact Set.disjoint_sdiff_right

/-- The calls hand out the free pages, and then return `NULL`. -/
theorem allocPool_eq (h : Pool mem L) (hfuel : L.length < fuel) (junk : ℕ → ℕ → MemList)
    (call : ℕ) : allocPool fuel junk call mem = BitVec.ofNat 64 ((freePages L)[call]?.getD 0) := by
  induction call generalizing mem L with
  | zero =>
    cases L with
    | nil =>
      obtain ⟨mem', hrun, -⟩ := h.alloc_empty hfuel
      rw [allocPool, hrun]
      rfl
    | cons b L =>
      obtain ⟨mem', hrun, -⟩ := h.alloc_page hfuel (junk 0)
      rw [allocPool, hrun, freePages_cons (h.valid b List.mem_cons_self).pages_pos]
      rfl
  | succ call ih =>
    cases L with
    | nil =>
      obtain ⟨mem', hrun, hpool⟩ := h.alloc_empty hfuel
      rw [allocPool, hrun]
      exact ih hpool hfuel
    | cons b L =>
      have hb := h.valid b List.mem_cons_self
      obtain ⟨mem', hrun, hpool⟩ := h.alloc_page hfuel (junk call)
      rw [allocPool, hrun, freePages_cons hb.pages_pos, List.getElem?_cons_succ]
      dsimp only
      rw [if_neg hb.addr_pos.ne']
      refine ih hpool ?_
      rw [remainder, List.length_append]
      rw [List.length_cons] at hfuel
      split_ifs
      · exact (Nat.lt_of_succ_lt hfuel).trans_le' (Nat.zero_add _).le
      · exact hfuel.trans_le' (Nat.add_comm _ _).le

/-- A call fails when all pages have been handed out. -/
theorem allocPool_eq_zero_iff (h : Pool mem L) (hfuel : L.length < fuel) (junk : ℕ → ℕ → MemList)
    {call : ℕ} : allocPool fuel junk call mem = 0 ↔ (L.map Block.pages).sum ≤ call := by
  rw [allocPool_eq h hfuel, ← length_freePages]
  rcases Nat.lt_or_ge call (freePages L).length with hlt | hge
  · rw [List.getElem?_eq_getElem hlt, Option.getD_some]
    refine iff_of_false (fun hzero ↦ ?_) (by omega)
    obtain ⟨hge, hstop⟩ := h.page_bounds (List.getElem_mem hlt)
    have hnat := congrArg BitVec.toNat hzero
    rw [BitVec.toNat_ofNat, Nat.mod_eq_of_lt (by omega), show (0 : Addr).toNat = 0 from rfl] at hnat
    rw [show pageOffset.toNat = 0xffff806000000000 from rfl] at hge
    omega
  · rw [List.getElem?_eq_none hge]
    exact iff_of_true rfl hge

/-- What a call hands out is the page of its number. -/
theorem exists_page_of_allocPool (h : Pool mem L) (hfuel : L.length < fuel)
    (junk : ℕ → ℕ → MemList) {call : ℕ} (hne : allocPool fuel junk call mem ≠ 0) :
    ∃ p, (freePages L)[call]? = some p ∧ (allocPool fuel junk call mem).toNat = p := by
  have hlt : call < (freePages L).length := by
    rw [length_freePages]
    exact not_le.mp fun hle ↦ hne ((allocPool_eq_zero_iff h hfuel junk).mpr hle)
  obtain ⟨-, hstop⟩ := h.page_bounds (List.getElem_mem hlt)
  refine ⟨_, List.getElem?_eq_getElem hlt, ?_⟩
  rw [allocPool_eq h hfuel, List.getElem?_eq_getElem hlt, Option.getD_some, BitVec.toNat_ofNat,
    Nat.mod_eq_of_lt (by omega)]

end AllocPool

theorem pool_oneNode {b : Block} (hb : b.Valid) (hdirect : pageOffset.toNat ≤ b.addr) :
    Pool (oneNode b) [b] where
  freeList := freeList_oneNode hb
  sorted := List.pairwise_singleton _ _
  valid := List.forall_mem_singleton.mpr hb
  direct := List.forall_mem_singleton.mpr hdirect

end VimOS
