import VimOS.Memory.AllocSafety

/-!
# One call of `alloc_mem`

`alloc_mem` is first fit: the first block of the list that is large enough gives its first pages,
and its last pages stay in the list under a new node (`allocMem_firstFit`). The blocks may be of any
size, but the number of pages asked for must stay below `2 ^ 20`: the address of the new node is
formed with a product of 32 bits, as are the ends of the blocks that `free_mem` compares
(`blockEnd_exact_iff`).
-/

namespace VimOS

open Block

/-! ## The first block that fits -/

section TakeFirst

variable {p : ℕ} {A B L : List Block} {b : Block}

theorem takeFirst_small (h : ∀ a ∈ L, a.pages < p) : takeFirst p L = none := by
  induction L with
  | nil => rfl
  | cons a L ih =>
    have ha := h a List.mem_cons_self
    rw [takeFirst, if_neg (by omega), if_neg (by omega),
      ih fun c hc ↦ h c (List.mem_cons_of_mem _ hc)]
    rfl

theorem takeFirst_fit (hA : ∀ a ∈ A, a.pages < p) (hb : p ≤ b.pages) :
    takeFirst p (A ++ b :: B) = some (⟨b.addr, p⟩, A ++ remainder p b ++ B) := by
  induction A with
  | nil =>
    rw [List.nil_append, takeFirst, remainder]
    split_ifs with heq
    · rw [← heq]
      rfl
    · rfl
  | cons a A ih =>
    have ha := hA a List.mem_cons_self
    rw [List.cons_append, takeFirst, if_neg (by omega), if_neg (by omega),
      ih fun c hc ↦ hA c (List.mem_cons_of_mem _ hc)]
    rfl

/-- Either no block fits, or there is a first one that does. -/
theorem firstFit_cases (p : ℕ) (L : List Block) : (∀ a ∈ L, a.pages < p) ∨
    ∃ A b B, L = A ++ b :: B ∧ (∀ a ∈ A, a.pages < p) ∧ p ≤ b.pages := by
  induction L with
  | nil => exact .inl fun a ha ↦ absurd ha List.not_mem_nil
  | cons a L ih =>
    by_cases ha : a.pages < p
    · rcases ih with hall | ⟨A, b, B, rfl, hA, hb⟩
      · left
        intro c hc
        rcases List.mem_cons.mp hc with rfl | hc
        · exact ha
        · exact hall c hc
      · refine .inr ⟨a :: A, b, B, rfl, fun c hc ↦ ?_, hb⟩
        rcases List.mem_cons.mp hc with rfl | hc
        · exact ha
        · exact hA c hc
    · exact .inr ⟨[], a, L, rfl, by simp, not_lt.mp ha⟩

end TakeFirst

/-! ## What a call does to the list -/

/-- Increasing blocks without overlaps. -/
def Sorted (L : List Block) : Prop := L.Pairwise fun a b ↦ a.stop ≤ b.addr

section Split

variable {p : ℕ} {A B : List Block} {b : Block}

theorem remainder_valid (hp : p ≤ b.pages) (hb : b.Valid) {c : Block} (hc : c ∈ remainder p b) :
    c.Valid := by
  obtain ⟨haddr, hstop, hpos, -⟩ := remainder_bounds hp hc
  refine ⟨?_, hpos, ?_⟩
  · rw [haddr]
    exact Nat.add_pos_left hb.addr_pos _
  · rw [hstop]
    exact hb.stop_lt

theorem sorted_split (hle : p ≤ b.pages) (h : Sorted (A ++ b :: B)) :
    Sorted (A ++ remainder p b ++ B) := by
  have hr : ∀ c ∈ remainder p b, b.addr ≤ c.addr ∧ c.stop = b.stop := fun c hc ↦ by
    obtain ⟨haddr, hstop, -, -⟩ := remainder_bounds hle hc
    rw [haddr]
    exact ⟨Nat.le_add_right _ _, hstop⟩
  rw [Sorted, List.pairwise_append, List.pairwise_cons] at h
  obtain ⟨hA, ⟨hbB, hB⟩, hAB⟩ := h
  rw [Sorted, List.append_assoc, List.pairwise_append, List.pairwise_append]
  refine ⟨hA, ⟨remainder_pairwise, hB, fun c hc d hd ↦ ?_⟩, fun a ha d hd ↦ ?_⟩
  · rw [(hr c hc).2]
    exact hbB d hd
  · rcases List.mem_append.mp hd with hd | hd
    · exact (hAB a ha b List.mem_cons_self).trans (hr d hd).1
    · exact hAB a ha d (List.mem_cons_of_mem _ hd)

/-- The pages handed out leave the list, and no others. -/
theorem cover_split (hle : p ≤ b.pages) (h : Sorted (A ++ b :: B)) :
    cover (A ++ b :: B) = (⟨b.addr, p⟩ : Block).bytes ∪ cover (A ++ remainder p b ++ B) ∧
      cover (A ++ remainder p b ++ B) = cover (A ++ b :: B) \ (⟨b.addr, p⟩ : Block).bytes := by
  have hunion : cover (A ++ b :: B) =
      (⟨b.addr, p⟩ : Block).bytes ∪ cover (A ++ remainder p b ++ B) := by
    rw [cover_append, cover_cons, ← bytes_split hle, cover_cons, cover_append, cover_append]
    ext q
    simp only [Set.mem_union]
    tauto
  refine ⟨hunion, ?_⟩
  rw [hunion, Set.union_sdiff_left, eq_comm, sdiff_eq_left, Set.disjoint_left]
  have hapart : ∀ c ∈ A ++ remainder p b ++ B, Apart c ⟨b.addr, p⟩ := by
    rw [Sorted, List.pairwise_append, List.pairwise_cons] at h
    obtain ⟨-, ⟨hbB, -⟩, hAB⟩ := h
    intro c hc
    rw [List.append_assoc, List.mem_append, List.mem_append] at hc
    rcases hc with hc | hc | hc
    · exact .inl (hAB c hc b List.mem_cons_self)
    · exact .inr (remainder_bounds hle hc).1.ge
    · refine .inr (le_trans ?_ (hbB c hc))
      simp only [stop]
      omega
  intro q hq hx
  obtain ⟨c, hc, hqc⟩ := mem_cover.mp hq
  have hap := hapart c hc
  simp only [Apart, bytes, Set.mem_Ico, stop] at hap hqc hx
  omega

end Split

/-- **`alloc_mem` is first fit.** It returns `NULL`, and leaves the list as it is, if no block has
`p` pages; otherwise the first block that has gives its first `p` pages, and exactly these leave the
list. -/
theorem allocMem_firstFit {p : ℕ} {mem : Memory} {L : List Block} (h : FreeList mem L)
    (hsorted : Sorted L) (hv : ∀ b ∈ L, b.Valid) (hp : 1 ≤ p) (hlt : p < 2 ^ 20) :
    ∃ mem' ptr L', (∀ fuel, L.length < fuel → allocMem fuel mem p = .ok (mem', ptr)) ∧
      FreeList mem' L' ∧ (ptr = 0 ↔ ∀ b ∈ L, b.pages < p) ∧ (ptr = 0 → L' = L) ∧
      (ptr ≠ 0 → ∃ A b B, L = A ++ b :: B ∧ (∀ a ∈ A, a.pages < p) ∧ p ≤ b.pages ∧
        ptr = b.addr ∧ L' = A ++ remainder p b ++ B ∧
        (⟨ptr, p⟩ : Block).bytes ⊆ cover L ∧ cover L' = cover L \ (⟨ptr, p⟩ : Block).bytes) ∧
      Sorted L' ∧ ∀ b ∈ L', b.Valid := by
  have hpw : L.Pairwise Apart := hsorted.imp .inl
  obtain ⟨mem', hrun, hlist⟩ := allocMem_spec_of_lt hp hlt h hv hpw (Nat.lt_succ_self _)
  have hruns : ∀ fuel, L.length < fuel →
      allocMem fuel mem p = .ok (mem', ((takeFirst p L).map (·.1.addr)).getD 0) := fun fuel hfuel ↦
    (allocLoop_fuel hfuel (by rw [show allocLoop _ _ _ _ _ = _ from hrun]; simp)).trans hrun
  rcases firstFit_cases p L with hall | ⟨A, b, B, rfl, hA, hb⟩
  · rw [takeFirst_small hall] at hruns hlist
    exact ⟨mem', 0, L, hruns, hlist, iff_of_true rfl hall, fun _ ↦ rfl, fun hne ↦ absurd rfl hne,
      hsorted, hv⟩
  · have hbv : b.Valid := hv b (by simp)
    have hne : b.addr ≠ 0 := hbv.addr_pos.ne'
    obtain ⟨hunion, hdiff⟩ := cover_split hb hsorted
    rw [takeFirst_fit hA hb] at hruns hlist
    refine ⟨mem', b.addr, A ++ remainder p b ++ B, hruns, hlist, iff_of_false hne fun hall ↦ ?_,
      fun hzero ↦ absurd hzero hne, fun _ ↦ ⟨A, b, B, rfl, hA, hb, rfl, rfl, ?_, hdiff⟩,
      sorted_split hb hsorted, fun c hc ↦ ?_⟩
    · exact absurd (hall b (by simp)) (not_lt.mpr hb)
    · rw [hunion]
      exact Set.subset_union_left
    · rw [List.append_assoc, List.mem_append, List.mem_append] at hc
      rcases hc with hc | hc | hc
      · exact hv c (List.mem_append_left _ hc)
      · exact remainder_valid hb hbv hc
      · exact hv c (List.mem_append_right _ (List.mem_cons_of_mem _ hc))

theorem allocMem_firstFit_second : ∃ mem' ptr,
    (∀ fuel, 2 < fuel →
      allocMem fuel (twoNodes ⟨4096, 5⟩ ⟨0x100000, 7⟩) 6 = .ok (mem', ptr)) ∧ ptr ≠ 0 := by
  have hinit : Initial (twoNodes ⟨4096, 5⟩ ⟨0x100000, 7⟩) [⟨4096, 5⟩, ⟨0x100000, 7⟩] :=
    initial_twoNodes ⟨by decide, by decide, by decide⟩ ⟨by decide, by decide, by decide⟩
      (by decide) (by decide) (by decide)
  obtain ⟨mem', ptr, L', hrun, -, hnull, -⟩ :=
    allocMem_firstFit (p := 6) hinit.freeList hinit.sorted hinit.valid (by decide) (by decide)
  refine ⟨mem', ptr, hrun, fun hzero ↦ ?_⟩
  exact absurd (hnull.mp hzero ⟨0x100000, 7⟩ (by simp)) (by decide)

/-! ## The ends of blocks -/

/-- What `free_mem` compares with the end of the block at `start` is the exact end: where it links
another block behind it, merges it with the node behind it, and merges another block into it. -/
structure ComparesExactly (start pages : ℕ) : Prop where
  behind : ∀ mem ptr q m, (mem.node (some start)).pages = pages → ptr < 2 ^ 64 → m ≠ ptr →
    ((freeBehind ptr q mem (some start) m).2 = ptr ↔ (start + 4096 * pages) % 2 ^ 64 < ptr)
  mergeNext : ∀ mem prev m, prev ≠ some start → m ≠ start →
    ((freeMergeNext start pages mem prev m).2 = start ↔ (start + 4096 * pages) % 2 ^ 64 = m)
  mergePrev : ∀ mem ptr q, (mem.node (some start)).pages = pages → start ≠ 0 → 0 < q →
    q < 2 ^ 32 → ((∃ mem', freeMergePrev ptr q mem start = .ok (mem', start) ∧
      (mem'.node (some start)).pages ≠ pages) ↔ (start + 4096 * pages) % 2 ^ 64 = ptr)

section BlockEnd

variable {start pages : ℕ}

theorem blockEnd_eq_iff (h : pages < 2 ^ 32) :
    blockEnd start pages = (start + 4096 * pages) % 2 ^ 64 ↔ pages < 2 ^ 20 := by
  rw [blockEnd, bytesOf]
  constructor
  · intro heq
    omega
  · intro hlt
    rw [Nat.mod_eq_of_lt (a := 4096 * pages) (by omega)]

/-- A split leaves what is left of the block at its computed place. -/
theorem allocMem_split {mem : Memory} (hnext : mem.next none = start) (hstart : start ≠ 0)
    (hlt : pages < (mem.node (some start)).pages) (fuel : ℕ) :
    ∃ mem', allocMem (fuel + 1) mem pages = .ok (mem', start) ∧
      mem'.next none = blockEnd start pages := by
  rw [allocMem, hnext, allocLoop, if_neg hstart, if_neg hlt.ne', if_pos hlt.le]
  refine ⟨_, rfl, ?_⟩
  simp

theorem comparesExactly_iff (h : pages < 2 ^ 32) :
    ComparesExactly start pages ↔ pages < 2 ^ 20 := by
  have hend : blockEnd start pages = (start + 4096 * pages) % 2 ^ 64 ↔ _ := blockEnd_eq_iff h
  rw [← hend]
  constructor
  · intro hcompares
    by_contra hne
    -- a node at the exact end is not merged
    have hsecond : (start + 4096 * pages) % 2 ^ 64 ≠ start := by
      rw [blockEnd_eq_iff h] at hne
      omega
    have hnext := (hcompares.mergeNext ⟨⟨0, 0⟩, fun _ ↦ ⟨0, 0⟩⟩ none _ nofun hsecond).mpr rfl
    rw [freeMergeNext, if_neg hne] at hnext
    exact hsecond hnext
  · intro heq
    refine ⟨fun mem ptr q m hpages _ hm ↦ ?_, fun mem prev m hprev hm ↦ ?_,
      fun mem ptr q hpages hstart hq hq' ↦ ?_⟩
    · rw [freeBehind, hpages, heq]
      split_ifs with hlt
      · exact iff_of_true rfl hlt
      · exact iff_of_false hm hlt
    · rw [freeMergeNext, heq]
      split_ifs with hend
      · refine iff_of_true ?_ hend
        simp [hprev]
      · exact iff_of_false hm hend
    · rw [freeMergePrev, if_neg hstart, hpages, heq]
      split_ifs with hend
      · refine iff_of_true ⟨_, rfl, ?_⟩ hend
        rw [Memory.pages_setPages, if_pos rfl]
        omega
      · refine iff_of_false ?_ hend
        rintro ⟨mem', hok, hgrown⟩
        cases hok
        exact hgrown hpages

/-- **The end of a block** as the code computes it is the exact one, in 64 bits, exactly if the
number of pages is below `2 ^ 20`: so for the place where `alloc_mem` puts what is left of a block,
and for what `free_mem` compares. -/
theorem blockEnd_exact_iff (h : pages < 2 ^ 32) :
    (blockEnd start pages = (start + 4096 * pages) % 2 ^ 64 ↔ pages < 2 ^ 20) ∧
    (∀ mem fuel, mem.next none = start → start ≠ 0 → pages < (mem.node (some start)).pages →
      ∃ mem', allocMem (fuel + 1) mem pages = .ok (mem', start) ∧
        (mem'.next none = (start + 4096 * pages) % 2 ^ 64 ↔ pages < 2 ^ 20)) ∧
    (ComparesExactly start pages ↔ pages < 2 ^ 20) := by
  refine ⟨blockEnd_eq_iff h, fun mem fuel hnext hstart hlt ↦ ?_, comparesExactly_iff h⟩
  obtain ⟨mem', hrun, hplace⟩ := allocMem_split hnext hstart hlt fuel
  refine ⟨mem', hrun, ?_⟩
  rw [hplace]
  exact blockEnd_eq_iff h

theorem blockEnd_exact_iff_five :
    blockEnd 4096 5 = (4096 + 4096 * 5) % 2 ^ 64 ∧ ComparesExactly 4096 5 := by
  obtain ⟨hend, -, hcompares⟩ := @blockEnd_exact_iff 4096 5 (by decide)
  exact ⟨hend.mpr (by decide), hcompares.mpr (by decide)⟩

end BlockEnd

/-- A memory whose list has the node `b`. -/
def oneNode (b : Block) : Memory where
  memlist := ⟨b.addr, b.pages⟩
  heap _ := ⟨0, b.pages⟩

theorem freeList_oneNode {b : Block} (hb : b.Valid) : FreeList (oneNode b) [b] where
  chain := ⟨rfl, hb.addr_pos.ne', rfl⟩
  pages c hc := by
    rw [List.mem_singleton.mp hc]
    rfl

/-- A request for 4 GiB from one block of more: the new node is where the pages handed out start. -/
theorem split_wraps : ∃ mem', allocMem 2 (oneNode ⟨4096, 0x100001⟩) (2 ^ 20) = .ok (mem', 4096) ∧
    mem'.next none = 4096 ∧ mem'.next none ≠ (4096 + 4096 * 2 ^ 20) % 2 ^ 64 := by
  refine ⟨_, rfl, ?_⟩
  simp only [Memory.next_setPages, Memory.next_setNext]
  decide

end VimOS
