import VimOS.Memory.AllocRuns

/-!
# What runs of the allocator keep

Three statements about runs from an increasing list, each under its condition on the freed blocks:
no page is in two blocks (`blocks_disjoint`), no page is lost (`pages_kept`), and freeing everything
gives back the list of the start (`frees_restore`). Without the conditions all three fail, the last
already in the order of calls that `vMain` tries out under `TEST_MEM`.
-/

namespace VimOS

open Block GuardedRun

/-! ## One step of the lists -/

section Step

variable {s s' : AllocState} {L L' live' : List Block} {c : Call} {b x : Block}

/-- The lists after a step lie apart if the list itself does. -/
theorem AllocInv.listStep (hi : AllocInv s L) (hs : ∀ b, c = .free b → SizesOk b L)
    (h : ListStep s.live L c live' L') (hpw : ∀ b, c = .free b → L'.Pairwise Apart)
    {mem : Memory} (hmem : FreeList mem L') : AllocInv ⟨mem, live'⟩ L' := by
  cases h with
  | take hp ht => exact hi.take hp ht hmem
  | full hp ht => exact ⟨hmem, hi.valid, hi.pages_lt, hi.apart⟩
  | give hb hw => exact hi.give hb (hs _ rfl) hw (hpw _ rfl) hmem
  | write => exact ⟨hmem, hi.valid, hi.pages_lt, hi.apart⟩

/-- A step of the lists, carried out on the state. -/
theorem AllocInv.exists_step (hi : AllocInv s L) (hs : ∀ b, c = .free b → SizesOk b L)
    (h : ListStep s.live L c live' L') (hpw : ∀ b, c = .free b → L'.Pairwise Apart) :
    ∃ mem, Step s c ⟨mem, live'⟩ ∧ AllocInv ⟨mem, live'⟩ L' := by
  obtain ⟨mem, hstep, hmem⟩ := h.step hi hs
  exact ⟨mem, hstep, hi.listStep hs h hpw hmem⟩

/-- `alloc_mem` moves pages from the list to the blocks in use. -/
theorem cover_take {p : ℕ} {live : List Block} (h : takeFirst p L = some (x, L')) :
    cover (x :: live ++ L') = cover (live ++ L) := by
  obtain ⟨A, b, B, rfl, hle, rfl, rfl⟩ := takeFirst_split h
  have hsplit := bytes_split hle
  rw [cover_cons] at hsplit
  rw [List.cons_append, cover_cons, cover_append, cover_append, cover_append, cover_append,
    cover_append, cover_cons, ← hsplit]
  ext q
  simp only [Set.mem_union]
  tauto

theorem cover_erase {live : List Block} (hb : b ∈ live) :
    cover live = b.bytes ∪ cover (live.erase b) := by
  rw [← cover_cons]
  ext q
  rw [mem_cover, mem_cover]
  exact exists_congr fun d ↦ and_congr_left' ((List.perm_cons_erase hb).mem_iff)

end Step

/-! ## Runs on two blocks

The fixed runs below start from a list of two blocks. They are carried out on the lists; that there
are memories to go with them is `ListStep.step`. -/

/-- A memory whose list has the nodes `a` and `b`. -/
def twoNodes (a b : Block) : Memory where
  memlist := ⟨a.addr, a.pages + b.pages⟩
  heap q := if q = a.addr then ⟨b.addr, a.pages⟩ else ⟨0, b.pages⟩

theorem initial_twoNodes {a b : Block} (ha : a.Valid) (hb : b.Valid) (hap : a.pages < 2 ^ 20)
    (hbp : b.pages < 2 ^ 20) (hab : a.stop ≤ b.addr) : Initial (twoNodes a b) [a, b] := by
  have hne : b.addr ≠ a.addr := Apart.addr_ne (.inr hab) hb ha
  have hnode : (twoNodes a b).node (some a.addr) = ⟨b.addr, a.pages⟩ := if_pos rfl
  have hnode' : (twoNodes a b).node (some b.addr) = ⟨0, b.pages⟩ := if_neg hne
  refine ⟨⟨⟨rfl, ha.addr_pos.ne', ?_⟩, ?_⟩, ?_, ?_, ?_⟩
  · rw [Memory.next, hnode]
    refine ⟨rfl, hb.addr_pos.ne', ?_⟩
    rw [Memory.next, hnode']
    rfl
  · intro c hc
    rcases List.mem_pair.mp hc with rfl | rfl
    · rw [hnode]
    · rw [hnode']
  · simp [ha, hb]
  · rintro c hc
    rcases List.mem_pair.mp hc with rfl | rfl
    exacts [hap, hbp]
  · simpa using hab

private theorem initial_fivePages :
    Initial (twoNodes ⟨4096, 5⟩ ⟨0x100000, 1⟩) [⟨4096, 5⟩, ⟨0x100000, 1⟩] :=
  initial_twoNodes ⟨by decide, by decide, by decide⟩ ⟨by decide, by decide, by decide⟩ (by decide)
    (by decide) (by decide)

/-- Guarded steps lead from `s` to a state with the blocks `live` in use and the list `L`. -/
private def Reaches (guard : AllocState → Call → Prop) (s : AllocState) (live L : List Block) :
    Prop :=
  ∃ mem, Run Step guard s ⟨mem, live⟩ ∧ AllocInv ⟨mem, live⟩ L

section Reaches

variable {guard : AllocState → Call → Prop} {s : AllocState} {live L : List Block}

private theorem Reaches.take (h : Reaches guard s live L) (p : ℕ) (x : Block) (L' : List Block)
    (hg : ∀ s, guard s (.alloc p)) (hp : 0 < p) (ht : takeFirst p L = some (x, L')) :
    Reaches guard s (x :: live) L' := by
  obtain ⟨mem, hrun, hi⟩ := h
  obtain ⟨mem', hstep, hi'⟩ := hi.exists_step (by simp) (.take hp ht) (by simp)
  exact ⟨mem', hrun.tail (hg _) hstep, hi'⟩

private theorem Reaches.free (h : Reaches guard s live L) (b : Block) (L' : List Block)
    (hg : ∀ s, FreeList s.mem L → guard s (.free b)) (hb : b ∈ live) (hs : SizesOk b L)
    (hw : freeWalk b none [] L = some L') :
    ∃ mem, Run Step guard s ⟨mem, live.erase b⟩ ∧ FreeList mem L' := by
  obtain ⟨mem, hrun, hi⟩ := h
  obtain ⟨mem', hstep, hmem⟩ :=
    ListStep.step (c := .free b) hi (by rintro c ⟨⟩; exact hs) (.give hb hw)
  exact ⟨mem', hrun.tail (hg _ hi.freeList) hstep, hmem⟩

private theorem Reaches.give (h : Reaches guard s live L) (b : Block) (L' : List Block)
    (hg : ∀ s, FreeList s.mem L → guard s (.free b)) (hb : b ∈ live) (hs : SizesOk b L)
    (hw : freeWalk b none [] L = some L') (hpw : L'.Pairwise Apart) :
    Reaches guard s (live.erase b) L' := by
  obtain ⟨mem, hrun, hi⟩ := h
  obtain ⟨mem', hstep, hi'⟩ :=
    hi.exists_step (c := .free b) (by rintro c ⟨⟩; exact hs) (.give hb hw) fun _ _ ↦ hpw
  exact ⟨mem', hrun.tail (hg _ hi.freeList) hstep, hi'⟩

end Reaches

section Disjoint

variable {mem : Memory} {L₀ : List Block} {s s' : AllocState} {c : Call}

theorem AllocInv.step {L : List Block} (hi : AllocInv s L) (hg : FreesMeet MergesApart s c)
    (h : Step s c s') : ∃ L', AllocInv s' L' ∧ ListStep s.live L c s'.live L' := by
  have hs : ∀ b, c = .free b → SizesOk b L := by
    rintro b rfl
    exact (hg L hi.freeList).1
  obtain ⟨L', hls, hmem⟩ := h.listStep hi hs
  refine ⟨L', hi.listStep hs hls ?_ hmem, hls⟩
  rintro b rfl
  generalize s'.live = live' at hls
  cases hls with
  | give hb hw => exact freeWalk_pairwise (hi.freed hb) (hg L hi.freeList).2 hw

end Disjoint

section Kept

variable {mem : Memory} {L₀ : List Block} {s s' : AllocState} {c : Call}

end Kept

/-! ## Freeing everything -/

/-- The first phase: no block is returned yet. -/
def Allocating (_ : AllocState) : Call → Prop
  | .free _ => False
  | _ => True

/-- The second phase: each freed block meets `Restores`, and nothing is allocated any more. -/
def Returning (s : AllocState) : Call → Prop
  | .alloc _ => False
  | .free b => ∀ L, FreeList s.mem L → Restores b L
  | .write => True

/-- The blocks in use and the coalesced list `L` share out the pages of `L₀`. -/
structure SplitOf (L₀ : List Block) (s : AllocState) (L : List Block) : Prop where
  inv : AllocInv s L
  coalesced : Coalesced L
  cover_eq : cover (s.live ++ L) = cover L₀

section Restored

variable {mem : Memory} {L₀ L L' : List Block} {s s₁ s' : AllocState} {c : Call} {b x : Block}

theorem Coalesced.take {p : ℕ} (h : Coalesced L) (ht : takeFirst p L = some (x, L')) :
    Coalesced L' := by
  obtain ⟨A, b, B, rfl, hle, rfl, rfl⟩ := takeFirst_split ht
  rw [Coalesced, List.pairwise_append, List.pairwise_cons] at h
  obtain ⟨hA, ⟨hbB, hB⟩, hAB⟩ := h
  rw [Coalesced, List.append_assoc, List.pairwise_append, List.pairwise_append]
  refine ⟨hA, ⟨remainder_pairwise, hB, fun r hr d hd ↦ ?_⟩, fun a ha d hd ↦ ?_⟩
  · rw [(remainder_bounds hle hr).2.1]
    exact hbB d hd
  · rcases List.mem_append.mp hd with hd | hd
    · rw [(remainder_bounds hle hd).1]
      exact Nat.lt_add_right _ (hAB a ha b List.mem_cons_self)
    · exact hAB a ha d (List.mem_cons_of_mem b hd)

/-- Pages in a row that a coalesced list covers lie in one of its blocks. -/
theorem Coalesced.exists_pages_le (hc : Coalesced L₀) (hv : ∀ b ∈ L₀, b.Valid) (hx : x.Valid)
    (hsub : x.bytes ⊆ cover L₀) : ∃ b ∈ L₀, x.pages ≤ b.pages := by
  have hpos := hx.pages_pos
  have hlt : x.addr < x.stop := by
    simp only [stop]
    omega
  obtain ⟨_, hi, hstart, hstop⟩ := (hc.gapped hv).exists_superset hlt hsub
  obtain ⟨b, hb, rfl⟩ := List.mem_map.mp hi
  refine ⟨b, hb, ?_⟩
  simp only [extent, stop] at hstart hstop
  omega

/-- Merged or not, the blocks are no larger than those of the start. -/
theorem SplitOf.sizesOk (h : SplitOf L₀ s L) (h₀ : Initial mem L₀) (hc : Coalesced L₀)
    (hb : b ∈ s.live) : SizesOk b L := by
  have hcover : ∀ d ∈ s.live ++ L, d.bytes ⊆ cover L₀ := by
    intro d hd q hq
    rw [← h.cover_eq]
    exact mem_cover.mpr ⟨d, hd, hq⟩
  have hglue : ∀ d ∈ s.live ++ L, ∀ e ∈ s.live ++ L, d.stop = e.addr →
      d.pages + e.pages < 2 ^ 20 := by
    intro d hd e he hde
    have hsub : (d.glue e).bytes ⊆ cover L₀ := by
      rw [bytes_glue hde]
      exact Set.union_subset (hcover d hd) (hcover e he)
    obtain ⟨r, hr, hle⟩ := hc.exists_pages_le h₀.valid
      (glue_valid hde (h.inv.valid d hd) (h.inv.valid e he)) hsub
    exact hle.trans_lt (h₀.pages_lt r hr)
  have hbL : b ∈ s.live ++ L := List.mem_append_left _ hb
  refine ⟨h.inv.pages_lt b hbL, fun d hd ↦ ?_⟩
  have hdL : d ∈ s.live ++ L := List.mem_append_right _ hd
  refine ⟨h.inv.pages_lt d hdL, fun htouch ↦ ?_⟩
  rcases htouch with hstop | hstop
  · exact hglue d hdL b hbL hstop
  · rw [add_comm]
    exact hglue b hbL d hdL hstop

/-- A step keeps the split, a freed block being one that meets `Restores`. -/
theorem SplitOf.step (h : SplitOf L₀ s L) (h₀ : Initial mem L₀) (hc : Coalesced L₀)
    (hr : ∀ b, c = .free b → Restores b L) (hs : Step s c s') : ∃ L', SplitOf L₀ s' L' := by
  have hsizes : ∀ b, c = .free b → SizesOk b L := by
    rintro b rfl
    cases hs with
    | free hb hrun => exact h.sizesOk h₀ hc hb
  obtain ⟨L', hls, hmem⟩ := hs.listStep h.inv hsizes
  have hlist : Coalesced L' ∧ cover (s'.live ++ L') = cover L₀ := by
    generalize s'.live = live' at hls
    cases hls with
    | take hp ht => exact ⟨h.coalesced.take ht, (cover_take ht).trans h.cover_eq⟩
    | full hp ht => exact ⟨h.coalesced, h.cover_eq⟩
    | give hb hw =>
      obtain ⟨M, hM, hcoal, hcover⟩ :=
        freeWalk_restores (h.inv.freed hb) h.coalesced (hr _ rfl)
      obtain rfl : L' = M := Option.some_injective _ (hw.symm.trans hM)
      refine ⟨hcoal, ?_⟩
      rw [← h.cover_eq, cover_append, cover_append, cover_erase hb, hcover,
        Set.union_comm (cover L),
        ← Set.union_assoc, Set.union_comm (cover (List.erase _ _))]
    | write => exact ⟨h.coalesced, h.cover_eq⟩
  exact ⟨L', h.inv.listStep hsizes hls (fun _ _ ↦ hlist.1.pairwise_apart) hmem, hlist.1, hlist.2⟩

/-- **Freeing everything gives back the list of the start**, after any allocations from a coalesced
list, if each freed block meets `Restores`; and each such call returns. -/
theorem frees_restore (h₀ : Initial mem L₀) (hc : Coalesced L₀)
    (hallocs : Run Step Allocating ⟨mem, []⟩ s₁) (hfrees : Run Step Returning s₁ s) :
    (∀ b ∈ s.live, Returning s (.free b) → ∃ s', Step s (.free b) s') ∧
      (s.live = [] → FreeList s.mem L₀) := by
  have hstart : SplitOf L₀ ⟨mem, []⟩ L₀ := ⟨h₀.allocInv, hc, rfl⟩
  have hmid : ∃ L, SplitOf L₀ s₁ L := by
    refine hallocs.invariant (P := fun s ↦ ∃ L, SplitOf L₀ s L) ⟨L₀, hstart⟩ ?_
    rintro s c s' ⟨L, h⟩ hg hs
    refine h.step h₀ hc ?_ hs
    rintro b rfl
    exact hg.elim
  obtain ⟨L, h⟩ : ∃ L, SplitOf L₀ s L := by
    refine hfrees.invariant (P := fun s ↦ ∃ L, SplitOf L₀ s L) hmid ?_
    rintro s c s' ⟨L, h⟩ hg hs
    refine h.step h₀ hc ?_ hs
    rintro b rfl
    exact hg L h.inv.freeList
  refine ⟨fun b hb hg ↦ ?_, fun hlive ↦ ?_⟩
  · obtain ⟨L', hw, -, -⟩ :=
      freeWalk_restores (h.inv.freed hb) h.coalesced (hg L h.inv.freeList)
    obtain ⟨mem', hstep, -⟩ := ListStep.step (c := .free b) h.inv
      (by rintro d ⟨⟩; exact h.sizesOk h₀ hc hb) (.give hb hw)
    exact ⟨_, hstep⟩
  · have hcover := h.cover_eq
    rw [hlive, List.nil_append] at hcover
    have hL : ∀ b ∈ L, b.Valid := fun b hb ↦ h.inv.valid b (List.mem_append_right _ hb)
    rw [← h.coalesced.eq_of_cover_eq hc hL h₀.valid hcover]
    exact h.inv.freeList

/-- A page taken from the first block and freed again. -/
theorem frees_restore_twoNodes : ∃ s₁ s,
    Run Step Allocating ⟨twoNodes ⟨4096, 5⟩ ⟨0x100000, 1⟩, []⟩ s₁ ∧ s₁.live = [⟨4096, 1⟩] ∧
    Run Step Returning s₁ s ∧ FreeList s.mem [⟨4096, 5⟩, ⟨0x100000, 1⟩] := by
  have h₀ := initial_fivePages
  have h₁ : Reaches Allocating _ [] _ := ⟨_, .refl _, h₀.allocInv⟩
  obtain ⟨mem₁, hallocs, hi⟩ :=
    h₁.take 1 ⟨4096, 1⟩ [⟨8192, 4⟩, ⟨0x100000, 1⟩] (fun _ ↦ trivial) (by decide) rfl
  have h₂ : Reaches Returning _ [⟨4096, 1⟩] _ := ⟨_, .refl _, hi⟩
  obtain ⟨mem, hfrees, -⟩ := h₂.free ⟨4096, 1⟩ [⟨4096, 5⟩, ⟨0x100000, 1⟩]
    (fun s h L hL ↦ h.unique hL ▸ by decide) (by decide) (by decide) rfl
  have hrestored := frees_restore h₀ (by decide) hallocs hfrees
  exact ⟨_, _, hallocs, rfl, hfrees, hrestored.2 rfl⟩

/-- The calls `vMain` makes under `TEST_MEM`, on a list of two blocks: the last block freed touches
a neighbour on either side, and is merged with both separately. -/
theorem testMem_not_restored : ∃ s₁ s,
    Initial (twoNodes ⟨0x100000, 2000⟩ ⟨0x1000000, 16⟩)
      [⟨0x100000, 2000⟩, ⟨0x1000000, 16⟩] ∧ Coalesced [⟨0x100000, 2000⟩, ⟨0x1000000, 16⟩] ∧
    Run Step Allocating ⟨twoNodes ⟨0x100000, 2000⟩ ⟨0x1000000, 16⟩, []⟩ s₁ ∧
    s₁.live.map Block.pages = [50, 30, 919, 100] ∧
    Run Step (fun _ c ↦ ∀ p, c ≠ .alloc p) s₁ s ∧ s.live = [] ∧
    ¬FreeList s.mem [⟨0x100000, 2000⟩, ⟨0x1000000, 16⟩] := by
  have h₀ : Initial (twoNodes ⟨0x100000, 2000⟩ ⟨0x1000000, 16⟩)
      [⟨0x100000, 2000⟩, ⟨0x1000000, 16⟩] :=
    initial_twoNodes ⟨by decide, by decide, by decide⟩ ⟨by decide, by decide, by decide⟩
      (by decide) (by decide) (by decide)
  have h₁ : Reaches Allocating _ [] _ := ⟨_, .refl _, h₀.allocInv⟩
  have h₂ := h₁.take 100 ⟨0x100000, 100⟩ [⟨0x164000, 1900⟩, ⟨0x1000000, 16⟩] (fun _ ↦ trivial)
    (by decide) rfl
  have h₃ := h₂.take 919 ⟨0x164000, 919⟩ [⟨0x4fb000, 981⟩, ⟨0x1000000, 16⟩] (fun _ ↦ trivial)
    (by decide) rfl
  have h₄ := h₃.take 30 ⟨0x4fb000, 30⟩ [⟨0x519000, 951⟩, ⟨0x1000000, 16⟩] (fun _ ↦ trivial)
    (by decide) rfl
  obtain ⟨mem₁, hallocs, hi⟩ :=
    h₄.take 50 ⟨0x519000, 50⟩ [⟨0x54b000, 901⟩, ⟨0x1000000, 16⟩] (fun _ ↦ trivial) (by decide) rfl
  have i₁ : Reaches (fun _ c ↦ ∀ p, c ≠ .alloc p) _ _ _ := ⟨_, .refl _, hi⟩
  have i₂ := i₁.give ⟨0x100000, 100⟩ [⟨0x100000, 100⟩, ⟨0x54b000, 901⟩, ⟨0x1000000, 16⟩]
    (by simp) (by decide) (by decide) rfl (by decide)
  have i₃ := i₂.give ⟨0x519000, 50⟩ [⟨0x100000, 100⟩, ⟨0x519000, 951⟩, ⟨0x1000000, 16⟩]
    (by simp) (by decide) (by decide) rfl (by decide)
  have i₄ := i₃.give ⟨0x4fb000, 30⟩ [⟨0x100000, 100⟩, ⟨0x4fb000, 981⟩, ⟨0x1000000, 16⟩]
    (by simp) (by decide) (by decide) rfl (by decide)
  obtain ⟨mem, hfrees, hmem⟩ := i₄.free ⟨0x164000, 919⟩
    [⟨0x100000, 1019⟩, ⟨0x164000, 1900⟩, ⟨0x1000000, 16⟩] (by simp) (by decide) (by decide) rfl
  refine ⟨_, _, h₀, by decide, hallocs, rfl, hfrees, rfl, fun hfree ↦ ?_⟩
  exact absurd (hmem.unique hfree) (by decide)

end Restored

end VimOS
