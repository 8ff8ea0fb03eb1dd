import VimOS.Memory.FreeList

/-!
# `free_mem` on the list

The loop of `free_mem` decides at each node whether to link the freed block in front of it, whether
to merge it with that node, and whether to let that node take it over, and it goes on deciding after
it has acted. `freeWalk` is the loop on lists. Its `done` is what is reachable of the nodes passed
so far; linking the block a second time drops everything behind its first place.

The main result, `freeMem_spec32`, is that the loop in memory computes `freeWalk32`, which is
`freeWalk` with the ends of blocks as the code computes them: it returns the list `freeWalk32`
returns, and it follows a null pointer exactly where `freeWalk32` has no value. While sizes stay
below `2 ^ 20` the two are the same (`freeMem_spec`).
-/

namespace VimOS

open LinkedChain Block

/-- The loop links `x` in front of `b` when `prev` is the block passed last: at the first node if
`x` lies below it, at a later one if the block passed last ends below `x`. -/
def InsertsAt (x : Block) (prev : Option Block) (b : Block) : Prop :=
  match prev with
  | none => x.addr < b.addr
  | some a => a.stop < x.addr

instance (x : Block) (prev : Option Block) (b : Block) : Decidable (InsertsAt x prev b) := by
  unfold InsertsAt
  split <;> infer_instance

/-- The part of `done` in front of the node of `x`, or all of it. -/
def front (x : Block) (done : List Block) : List Block := done.takeWhile (·.addr ≠ x.addr)

/-- What is reachable of `done` once its last node points to the node of `x`. -/
def relinkBlock (x : Block) (pages : ℕ) (done : List Block) : List Block :=
  front x done ++ [⟨x.addr, pages⟩]

/-- The loop of `free_mem` on lists: `prev` is the block passed last, `done` what the header leads
to of the nodes passed so far, the node of `x` included. Without a value, `m = prev->next` is null
where the loop body still reads `m->pages`. -/
def freeWalk (x : Block) : Option Block → List Block → List Block → Option (List Block)
  | _, done, [] => some done
  | prev, done, b :: rest =>
    let done := if InsertsAt x prev b then relinkBlock x x.pages done else done
    if x.stop = b.addr then
      if InsertsAt x prev b ∧ rest = [] then none
      else freeWalk x (some b) (relinkBlock x (x.pages + b.pages) done) rest
    else freeWalk x (some b) (done ++ [absorb x b]) rest

/-- The sizes stay in the range where `4096 * pages` does not wrap, also in the blocks a merge
with `x` makes. -/
def SizesOk (x : Block) (L : List Block) : Prop :=
  x.pages < 2 ^ 20 ∧ ∀ b ∈ L, b.pages < 2 ^ 20 ∧
    (b.stop = x.addr ∨ x.stop = b.addr → b.pages + x.pages < 2 ^ 20)

instance (x : Block) (L : List Block) : Decidable (SizesOk x L) := by
  unfold SizesOk
  infer_instance

/-! ## Blocks of any size

Sizes may leave that range, the blocks a merge makes before the others. The same loop is
`freeWalk32` then, where the ends of blocks are the ones the code computes. -/

/-- What becomes of the list block `b`: it takes `x` over if its end, as computed, is `x`. -/
def absorb32 (x b : Block) : Block :=
  ⟨b.addr, if blockEnd b.addr b.pages = x.addr then (b.pages + x.pages) % 2 ^ 32 else b.pages⟩

/-- The block of `x` when it has taken over `b`. -/
def merge32 (x b : Block) : Block := ⟨x.addr, (x.pages + b.pages) % 2 ^ 32⟩

/-- The loop links `x` in front of `b` when `prev` is the block at the node passed last. -/
def InsertsAt32 (x : Block) (prev : Option Block) (b : Block) : Prop :=
  match prev with
  | none => x.addr < b.addr
  | some a => blockEnd a.addr a.pages < x.addr

instance (x : Block) (prev : Option Block) (b : Block) : Decidable (InsertsAt32 x prev b) := by
  unfold InsertsAt32
  split <;> infer_instance

/-- The loop of `free_mem` on lists, as `freeWalk`, with the ends as the code computes them. -/
def freeWalk32 (x : Block) : Option Block → List Block → List Block → Option (List Block)
  | _, done, [] => some done
  | prev, done, b :: rest =>
    if InsertsAt32 x prev b then
      if x.stop = b.addr then
        -- `b` is the last node: behind the merge `m = prev->next` is null
        if rest = [] then none
        else
          freeWalk32 x (some (merge32 x b))
            (relinkBlock x (merge32 x b).pages (relinkBlock x x.pages done)) rest
      else
        freeWalk32 x (some (absorb32 x b)) (relinkBlock x x.pages done ++ [absorb32 x b]) rest
    else if x.stop = b.addr then
      let y := absorb32 x (merge32 x b)
      freeWalk32 x (some y) (relinkBlock x y.pages done) rest
    else freeWalk32 x (some (absorb32 x b)) (done ++ [absorb32 x b]) rest

/-! ## Relinking -/

section Front

variable {x b : Block} {done : List Block}

theorem front_sublist : (front x done).Sublist done := List.takeWhile_sublist _

theorem addr_ne_of_mem_front (h : b ∈ front x done) : b.addr ≠ x.addr := by
  have hb := List.mem_takeWhile_imp h
  simpa using hb

theorem front_eq_self (h : ∀ b ∈ done, b.addr ≠ x.addr) : front x done = done := by
  rw [front, List.takeWhile_eq_self_iff]
  exact fun b hb ↦ decide_eq_true (h b hb)

theorem front_append {pages : ℕ} {mid : List Block} :
    front x (front x done ++ ⟨x.addr, pages⟩ :: mid) = front x done := by
  conv_lhs => rw [front]
  rw [List.takeWhile_append_of_pos fun b hb ↦ decide_eq_true (addr_ne_of_mem_front hb)]
  simp

end Front

theorem map_relinkBlock (x : Block) (pages : ℕ) (done : List Block) :
    (relinkBlock x pages done).map addr = relink x.addr (done.map addr) := by
  rw [relinkBlock, relink, List.map_append, List.takeWhile_map]
  rfl

/-- What the two insertions and the merge with the next block leave behind: `prev` leads to the
node of `x`, and that node to `rest'`. -/
private theorem Walk.relinked {mem mem' : Memory} {done rest rest' : List Block} {prev : Place}
    {x : Block} {pages : ℕ} (h : Walk mem done prev rest) (hx : x.addr ≠ 0)
    (hprev : mem'.next prev = x.addr ∨ prev = some x.addr)
    (hsame : ∀ r, r ≠ prev → r ≠ some x.addr → mem'.next r = mem.next r)
    (hpages : ∀ a, a ≠ x.addr → (mem'.node (some a)).pages = (mem.node (some a)).pages)
    (hxpages : (mem'.node (some x.addr)).pages = pages) (hsub : rest'.Sublist rest)
    (hxrest : ∀ b ∈ rest', b.addr ≠ x.addr)
    (htail : Tail mem.next 0 (mem'.next (some x.addr)) (rest'.map addr)) :
    Walk mem' (relinkBlock x pages done) (some x.addr) rest' where
  seg := by
    rw [map_relinkBlock]
    exact h.seg.relink h.nodup_done (by simp) hprev hsame
  tail := by
    refine htail.congr fun a ha ↦ ?_
    obtain ⟨b, hb, rfl⟩ := List.mem_map.mp ha
    exact hsame _ (h.prev_ne b (hsub.subset hb)).symm fun hba ↦
      hxrest b hb (Option.some_injective _ hba)
  pages := by
    intro b hb
    rw [relinkBlock, List.append_assoc, List.mem_append] at hb
    rcases hb with hb | hb
    · have hbdone : b ∈ done := front_sublist.subset hb
      rw [hpages _ (addr_ne_of_mem_front hb), h.pages b (List.mem_append_left _ hbdone)]
    · rcases List.mem_cons.mp hb with rfl | hb
      · exact hxpages
      · rw [hpages _ (hxrest b hb), h.pages b (List.mem_append_right _ (hsub.subset hb))]
  addr_pos := by
    intro b hb
    rw [relinkBlock, List.mem_append, List.mem_singleton] at hb
    rcases hb with hb | rfl
    · exact h.addr_pos b (front_sublist.subset hb)
    · exact hx
  nodup := by
    rw [relinkBlock, List.append_assoc, List.singleton_append]
    refine nodup_middle (h.nodup.sublist ((front_sublist.append hsub).map addr)) ?_
    intro b hb
    rcases List.mem_append.mp hb with hb | hb
    · exact addr_ne_of_mem_front hb
    · exact hxrest b hb

/-! ## The tests of the loop body

Each lemma below is about one test, met with the walk standing on a node: what it leaves in memory
and in `m`. The conditions on `x` and on the node are those of a block that is not in the list. -/

/-- The freed block and a node of the list it is freed into. -/
private structure Meets (x b : Block) : Prop where
  x_valid : x.Valid
  b_valid : b.Valid
  apart : Apart b x
  x_small : x.pages < 2 ^ 20

private theorem Meets.addr_ne {x b : Block} (h : Meets x b) : b.addr ≠ x.addr :=
  h.apart.addr_ne h.b_valid h.x_valid

private theorem blockEnd_block {b : Block} (hb : b.Valid) (hs : b.pages < 2 ^ 20) :
    blockEnd b.addr b.pages = b.stop := blockEnd_eq hs hb.stop_lt

/-- The end of the block that has taken over another does not wrap. -/
private theorem le_blockEnd_merge {x b : Block} (hb : b.Valid) (hstop : x.stop = b.addr) :
    x.addr ≤ blockEnd x.addr (merge32 x b).pages := by
  have hlt := hb.stop_lt
  simp only [stop] at hstop hlt
  simp only [blockEnd, bytesOf, merge32]
  omega

/-- Not even if it takes itself over, as it does when its size is a multiple of 4 GiB. -/
private theorem le_blockEnd_absorb {x b : Block} (hx : x.Valid) (hb : b.Valid)
    (hstop : x.stop = b.addr) :
    x.addr ≤ blockEnd x.addr (absorb32 x (merge32 x b)).pages := by
  have hlt := hx.stop_lt
  have hle := le_blockEnd_merge hb hstop
  rw [absorb32]
  simp only [show (merge32 x b).addr = x.addr from rfl]
  split_ifs with heq
  · rw [blockEnd, bytesOf] at heq
    rw [blockEnd, bytesOf]
    simp only [stop] at hlt
    omega
  · exact hle

section Tests

variable {mem : Memory} {done rest : List Block} {prev : Place} {b x : Block}

/-- A store to the page count of the node passed last. -/
private theorem Walk.setPages_last {a n : ℕ} (h : Walk mem (done ++ [⟨a, n⟩]) (some a) rest)
    (m : ℕ) : Walk (mem.setPages (some a) m) (done ++ [⟨a, m⟩]) (some a) rest := by
  have hmap : (done ++ [(⟨a, m⟩ : Block)]).map addr = (done ++ [(⟨a, n⟩ : Block)]).map addr := by
    simp
  have hnd := h.nodup
  rw [List.append_assoc, List.map_append, List.singleton_append, List.map_cons,
    List.nodup_append, List.nodup_cons] at hnd
  have hne : ∀ b ∈ done ++ rest, (some b.addr : Place) ≠ some a := by
    intro b hb hba
    have hba := Option.some_injective _ hba
    rcases List.mem_append.mp hb with hb | hb
    · exact hnd.2.2 _ (List.mem_map_of_mem hb) _ List.mem_cons_self hba
    · exact hnd.2.1.1 (List.mem_map.mpr ⟨b, hb, hba⟩)
  have hpages : ∀ b ∈ done ++ rest, (mem.node (some b.addr)).pages = b.pages := by
    intro b hb
    refine h.pages b ?_
    rw [List.append_assoc, List.mem_append]
    exact (List.mem_append.mp hb).imp id (List.mem_cons_of_mem _)
  refine ⟨?_, ?_, ?_, ?_, ?_⟩
  · rw [hmap]
    exact h.seg.congr h.nodup_done fun r _ _ ↦ Memory.next_setPages ..
  · rw [Memory.next_setPages]
    exact h.tail.congr fun b _ ↦ Memory.next_setPages ..
  · intro b hb
    rw [List.append_assoc, List.mem_append, List.singleton_append, List.mem_cons] at hb
    rw [Memory.pages_setPages]
    rcases hb with hb | rfl | hb
    · rw [if_neg (hne b (List.mem_append_left _ hb))]
      exact hpages b (List.mem_append_left _ hb)
    · rw [if_pos rfl]
    · rw [if_neg (hne b (List.mem_append_right _ hb))]
      exact hpages b (List.mem_append_right _ hb)
  · intro b hb
    have haddr : b.addr ∈ (done ++ [(⟨a, n⟩ : Block)]).map addr := hmap ▸ List.mem_map_of_mem hb
    obtain ⟨c, hc, hcb⟩ := List.mem_map.mp haddr
    rw [← hcb]
    exact h.addr_pos c hc
  · rw [List.map_append, hmap, ← List.map_append]
    exact h.nodup

/-- The last test of the body, at a node that has just been passed. -/
private theorem Walk.freeMergePrev_last {b : Block} (h : Walk mem (done ++ [b]) (some b.addr) rest)
    (x : Block) : ∃ mem', freeMergePrev x.addr x.pages mem b.addr = .ok (mem', b.addr) ∧
      Walk mem' (done ++ [absorb32 x b]) (some b.addr) rest := by
  have hpages := h.pages b (by simp)
  rw [VimOS.freeMergePrev, if_neg (h.addr_pos b (by simp)), hpages, absorb32]
  split_ifs with hend
  · exact ⟨_, rfl, h.setPages_last (n := b.pages) _⟩
  · exact ⟨_, rfl, h⟩

private theorem freeMergeNext_of_ne (hne : blockEnd x.addr x.pages ≠ b.addr) :
    freeMergeNext x.addr x.pages mem prev b.addr = (mem, b.addr) := if_neg hne

/-- The block takes over the node that starts at its end. -/
private theorem Walk.freeMergeNext (h : Walk mem done prev (b :: rest)) (hm : Meets x b)
    (hxrest : ∀ c ∈ rest, c.addr ≠ x.addr) (hstop : x.stop = b.addr) :
    ∃ mem', freeMergeNext x.addr x.pages mem prev b.addr = (mem', mem'.next prev) ∧
      Walk mem' (relinkBlock x (merge32 x b).pages done) (some x.addr) rest ∧
      (prev ≠ some x.addr → mem'.next prev = x.addr) := by
  have hend : blockEnd x.addr x.pages = b.addr := by
    rw [blockEnd_block hm.x_valid hm.x_small, hstop]
  have hbx : (some b.addr : Place) ≠ some x.addr := by simpa using hm.addr_ne
  have hbprev : (some b.addr : Place) ≠ prev := (h.prev_ne b List.mem_cons_self).symm
  rw [VimOS.freeMergeNext, if_pos hend]
  refine ⟨_, rfl, ?_, ?_⟩
  · simp only [Memory.next_setNext, if_neg hbprev, Memory.pages_setNext, h.pages_head]
    refine h.relinked hm.x_valid.addr_pos.ne' ?_ ?_ ?_ ?_ (List.sublist_cons_self b rest) hxrest ?_
    · by_cases hprev : prev = some x.addr
      · exact .inr hprev
      · left
        simp [hprev]
    · intro r hr hrx
      simp [hr, hrx]
    · intro a ha
      simp [ha]
    · simp [merge32]
    · simpa using h.tail.2.2
  · intro hprev
    simp [hprev]

/-- The test at the start of the loop body that can link the block in front of `b`: `freeFirst` at
the header, `freeBehind` at a node. -/
private def Fires (x b : Block) (mem : Memory) : Place → Prop
  | none => x.addr < b.addr
  | some a => blockEnd a (mem.node (some a)).pages < x.addr

/-- The rest of the loop body does nothing once the block has been linked: `m` is its node now. -/
private theorem freeBody_of_linked {mem' : Memory} (hx : x.Valid) (hs : x.pages < 2 ^ 20)
    (hpages : (mem'.node (some x.addr)).pages = x.pages) (m : ℕ)
    (h : freeBehind x.addr x.pages (freeFirst x.addr x.pages mem prev m).1 prev
      (freeFirst x.addr x.pages mem prev m).2 = (mem', x.addr)) :
    freeBody x.addr x.pages mem prev m = .ok (mem', x.addr) := by
  have hpos := hx.pages_pos
  have hend : blockEnd x.addr x.pages ≠ x.addr := by
    rw [blockEnd_block hx hs, stop]
    omega
  simp only [freeBody, h]
  rw [VimOS.freeMergeNext, if_neg hend, VimOS.freeMergePrev, if_neg hx.addr_pos.ne', hpages,
    if_neg hend]

/-- The two insertions, at a node the block is to be linked in front of. -/
private theorem Walk.insert (h : Walk mem done prev (b :: rest)) (hm : Meets x b)
    (hxrest : ∀ c ∈ rest, c.addr ≠ x.addr) (hprev : prev ≠ some x.addr)
    (hfires : Fires x b mem prev) :
    ∃ mem', freeBody x.addr x.pages mem prev b.addr = .ok (mem', x.addr) ∧
      Walk mem' (relinkBlock x x.pages done) (some x.addr) (b :: rest) := by
  have hx0 := hm.x_valid.addr_pos.ne'
  have hxb : ∀ c ∈ b :: rest, c.addr ≠ x.addr := by
    intro c hc
    rcases List.mem_cons.mp hc with rfl | hc
    · exact hm.addr_ne
    · exact hxrest c hc
  cases prev with
  | none =>
    refine ⟨_, freeBody_of_linked hm.x_valid hm.x_small ?_ b.addr
      (by rw [freeFirst, if_pos ⟨rfl, hfires⟩, freeBehind]), ?_⟩
    · simp
    · refine h.relinked hx0 (.inl ?_) ?_ ?_ ?_ (List.Sublist.refl _) hxb ?_
      · simp
      · intro r hr hrx
        simp [hr, hrx]
      · intro a ha
        simp [ha]
      · simp
      · have htail := h.tail
        rw [h.next_cons] at htail
        simpa using htail
  | some a =>
    refine ⟨_, freeBody_of_linked hm.x_valid hm.x_small ?_ b.addr
      (by rw [freeFirst, if_neg (by simp), freeBehind]; exact if_pos hfires), ?_⟩
    · simp
    · have hax : (some x.addr : Place) ≠ some a := hprev.symm
      refine h.relinked hx0 (.inl ?_) ?_ ?_ ?_ (List.Sublist.refl _) hxb ?_
      · simp
      · intro r hr hrx
        simp [hr, hrx]
      · intro c hc
        simp [hc]
      · simp
      · simpa [hax] using h.tail

/-- Where neither insertion fires, the body is its two merging tests. -/
private theorem freeBody_of_not_fires (hnot : ¬Fires x b mem prev) :
    freeBody x.addr x.pages mem prev b.addr
      = freeMergePrev x.addr x.pages (freeMergeNext x.addr x.pages mem prev b.addr).1
          (freeMergeNext x.addr x.pages mem prev b.addr).2 := by
  cases prev with
  | none =>
    rw [freeBody, freeFirst, if_neg fun h ↦ hnot h.2]
    rfl
  | some a =>
    rw [freeBody, freeFirst, if_neg (by simp)]
    simp only [freeBehind, if_neg (show ¬blockEnd a (mem.node (some a)).pages < x.addr from hnot)]

/-- The merging tests at a node that the block does not end at. -/
private theorem Walk.pass (h : Walk mem done prev (b :: rest)) (hm : Meets x b)
    (hnot : ¬Fires x b mem prev) (hstop : x.stop ≠ b.addr) :
    ∃ mem', freeBody x.addr x.pages mem prev b.addr = .ok (mem', b.addr) ∧
      Walk mem' (done ++ [absorb32 x b]) (some b.addr) rest := by
  rw [freeBody_of_not_fires hnot, freeMergeNext_of_ne]
  · exact h.advance.freeMergePrev_last x
  · rwa [blockEnd_block hm.x_valid hm.x_small]

/-- The merging tests at a node that the block ends at, the block not being linked right there. -/
private theorem Walk.takeOver (h : Walk mem done prev (b :: rest)) (hm : Meets x b)
    (hxrest : ∀ c ∈ rest, c.addr ≠ x.addr) (hnot : ¬Fires x b mem prev) (hstop : x.stop = b.addr)
    (hprev : prev ≠ some x.addr) :
    ∃ mem', freeBody x.addr x.pages mem prev b.addr = .ok (mem', x.addr) ∧
      Walk mem' (relinkBlock x (absorb32 x (merge32 x b)).pages done) (some x.addr) rest := by
  obtain ⟨mem', hrun, hw, hm'⟩ := h.freeMergeNext hm hxrest hstop
  rw [freeBody_of_not_fires hnot, hrun, hm' hprev]
  exact hw.freeMergePrev_last (b := merge32 x b) x

/-- The same with the block linked right there and no node behind: `m` becomes null. -/
private theorem Walk.takeOver_last (h : Walk mem done (some x.addr) [b]) (hm : Meets x b)
    (hnot : ¬Fires x b mem (some x.addr)) (hstop : x.stop = b.addr) :
    freeBody x.addr x.pages mem (some x.addr) b.addr = .error .null := by
  obtain ⟨mem', hrun, hw, -⟩ := h.freeMergeNext hm (by simp) hstop
  rw [freeBody_of_not_fires hnot, hrun, hw.next_nil]
  rfl

/-- The same with a node behind: the body goes on to let that node take the block over. -/
private theorem Walk.takeOver_cons {c : Block} (h : Walk mem done (some x.addr) (b :: c :: rest))
    (hm : Meets x b) (hc : Meets x c) (hxrest : ∀ c ∈ rest, c.addr ≠ x.addr)
    (hnot : ¬Fires x b mem (some x.addr)) (hstop : x.stop = b.addr) :
    ∃ mem', freeBody x.addr x.pages mem (some x.addr) b.addr = .ok (mem', c.addr) ∧
      Walk mem' (relinkBlock x (merge32 x b).pages done ++ [absorb32 x c]) (some c.addr) rest := by
  have hxrest' : ∀ d ∈ c :: rest, d.addr ≠ x.addr := by
    intro d hd
    rcases List.mem_cons.mp hd with rfl | hd
    · exact hc.addr_ne
    · exact hxrest d hd
  obtain ⟨mem', hrun, hw, -⟩ := h.freeMergeNext hm hxrest' hstop
  rw [freeBody_of_not_fires hnot, hrun, hw.next_cons]
  exact hw.advance.freeMergePrev_last x

end Tests

/-! ## The nodes that are touched -/

/-- The nodes whose fields one execution of the body reads or writes, with that of the step of the
loop; `some 0` stands for a null pointer that is followed. -/
def bodyTouched (ptr pages : ℕ) (mem : Memory) (prev : Place) (m : ℕ) : List Place :=
  let r₁ := freeFirst ptr pages mem prev m
  let r₂ := freeBehind ptr pages r₁.1 prev r₁.2
  let r₃ := freeMergeNext ptr pages r₂.1 prev r₂.2
  (if prev = none ∧ ptr < m then [prev, some ptr] else []) ++
    (if prev = none then []
      else if blockEnd (prev.getD 0) (r₁.1.node prev).pages < ptr then [prev, some ptr]
      else [prev]) ++
    (if blockEnd ptr pages = r₂.2 then [prev, some ptr, some r₂.2] else []) ++ [some r₃.2]

/-- The nodes the loop touches. -/
def freeTouched (ptr pages : ℕ) : ℕ → Memory → Place → ℕ → List Place
  | 0, _, _, _ => []
  | fuel + 1, mem, prev, m =>
    if m = 0 then []
    else bodyTouched ptr pages mem prev m ++
      match freeBody ptr pages mem prev m with
      | .error _ => []
      | .ok (mem, m) => freeTouched ptr pages fuel mem (some m) (mem.next (some m))

section Touched

variable {ptr pages m m' : ℕ} {mem mem' : Memory} {prev q : Place}

theorem freeBehind_freeFirst (ptr pages : ℕ) (mem : Memory) (prev : Place) (m : ℕ) :
    (freeBehind ptr pages (freeFirst ptr pages mem prev m).1 prev
        (freeFirst ptr pages mem prev m).2).2 = m ∨
      (freeBehind ptr pages (freeFirst ptr pages mem prev m).1 prev
        (freeFirst ptr pages mem prev m).2).2 = ptr := by
  cases prev with
  | none =>
    simp only [freeFirst, freeBehind]
    split_ifs
    · exact .inr rfl
    · exact .inl rfl
  | some a =>
    have hfirst : freeFirst ptr pages mem (some a) m = (mem, m) := if_neg (by simp)
    rw [hfirst, freeBehind]
    split_ifs
    · exact .inr rfl
    · exact .inl rfl

/-- A body that goes on touches the nodes of its pointers. -/
theorem mem_bodyTouched (h : freeBody ptr pages mem prev m = .ok (mem', m'))
    (hq : q ∈ bodyTouched ptr pages mem prev m) :
    q = prev ∨ q = some ptr ∨ q = some m ∨ q = some m' := by
  have hm' : (freeMergeNext ptr pages
      (freeBehind ptr pages (freeFirst ptr pages mem prev m).1 prev
        (freeFirst ptr pages mem prev m).2).1 prev
      (freeBehind ptr pages (freeFirst ptr pages mem prev m).1 prev
        (freeFirst ptr pages mem prev m).2).2).2 = m' := by
    simp only [freeBody, freeMergePrev] at h
    split_ifs at h <;> simp_all
  have hr₂ := freeBehind_freeFirst ptr pages mem prev m
  simp only [bodyTouched, List.mem_append, List.mem_singleton] at hq
  rw [hm'] at hq
  rcases hq with ((hq | hq) | hq) | hq
  · split_ifs at hq
    · rcases List.mem_pair.mp hq with hq | hq
      · exact .inl hq
      · exact .inr (.inl hq)
    · exact absurd hq List.not_mem_nil
  · split_ifs at hq
    · exact absurd hq List.not_mem_nil
    · rcases List.mem_pair.mp hq with hq | hq
      · exact .inl hq
      · exact .inr (.inl hq)
    · exact .inl (List.mem_singleton.mp hq)
  · split_ifs at hq
    · rw [List.mem_cons, List.mem_pair] at hq
      rcases hq with hq | hq | hq
      · exact .inl hq
      · exact .inr (.inl hq)
      · rcases hr₂ with hr₂ | hr₂
        · exact .inr (.inr (.inl (hr₂ ▸ hq)))
        · exact .inr (.inl (hr₂ ▸ hq))
    · exact absurd hq List.not_mem_nil
  · exact .inr (.inr (.inr hq))

theorem null_mem_bodyTouched (h : freeBody ptr pages mem prev m = .error .null) :
    some 0 ∈ bodyTouched ptr pages mem prev m := by
  have hnull : (freeMergeNext ptr pages
      (freeBehind ptr pages (freeFirst ptr pages mem prev m).1 prev
        (freeFirst ptr pages mem prev m).2).1 prev
      (freeBehind ptr pages (freeFirst ptr pages mem prev m).1 prev
        (freeFirst ptr pages mem prev m).2).2).2 = 0 := by
    simp only [freeBody, freeMergePrev] at h
    split_ifs at h with hzero
    exact hzero
  rw [bodyTouched]
  exact List.mem_append_right _ (List.mem_singleton.mpr (congrArg some hnull.symm))

end Touched

/-! ## The loop -/

/-- The test for linking, made on the node `prev` in memory, is the test on the block `prev₀` passed
last; and once the walk stands on the node of `x`, no later node starts at the end of `x`. -/
private structure Agrees (x : Block) (mem : Memory) (prev : Place) (prev₀ : Option Block)
    (rest : List Block) : Prop where
  fires : ∀ b, Fires x b mem prev ↔ InsertsAt32 x prev₀ b
  on_node : prev = some x.addr → (∀ b, ¬InsertsAt32 x prev₀ b) ∧ ∀ b ∈ rest, x.stop ≠ b.addr

private theorem not_fires_on_node {x b : Block} {mem : Memory} {pages : ℕ}
    (hpages : (mem.node (some x.addr)).pages = pages) (hle : x.addr ≤ blockEnd x.addr pages) :
    ¬Fires x b mem (some x.addr) := by
  rw [Fires, hpages, not_lt]
  exact hle

private theorem Agrees.pass {x b : Block} {mem : Memory} {done rest : List Block}
    (h : Walk mem (done ++ [absorb32 x b]) (some b.addr) rest) (hm : Meets x b) :
    Agrees x mem (some b.addr) (some (absorb32 x b)) rest := by
  have hpages := h.pages (absorb32 x b) (by simp)
  refine ⟨fun c ↦ ?_, fun hb ↦ absurd (Option.some_injective _ hb) hm.addr_ne⟩
  rw [Fires, InsertsAt32, ← hpages]
  rfl

/-- The walk stands on the node of `x`, which has taken over the node that `x` ends at. -/
private theorem Agrees.takeOver {x y b : Block} {mem : Memory} {done rest : List Block}
    (h : Walk mem (relinkBlock x y.pages done) (some x.addr) rest) (hy : y.addr = x.addr)
    (hle : x.addr ≤ blockEnd x.addr y.pages) (hstop : x.stop = b.addr)
    (hrest : ∀ c ∈ rest, b.addr ≠ c.addr) : Agrees x mem (some x.addr) (some y) rest := by
  have hpages : (mem.node (some x.addr)).pages = y.pages :=
    h.pages ⟨x.addr, y.pages⟩ (by simp [relinkBlock])
  have hins : ∀ c, ¬InsertsAt32 x (some y) c := fun c ↦ by
    rw [InsertsAt32, hy]
    exact not_lt.mpr hle
  refine ⟨fun c ↦ iff_of_false (not_fires_on_node hpages hle) (hins c), fun _ ↦ ⟨hins, ?_⟩⟩
  intro c hc
  rw [hstop]
  exact hrest c hc

private theorem freeLoop_ok {ptr pages fuel m m' : ℕ} {mem mem' : Memory} {prev : Place}
    (hm : m ≠ 0) (h : freeBody ptr pages mem prev m = .ok (mem', m')) :
    freeLoop ptr pages (fuel + 1) mem prev m
      = freeLoop ptr pages fuel mem' (some m') (mem'.next (some m')) := by
  rw [freeLoop, if_neg hm, h]

private theorem freeLoop_error {ptr pages fuel m : ℕ} {mem : Memory} {prev : Place} {e : Stop}
    (hm : m ≠ 0) (h : freeBody ptr pages mem prev m = .error e) :
    freeLoop ptr pages (fuel + 1) mem prev m = .error e := by
  rw [freeLoop, if_neg hm, h]

private theorem freeTouched_ok {ptr pages fuel m m' : ℕ} {mem mem' : Memory} {prev : Place}
    (hm : m ≠ 0) (h : freeBody ptr pages mem prev m = .ok (mem', m')) :
    freeTouched ptr pages (fuel + 1) mem prev m = bodyTouched ptr pages mem prev m ++
      freeTouched ptr pages fuel mem' (some m') (mem'.next (some m')) := by
  rw [freeTouched, if_neg hm, h]

/-- What the loop should come to, given the value of `freeWalk32`: it follows a null pointer, or
returns and has touched nodes of `S` only. -/
private def Computes (x : Block) (S : Set Place) (fuel : ℕ) (mem : Memory) (prev : Place) :
    Option (List Block) → Prop
  | none => freeLoop x.addr x.pages fuel mem prev (mem.next prev) = .error .null ∧
      some 0 ∈ freeTouched x.addr x.pages fuel mem prev (mem.next prev)
  | some L => ∃ mem', freeLoop x.addr x.pages fuel mem prev (mem.next prev) = .ok mem' ∧
      FreeList mem' L ∧ ∀ q ∈ freeTouched x.addr x.pages fuel mem prev (mem.next prev), q ∈ S

private theorem Computes.step {x b : Block} {S : Set Place} {fuel m' : ℕ} {mem mem' : Memory}
    {done rest : List Block} {prev : Place} {r : Option (List Block)}
    (hw : Walk mem done prev (b :: rest))
    (h : freeBody x.addr x.pages mem prev b.addr = .ok (mem', m'))
    (hS : prev ∈ S ∧ some x.addr ∈ S ∧ some b.addr ∈ S ∧ some m' ∈ S)
    (hr : Computes x S fuel mem' (some m') r) : Computes x S (fuel + 1) mem prev r := by
  have hm : mem.next prev ≠ 0 := hw.next_cons ▸ hw.head_ne_zero
  rw [← hw.next_cons] at h
  cases r with
  | none =>
    rw [Computes, freeLoop_ok hm h, freeTouched_ok hm h]
    exact ⟨hr.1, List.mem_append_right _ hr.2⟩
  | some L =>
    obtain ⟨mem'', hrun, hlist, htouched⟩ := hr
    rw [Computes, freeLoop_ok hm h, freeTouched_ok hm h]
    refine ⟨mem'', hrun, hlist, fun q hq ↦ ?_⟩
    rcases List.mem_append.mp hq with hq | hq
    · rcases mem_bodyTouched h hq with rfl | rfl | rfl | rfl
      · exact hS.1
      · exact hS.2.1
      · rw [hw.next_cons]
        exact hS.2.2.1
      · exact hS.2.2.2
    · exact htouched q hq

/-- **The loop of `free_mem` is `freeWalk32`**, by induction on the nodes still to come. Linking the
block costs an iteration of its own, so two per node suffice. -/
private theorem freeLoop_spec {x : Block} {S : Set Place} (hxS : some x.addr ∈ S) :
    ∀ {n : ℕ} {rest : List Block} {fuel : ℕ} {mem : Memory}
    {done : List Block} {prev : Place} {prev₀ : Option Block}, rest.length ≤ n →
    2 * rest.length < fuel → Walk mem done prev rest → (∀ b ∈ rest, Meets x b) →
    prev ∈ S → (∀ b ∈ rest, some b.addr ∈ S) →
    Agrees x mem prev prev₀ rest → Computes x S fuel mem prev (freeWalk32 x prev₀ done rest) := by
  intro n
  induction n with
  | zero =>
    intro rest fuel mem done prev prev₀ hn hfuel h _ _ _ _
    obtain rfl : rest = [] := List.length_eq_zero_iff.mp (Nat.le_zero.mp hn)
    obtain ⟨fuel, rfl⟩ := Nat.exists_eq_add_of_lt hfuel
    refine ⟨mem, ?_, by simpa using h.freeList, ?_⟩
    · simp [freeLoop, h.next_nil]
    · simp [freeTouched, h.next_nil]
  | succ n ih =>
    intro rest fuel mem done prev prev₀ hn hfuel h hm hprevS hrestS ha
    cases rest with
    | nil => exact ih (Nat.zero_le n) hfuel h hm hprevS hrestS ha
    | cons b rest =>
      rw [List.length_cons] at hn hfuel
      obtain ⟨fuel, rfl⟩ : ∃ f, fuel = f + 2 := ⟨fuel - 2, by omega⟩
      have hb := hm b List.mem_cons_self
      have hbS := hrestS b List.mem_cons_self
      have hrest : ∀ c ∈ rest, Meets x c := fun c hc ↦ hm c (List.mem_cons_of_mem _ hc)
      have hrestS : ∀ c ∈ rest, some c.addr ∈ S := fun c hc ↦
        hrestS c (List.mem_cons_of_mem _ hc)
      have hxrest : ∀ c ∈ rest, c.addr ≠ x.addr := fun c hc ↦ (hrest c hc).addr_ne
      have hdist : ∀ c ∈ rest, b.addr ≠ c.addr := by
        have hnd := h.nodup
        rw [List.map_append, List.nodup_append, List.map_cons, List.nodup_cons] at hnd
        intro c hc hbc
        exact hnd.2.1.1 (hbc ▸ List.mem_map_of_mem hc)
      rw [freeWalk32]
      by_cases hins : InsertsAt32 x prev₀ b
      · -- the first iteration links `x` in front of `b`, the second stands on the node of `x`
        have hprev : prev ≠ some x.addr := fun hp ↦ (ha.on_node hp).1 b hins
        obtain ⟨mem₁, hrun₁, h₁⟩ := h.insert hb hxrest hprev ((ha.fires b).mpr hins)
        have hnot₁ : ¬Fires x b mem₁ (some x.addr) :=
          not_fires_on_node (h₁.pages ⟨x.addr, x.pages⟩ (by simp [relinkBlock]))
            (le_blockEnd hb.x_valid.stop_lt)
        refine Computes.step h hrun₁ ⟨hprevS, hxS, hbS, hxS⟩ ?_
        rw [if_pos hins]
        by_cases hstop : x.stop = b.addr
        · rw [if_pos hstop]
          cases rest with
          | nil =>
            rw [if_pos rfl, Computes, h₁.next_cons]
            have herr := h₁.takeOver_last hb hnot₁ hstop
            refine ⟨freeLoop_error h.head_ne_zero herr, ?_⟩
            rw [freeTouched, if_neg h.head_ne_zero]
            exact List.mem_append_left _ (null_mem_bodyTouched herr)
          | cons c rest =>
            rw [if_neg (by simp)]
            have hc := hrest c List.mem_cons_self
            obtain ⟨mem₂, hrun₂, h₂⟩ := h₁.takeOver_cons hb hc
              (fun d hd ↦ hxrest d (List.mem_cons_of_mem _ hd)) hnot₁ hstop
            -- `freeWalk32` passes `c` next: nothing is linked there and `x` does not end there
            have hinsc : ¬InsertsAt32 x (some (merge32 x b)) c :=
              not_lt.mpr (le_blockEnd_merge hb.b_valid hstop)
            have hstopc : x.stop ≠ c.addr := hstop ▸ hdist c List.mem_cons_self
            rw [freeWalk32, if_neg hinsc, if_neg hstopc]
            refine Computes.step h₁ hrun₂ ⟨hxS, hxS, hbS, hrestS c List.mem_cons_self⟩ ?_
            rw [List.length_cons] at hn hfuel
            exact ih (by omega) (by omega) h₂ (fun d hd ↦ hrest d (List.mem_cons_of_mem _ hd))
              (hrestS c List.mem_cons_self) (fun d hd ↦ hrestS d (List.mem_cons_of_mem _ hd))
              (Agrees.pass h₂ hc)
        · rw [if_neg hstop]
          obtain ⟨mem₂, hrun₂, h₂⟩ := h₁.pass hb hnot₁ hstop
          refine Computes.step h₁ hrun₂ ⟨hxS, hxS, hbS, hbS⟩ ?_
          exact ih (by omega) (by omega) h₂ hrest hbS hrestS (Agrees.pass h₂ hb)
      · have hnot : ¬Fires x b mem prev := fun hf ↦ hins ((ha.fires b).mp hf)
        rw [if_neg hins]
        by_cases hstop : x.stop = b.addr
        · -- `x` takes `b` over, and the next iteration stands on the node of `x`
          rw [if_pos hstop]
          have hprev : prev ≠ some x.addr := fun hp ↦
            (ha.on_node hp).2 b List.mem_cons_self hstop
          obtain ⟨mem₁, hrun₁, h₁⟩ := h.takeOver hb hxrest hnot hstop hprev
          refine Computes.step h hrun₁ ⟨hprevS, hxS, hbS, hxS⟩ ?_
          exact ih (by omega) (by omega) h₁ hrest hxS hrestS
            (Agrees.takeOver h₁ rfl (le_blockEnd_absorb hb.x_valid hb.b_valid hstop) hstop hdist)
        · rw [if_neg hstop]
          obtain ⟨mem₁, hrun₁, h₁⟩ := h.pass hb hnot hstop
          refine Computes.step h hrun₁ ⟨hprevS, hxS, hbS, hbS⟩ ?_
          exact ih (by omega) (by omega) h₁ hrest hbS hrestS (Agrees.pass h₁ hb)

/-- The block `x` is freed into a list it lies apart from. -/
structure Freed (x : Block) (L : List Block) : Prop where
  valid : x.Valid
  list_valid : ∀ b ∈ L, b.Valid
  apart : ∀ b ∈ L, Apart b x
  list_apart : L.Pairwise Apart

theorem Freed.addr_ne {x : Block} {L : List Block} (h : Freed x L) : ∀ b ∈ L, b.addr ≠ x.addr :=
  fun b hb ↦ (h.apart b hb).addr_ne (h.list_valid b hb) h.valid

/-- The nodes a call may touch: the header, those of the list and that of the freed block. -/
def nodesOf (x : Block) (L : List Block) : Set Place :=
  {q | q = none ∨ (∃ b ∈ L, q = some b.addr) ∨ q = some x.addr}

/-- **`free_mem` on the list**, for blocks of any size. With fuel for two iterations a node, freeing
a block of less than `2 ^ 20` pages that lies apart from the free list follows a null pointer where
`freeWalk32` has no value, and otherwise returns, leaves the list `freeWalk32` computes and touches
only nodes of the list and that of the block. -/
theorem freeMem_spec32 {x : Block} {L : List Block} {mem : Memory} {fuel : ℕ} (h : FreeList mem L)
    (hf : Freed x L) (hs : x.pages < 2 ^ 20) (hfuel : 2 * L.length < fuel) :
    match freeWalk32 x none [] L with
    | none => freeMem fuel mem x.addr x.pages = .error .null ∧
        some 0 ∈ freeTouched x.addr x.pages fuel mem none (mem.next none)
    | some L' => ∃ mem', freeMem fuel mem x.addr x.pages = .ok mem' ∧ FreeList mem' L' ∧
        ∀ q ∈ freeTouched x.addr x.pages fuel mem none (mem.next none), q ∈ nodesOf x L := by
  have hm : ∀ b ∈ L, Meets x b := fun b hb ↦ ⟨hf.valid, hf.list_valid b hb, hf.apart b hb, hs⟩
  have ha : Agrees x mem none none L := ⟨fun _ ↦ Iff.rfl, fun hp ↦ absurd hp (by simp)⟩
  have hw : Walk mem [] none L := Walk.start h (nodup_addr hf.list_valid hf.list_apart)
  have hspec : Computes x (nodesOf x L) fuel mem none (freeWalk32 x none [] L) :=
    freeLoop_spec (.inr (.inr rfl)) le_rfl hfuel hw hm (.inl rfl)
      (fun b hb ↦ .inr (.inl ⟨b, hb, rfl⟩)) ha
  cases hr : freeWalk32 x none [] L with
  | none =>
    rw [hr] at hspec
    exact hspec
  | some L' =>
    rw [hr] at hspec
    exact hspec

/-! ## Sizes that stay small -/

section Small

variable {x b : Block}

private theorem absorb32_eq (hm : Meets x b) (hb : b.pages < 2 ^ 20)
    (hsum : b.stop = x.addr ∨ x.stop = b.addr → b.pages + x.pages < 2 ^ 20) :
    absorb32 x b = absorb x b := by
  rw [absorb32, absorb, blockEnd_block hm.b_valid hb]
  split_ifs with hstop
  · have hsize := hsum (.inl hstop)
    rw [Nat.mod_eq_of_lt (by omega)]
  · rfl

private theorem merge32_eq (hsum : b.pages + x.pages < 2 ^ 20) :
    merge32 x b = ⟨x.addr, x.pages + b.pages⟩ := by
  rw [merge32, Nat.mod_eq_of_lt (by omega)]

private theorem absorb32_merge32 (hm : Meets x b) (hstop : x.stop = b.addr)
    (hsum : b.pages + x.pages < 2 ^ 20) :
    absorb32 x (merge32 x b) = ⟨x.addr, x.pages + b.pages⟩ := by
  have hpos := hm.x_valid.pages_pos
  have hlt := hm.b_valid.stop_lt
  simp only [stop] at hstop hlt
  rw [merge32_eq hsum, absorb32]
  simp only [@blockEnd_eq x.addr (x.pages + b.pages) (by omega) (by omega)]
  rw [if_neg (by omega)]

private theorem insertsAt32_absorb (hm : Meets x b) (hb : b.pages < 2 ^ 20)
    (hsum : b.stop = x.addr ∨ x.stop = b.addr → b.pages + x.pages < 2 ^ 20) (c : Block) :
    InsertsAt x (some b) c ↔ InsertsAt32 x (some (absorb32 x b)) c := by
  have hlt := hm.b_valid.stop_lt
  have hxlt := hm.x_valid.stop_lt
  rw [absorb32_eq hm hb hsum, InsertsAt, InsertsAt32, absorb]
  split_ifs with hstop
  · have hsize := hsum (.inl hstop)
    simp only [stop] at hstop hlt hxlt ⊢
    rw [blockEnd_eq hsize (by omega)]
    omega
  · rw [blockEnd_block hm.b_valid hb]

/-- With sizes in range the ends are the exact ones. -/
private theorem freeWalk_eq {prev prev' : Option Block} {done rest : List Block}
    (hm : ∀ b ∈ rest, Meets x b ∧ b.pages < 2 ^ 20 ∧
      (b.stop = x.addr ∨ x.stop = b.addr → b.pages + x.pages < 2 ^ 20))
    (hprev : ∀ c, InsertsAt x prev c ↔ InsertsAt32 x prev' c) :
    freeWalk x prev done rest = freeWalk32 x prev' done rest := by
  induction rest generalizing prev prev' done with
  | nil => rfl
  | cons b rest ih =>
    obtain ⟨hb, hsmall, hsum⟩ := hm b List.mem_cons_self
    have ih : ∀ {prev prev' : Option Block} {done : List Block},
        (∀ c, InsertsAt x prev c ↔ InsertsAt32 x prev' c) →
          freeWalk x prev done rest = freeWalk32 x prev' done rest :=
      ih fun c hc ↦ hm c (List.mem_cons_of_mem _ hc)
    have hpass := insertsAt32_absorb hb hsmall hsum
    rw [freeWalk, freeWalk32]
    by_cases hins : InsertsAt x prev b
    · rw [if_pos ((hprev b).mp hins)]
      simp only [hins, true_and]
      by_cases hstop : x.stop = b.addr
      · rw [if_pos hstop, if_pos hstop]
        split_ifs with hnil
        · rfl
        · rw [merge32_eq (hsum (.inr hstop))]
          refine ih fun c ↦ iff_of_false ?_ ?_
          · simp only [InsertsAt, stop] at hstop ⊢
            omega
          · rw [← merge32_eq (hsum (.inr hstop))]
            exact not_lt.mpr (le_blockEnd_merge hb.b_valid hstop)
      · rw [if_neg hstop, if_neg hstop, ← absorb32_eq hb hsmall hsum]
        exact ih hpass
    · rw [if_neg fun h ↦ hins ((hprev b).mpr h)]
      simp only [hins, false_and, if_false]
      by_cases hstop : x.stop = b.addr
      · rw [if_pos hstop, if_pos hstop, absorb32_merge32 hb hstop (hsum (.inr hstop))]
        refine ih fun c ↦ iff_of_false ?_ ?_
        · simp only [InsertsAt, stop] at hstop ⊢
          omega
        · rw [← absorb32_merge32 hb hstop (hsum (.inr hstop))]
          exact not_lt.mpr (le_blockEnd_absorb hb.x_valid hb.b_valid hstop)
      · rw [if_neg hstop, if_neg hstop, ← absorb32_eq hb hsmall hsum]
        exact ih hpass

end Small

/-- **`free_mem` on the list.** With fuel for two iterations a node, freeing a block that lies apart
from the free list returns and leaves the list `freeWalk` computes, or follows a null pointer where
`freeWalk` has no value. -/
theorem freeMem_spec {x : Block} {L : List Block} {mem : Memory} {fuel : ℕ} (h : FreeList mem L)
    (hf : Freed x L) (hs : SizesOk x L) (hfuel : 2 * L.length < fuel) :
    match freeWalk x none [] L with
    | none => freeMem fuel mem x.addr x.pages = .error .null
    | some L' => ∃ mem', freeMem fuel mem x.addr x.pages = .ok mem' ∧ FreeList mem' L' := by
  have hspec := freeMem_spec32 h hf hs.1 hfuel
  have heq : freeWalk x none [] L = freeWalk32 x none [] L := by
    refine freeWalk_eq (fun b hb ↦ ⟨?_, hs.2 b hb⟩) fun c ↦ Iff.rfl
    exact ⟨hf.valid, hf.list_valid b hb, hf.apart b hb, hs.1⟩
  rw [heq]
  cases hr : freeWalk32 x none [] L with
  | none =>
    rw [hr] at hspec
    exact hspec.1
  | some L' =>
    rw [hr] at hspec
    obtain ⟨mem', hrun, hlist, -⟩ := hspec
    exact ⟨mem', hrun, hlist⟩

end VimOS
