import VimOS.Library.LinkedChain
import VimOS.Memory.MemList
import Mathlib.Order.CompletePartialOrder
import Mathlib.Order.Interval.Set.Disjoint

/-!
# Free lists in memory

`FreeList mem L` says that the nodes reachable from `memlist.next` are the blocks `L`, in this
order. The two functions of the allocator then become functions of the list: `takeFirst` for
`alloc_mem` and `freeWalk` for `free_mem`. Neither says what the allocator should do; `freeWalk` in
particular relinks the freed block as often as the loop does. What is gained is that pointers, fuel
and the order of stores are gone.
-/

namespace VimOS

open LinkedChain

/-- A range of pages, given by its address and its number of pages. -/
structure Block where
  addr : ℕ
  pages : ℕ
  deriving DecidableEq

namespace Block

/-- The first address behind the block. -/
def stop (b : Block) : ℕ := b.addr + 4096 * b.pages

/-- The addresses of the block's pages. -/
def bytes (b : Block) : Set ℕ := Set.Ico b.addr b.stop

/-- A block holds its own list node, so it has a page; it lies in the 64-bit address space and not
at `NULL`. -/
structure Valid (b : Block) : Prop where
  addr_pos : 0 < b.addr
  pages_pos : 0 < b.pages
  stop_lt : b.stop < 2 ^ 64

/-- One block lies entirely below the other. -/
def Apart (a b : Block) : Prop := a.stop ≤ b.addr ∨ b.stop ≤ a.addr

instance : Std.Symm Apart := ⟨fun _ _ h ↦ Or.symm h⟩

instance (a b : Block) : Decidable (Apart a b) := by
  unfold Apart
  infer_instance

theorem apart_iff_disjoint {a b : Block} (ha : a.Valid) (hb : b.Valid) :
    Apart a b ↔ Disjoint a.bytes b.bytes := by
  have hapos := ha.pages_pos
  have hbpos := hb.pages_pos
  rw [bytes, bytes, Set.Ico_disjoint_Ico, Apart]
  simp only [stop, min_le_iff, le_max_iff]
  omega

theorem Apart.addr_ne {a b : Block} (h : Apart a b) (ha : a.Valid) (hb : b.Valid) :
    a.addr ≠ b.addr := by
  have hapos := ha.pages_pos
  have hbpos := hb.pages_pos
  simp only [Apart, stop] at h
  omega

/-- What becomes of the list block `b` when `x` is freed: it takes `x` over if it ends at `x`. -/
def absorb (x b : Block) : Block :=
  if b.stop = x.addr then ⟨b.addr, b.pages + x.pages⟩ else b

@[simp] theorem absorb_addr (x b : Block) : (absorb x b).addr = b.addr := by
  rw [absorb]
  split <;> rfl

theorem absorb_of_ne {x b : Block} (h : b.stop ≠ x.addr) : absorb x b = b := if_neg h

end Block

open Block

/-- The nodes reachable from `memlist.next` are the blocks `L`, in order, with their page counts. -/
structure FreeList (mem : Memory) (L : List Block) : Prop where
  chain : Tail mem.next 0 (mem.next none) (L.map addr)
  pages : ∀ b ∈ L, (mem.node (some b.addr)).pages = b.pages

/-- A memory holds at most one free list. -/
theorem FreeList.unique {mem : Memory} {L M : List Block} (hL : FreeList mem L)
    (hM : FreeList mem M) : L = M := by
  have haddr : L.map addr = M.map addr := hL.chain.unique hM.chain
  refine List.ext_getElem (by simpa using congrArg List.length haddr) fun i hi hi' ↦ ?_
  have hat : (L.map addr)[i]? = (M.map addr)[i]? := by rw [haddr]
  rw [List.getElem?_map, List.getElem?_map, List.getElem?_eq_getElem hi,
    List.getElem?_eq_getElem hi', Option.map_some, Option.map_some, Option.some.injEq] at hat
  have hp := hL.pages _ (List.getElem_mem hi)
  rw [hat, hM.pages _ (List.getElem_mem hi')] at hp
  cases hb : L[i]
  cases hc : M[i]
  rw [hb, hc] at hat hp
  simp_all

theorem nodup_addr {L : List Block} (hL : ∀ b ∈ L, b.Valid) (hpw : L.Pairwise Apart) :
    (L.map addr).Nodup := by
  rw [List.Nodup, List.pairwise_map]
  exact hpw.imp_of_mem fun ha hb hab ↦ hab.addr_ne (hL _ ha) (hL _ hb)

theorem nodup_middle {A B : List Block} {c : Block} (h : ((A ++ B).map addr).Nodup)
    (hc : ∀ b ∈ A ++ B, b.addr ≠ c.addr) : ((A ++ c :: B).map addr).Nodup := by
  have hperm : ((c :: (A ++ B)).map addr).Perm ((A ++ c :: B).map addr) :=
    List.perm_middle.symm.map addr
  rw [← hperm.nodup_iff, List.map_cons, List.nodup_cons]
  refine ⟨fun hmem ↦ ?_, h⟩
  obtain ⟨b, hb, hbc⟩ := List.mem_map.mp hmem
  exact hc b hb hbc

/-! ## A walk in progress

The loops stand between two parts of the list: `done`, ending at `prev`, and `rest`, whose first
node is `m`. -/

/-- The state of a walk through the free list `done ++ rest`. -/
structure Walk (mem : Memory) (done : List Block) (prev : Place) (rest : List Block) : Prop where
  seg : Seg mem.next none (done.map addr) prev
  tail : Tail mem.next 0 (mem.next prev) (rest.map addr)
  pages : ∀ b ∈ done ++ rest, (mem.node (some b.addr)).pages = b.pages
  addr_pos : ∀ b ∈ done, b.addr ≠ 0
  nodup : ((done ++ rest).map addr).Nodup

namespace Walk

variable {mem mem' : Memory} {done rest : List Block} {prev : Place} {b x : Block}

theorem start {L : List Block} (h : FreeList mem L) (hnd : (L.map addr).Nodup) :
    Walk mem [] none L where
  seg := rfl
  tail := h.chain
  pages := h.pages
  addr_pos := by simp
  nodup := hnd

theorem freeList (h : Walk mem done prev rest) : FreeList mem (done ++ rest) where
  chain := by
    rw [List.map_append]
    refine h.seg.tail_append ?_ h.tail
    intro a ha
    obtain ⟨b, hb, rfl⟩ := List.mem_map.mp ha
    exact h.addr_pos b hb
  pages := h.pages

theorem next_cons (h : Walk mem done prev (b :: rest)) : mem.next prev = b.addr := h.tail.1

theorem head_ne_zero (h : Walk mem done prev (b :: rest)) : b.addr ≠ 0 :=
  h.next_cons ▸ h.tail.2.1

theorem next_nil (h : Walk mem done prev []) : mem.next prev = 0 := h.tail

theorem pages_head (h : Walk mem done prev (b :: rest)) :
    (mem.node (some b.addr)).pages = b.pages :=
  h.pages b (List.mem_append_right _ List.mem_cons_self)

/-- `prev` is the header or a walked block. -/
theorem prev_ne_some (h : Walk mem done prev rest) {a : ℕ} (ha : ∀ d ∈ done, d.addr ≠ a) :
    prev ≠ some a := by
  rintro rfl
  have hmem := h.seg.mem
  rw [List.mem_cons, List.mem_map] at hmem
  rcases hmem with hmem | ⟨_, hd, heq⟩
  · exact absurd hmem (by simp)
  · obtain ⟨d, hdone, rfl⟩ := List.mem_map.mp hd
    exact ha d hdone (Option.some_injective _ heq)

theorem prev_ne (h : Walk mem done prev rest) : ∀ c ∈ rest, prev ≠ some c.addr := by
  intro c hc
  refine h.prev_ne_some fun d hd ↦ ?_
  have hnd := h.nodup
  rw [List.map_append, List.nodup_append] at hnd
  exact hnd.2.2 _ (List.mem_map_of_mem hd) _ (List.mem_map_of_mem hc)

/-- The step `prev = m, m = m->next`. -/
theorem advance (h : Walk mem done prev (b :: rest)) :
    Walk mem (done ++ [b]) (some b.addr) rest where
  seg := by
    rw [List.map_append]
    exact h.seg.snoc h.next_cons
  tail := by
    have htail := h.tail.2.2
    exact htail
  pages := by simpa using h.pages
  addr_pos := by
    intro c hc
    rcases List.mem_append.mp hc with hc | hc
    · exact h.addr_pos c hc
    · rw [List.mem_singleton.mp hc]
      exact h.head_ne_zero
  nodup := by simpa using h.nodup

theorem nodup_done (h : Walk mem done prev rest) :
    (none :: (done.map addr).map some : List Place).Nodup := by
  have hnd := h.nodup
  rw [List.map_append, List.nodup_append] at hnd
  rw [List.nodup_cons]
  exact ⟨by simp, hnd.1.map (Option.some_injective _)⟩

/-- **Frame.** A store to `prev->next` and to nodes off the walked part replaces what is still to
come and leaves what is walked. -/
theorem update {rest' : List Block} (h : Walk mem done prev rest)
    (hnext : ∀ r ∈ (none :: (done.map addr).map some : List Place), r ≠ prev →
      mem'.next r = mem.next r)
    (hpages : ∀ b ∈ done, (mem'.node (some b.addr)).pages = (mem.node (some b.addr)).pages)
    (htail : Tail mem'.next 0 (mem'.next prev) (rest'.map addr))
    (hpages' : ∀ b ∈ rest', (mem'.node (some b.addr)).pages = b.pages)
    (hnd : ((done ++ rest').map addr).Nodup) : Walk mem' done prev rest' where
  seg := h.seg.congr h.nodup_done hnext
  tail := htail
  pages := by
    intro b hb
    rcases List.mem_append.mp hb with hb | hb
    · rw [hpages b hb]
      exact h.pages b (List.mem_append_left _ hb)
    · exact hpages' b hb
  addr_pos := h.addr_pos
  nodup := hnd

end Walk

/-! ## `alloc_mem` on the list -/

/-- The block handed out for `p` pages and the list left behind. -/
def takeFirst (p : ℕ) : List Block → Option (Block × List Block)
  | [] => none
  | b :: L =>
    if b.pages = p then some (b, L)
    else if p ≤ b.pages then some (⟨b.addr, p⟩, ⟨b.addr + 4096 * p, b.pages - p⟩ :: L)
    else (takeFirst p L).map fun r ↦ (r.1, b :: r.2)

/-- What `takeFirst` leaves of the block it takes from. -/
def remainder (p : ℕ) (b : Block) : List Block :=
  if b.pages = p then [] else [⟨b.addr + 4096 * p, b.pages - p⟩]

/-- The block handed out is the front of a block of the list, and what remains of it takes its
place. -/
theorem takeFirst_split {p : ℕ} {x : Block} : ∀ {L L' : List Block},
    takeFirst p L = some (x, L') → ∃ A b B, L = A ++ b :: B ∧ p ≤ b.pages ∧ x = ⟨b.addr, p⟩ ∧
      L' = A ++ remainder p b ++ B := by
  intro L
  induction L with
  | nil => intro L' h; rw [takeFirst] at h; exact absurd h (by simp)
  | cons b L ih =>
    intro L' h
    rw [takeFirst] at h
    by_cases heq : b.pages = p
    · rw [if_pos heq, Option.some_inj, Prod.mk.injEq] at h
      obtain ⟨rfl, rfl⟩ := h
      refine ⟨[], b, L, rfl, heq.ge, by rw [← heq], ?_⟩
      rw [remainder, if_pos heq]
      rfl
    · rw [if_neg heq] at h
      by_cases hle : p ≤ b.pages
      · rw [if_pos hle, Option.some_inj, Prod.mk.injEq] at h
        obtain ⟨rfl, rfl⟩ := h
        refine ⟨[], b, L, rfl, hle, rfl, ?_⟩
        rw [remainder, if_neg heq]
        rfl
      · rw [if_neg hle, Option.map_eq_some_iff] at h
        obtain ⟨⟨y, R⟩, hr, htake⟩ := h
        rw [Prod.mk.injEq] at htake
        obtain ⟨rfl, rfl⟩ := htake
        obtain ⟨A, c, B, rfl, hp, hy, rfl⟩ := ih hr
        exact ⟨b :: A, c, B, rfl, hp, hy, rfl⟩

/-- Unlinking the node the walk stands on. -/
private theorem Walk.unlink {mem : Memory} {done rest : List Block} {prev : Place} {b : Block}
    (h : Walk mem done prev (b :: rest)) :
    Walk (mem.setNext prev (mem.next (some b.addr))) done prev rest := by
  have hprev := h.prev_ne
  refine h.update ?_ ?_ ?_ ?_ ?_
  · intro r _ hr
    rw [Memory.next_setNext, if_neg hr]
  · simp
  · rw [Memory.next_setNext, if_pos rfl]
    refine Tail.congr h.tail.2.2 fun a ha ↦ ?_
    obtain ⟨c, hc, rfl⟩ := List.mem_map.mp ha
    rw [Memory.next_setNext, if_neg (hprev c (List.mem_cons_of_mem _ hc)).symm]
  · intro c hc
    rw [Memory.pages_setNext]
    exact h.pages c (List.mem_append_right _ (List.mem_cons_of_mem _ hc))
  · refine h.nodup.sublist ?_
    exact ((List.sublist_cons_self b rest).append_left done).map addr

/-- Splitting the node the walk stands on: its last pages stay in the list, headed by a new node. -/
private theorem Walk.split {mem : Memory} {done rest : List Block} {prev : Place} {b c : Block}
    (h : Walk mem done prev (b :: rest)) (hc : c.addr ≠ 0)
    (hfresh : ∀ d ∈ done ++ b :: rest, d.addr ≠ c.addr) :
    Walk (((mem.setNext prev c.addr).setNext (some c.addr) (mem.next (some b.addr))).setPages
      (some c.addr) c.pages) done prev (c :: rest) := by
  have hprev := h.prev_ne
  have hprevc : prev ≠ some c.addr :=
    h.prev_ne_some fun d hd ↦ hfresh d (List.mem_append_left _ hd)
  have hne : ∀ d ∈ done ++ b :: rest, some d.addr ≠ (some c.addr : Place) := fun d hd hdc ↦
    hfresh d hd (Option.some_injective _ hdc)
  refine h.update ?_ ?_ ?_ ?_ ?_
  · intro r hr hrp
    have hrc : r ≠ some c.addr := by
      rcases List.mem_cons.mp hr with rfl | hr
      · simp
      · obtain ⟨_, hd, rfl⟩ := List.mem_map.mp hr
        obtain ⟨d, hdone, rfl⟩ := List.mem_map.mp hd
        exact hne d (List.mem_append_left _ hdone)
    rw [Memory.next_setPages, Memory.next_setNext, if_neg hrc, Memory.next_setNext, if_neg hrp]
  · intro d hd
    rw [Memory.pages_setPages, if_neg (hne d (List.mem_append_left _ hd)), Memory.pages_setNext,
      Memory.pages_setNext]
  · rw [Memory.next_setPages, Memory.next_setNext, if_neg hprevc, Memory.next_setNext, if_pos rfl]
    refine ⟨rfl, hc, ?_⟩
    rw [Memory.next_setPages, Memory.next_setNext, if_pos rfl]
    refine Tail.congr h.tail.2.2 fun a ha ↦ ?_
    obtain ⟨d, hd, rfl⟩ := List.mem_map.mp ha
    have hd' := List.mem_cons_of_mem b hd
    rw [Memory.next_setPages, Memory.next_setNext,
      if_neg (hne d (List.mem_append_right _ hd')), Memory.next_setNext,
      if_neg (hprev d hd').symm]
  · intro d hd
    rw [Memory.pages_setPages]
    rcases List.mem_cons.mp hd with rfl | hd
    · rw [if_pos rfl]
    · have hd' := List.mem_append_right done (List.mem_cons_of_mem b hd)
      rw [if_neg (hne d hd'), Memory.pages_setNext, Memory.pages_setNext, h.pages d hd']
  · refine nodup_middle (h.nodup.sublist
      (((List.sublist_cons_self b rest).append_left done).map addr)) fun d hd ↦ hfresh d ?_
    rw [List.mem_append] at hd ⊢
    exact hd.imp id (List.mem_cons_of_mem b)

private theorem allocLoop_spec {p : ℕ} (hp : 0 < p) : ∀ {rest : List Block} {fuel : ℕ}
    {mem : Memory} {done : List Block} {prev : Place}, rest.length < fuel →
    Walk mem done prev rest → (∀ b ∈ done ++ rest, b.Valid ∧ (p ≤ b.pages → p < 2 ^ 20)) →
    (done ++ rest).Pairwise Apart →
    ∃ mem', allocLoop p fuel mem prev (mem.next prev)
        = .ok (mem', ((takeFirst p rest).map (·.1.addr)).getD 0) ∧
      FreeList mem' (done ++ ((takeFirst p rest).map Prod.snd).getD rest) := by
  intro rest
  induction rest with
  | nil =>
    intro fuel mem done prev hfuel hw _ _
    obtain ⟨fuel, rfl⟩ := Nat.exists_eq_add_of_lt hfuel
    rw [hw.next_nil]
    exact ⟨mem, by simp [allocLoop, takeFirst], by simpa [takeFirst] using hw.freeList⟩
  | cons b rest ih =>
    intro fuel mem done prev hfuel hw hv hpw
    obtain ⟨fuel, rfl⟩ : ∃ n, fuel = n + 1 := ⟨fuel - 1, by omega⟩
    rw [hw.next_cons, allocLoop, if_neg hw.head_ne_zero, hw.pages_head, takeFirst]
    by_cases heq : b.pages = p
    · rw [if_pos heq, if_pos heq]
      exact ⟨_, rfl, hw.unlink.freeList⟩
    · rw [if_neg heq, if_neg heq]
      by_cases hle : p ≤ b.pages
      · rw [if_pos hle, if_pos hle]
        obtain ⟨hbv, hb20⟩ := hv b (by simp)
        have hstop := hbv.stop_lt
        have hpos := hbv.addr_pos
        rw [stop] at hstop
        have hml : blockEnd b.addr p = b.addr + 4096 * p := blockEnd_eq (hb20 hle) (by omega)
        -- the new node lies inside `b`, behind its first page
        have hfresh : ∀ d ∈ done ++ b :: rest, d.addr ≠ b.addr + 4096 * p := by
          intro d hd
          by_cases hdb : d = b
          · rw [hdb]
            omega
          · have hap : Apart d b := hpw.forall hd (by simp) hdb
            have hdv := (hv d hd).1.pages_pos
            simp only [Apart, stop] at hap
            omega
        have hsplit := hw.split (c := ⟨b.addr + 4096 * p, b.pages - p⟩)
          (by simp only; omega) hfresh
        have hprev : some b.addr ≠ prev := (hw.prev_ne b List.mem_cons_self).symm
        have hbml : (some b.addr : Place) ≠ some (b.addr + 4096 * p) := by
          simpa using hp.ne'
        refine ⟨_, rfl, ?_⟩
        simpa [hml, hprev, hbml, hw.pages_head] using hsplit.freeList
      · rw [if_neg hle, if_neg hle]
        obtain ⟨mem', hrun, hfree⟩ := ih (Nat.lt_of_succ_lt_succ hfuel) hw.advance
          (by simpa using hv) (by simpa using hpw)
        refine ⟨mem', ?_, ?_⟩
        · rw [hrun]
          cases takeFirst p rest <;> rfl
        · cases ht : takeFirst p rest <;> simpa [ht] using hfree

/-- **`alloc_mem` on the list.** With fuel for one iteration a node the call returns; it hands out
what `takeFirst` takes and leaves the list `takeFirst` leaves, or returns `NULL` and changes
nothing. -/
theorem allocMem_spec {p fuel : ℕ} {mem : Memory} {L : List Block} (hp : 0 < p)
    (h : FreeList mem L) (hv : ∀ b ∈ L, b.Valid ∧ b.pages < 2 ^ 20) (hpw : L.Pairwise Apart)
    (hfuel : L.length < fuel) :
    ∃ mem', allocMem fuel mem p = .ok (mem', ((takeFirst p L).map (·.1.addr)).getD 0) ∧
      FreeList mem' (((takeFirst p L).map Prod.snd).getD L) := by
  have hw := Walk.start h (nodup_addr (fun b hb ↦ (hv b hb).1) hpw)
  exact allocLoop_spec hp hfuel hw
    (fun b hb ↦ ⟨(hv b hb).1, fun hle ↦ hle.trans_lt (hv b hb).2⟩) hpw

/-- The same with a bound on the request alone: the blocks of the list may be of any size. -/
theorem allocMem_spec_of_lt {p fuel : ℕ} {mem : Memory} {L : List Block} (hp : 0 < p)
    (hlt : p < 2 ^ 20) (h : FreeList mem L) (hv : ∀ b ∈ L, b.Valid) (hpw : L.Pairwise Apart)
    (hfuel : L.length < fuel) :
    ∃ mem', allocMem fuel mem p = .ok (mem', ((takeFirst p L).map (·.1.addr)).getD 0) ∧
      FreeList mem' (((takeFirst p L).map Prod.snd).getD L) := by
  have hw := Walk.start h (nodup_addr hv hpw)
  exact allocLoop_spec hp hfuel hw (fun b hb ↦ ⟨hv b hb, fun _ ↦ hlt⟩) hpw

end VimOS
