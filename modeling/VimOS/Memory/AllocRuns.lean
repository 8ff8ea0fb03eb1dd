import VimOS.Library.Run
import VimOS.Memory.Coalesced

/-!
# Runs of the allocator

The allocator's clients call `alloc_mem` and `free_mem` in any order, return what they were given,
and in between write to the pages they hold. `AllocInv` is the invariant of such runs: the blocks
handed out and the blocks of the list lie apart. `alloc_mem` keeps it always; `free_mem` keeps it
where the freed block meets `MergesApart`, loses no page where it meets `KeepsPages`, and gives back
the list of the start where it meets `Restores`. Each condition is one on the freed block and the
list before the call.
-/

namespace VimOS

open Block GuardedRun

/-- The allocator between two calls: memory, and the blocks handed out and not yet returned. -/
structure AllocState where
  mem : Memory
  live : List Block

/-- What a client does next. -/
inductive Call where
  | alloc (pages : ℕ)
  | free (b : Block)
  | write

/-- A call that returns, or a client's writes to the pages it holds. -/
inductive Step : AllocState → Call → AllocState → Prop
  | alloc {s : AllocState} {fuel pages ptr : ℕ} {mem : Memory} (hpages : 0 < pages)
      (h : allocMem fuel s.mem pages = .ok (mem, ptr)) (hptr : ptr ≠ 0) :
      Step s (.alloc pages) ⟨mem, ⟨ptr, pages⟩ :: s.live⟩
  | allocNull {s : AllocState} {fuel pages : ℕ} {mem : Memory} (hpages : 0 < pages)
      (h : allocMem fuel s.mem pages = .ok (mem, 0)) : Step s (.alloc pages) ⟨mem, s.live⟩
  | free {s : AllocState} {fuel : ℕ} {b : Block} {mem : Memory} (hb : b ∈ s.live)
      (h : freeMem fuel s.mem b.addr b.pages = .ok mem) :
      Step s (.free b) ⟨mem, s.live.erase b⟩
  /-- Only the 16 bytes of a node that meets a page in use may change. -/
  | write {s : AllocState} {mem : Memory} (hlist : mem.memlist = s.mem.memlist)
      (hheap : ∀ a, (∀ b ∈ s.live, Disjoint (Set.Ico a (a + 16)) b.bytes) →
        mem.heap a = s.mem.heap a) : Step s .write ⟨mem, s.live⟩

/-- What a run starts from: a list that is increasing and whose blocks do not overlap. -/
structure Initial (mem : Memory) (L : List Block) : Prop where
  freeList : FreeList mem L
  valid : ∀ b ∈ L, b.Valid
  pages_lt : ∀ b ∈ L, b.pages < 2 ^ 20
  sorted : L.Pairwise fun a b ↦ a.stop ≤ b.addr

/-- Each freed block meets `P` with the list before the call, and no block grows to `2 ^ 20`
pages. -/
def FreesMeet (P : Block → List Block → Prop) (s : AllocState) : Call → Prop
  | .free b => ∀ L, FreeList s.mem L → SizesOk b L ∧ P b L
  | _ => True

theorem FreesMeet.mono {P Q : Block → List Block → Prop} (hPQ : ∀ b L, P b L → Q b L)
    (s : AllocState) (c : Call) (h : FreesMeet P s c) : FreesMeet Q s c := by
  cases c with
  | free b => exact fun L hL ↦ ⟨(h L hL).1, hPQ b L (h L hL).2⟩
  | alloc pages => trivial
  | write => trivial

/-- The blocks in use and those of the list `L` lie apart. -/
structure AllocInv (s : AllocState) (L : List Block) : Prop where
  freeList : FreeList s.mem L
  valid : ∀ b ∈ s.live ++ L, b.Valid
  pages_lt : ∀ b ∈ s.live ++ L, b.pages < 2 ^ 20
  apart : (s.live ++ L).Pairwise Apart

theorem Initial.allocInv {mem : Memory} {L : List Block} (h : Initial mem L) :
    AllocInv ⟨mem, []⟩ L where
  freeList := h.freeList
  valid := h.valid
  pages_lt := h.pages_lt
  apart := h.sorted.imp .inl

/-! ## The parts of a block `alloc_mem` takes from -/

section Remainder

variable {p : ℕ} {b c : Block}

theorem mem_remainder (h : c ∈ remainder p b) :
    b.pages ≠ p ∧ c = ⟨b.addr + 4096 * p, b.pages - p⟩ := by
  rw [remainder] at h
  split_ifs at h with heq
  · exact absurd h (by simp)
  · exact ⟨heq, List.mem_singleton.mp h⟩

/-- What remains of a block starts behind the part taken and ends where the block ends. -/
theorem remainder_bounds (hp : p ≤ b.pages) (h : c ∈ remainder p b) :
    c.addr = b.addr + 4096 * p ∧ c.stop = b.stop ∧ 0 < c.pages ∧ c.pages ≤ b.pages := by
  obtain ⟨hne, rfl⟩ := mem_remainder h
  simp only [stop, true_and]
  omega

theorem remainder_pairwise {R : Block → Block → Prop} : (remainder p b).Pairwise R := by
  rw [remainder]
  split_ifs
  · exact List.Pairwise.nil
  · exact List.pairwise_singleton _ _

theorem bytes_split (hp : p ≤ b.pages) :
    cover (⟨b.addr, p⟩ :: remainder p b) = b.bytes := by
  by_cases heq : b.pages = p
  · rw [remainder, if_pos heq, ← heq, cover_cons]
    simp [cover, IntervalList.cover]
  · rw [remainder, if_neg heq, cover_cons, cover_cons]
    have hglue : (⟨b.addr, p⟩ : Block).glue ⟨b.addr + 4096 * p, b.pages - p⟩ = b := by
      obtain ⟨a, n⟩ := b
      simp only [glue, Block.mk.injEq, true_and] at hp ⊢
      omega
    have hglued := bytes_glue (a := ⟨b.addr, p⟩) (b := ⟨b.addr + 4096 * p, b.pages - p⟩) rfl
    rw [hglue] at hglued
    rw [hglued]
    simp [cover, IntervalList.cover]

/-- Blocks apart from one another and from `b` are apart when `b` is split. -/
theorem pairwise_split {M : List Block} (hp : 0 < p) (hle : p ≤ b.pages)
    (h : (b :: M).Pairwise Apart) :
    (⟨b.addr, p⟩ :: (remainder p b ++ M)).Pairwise Apart := by
  rw [List.pairwise_cons] at h
  have hfront : ∀ c ∈ M, Apart ⟨b.addr, p⟩ c := by
    intro c hc
    have hbc := h.1 c hc
    simp only [Apart, stop] at hbc ⊢
    omega
  have hback : ∀ r ∈ remainder p b, ∀ c ∈ M, Apart r c := by
    intro r hr c hc
    have hbc := h.1 c hc
    obtain ⟨haddr, hstop, -, -⟩ := remainder_bounds hle hr
    simp only [Apart, hstop, haddr] at hbc ⊢
    omega
  rw [List.pairwise_cons, List.pairwise_append]
  refine ⟨fun c hc ↦ ?_, remainder_pairwise, h.2, hback⟩
  rcases List.mem_append.mp hc with hc | hc
  · exact .inl (remainder_bounds hle hc).1.ge
  · exact hfront c hc

end Remainder

/-! ## One step -/

section Step

variable {s s' : AllocState} {L L' : List Block} {p : ℕ} {b x : Block}

/-- What `alloc_mem` takes and what it leaves, on the whole of the state. -/
theorem AllocInv.take (hi : AllocInv s L) (hp : 0 < p) (ht : takeFirst p L = some (x, L'))
    {mem : Memory} (hmem : FreeList mem L') : AllocInv ⟨mem, x :: s.live⟩ L' := by
  obtain ⟨A, b, B, rfl, hle, rfl, rfl⟩ := takeFirst_split ht
  have hb : b ∈ s.live ++ (A ++ b :: B) := by simp
  have hmid : ∀ c ∈ s.live ++ (A ++ B), c ∈ s.live ++ (A ++ b :: B) := by
    intro c hc
    simp only [List.mem_append, List.mem_cons] at hc ⊢
    tauto
  have hparts : ∀ c ∈ ⟨b.addr, p⟩ :: s.live ++ (A ++ remainder p b ++ B),
      c = ⟨b.addr, p⟩ ∨ c ∈ remainder p b ∨ c ∈ s.live ++ (A ++ B) := by
    intro c hc
    simp only [List.mem_append, List.mem_cons] at hc ⊢
    tauto
  have hbv := hi.valid b hb
  have hbstop := hbv.stop_lt
  refine ⟨hmem, fun c hc ↦ ?_, fun c hc ↦ ?_, ?_⟩
  · rcases hparts c hc with rfl | hc | hc
    · refine ⟨hbv.addr_pos, hp, ?_⟩
      simp only [stop] at hbstop ⊢
      omega
    · obtain ⟨haddr, hstop, hpos, -⟩ := remainder_bounds hle hc
      exact ⟨by rw [haddr]; exact Nat.add_pos_left hbv.addr_pos _, hpos, hstop ▸ hbstop⟩
    · exact hi.valid c (hmid c hc)
  · have hblt := hi.pages_lt b hb
    rcases hparts c hc with rfl | hc | hc
    · exact hle.trans_lt hblt
    · exact (remainder_bounds hle hc).2.2.2.trans_lt hblt
    · exact hi.pages_lt c (hmid c hc)
  · have hold : (b :: (s.live ++ (A ++ B))).Perm (s.live ++ (A ++ b :: B)) := by
      rw [← List.append_assoc, ← List.append_assoc]
      exact List.perm_middle.symm
    have hnew : (⟨b.addr, p⟩ :: (remainder p b ++ (s.live ++ (A ++ B)))).Perm
        (⟨b.addr, p⟩ :: s.live ++ (A ++ remainder p b ++ B)) := by
      refine List.Perm.cons _ ?_
      simpa using List.perm_append_comm_assoc (remainder p b) (s.live ++ A) B
    rw [← hnew.pairwise_iff fun h ↦ symm h]
    exact pairwise_split hp hle ((hold.pairwise_iff fun h ↦ symm h).mpr hi.apart)

/-- A block in use can be freed into the list. -/
theorem AllocInv.freed (hi : AllocInv s L) (hb : b ∈ s.live) : Freed b L where
  valid := hi.valid b (List.mem_append_left _ hb)
  list_valid := fun c hc ↦ hi.valid c (List.mem_append_right _ hc)
  apart := fun c hc ↦ symm ((List.pairwise_append.mp hi.apart).2.2 b hb c hc)
  list_apart := (List.pairwise_append.mp hi.apart).2.1

theorem AllocInv.give (hi : AllocInv s L) (hb : b ∈ s.live) (hs : SizesOk b L)
    (hw : freeWalk b none [] L = some L') (hpw : L'.Pairwise Apart) {mem : Memory}
    (hmem : FreeList mem L') : AllocInv ⟨mem, s.live.erase b⟩ L' := by
  have hf := hi.freed hb
  have hperm : (b :: (s.live.erase b ++ L)).Perm (s.live ++ L) :=
    (List.perm_cons_erase hb).symm.append_right L
  have hsub : ∀ c ∈ s.live.erase b ++ L, c ∈ s.live ++ L := fun c hc ↦
    hperm.subset (List.mem_cons_of_mem b hc)
  have hapart := (hperm.pairwise_iff fun h ↦ symm h).mpr hi.apart
  rw [List.pairwise_cons, List.pairwise_append] at hapart
  obtain ⟨hbapart, hlive, -, hcross⟩ := hapart
  refine ⟨hmem, fun c hc ↦ ?_, fun c hc ↦ ?_, List.pairwise_append.mpr ⟨hlive, hpw, ?_⟩⟩
  · rcases List.mem_append.mp hc with hc | hc
    · exact hi.valid c (hsub c (List.mem_append_left _ hc))
    · exact freeWalk_valid hf hw c hc
  · rcases List.mem_append.mp hc with hc | hc
    · exact hi.pages_lt c (hsub c (List.mem_append_left _ hc))
    · exact freeWalk_pages_lt hf hs hw c hc
  · intro c hc
    have hcl : c ∈ s.live.erase b ++ L := List.mem_append_left _ hc
    exact freeWalk_apart hf hw (hi.valid c (hsub c hcl)) (symm (hbapart c hcl)) (hcross c hc)

/-- The blocks in use are off limits to nobody but their holders: a write to them leaves the list as
it is. -/
theorem AllocInv.write (hi : AllocInv s L) {mem : Memory} (hlist : mem.memlist = s.mem.memlist)
    (hheap : ∀ a, (∀ b ∈ s.live, Disjoint (Set.Ico a (a + 16)) b.bytes) →
      mem.heap a = s.mem.heap a) : AllocInv ⟨mem, s.live⟩ L := by
  have hnode : ∀ b ∈ L, mem.heap b.addr = s.mem.heap b.addr := by
    intro b hb
    refine hheap _ fun c hc ↦ ?_
    have hbpos := (hi.valid b (List.mem_append_right _ hb)).pages_pos
    have happ : Apart c b := (List.pairwise_append.mp hi.apart).2.2 c hc b hb
    rw [bytes, Set.Ico_disjoint_Ico]
    simp only [Apart, stop, min_le_iff, le_max_iff] at happ ⊢
    omega
  refine ⟨⟨?_, fun b hb ↦ ?_⟩, hi.valid, hi.pages_lt, hi.apart⟩
  · have hnext : mem.next none = s.mem.next none := congrArg MemList.next hlist
    rw [hnext]
    refine hi.freeList.chain.congr fun a ha ↦ ?_
    obtain ⟨b, hb, rfl⟩ := List.mem_map.mp ha
    exact congrArg MemList.next (hnode b hb)
  · rw [← hi.freeList.pages b hb]
    exact congrArg MemList.pages (hnode b hb)

end Step

/-! ## The allocator as two lists

What remains of the allocator when memory is forgotten: the blocks in use and the blocks of the
list. `Step.listStep` and `ListStep.step` say that nothing else matters for what a call does. -/

/-- A step on the blocks in use and the list. -/
inductive ListStep : List Block → List Block → Call → List Block → List Block → Prop
  | take {live L L' : List Block} {p : ℕ} {x : Block} (hp : 0 < p)
      (h : takeFirst p L = some (x, L')) : ListStep live L (.alloc p) (x :: live) L'
  | full {live L : List Block} {p : ℕ} (hp : 0 < p) (h : takeFirst p L = none) :
      ListStep live L (.alloc p) live L
  | give {live L L' : List Block} {b : Block} (hb : b ∈ live)
      (h : freeWalk b none [] L = some L') : ListStep live L (.free b) (live.erase b) L'
  | write {live L : List Block} : ListStep live L .write live L

section Refinement

variable {s s' : AllocState} {L L' live' : List Block} {c : Call}

private theorem AllocInv.allocMem (hi : AllocInv s L) {p : ℕ} (hp : 0 < p) :
    ∃ mem, allocMem (L.length + 1) s.mem p
        = .ok (mem, ((takeFirst p L).map (·.1.addr)).getD 0) ∧
      FreeList mem (((takeFirst p L).map Prod.snd).getD L) :=
  allocMem_spec hp hi.freeList (fun b hb ↦ ⟨hi.valid b (List.mem_append_right _ hb),
    hi.pages_lt b (List.mem_append_right _ hb)⟩) (List.pairwise_append.mp hi.apart).2.1
    (Nat.lt_succ_self _)

private theorem takeFirst_addr_ne_zero (hi : AllocInv s L) {p : ℕ} {x : Block}
    (h : takeFirst p L = some (x, L')) : x.addr ≠ 0 := by
  obtain ⟨A, b, B, rfl, -, rfl, -⟩ := takeFirst_split h
  exact (hi.valid b (by simp)).addr_pos.ne'

/-- A call that returns with some fuel returns the same with any other that suffices. -/
theorem allocMem_unique {mem : Memory} {p fuel fuel' : ℕ} {r r' : Memory × ℕ}
    (h : VimOS.allocMem fuel mem p = .ok r) (h' : VimOS.allocMem fuel' mem p = .ok r') :
    r = r' := by
  rw [VimOS.allocMem] at h h'
  have hr := allocLoop_fuel (le_max_left fuel fuel') (by rw [h]; simp)
  have hr' := allocLoop_fuel (le_max_right fuel fuel') (by rw [h']; simp)
  rw [hr, h, h', Except.ok.injEq] at hr'
  exact hr'

private theorem freeMem_unique {mem : Memory} {ptr p fuel fuel' : ℕ} {m : Memory}
    {r : Except Stop Memory} (h : freeMem fuel mem ptr p = .ok m)
    (h' : freeMem fuel' mem ptr p = r) (hr : r ≠ .error .fuel) : r = .ok m := by
  rw [freeMem] at h h'
  have hm := freeLoop_fuel (le_max_left fuel fuel') (by rw [h]; simp)
  have hm' := freeLoop_fuel (le_max_right fuel fuel') (by rwa [h'])
  rw [hm, h, h'] at hm'
  exact hm'.symm

/-- **Refinement.** Every step is one on the two lists. -/
theorem Step.listStep (hi : AllocInv s L) (hs : ∀ b, c = .free b → SizesOk b L)
    (h : Step s c s') : ∃ L', ListStep s.live L c s'.live L' ∧ FreeList s'.mem L' := by
  cases h with
  | alloc hpages h hptr =>
    obtain ⟨mem, hrun, hfree⟩ := hi.allocMem hpages
    have hr := allocMem_unique h hrun
    rw [Prod.mk.injEq] at hr
    obtain ⟨rfl, rfl⟩ := hr
    cases ht : takeFirst _ L with
    | none => simp [ht] at hptr
    | some r =>
      obtain ⟨x, L'⟩ := r
      obtain ⟨A, b, B, -, -, hx, -⟩ := takeFirst_split ht
      refine ⟨L', ?_, by simpa [ht] using hfree⟩
      have hstep : ListStep s.live L (.alloc _) (x :: s.live) L' := .take hpages ht
      simpa [ht, hx] using hstep
  | allocNull hpages h =>
    obtain ⟨mem, hrun, hfree⟩ := hi.allocMem hpages
    have hr := allocMem_unique h hrun
    rw [Prod.mk.injEq] at hr
    obtain ⟨rfl, hptr⟩ := hr
    cases ht : takeFirst _ L with
    | none => exact ⟨L, .full hpages ht, by simpa [ht] using hfree⟩
    | some r =>
      rw [ht] at hptr
      exact absurd hptr.symm (takeFirst_addr_ne_zero hi ht)
  | free hb h =>
    have hspec := freeMem_spec hi.freeList (hi.freed hb) (hs _ rfl)
      (Nat.lt_succ_self (2 * L.length))
    cases hw : freeWalk _ none [] L with
    | none =>
      rw [hw] at hspec
      exact absurd (freeMem_unique h hspec (by simp)) (by simp)
    | some L' =>
      rw [hw] at hspec
      obtain ⟨mem, hrun, hfree⟩ := hspec
      have hr := freeMem_unique h hrun (by simp)
      rw [Except.ok.injEq] at hr
      exact ⟨L', .give hb hw, hr ▸ hfree⟩
  | write hlist hheap => exact ⟨L, .write, (hi.write hlist hheap).freeList⟩

/-- Every step on the two lists is one of the allocator; in particular the call returns. -/
theorem ListStep.step (hi : AllocInv s L) (hs : ∀ b, c = .free b → SizesOk b L)
    (h : ListStep s.live L c live' L') : ∃ mem, Step s c ⟨mem, live'⟩ ∧ FreeList mem L' := by
  cases h with
  | take hp ht =>
    obtain ⟨mem, hrun, hfree⟩ := hi.allocMem hp
    rw [ht] at hrun hfree
    have hptr := takeFirst_addr_ne_zero hi ht
    obtain ⟨A, b, B, rfl, -, rfl, -⟩ := takeFirst_split ht
    exact ⟨mem, .alloc hp hrun hptr, hfree⟩
  | full hp ht =>
    obtain ⟨mem, hrun, hfree⟩ := hi.allocMem hp
    rw [ht] at hrun hfree
    exact ⟨mem, .allocNull hp hrun, hfree⟩
  | give hb hw =>
    have hspec := freeMem_spec hi.freeList (hi.freed hb) (hs _ rfl)
      (Nat.lt_succ_self (2 * L.length))
    rw [hw] at hspec
    obtain ⟨mem, hrun, hfree⟩ := hspec
    exact ⟨mem, .free hb hrun, hfree⟩
  | write => exact ⟨s.mem, .write rfl fun _ _ ↦ rfl, hi.freeList⟩

end Refinement

end VimOS
