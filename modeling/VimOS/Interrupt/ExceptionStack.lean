import VimOS.Interrupt.Segments
import VimOS.Memory.AllocSafety

/-!
# The stacks of the exceptions in the allocator's memory

`init_segments` takes its two stacks from the allocator and never gives them back. What the CPU and
a stub push when an exception is taken there stays within the two pages, so it meets no other block
in use and no free block, whatever the kernel has allocated and freed since
(`exception_frames_apart`).
-/

namespace VimOS

open StackMachine Block GuardedRun

/-! ## The calls of `init_segments` -/

/-- What is stored as the top of a stack in a block of two pages. -/
def stackTop (b : Block) : Addr := BitVec.ofNat 64 b.addr + 8192 - 8

section Init

variable {fuel : ℕ} {seg seg' : SegmentState} {mem : Memory} {s : AllocState} {L L' : List Block}

theorem mapError_bind_ok {ε ε' α β : Type} {f : ε → ε'} {x : Except ε α}
    {g : α → Except ε' β} {b : β} (h : (x.mapError f >>= g) = .ok b) :
    ∃ a, x = .ok a ∧ g a = .ok b := by
  cases x with
  | error e => cases h
  | ok a => exact ⟨a, rfl, h⟩

/-- A call that returns has taken two blocks. -/
theorem initSegments_steps (h : initSegments fuel seg s.mem = .ok (mem, seg')) :
    ∃ (mem₁ : Memory) (rsp0 ist1 : Block), rsp0.pages = 2 ∧ ist1.pages = 2 ∧
      Step s (.alloc 2) ⟨mem₁, rsp0 :: s.live⟩ ∧
      Step ⟨mem₁, rsp0 :: s.live⟩ (.alloc 2) ⟨mem, ist1 :: rsp0 :: s.live⟩ ∧
      seg' = seg.loaded (stackTop rsp0) (stackTop ist1) := by
  rw [initSegments] at h
  obtain ⟨⟨mem₁, p⟩, halloc, h⟩ := mapError_bind_ok h
  dsimp only at h
  split_ifs at h with hp
  · cases h
  obtain ⟨⟨mem₂, q⟩, halloc', h⟩ := mapError_bind_ok h
  dsimp only at h
  split_ifs at h with hq
  · cases h
  cases h
  exact ⟨mem₁, ⟨p, 2⟩, ⟨q, 2⟩, rfl, rfl, .alloc (by decide) halloc hp,
    .alloc (by decide) halloc' hq, rfl⟩

/-- `alloc_mem` takes a node from the list or leaves the rest of it there. -/
theorem length_takeFirst_le {p : ℕ} {x : Block} (h : takeFirst p L = some (x, L')) :
    L'.length ≤ L.length := by
  obtain ⟨A, b, B, rfl, -, -, rfl⟩ := takeFirst_split h
  have hrest : (remainder p b).length ≤ 1 := by
    rw [remainder]
    split_ifs <;> simp
  simp only [List.length_append, List.length_cons]
  omega

/-- Where the list has room for both stacks, the call returns. -/
theorem initSegments_ok (seg : SegmentState) {x y : Block} {L₁ L₂ : List Block}
    (hi : AllocInv s L) (hx : takeFirst 2 L = some (x, L₁)) (hy : takeFirst 2 L₁ = some (y, L₂)) :
    ∃ mem seg', initSegments (L.length + 1) seg s.mem = .ok (mem, seg') := by
  have halloc : ∀ {s : AllocState} {M M' : List Block} {z : Block}, AllocInv s M →
      M.length < L.length + 1 → takeFirst 2 M = some (z, M') → ∃ mem,
        allocMem (L.length + 1) s.mem 2 = .ok (mem, z.addr) ∧ FreeList mem M' ∧ z.addr ≠ 0 := by
    intro s M M' z hi hlen hz
    obtain ⟨mem, hmem, hfree⟩ := allocMem_spec (p := 2) (by decide) hi.freeList
      (fun b hb ↦ ⟨hi.valid b (List.mem_append_right _ hb),
        hi.pages_lt b (List.mem_append_right _ hb)⟩)
      (List.pairwise_append.mp hi.apart).2.1 hlen
    rw [hz] at hmem hfree
    have htaken := hi.take (by decide) hz hfree
    exact ⟨mem, hmem, hfree, (htaken.valid z List.mem_cons_self).addr_pos.ne'⟩
  obtain ⟨mem₁, hmem₁, hfree₁, hne₁⟩ := halloc hi (Nat.lt_succ_self _) hx
  obtain ⟨mem₂, hmem₂, -, hne₂⟩ := halloc (hi.take (by decide) hx hfree₁)
    (Nat.lt_succ_of_le (length_takeFirst_le hx)) hy
  refine ⟨mem₂, seg.loaded (BitVec.ofNat 64 x.addr + 8192 - 8)
    (BitVec.ofNat 64 y.addr + 8192 - 8), ?_⟩
  have hfirst : (allocMem (L.length + 1) s.mem 2).mapError SegmentsStop.memory =
      .ok (mem₁, x.addr) := by
    rw [hmem₁]
    rfl
  have hsecond : (allocMem (L.length + 1) mem₁ 2).mapError SegmentsStop.memory =
      .ok (mem₂, y.addr) := by
    rw [hmem₂]
    rfl
  rw [initSegments, hfirst]
  change (if x.addr = 0 then _ else _) = _
  rw [if_neg hne₁]
  rw [hsecond]
  change (if y.addr = 0 then _ else _) = _
  rw [if_neg hne₂]
  rfl

/-- Tables that hold nothing yet. -/
def blankSegments : SegmentState :=
  ⟨0, 0, clearedGdt,
    ⟨0, 0, 0, 0, 0, 0, 0, 0, 0, 0, 0, 0, 0, 0, 0, 0, 0, 0, 0, 0, 0, 0, 0, 0, 0, 0, 0⟩,
    0, 0, 0, 0, 0, 0⟩

theorem initial_fivePagesFree :
    Initial (twoNodes ⟨4096, 5⟩ ⟨0x100000, 1⟩) [⟨4096, 5⟩, ⟨0x100000, 1⟩] :=
  initial_twoNodes ⟨by decide, by decide, by decide⟩ ⟨by decide, by decide, by decide⟩ (by decide)
    (by decide) (by decide)

/-- Both stacks are taken from one block. -/
theorem initSegments_twoNodes : ∃ mem seg',
    initSegments 3 blankSegments (twoNodes ⟨4096, 5⟩ ⟨0x100000, 1⟩) = .ok (mem, seg') :=
  initSegments_ok blankSegments (x := ⟨4096, 2⟩) (y := ⟨12288, 2⟩) initial_fivePagesFree.allocInv
    rfl rfl

end Init

/-- **The segments that are loaded**, whatever the tables held before and wherever they lie: the
kernel runs in the flat segments of ring 0, every gate of an exception leads into its code segment,
the segments of ring 3 are the same but for the ring, and the task register leads to the task state
segment. The limit of that segment is counted in pages. -/
theorem segments_loaded {fuel : ℕ} {seg seg' : SegmentState} {mem mem' : Memory}
    (hinit : initSegments fuel seg mem = .ok (mem', seg')) :
    seg'.segment seg'.cs = some (flatSegment 0b1010 0 true) ∧
      seg'.segment seg'.ss = some (flatSegment 0b0010 0 false) ∧
      seg'.segment userCs = some (flatSegment 0b1010 3 true) ∧
      seg'.segment userSs = some (flatSegment 0b0010 3 false) ∧
      seg'.segment seg'.dataSegments = none ∧
      seg'.task = some (seg.tssAddr, 4096 * tssSize - 1) ∧
      ∀ handlers (e : ExceptionName),
        seg'.segment (decodeGate (initIdt handlers e.vector).bits).selector =
          some (flatSegment 0b1010 0 true) := by
  obtain ⟨-, rsp0, ist1, -, -, -, -, rfl⟩ := initSegments_steps (s := ⟨mem, []⟩) hinit
  have hcode : (seg.loaded (stackTop rsp0) (stackTop ist1)).segment kernelCs =
      some (flatSegment 0b1010 0 true) := by
    rw [segment_loaded (i := 1) (by decide) (by decide), segment_kernelCode]
  have hnull : (seg.loaded (stackTop rsp0) (stackTop ist1)).segment 0 = none :=
    if_pos (by decide)
  refine ⟨hcode, ?_, ?_, ?_, hnull, task_loaded, fun handlers e ↦ ?_⟩
  · have hdata : (seg.loaded (stackTop rsp0) (stackTop ist1)).segment 0x10 =
        some (decodeSegment (initGdt seg.tssAddr 2).bits) :=
      segment_loaded (i := 2) (by decide) (by decide)
    exact hdata.trans (congrArg some segment_kernelData)
  · rw [segment_loaded (i := 4) (by decide) (by decide), segment_userCode]
  · rw [segment_loaded (i := 3) (by decide) (by decide), segment_userData]
  · rw [gate_initIdt]
    exact hcode

theorem segments_loaded_twoNodes : ∃ mem seg',
    initSegments 3 blankSegments (twoNodes ⟨4096, 5⟩ ⟨0x100000, 1⟩) = .ok (mem, seg') ∧
      seg'.segment seg'.cs = some (flatSegment 0b1010 0 true) := by
  obtain ⟨mem, seg', hinit⟩ := initSegments_twoNodes
  exact ⟨mem, seg', hinit, (segments_loaded hinit).1⟩

/-! ## What an exception writes -/

section Exceptions

variable {e : ExceptionName} {body : ExceptionName → Machine → Machine} {ret error : BitVec 64}
  {top : Addr} {f : ReturnFrame} {m : Machine} {b : Block}

/-- Up to the call of the C function, an exception pushes 14 words. -/
theorem pushed_runToCall :
    Pushed top 14 m (runToCall body ret (stub e) (raise e top f error m)) := by
  obtain ⟨m₁, w, rfl, -, hcall⟩ := @stub_entry e body ret top error f m
  have hframe : Pushed top 6 m ((pushFrame top f m).push w) :=
    (((((Pushed.start.push f.ss).push f.rsp).push f.rflags).push f.cs).push f.rip).push w
  rw [hcall, runToCall_stubTail]
  exact ((hframe.pushRegs savedRegisters).set (by decide) _).push ret

/-- The CPU takes a multiple of 16 as the top of a stack. -/
theorem toNat_and_not_15 (a : Addr) : (a &&& ~~~(15 : Addr)).toNat = a.toNat / 16 * 16 := by
  have hshift : a &&& ~~~(15 : Addr) = a >>> 4 <<< 4 := by
    ext i hi
    have hbit : (15 : Addr)[i] = decide (i < 4) := by
      change (BitVec.ofNat 64 (2 ^ 4 - 1))[i] = _
      rw [← BitVec.getLsbD_eq_getElem, BitVec.getLsbD_ofNat, Nat.testBit_two_pow_sub_one,
        decide_eq_true hi, Bool.true_and]
    rw [BitVec.getElem_and, BitVec.getElem_not, hbit, BitVec.getElem_shiftLeft]
    by_cases h : i < 4
    · simp [h]
    · simp [h, Nat.add_sub_cancel' (Nat.not_lt.mp h), BitVec.getLsbD_eq_getElem hi]
  have hlt := a.isLt
  rw [hshift, BitVec.toNat_shiftLeft, BitVec.toNat_ushiftRight, Nat.shiftLeft_eq,
    Nat.shiftRight_eq_div_pow, Nat.mod_eq_of_lt (by omega)]

/-- The words lie in the block whose last word is the top of the stack. -/
theorem toNat_stackTop (hb : b.Valid) (hpages : b.pages = 2) :
    (stackTop b &&& ~~~15).toNat ≤ b.stop ∧ b.addr + 8 * 14 ≤ (stackTop b &&& ~~~15).toNat := by
  have hstop := hb.stop_lt
  rw [stop, hpages] at hstop ⊢
  have htop : (stackTop b).toNat = b.addr + 8184 := by
    rw [stackTop]
    bv_omega
  rw [toNat_and_not_15, htop]
  omega

theorem written_mem_block (hb : b.Valid) (hpages : b.pages = 2) {a : Addr}
    (ha : (runToCall body ret (stub e)
      (raise e (stackTop b &&& ~~~15) f error m)).mem a ≠ m.mem a) {i : ℕ} (hi : i < 8) :
    a.toNat + i ∈ b.bytes := by
  obtain ⟨hle, hlo⟩ := toNat_stackTop hb hpages
  exact pushed_runToCall.written_mem hlo hle ha hi

end Exceptions

/-! ## The stacks over a run -/

/-- No call that frees one of the two blocks. -/
def KeepsStacks (rsp0 ist1 : Block) (s : AllocState) (c : Call) : Prop :=
  FreesMeet MergesApart s c ∧ c ≠ .free rsp0 ∧ c ≠ .free ist1

section Run

variable {s s' : AllocState} {L : List Block} {rsp0 ist1 : Block}

/-- A block in use that is not freed stays in use. -/
theorem ListStep.mem_live {live live' L' : List Block} {c : Call} {b : Block}
    (h : ListStep live L c live' L') (hb : b ∈ live) (hc : c ≠ .free b) : b ∈ live' := by
  cases h with
  | take _ _ => exact List.mem_cons_of_mem _ hb
  | full _ _ => exact hb
  | give hb' _ => exact (List.mem_erase_of_ne fun heq ↦ hc (congrArg Call.free heq.symm)).mpr hb
  | write => exact hb

theorem stacks_live (hi : AllocInv s L) (hlive : rsp0 ∈ s.live ∧ ist1 ∈ s.live)
    (hrun : Run Step (KeepsStacks rsp0 ist1) s s') :
    ∃ L', AllocInv s' L' ∧ rsp0 ∈ s'.live ∧ ist1 ∈ s'.live := by
  refine hrun.invariant (P := fun s' ↦ ∃ L', AllocInv s' L' ∧ rsp0 ∈ s'.live ∧ ist1 ∈ s'.live)
    ⟨L, hi, hlive⟩ ?_
  rintro s c s' ⟨L, hi, hrsp0, hist1⟩ ⟨hg, hkeep⟩ hs
  obtain ⟨L', hi', hls⟩ := hi.step hg hs
  exact ⟨L', hi', hls.mem_live hrsp0 hkeep.1, hls.mem_live hist1 hkeep.2⟩

/-- The other blocks lie apart from a block in use. -/
theorem AllocInv.notMem_bytes (hi : AllocInv s L) {b c : Block} {a : ℕ} (hb : b ∈ s.live)
    (ha : a ∈ b.bytes) (hc : c ∈ s.live ++ L) (hne : c ≠ b) : a ∉ c.bytes := by
  have hb' : b ∈ s.live ++ L := List.mem_append_left _ hb
  have hdis := (apart_iff_disjoint (hi.valid b hb') (hi.valid c hc)).mp
    (hi.apart.forall hb' hc hne.symm)
  exact Set.disjoint_left.mp hdis ha

end Run

/-- The CPU finds the tops of the two blocks in the task state segment, and what it pushes there
stays there. -/
structure OwnStacks (seg : SegmentState) (rsp0 ist1 : Block) (s : AllocState) : Prop where
  privileged : seg.privilegedStack = some (stackTop rsp0)
  interrupt : seg.interruptStack 1 = some (stackTop ist1)
  /-- A page fault is taken on the second stack. -/
  pageFault : ∀ handlers f error m,
    dispatch (initIdt handlers) (stackTop ist1) .pageFault f error m =
      some (handlers .pageFault, raise .pageFault (stackTop ist1 &&& ~~~15) f error m)
  /-- The bytes that change up to the call of the C function lie in the stack's block, and in no
  other block, in use or free. -/
  frames : ∀ s', Run Step (KeepsStacks rsp0 ist1) s s' → ∃ L, FreeList s'.mem L ∧
    ∀ b ∈ [rsp0, ist1], ∀ e body ret error f m a,
      (runToCall body ret (stub e) (raise e (stackTop b &&& ~~~15) f error m)).mem a ≠ m.mem a →
        ∀ i < 8, a.toNat + i ∈ b.bytes ∧ ∀ c ∈ s'.live ++ L, c ≠ b → a.toNat + i ∉ c.bytes

/-- **Exceptions keep to their stacks**. Where `init_segments` returns, in any state that the
allocator can reach, its two stacks are blocks of the allocator; and as long as they are not freed,
whatever else is allocated and freed, an exception taken on one of them changes neither another
block in use nor a free one before its C function runs. -/
theorem exception_frames_apart {mem₀ mem : Memory} {L₀ : List Block} {s : AllocState} {fuel : ℕ}
    {seg seg' : SegmentState} (h₀ : Initial mem₀ L₀)
    (hrun : Run Step (FreesMeet MergesApart) ⟨mem₀, []⟩ s)
    (hinit : initSegments fuel seg s.mem = .ok (mem, seg')) :
    ∃ rsp0 ist1 : Block, OwnStacks seg' rsp0 ist1 ⟨mem, ist1 :: rsp0 :: s.live⟩ := by
  obtain ⟨mem₁, rsp0, ist1, hpages, hpages', hstep, hstep', rfl⟩ := initSegments_steps hinit
  obtain ⟨L, hi⟩ : ∃ L, AllocInv ⟨mem, ist1 :: rsp0 :: s.live⟩ L := by
    have hall : Run Step (FreesMeet MergesApart) ⟨mem₀, []⟩ ⟨mem, ist1 :: rsp0 :: s.live⟩ :=
      (hrun.tail (i := Call.alloc 2) trivial hstep).tail (i := Call.alloc 2) trivial hstep'
    refine hall.invariant (P := fun s ↦ ∃ L, AllocInv s L) ⟨L₀, h₀.allocInv⟩ ?_
    rintro s c s' ⟨L, hi⟩ hg hs
    obtain ⟨L', hi', -⟩ := hi.step hg hs
    exact ⟨L', hi'⟩
  refine ⟨rsp0, ist1, stacks_loaded.1, stacks_loaded.2, fun handlers f error m ↦ ?_,
    fun s' hrun' ↦ ?_⟩
  · rw [dispatch_initIdt, if_pos rfl]
  · obtain ⟨L', hi', hrsp0, hist1⟩ := stacks_live hi ⟨by simp, by simp⟩ hrun'
    have hstack : ∀ b ∈ [rsp0, ist1], b ∈ s'.live ∧ b.pages = 2 := by
      simp only [List.mem_cons, List.not_mem_nil, or_false, forall_eq_or_imp, forall_eq]
      exact ⟨⟨hrsp0, hpages⟩, hist1, hpages'⟩
    refine ⟨L', hi'.freeList, fun b hb e body ret error f m a ha i hi8 ↦ ?_⟩
    obtain ⟨hlive, htwo⟩ := hstack b hb
    have hbytes : a.toNat + i ∈ b.bytes :=
      written_mem_block (hi'.valid b (List.mem_append_left _ hlive)) htwo ha hi8
    exact ⟨hbytes, fun c hc hne ↦ hi'.notMem_bytes hlive hbytes hc hne⟩

theorem exception_frames_apart_twoNodes : ∃ mem seg' rsp0 ist1,
    initSegments 3 blankSegments (twoNodes ⟨4096, 5⟩ ⟨0x100000, 1⟩) = .ok (mem, seg') ∧
      OwnStacks seg' rsp0 ist1 ⟨mem, [ist1, rsp0]⟩ := by
  obtain ⟨mem, seg', hinit⟩ := initSegments_twoNodes
  obtain ⟨rsp0, ist1, h⟩ := exception_frames_apart initial_fivePagesFree (.refl _) hinit
  exact ⟨mem, seg', rsp0, ist1, hinit, h⟩

end VimOS
