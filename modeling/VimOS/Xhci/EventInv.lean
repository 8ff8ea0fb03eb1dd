import VimOS.Xhci.EventRing

/-!
# The invariant of the event ring

The slots of the segment are a `PhaseRing` whose producer is the controller.
`EventInv base stream d s` says that ERDP has been moved on `d` times; it locates both sides, and
says what the controller has stored of the event it is writing.
-/

namespace VimOS

open Machine PhaseRing

/-! ## The pointer in ERDP -/

section Erdp

variable {a b : Addr}

/-- The two halves, put together by `getTRB`. -/
theorem or_shiftLeft_eq_append (lo hi : Word) :
    lo.setWidth 64 ||| hi.setWidth 64 <<< 32 = hi ++ lo := by
  refine BitVec.eq_of_getLsbD_eq fun i hi' ↦ ?_
  rw [BitVec.getLsbD_or, BitVec.getLsbD_shiftLeft, BitVec.getLsbD_setWidth, BitVec.getLsbD_setWidth,
    BitVec.getLsbD_append]
  split_ifs with h
  · simp [h, hi']
  · rw [BitVec.getLsbD_of_ge lo i (by omega)]
    simp [h, hi', show i - 32 < 64 by omega]

private theorem mask_bit {i : ℕ} (hi : i < 32) : (~~~0x0f#32).getLsbD i = decide (4 ≤ i) := by
  decide +revert

private theorem mask_bit64 {i : ℕ} (hi : i < 64) : (~~~0x0f#64).getLsbD i = decide (4 ≤ i) := by
  decide +revert

/-- The flag bits are in the lower half. -/
theorem append_mask (hi lo : Word) : (hi ++ lo) &&& ~~~0x0f#64 = hi ++ maskFlags lo := by
  refine BitVec.eq_of_getLsbD_eq fun i hi' ↦ ?_
  rw [BitVec.getLsbD_and, mask_bit64 hi', BitVec.getLsbD_append, BitVec.getLsbD_append, maskFlags,
    BitVec.getLsbD_and]
  split_ifs with h
  · rw [mask_bit h]
  · simp [show 4 ≤ i by omega]

private theorem low_bit_eq_false (ha : a.toNat % 16 = 0) {i : ℕ} (hi : i < 4) :
    a.getLsbD i = false := by
  rw [BitVec.getLsbD, show a.toNat = 2 ^ 4 * (a.toNat / 16) by omega, Nat.testBit_two_pow_mul]
  simp [hi]

/-- The address of a TRB has no flag bits, and the flag that is set with it is masked. -/
theorem maskFlags_setWidth_or (ha : a.toNat % 16 = 0) :
    maskFlags ((a >>> 0 ||| 0x08#64).setWidth 32) = a.setWidth 32 := by
  have h8 : ∀ i < 32, 4 ≤ i → (0x08#64).getLsbD i = false := by decide
  refine BitVec.eq_of_getLsbD_eq fun i hi ↦ ?_
  rw [maskFlags, BitVec.getLsbD_and, mask_bit hi, BitVec.getLsbD_setWidth, BitVec.getLsbD_setWidth,
    BitVec.ushiftRight_zero, BitVec.getLsbD_or]
  by_cases h : 4 ≤ i
  · simp [h, h8 i hi h]
  · simp [h, low_bit_eq_false ha (Nat.lt_of_not_le h)]

theorem maskFlags_setWidth_self (ha : a.toNat % 16 = 0) :
    maskFlags (a.setWidth 32) = a.setWidth 32 := by
  refine BitVec.eq_of_getLsbD_eq fun i hi ↦ ?_
  rw [maskFlags, BitVec.getLsbD_and, mask_bit hi, BitVec.getLsbD_setWidth]
  by_cases h : 4 ≤ i
  · simp [h]
  · simp [h, low_bit_eq_false ha (Nat.lt_of_not_le h)]

/-- An address is put together from its halves. -/
theorem halves_append (a : Addr) : (a >>> 32).setWidth 32 ++ a.setWidth 32 = a :=
  linkTrb_ptr a

theorem upper_append (hi lo : Word) : ((hi ++ lo : Addr) >>> 32).setWidth 32 = hi := by
  refine BitVec.eq_of_getLsbD_eq fun i hi' ↦ ?_
  rw [BitVec.getLsbD_setWidth, BitVec.getLsbD_ushiftRight, BitVec.getLsbD_append]
  simp [hi']

/-- All slots of a segment have the upper half of the address in common. -/
theorem upper_half_eq (ha : a.toNat / 4096 = b.toNat / 4096) :
    (a >>> 32).setWidth 32 = (b >>> 32).setWidth 32 := by
  refine BitVec.eq_of_toNat_eq ?_
  simp only [BitVec.toNat_setWidth, BitVec.toNat_ushiftRight, Nat.shiftRight_eq_div_pow]
  omega

end Erdp

/-! ## The invariant -/

/-- The address of the slot of event `n`. -/
def slotAddr (base : Addr) (n : ℕ) : Addr := base + BitVec.ofNat 64 (16 * (n % 256))

/-- ERDP has been moved on `d` times. -/
structure EventInv (base : Addr) (stream : ℕ → Trb) (d : ℕ) (s : EventState) : Prop where
  holds : Holds 256 (fun j ↦ (slotTrb base s.mem j).c) (fun j ↦ (slotTrb base s.mem j).clearCycle)
    (fun n ↦ (stream n).clearCycle) d s.written
  erst_eq : s.erst = ⟨base, 256⟩
  erdp_eq : s.erdp = slotAddr base d
  free_eq : s.written + s.free = d + 256
  enqueue_eq : s.enqueue = s.written % 256
  pcs_eq : s.pcs = phase 256 s.written
  w0_eq : 0 < s.stored → (slotTrb base s.mem (s.written % 256)).w0 = (stream s.written).w0
  w1_eq : 1 < s.stored → (slotTrb base s.mem (s.written % 256)).w1 = (stream s.written).w1
  w2_eq : 2 < s.stored → (slotTrb base s.mem (s.written % 256)).w2 = (stream s.written).w2
  stored_le : s.stored ≤ 3

section Post

variable {base : Addr} {stream : ℕ → Trb} {d : ℕ} {s : EventState}

/-- It is not about what the driver has looked at or returned. -/
theorem EventInv.account (h : EventInv base stream d s) (waiting : Bool) (returned : List Trb) :
    EventInv base stream d { s with waiting := waiting, returned := returned } :=
  ⟨h.holds, h.erst_eq, h.erdp_eq, h.free_eq, h.enqueue_eq, h.pcs_eq, h.w0_eq, h.w1_eq, h.w2_eq,
    h.stored_le⟩

/-- A store to the slot that is written next, its last word apart. -/
theorem EventInv.store {mem : PhysMem} {n : ℕ} (h : EventInv base stream d s) (hfree : 0 < s.free)
    (hother : ∀ j < 256, j ≠ s.written % 256 → slotTrb base mem j = slotTrb base s.mem j)
    (hw3 : (slotTrb base mem (s.written % 256)).w3 = (slotTrb base s.mem (s.written % 256)).w3)
    (hw0 : 0 < n → (slotTrb base mem (s.written % 256)).w0 = (stream s.written).w0)
    (hw1 : 1 < n → (slotTrb base mem (s.written % 256)).w1 = (stream s.written).w1)
    (hw2 : 2 < n → (slotTrb base mem (s.written % 256)).w2 = (stream s.written).w2) (hn : n ≤ 3) :
    EventInv base stream d { s with mem := mem, stored := n } := by
  have hfree_eq := h.free_eq
  refine ⟨?_, h.erst_eq, h.erdp_eq, h.free_eq, h.enqueue_eq, h.pcs_eq, hw0, hw1, hw2, hn⟩
  refine h.holds.congr (by omega) (fun j hj ↦ ?_) fun j hj hne ↦ by simp only [hother j hj hne]
  by_cases hslot : j = s.written % 256
  · rw [hslot]
    simp only [Trb.c, hw3]
  · simp only [hother j hj hslot]

@[simp] theorem clearCycle_c (t : Trb) : t.clearCycle.c = false := by
  rw [Trb.c, Trb.clearCycle]
  simp

/-- The store of its last word. -/
theorem EventInv.publish {mem : PhysMem} (h : EventInv base stream d s) (hfree : 0 < s.free)
    (hother : ∀ j < 256, j ≠ s.written % 256 → slotTrb base mem j = slotTrb base s.mem j)
    (hslot : slotTrb base mem (s.written % 256) =
      (stream s.written).clearCycle.withCycle (phase 256 s.written)) :
    EventInv base stream d
      { s with
        mem := mem
        stored := 0
        written := s.written + 1
        free := s.free - 1
        enqueue := if s.enqueue + 1 = 256 then 0 else s.enqueue + 1
        pcs := if s.enqueue + 1 = 256 then !s.pcs else s.pcs } := by
  have hfree_eq := h.free_eq
  have henqueue := h.enqueue_eq
  refine ⟨?_, h.erst_eq, h.erdp_eq, ?_, ?_, ?_, fun h0 ↦ absurd h0 (Nat.not_lt_zero _),
    fun h1 ↦ absurd h1 (Nat.not_lt_zero _), fun h2 ↦ absurd h2 (Nat.not_lt_zero _), Nat.zero_le 3⟩
  · refine h.holds.publish (by omega) (fun j hj ↦ ?_)
      (fun j hj hne ↦ by simp only [hother j hj hne]) ?_
    · by_cases hjW : j = s.written % 256
      · simp only [hjW, if_true, hslot]
        exact Trb.c_withCycle (clearCycle_c _)
      · simp only [if_neg hjW, hother j hj hjW]
    · rw [hslot, Trb.clearCycle_withCycle (clearCycle_c _)]
  · simp only
    omega
  · simp only
    split_ifs with hwrap
    · omega
    · omega
  · simp only
    rw [phase_succ (by decide), h.pcs_eq, henqueue]

/-- **The controller stores a word.** -/
theorem EventInv.post (h : EventInv base stream d s) (hfree : 0 < s.free) :
    EventInv base stream d (s.post stream) := by
  have haddr : s.erst.ringSegmAddr + BitVec.ofNat 64 (16 * s.enqueue) =
      base + BitVec.ofNat 64 (16 * (s.written % 256)) := by
    rw [h.erst_eq, h.enqueue_eq]
  have hother : ∀ (o : Addr) (v : Word), o.toNat < 16 → ∀ j < 256, j ≠ s.written % 256 →
      slotTrb base (Function.update s.mem
        (base + BitVec.ofNat 64 (16 * (s.written % 256)) + o) v) j = slotTrb base s.mem j :=
    fun o v ho j hj hne ↦ slotTrb_store_ne (Nat.mod_lt _ (by decide)) hj hne ho
  have hother0 : ∀ v : Word, ∀ j < 256, j ≠ s.written % 256 →
      slotTrb base (Function.update s.mem (base + BitVec.ofNat 64 (16 * (s.written % 256))) v) j =
        slotTrb base s.mem j := fun v ↦ by simpa using hother 0 v (by decide)
  have hstored := h.stored_le
  -- only the fourth word carries the cycle bit, so the others publish nothing
  obtain hst | hst | hst | hst : s.stored = 0 ∨ s.stored = 1 ∨ s.stored = 2 ∨ s.stored = 3 := by
    omega
  · simp only [EventState.post, hst, haddr]
    refine h.store hfree (hother0 _) ?_ (fun _ ↦ ?_) (fun h1 ↦ absurd h1 (by decide))
      (fun h2 ↦ absurd h2 (by decide)) (by decide)
    · rw [slotTrb_store_w0]
    · rw [slotTrb_store_w0]
      rfl
  · simp only [EventState.post, hst, haddr]
    refine h.store hfree (hother 4 _ (by decide)) ?_ (fun _ ↦ ?_) (fun _ ↦ ?_)
      (fun h2 ↦ absurd h2 (by decide)) (by decide)
    · rw [slotTrb_store_w1]
    · rw [slotTrb_store_w1]
      exact h.w0_eq (by omega)
    · rw [slotTrb_store_w1]
      rfl
  · simp only [EventState.post, hst, haddr]
    refine h.store hfree (hother 8 _ (by decide)) ?_ (fun _ ↦ ?_) (fun _ ↦ ?_) (fun _ ↦ ?_) le_rfl
    · rw [slotTrb_store_w2]
    · rw [slotTrb_store_w2]
      exact h.w0_eq (by omega)
    · rw [slotTrb_store_w2]
      exact h.w1_eq (by omega)
    · rw [slotTrb_store_w2]
      rfl
  · have hsize : s.erst.ringSegmSize.toNat = 256 := by
      rw [h.erst_eq]
      rfl
    simp only [EventState.post, hst, haddr, hsize]
    refine h.publish hfree (hother 12 _ (by decide)) ?_
    rw [slotTrb_store_w3, ← h.pcs_eq]
    simp only [h.w0_eq (by omega), h.w1_eq (by omega), h.w2_eq (by omega)]
    rfl

/-- The slot ERDP points to. -/
theorem EventInv.dequeue_eq (h : EventInv base stream d s) : s.dequeue = d % 256 := by
  have hd : d % 256 < 256 := Nat.mod_lt d (by decide)
  rw [EventState.dequeue, h.erdp_eq, h.erst_eq, slotAddr]
  bv_omega

theorem slotAddr_page (hbase : base.toNat % 4096 = 0) (n : ℕ) :
    (slotAddr base n).toNat / 4096 = base.toNat / 4096 ∧ (slotAddr base n).toNat % 16 = 0 := by
  have hn : n % 256 < 256 := Nat.mod_lt n (by decide)
  rw [slotAddr]
  generalize n % 256 = j at hn ⊢
  bv_omega

theorem EventState.erdp_setErdp (s : EventState) (lo hi : Word) :
    (s.setErdp lo hi).erdp = hi ++ maskFlags lo := append_mask hi lo

theorem EventState.erdp_eq_append (s : EventState) :
    s.erdp = s.erdpHi ++ maskFlags s.erdpLo := append_mask s.erdpHi s.erdpLo

/-- The upper half of the register is that of every slot. -/
theorem EventInv.erdpHi_eq (h : EventInv base stream d s) (hbase : base.toNat % 4096 = 0) (n : ℕ) :
    s.erdpHi = (slotAddr base n >>> 32).setWidth 32 := by
  have hpage : (slotAddr base n).toNat / 4096 = (slotAddr base d).toNat / 4096 :=
    (slotAddr_page hbase n).1.trans (slotAddr_page hbase d).1.symm
  rw [upper_half_eq hpage, ← h.erdp_eq, EventState.erdp_eq_append, upper_append]

/-- A write to ERDP that leaves the pointer or moves it on by one slot. -/
theorem EventInv.setErdp {d' : ℕ} {lo hi : Word} (h : EventInv base stream d s)
    (hpointer : hi ++ maskFlags lo = slotAddr base d') (hle : d ≤ d') (hd' : d' ≤ d + 1)
    (hwritten : d' ≤ s.written) : EventInv base stream d' (s.setErdp lo hi) := by
  have hholds : Holds 256 (fun j ↦ (slotTrb base s.mem j).c)
      (fun j ↦ (slotTrb base s.mem j).clearCycle) (fun n ↦ (stream n).clearCycle) d' s.written := by
    obtain rfl | rfl : d' = d ∨ d' = d + 1 := by omega
    · exact h.holds
    · exact h.holds.consume hwritten
  have herdp : (s.setErdp lo hi).erdp = slotAddr base d' := (s.erdp_setErdp lo hi).trans hpointer
  have hdequeue : ({ s with erdpLo := lo, erdpHi := hi } : EventState).dequeue = d' % 256 := by
    have hlt : d' % 256 < 256 := Nat.mod_lt d' (by decide)
    have herdp' : ({ s with erdpLo := lo, erdpHi := hi } : EventState).erdp = slotAddr base d' :=
      herdp
    rw [EventState.dequeue, herdp', h.erst_eq, slotAddr]
    bv_omega
  have hfree : (s.setErdp lo hi).free = s.free + (d' - d) := by
    have hsize : s.erst.ringSegmSize.toNat = 256 := by
      rw [h.erst_eq]
      rfl
    simp only [EventState.setErdp, hdequeue, h.dequeue_eq, hsize]
    omega
  refine ⟨hholds, h.erst_eq, herdp, ?_, h.enqueue_eq, h.pcs_eq, h.w0_eq, h.w1_eq, h.w2_eq,
    h.stored_le⟩
  have hfree_eq := h.free_eq
  rw [hfree]
  simp only [EventState.setErdp]
  omega

/-- The pointer `write_event_ring` writes, once the lower half is written. -/
theorem EventInv.pointer_eq (h : EventInv base stream d s) (hbase : base.toNat % 4096 = 0) (n : ℕ) :
    s.erdpHi ++ maskFlags ((slotAddr base n >>> 0 ||| 0x08#64).setWidth 32) = slotAddr base n := by
  rw [maskFlags_setWidth_or (slotAddr_page hbase n).2, h.erdpHi_eq hbase n, halves_append]

/-! What the controller leaves alone. -/

@[simp] theorem post_erdpLo : (s.post stream).erdpLo = s.erdpLo := by
  rw [EventState.post]
  split <;> rfl

@[simp] theorem post_waiting : (s.post stream).waiting = s.waiting := by
  rw [EventState.post]
  split <;> rfl

@[simp] theorem post_returned : (s.post stream).returned = s.returned := by
  rw [EventState.post]
  split <;> rfl

/-- The words of an event, the last one apart. -/
theorem post_word (h : s.stored < 3) : (s.post stream).stored = s.stored + 1 ∧
    (s.post stream).written = s.written ∧ (s.post stream).free = s.free := by
  obtain hst | hst | hst : s.stored = 0 ∨ s.stored = 1 ∨ s.stored = 2 := by omega
  · simp [EventState.post, hst]
  · simp [EventState.post, hst]
  · simp [EventState.post, hst]

/-- The last word of an event. -/
theorem post_last (h : s.stored = 3) : (s.post stream).stored = 0 ∧
    (s.post stream).written = s.written + 1 ∧ (s.post stream).free = s.free - 1 := by
  simp [EventState.post, h]

theorem written_le_post : s.written ≤ (s.post stream).written := by
  rw [EventState.post]
  split
  · exact le_rfl
  · exact le_rfl
  · exact le_rfl
  · exact Nat.le_succ _

theorem EventInv.slotTrb_post {j : ℕ} (h : EventInv base stream d s) (hj : j < 256)
    (hne : j ≠ s.written % 256) :
    slotTrb base (s.post stream).mem j = slotTrb base s.mem j := by
  have haddr : s.erst.ringSegmAddr + BitVec.ofNat 64 (16 * s.enqueue) =
      base + BitVec.ofNat 64 (16 * (s.written % 256)) := by
    rw [h.erst_eq, h.enqueue_eq]
  have hw : s.written % 256 < 256 := Nat.mod_lt _ (by decide)
  rw [EventState.post]
  split
  · simp only [haddr]
    simpa using slotTrb_store_ne (o := 0) hw hj hne (by decide)
  · simp only [haddr]
    exact slotTrb_store_ne hw hj hne (by decide)
  · simp only [haddr]
    exact slotTrb_store_ne hw hj hne (by decide)
  · simp only [haddr]
    exact slotTrb_store_ne hw hj hne (by decide)

end Post

end VimOS
