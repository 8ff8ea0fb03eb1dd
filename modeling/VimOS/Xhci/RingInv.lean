import VimOS.Xhci.Ring

/-!
# The invariant of a TRB ring

Seen slot by slot the ring holds one sequence of TRBs, every 256th of them the Link TRB; `item` is
that sequence. `RingInv base s R W` says that the first `W` items have been written to the page at
`base` and that the consumer is through with the first `R`, and it locates the consumer. The slots
themselves are a `PhaseRing`, so the two counters may be up to 256 apart: the Link TRB counts.
-/

namespace VimOS

open Machine PhaseRing

/-- The sequence of TRBs the ring carries. -/
def item (base : Addr) (passed : List Trb) (n : ℕ) : Trb :=
  if n % 256 = 255 then linkTrb base else passed.getD (n - n / 256) (linkTrb base)

/-- `W` items are written, and the consumer is through with `R` of them. -/
structure RingInv (base : Addr) (s : RingState) (R W : ℕ) : Prop where
  holds : Holds 256 (fun j ↦ (slotTrb base s.mem j).c) (fun j ↦ (slotTrb base s.mem j).clearCycle)
    (item base s.passed) R W
  written_le : W ≤ s.passed.length + s.passed.length / 255
  passed_data : ∀ t ∈ s.passed, t.c = false ∧ t.type ≠ 6
  deq_eq : s.deq = base + BitVec.ofNat 64 (16 * (R % 256))
  ccs_eq : s.ccs = phase 256 R
  followed_eq : s.followed = R / 256
  consumed_length : s.consumed.length = R - R / 256
  consumed_eq : s.consumed.map Trb.clearCycle = s.passed.take s.consumed.length

/-! ## The consumer -/

section Consumer

variable {base : Addr} {s : RingState} {R W : ℕ}

theorem RingInv.ready_iff (h : RingInv base s R W) : s.Ready ↔ R < W := by
  rw [RingState.Ready, h.deq_eq, h.ccs_eq]
  exact h.holds.ready_iff (by decide)

/-- What stands at the consumer's place. -/
theorem RingInv.read_eq (h : RingInv base s R W) (hr : R < W) :
    (readTrb s.mem s.deq).clearCycle = item base s.passed R := by
  rw [h.deq_eq]
  exact h.holds.payload_eq R le_rfl hr

theorem RingInv.type_eq (h : RingInv base s R W) (hr : R < W) :
    (readTrb s.mem s.deq).type = (item base s.passed R).type := by
  rw [← h.read_eq hr, Trb.type_clearCycle]

/-- The data TRBs in front of place `R` have all been passed. -/
theorem RingInv.lt_passed (h : RingInv base s R W) (hr : R < W) (hslot : R % 256 ≠ 255) :
    R - R / 256 < s.passed.length := by
  have hle := h.written_le
  omega

theorem item_of_ne {passed : List Trb} {n : ℕ} (hslot : n % 256 ≠ 255)
    (hn : n - n / 256 < passed.length) : item base passed n = passed[n - n / 256] := by
  rw [item, if_neg hslot, List.getD_eq_getElem?_getD, List.getElem?_eq_getElem hn,
    Option.getD_some]

theorem item_of_eq {passed : List Trb} {n : ℕ} (hslot : n % 256 = 255) :
    item base passed n = linkTrb base := if_pos hslot

/-- A Link TRB that is ready stands in the last slot, and nowhere else. -/
theorem RingInv.type_iff (h : RingInv base s R W) (hr : R < W) :
    (readTrb s.mem s.deq).type = 6 ↔ R % 256 = 255 := by
  rw [h.type_eq hr]
  constructor
  · intro htype
    by_contra hslot
    have hlt := h.lt_passed hr hslot
    rw [item_of_ne hslot hlt] at htype
    exact (h.passed_data _ (List.getElem_mem hlt)).2 htype
  · intro hslot
    rw [item_of_eq hslot, linkTrb_type]

/-- **Taking a TRB.** -/
theorem RingInv.take (h : RingInv base s R W) (hready : s.Ready)
    (htype : (readTrb s.mem s.deq).type ≠ 6) : RingInv base s.take (R + 1) W := by
  have hr : R < W := h.ready_iff.mp hready
  have hslot : R % 256 ≠ 255 := fun hs ↦ htype ((h.type_iff hr).mpr hs)
  have hlt := h.lt_passed hr hslot
  refine ⟨h.holds.consume hr, h.written_le, h.passed_data, ?_, ?_, ?_, ?_, ?_⟩
  · rw [RingState.take, h.deq_eq]
    have hmod : (R + 1) % 256 = R % 256 + 1 := by omega
    simp only [hmod]
    bv_omega
  · rw [phase_succ (by decide), if_neg (by omega)]
    exact h.ccs_eq
  · have hf := h.followed_eq
    simp only [RingState.take]
    omega
  · have hlen := h.consumed_length
    simp only [RingState.take, List.length_append, List.length_singleton]
    omega
  · have hread := h.read_eq hr
    rw [item_of_ne hslot hlt] at hread
    simp only [RingState.take, List.map_append, List.map_cons, List.map_nil, List.length_append,
      List.length_singleton]
    rw [h.consumed_eq, hread]
    simp only [h.consumed_length]
    rw [List.take_append_getElem hlt]

/-- **Following a Link TRB.** -/
theorem RingInv.follow (h : RingInv base s R W) (hready : s.Ready)
    (htype : (readTrb s.mem s.deq).type = 6) : RingInv base s.follow (R + 1) W := by
  have hr : R < W := h.ready_iff.mp hready
  have hslot : R % 256 = 255 := (h.type_iff hr).mp htype
  have hread := h.read_eq hr
  rw [item_of_eq hslot] at hread
  have hptr : (readTrb s.mem s.deq).ptr = base := by
    have hclear : (readTrb s.mem s.deq).clearCycle.ptr = base := by rw [hread, linkTrb_ptr]
    exact hclear
  have htc : (readTrb s.mem s.deq).tc = true := by
    have hclear : (readTrb s.mem s.deq).clearCycle.tc = true := by rw [hread, linkTrb_tc]
    rw [← hclear, Trb.tc, Trb.tc, Trb.clearCycle]
    simp
  refine ⟨h.holds.consume hr, h.written_le, h.passed_data, ?_, ?_, ?_, ?_, h.consumed_eq⟩
  · simp only [RingState.follow, hptr]
    have hmod : (R + 1) % 256 = 0 := by omega
    simp [hmod]
  · simp only [RingState.follow, htc, if_true]
    rw [phase_succ (by decide), if_pos (by omega), h.ccs_eq]
  · have hf := h.followed_eq
    simp only [RingState.follow]
    omega
  · have hlen := h.consumed_length
    simp only [RingState.follow]
    omega

end Consumer

/-! ## What the consumer gets -/

/-- What the consumer has taken is what was passed, in order; and it sees an empty ring only if it
has taken everything written, and does if it has taken everything passed. -/
structure Delivered (s : RingState) : Prop where
  consumed_eq : s.consumed.map Trb.clearCycle = s.passed.take s.consumed.length
  returned_le : s.peek = none → s.returned ≤ s.consumed.length
  peek_eq : s.consumed.length = s.passed.length → s.peek = none

section Delivered

variable {base : Addr} {s : RingState} {R W : ℕ}

theorem RingInv.consumed_le (h : RingInv base s R W) : s.consumed.length ≤ s.passed.length := by
  have hlen := congrArg List.length h.consumed_eq
  rw [List.length_map, List.length_take] at hlen
  omega

/-- The consumer finds nothing exactly when it is through with all items, a last Link TRB apart. -/
theorem RingInv.peek_eq_none_iff (h : RingInv base s R W) :
    s.peek = none ↔ R = W ∨ R % 256 = 255 ∧ R + 1 = W := by
  have hle := h.holds.read_le
  rw [RingState.peek]
  by_cases hready : s.Ready
  · have hr : R < W := h.ready_iff.mp hready
    rw [if_pos hready]
    by_cases htype : (readTrb s.mem s.deq).type = 6
    · have hslot := (h.type_iff hr).mp htype
      have hnext := (h.follow hready htype).ready_iff
      rw [if_pos htype]
      by_cases hready' : s.follow.Ready
      · have hr' := hnext.mp hready'
        rw [if_pos hready']
        simp only [reduceCtorEq, false_iff]
        omega
      · have hr' := mt hnext.mpr hready'
        rw [if_neg hready']
        simp only [true_iff]
        omega
    · have hslot := mt (h.type_iff hr).mpr htype
      rw [if_neg htype]
      simp only [reduceCtorEq, false_iff]
      omega
  · have hr := mt h.ready_iff.mpr hready
    rw [if_neg hready]
    simp only [true_iff]
    omega

theorem RingInv.delivered (h : RingInv base s R W) (hret : s.returned + s.returned / 255 ≤ W) :
    Delivered s where
  consumed_eq := h.consumed_eq
  returned_le := by
    intro hpeek
    have hlen := h.consumed_length
    rcases h.peek_eq_none_iff.mp hpeek with rfl | ⟨hslot, rfl⟩
    · omega
    · omega
  peek_eq := by
    intro hall
    have hlen := h.consumed_length
    have hread := h.holds.read_le
    have hwritten := h.written_le
    rw [h.peek_eq_none_iff]
    omega

end Delivered

end VimOS
