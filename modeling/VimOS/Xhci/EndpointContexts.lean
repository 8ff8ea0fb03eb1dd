import VimOS.Xhci.DescriptorBounds

/-!
# The contexts that endpoint descriptors fill

An endpoint descriptor writes to `epctx[ep_in_dci - 1]`, and the DCI is twice the endpoint's number
and its direction. Number 0 makes the index -1 or 0: the first is the slot context, the second the
context of the default control endpoint. No other endpoint leaves its place
(`endpoint_writes_inside_iff`).

What is written there follows the descriptor and the speed of the port. Two of the values are not
what xHCI asks for: `wMaxPacketSize` is taken as the packet size with its upper bits, which are no
part of it, and `get_highest_bit` counts from 1, so that an interval of 2 ^ (n - 3) ms is given as 2
^ (n - 2) (`endpoint_rules_iff`).
-/

namespace VimOS

/-! ## Bit fields -/

/-- A bit field of a context. -/
def Context.field (c : Context) (j : Fin 8) (lo width : ℕ) : BitVec width :=
  (c j).extractLsb' lo width

section Fields

variable {c : Context} {j j' : Fin 8} {lo width lo' width' i : ℕ} {v x : Word}

theorem getLsbD_setBits (h : lo + width ≤ 32) :
    (setBits lo width v x).getLsbD i =
      if lo ≤ i ∧ i < lo + width then x.getLsbD (i - lo) else v.getLsbD i := by
  simp only [setBits, BitVec.getLsbD_or, BitVec.getLsbD_and, BitVec.getLsbD_not,
    BitVec.getLsbD_shiftLeft, BitVec.getLsbD_ofNat, Nat.testBit_two_pow_sub_one]
  by_cases h32 : i < 32
  · by_cases hlt : i < lo
    · rw [if_neg (by omega)]
      simp [hlt, h32]
    · by_cases hin : i < lo + width
      · rw [if_pos (by omega)]
        simp [hlt, h32, show i - lo < width by omega, show i - lo < 32 by omega]
      · rw [if_neg (by omega)]
        simp [hlt, h32, show ¬i - lo < width by omega]
  · rw [if_neg (by omega)]
    simp [h32, BitVec.getLsbD_of_ge v i (by omega)]

/-- The field that is assigned. -/
theorem Context.field_setField (h : lo + width ≤ 32) :
    (c.setField j lo width x).field j lo width = x.setWidth width := by
  refine BitVec.eq_of_getLsbD_eq fun i hi ↦ ?_
  rw [field, setField_apply, if_pos rfl, BitVec.getLsbD_extractLsb', getLsbD_setBits h,
    if_pos (by omega), BitVec.getLsbD_setWidth, Nat.add_sub_cancel_left]

/-- A field of another dword, or one that has no bit in common with the one that is assigned. -/
theorem Context.field_setField_of_ne (h : lo + width ≤ 32)
    (hne : j' ≠ j ∨ lo' + width' ≤ lo ∨ lo + width ≤ lo') :
    (c.setField j lo width x).field j' lo' width' = c.field j' lo' width' := by
  refine BitVec.eq_of_getLsbD_eq fun i hi ↦ ?_
  rw [field, field, setField_apply]
  split_ifs with hj
  · rw [BitVec.getLsbD_extractLsb', BitVec.getLsbD_extractLsb', getLsbD_setBits h,
      if_neg (by omega), hj]
  · rfl

theorem Context.field_setDword_of_ne (hne : j' ≠ j) :
    (c.setDword j x).field j' lo' width' = c.field j' lo' width' := by
  rw [field, field, setDword_apply, if_neg hne]

end Fields

/-- A value whose two parts are assigned. -/
theorem setWidth_shift_append {w m n : ℕ} (x : BitVec w) :
    (x >>> n).setWidth m ++ x.setWidth n = x.setWidth (m + n) := by
  refine BitVec.eq_of_getLsbD_eq fun i hi ↦ ?_
  rw [BitVec.getLsbD_append]
  simp only [BitVec.getLsbD_setWidth, BitVec.getLsbD_ushiftRight, decide_eq_true hi, Bool.true_and]
  split_ifs with hlow
  · rw [decide_eq_true hlow, Bool.true_and]
  · rw [decide_eq_true (by omega), Bool.true_and, Nat.add_sub_cancel' (by omega)]

/-! ### What is filled in -/

section Fill

variable {speed : Byte} {e : EndpointDescriptor} {trPointer : Addr} {c : Context}

theorem field_ite {p : Prop} [Decidable p] {c c' : Context} {j : Fin 8} {lo width : ℕ} :
    (if p then c else c').field j lo width =
      if p then c.field j lo width else c'.field j lo width :=
  apply_ite (fun c : Context ↦ c.field j lo width) ..

theorem fillEndpoint_interval :
    (fillEndpoint speed e trPointer c).field 0 16 8 = (e.intervalFor speed).setWidth 8 := by
  simp (disch := decide) only [fillEndpoint, field_ite, Context.field_setField_of_ne,
    Context.field_setField, ite_self]

theorem fillEndpoint_maxPacketSize :
    (fillEndpoint speed e trPointer c).field 1 16 16 = e.maxPacketSize := by
  simp (disch := decide) only [fillEndpoint, field_ite, Context.field_setField_of_ne,
    Context.field_setField, ite_self]
  exact BitVec.setWidth_setWidth_of_le _ (by decide)

theorem fillEndpoint_maxBurst :
    (fillEndpoint speed e trPointer c).field 1 8 8 = e.maxBurstSize.setWidth 8 := by
  simp (disch := decide) only [fillEndpoint, field_ite, Context.field_setField_of_ne,
    Context.field_setField, ite_self]

theorem fillEndpoint_payloadLo :
    (fillEndpoint speed e trPointer c).field 4 16 16 = e.emitPayload.setWidth 16 := by
  simp (disch := decide) only [fillEndpoint, field_ite, Context.field_setField_of_ne,
    Context.field_setField, ite_self]

theorem fillEndpoint_payloadHi :
    (fillEndpoint speed e trPointer c).field 0 24 8 = (e.emitPayload >>> 16).setWidth 8 := by
  simp (disch := decide) only [fillEndpoint, field_ite, Context.field_setField_of_ne,
    Context.field_setField, ite_self]

theorem fillEndpoint_epType :
    (fillEndpoint speed e trPointer c).field 1 3 3 = (setEpType e c).field 1 3 3 := by
  simp (disch := decide) only [fillEndpoint, field_ite, Context.field_setField_of_ne,
    Context.field_setDword_of_ne, ite_self]

theorem fillEndpoint_trPointer :
    fillEndpoint speed e trPointer c 3 ++ fillEndpoint speed e trPointer c 2 = trPointer := by
  simp only [fillEndpoint, ite_apply, Context.setField_apply, Context.setDword_apply, Fin.reduceEq,
    if_false, if_true, ite_self]
  exact (setWidth_shift_append trPointer).trans (BitVec.setWidth_eq _)

end Fill

/-! ## Places -/

/-- The index in `epctx` that the assignments for an endpoint descriptor use. -/
def EndpointDescriptor.contextIndex (e : EndpointDescriptor) : ℤ := e.dci.toNat - 1

/-- The walk over some descriptors. -/
def Parse.over (buf : ℕ → Byte) (speed : Byte) (alloc : ℕ → Addr) (l : List ℕ) (s : Parse) :
    Option Parse :=
  l.foldlM (fun (s : Parse) p ↦ s.descriptor buf speed alloc p) s

theorem parseConfiguration_over (buf : ℕ → Byte) (speed : Byte) (alloc : ℕ → Addr) (allocs : ℕ)
    (classes : Byte × Byte × Byte) (fresh : Page) (slot : Context) :
    parseConfiguration buf speed alloc allocs classes fresh slot =
      (Parse.start allocs classes fresh slot).over buf speed alloc (descriptors buf) :=
  parseConfiguration_eq

/-- The page of the input context is as before, but for the flags from 2 on, `context_entries` and
the contexts of the other endpoints. -/
structure SparesOthers (page page' : Page) : Prop where
  control : ∀ j, j ≠ 1 → page'.entry 0 j = page.entry 0 j
  flags : ∀ i < 2, (page'.entry 0 1).getLsbD i = (page.entry 0 1).getLsbD i
  slot : ∀ j, j ≠ 0 → page'.entry 1 j = page.entry 1 j
  slotInfo : (page'.entry 1).field 0 0 27 = (page.entry 1).field 0 0 27
  defaultControl : page'.entry 2 = page.entry 2
  beyond : ∀ i, 8 * 33 ≤ i → page' i = page i

namespace SparesOthers

variable {page page' page'' : Page}

theorem refl (page : Page) : SparesOthers page page :=
  ⟨fun _ _ ↦ rfl, fun _ _ ↦ rfl, fun _ _ ↦ rfl, rfl,
  rfl, fun _ _ ↦ rfl⟩

theorem trans (h : SparesOthers page page') (h' : SparesOthers page' page'') :
    SparesOthers page page'' where
  control j hj := (h'.control j hj).trans (h.control j hj)
  flags i hi := (h'.flags i hi).trans (h.flags i hi)
  slot j hj := (h'.slot j hj).trans (h.slot j hj)
  slotInfo := h'.slotInfo.trans h.slotInfo
  defaultControl := h'.defaultControl.trans h.defaultControl
  beyond i hi := (h'.beyond i hi).trans (h.beyond i hi)

end SparesOthers

theorem Page.setEntry_beyond (page : Page) {k i : ℕ} (c : Context) (hk : k < 33) (hi : 8 * 33 ≤ i) :
    page.setEntry k c i = page i := if_neg (by omega)

theorem sparesOthers_mark (page : Page) {dci : ℕ} (h : 2 ≤ dci) :
    SparesOthers page (page.mark dci) where
  control j hj := by
    rw [Page.entry_mark, if_pos rfl, Context.addFlag, Context.setDword_apply, if_neg hj]
  flags i hi := by
    rw [Page.entry_mark, if_pos rfl, Context.addFlag, Context.setDword_apply, if_pos rfl,
      BitVec.getLsbD_or, BitVec.getLsbD_shiftLeft, decide_eq_true (by omega : i < dci)]
    simp
  slot j hj := by
    rw [Page.entry_mark, if_neg (by decide), if_pos rfl, Context.raiseEntries,
      Context.setField_apply,
      if_neg hj]
  slotInfo := by
    rw [Page.entry_mark, if_neg (by decide), if_pos rfl, Context.raiseEntries,
      Context.field_setField_of_ne (by decide) (by decide)]
  defaultControl := by
    rw [Page.entry_mark, if_neg (by decide), if_neg (by decide)]
  beyond i hi := by
    rw [Page.mark, Page.setEntry_beyond _ _ (by decide) hi, Page.setEntry_beyond _ _ (by decide) hi]

theorem sparesOthers_setEntry (page : Page) {k : ℕ} (c : Context) (h : 3 ≤ k) (hk : k < 33) :
    SparesOthers page (page.setEntry k c) where
  control _ _ := by rw [Page.entry_setEntry_of_ne _ _ (by omega)]
  flags _ _ := by rw [Page.entry_setEntry_of_ne _ _ (by omega)]
  slot _ _ := by rw [Page.entry_setEntry_of_ne _ _ (by omega)]
  slotInfo := by rw [Page.entry_setEntry_of_ne _ _ (by omega)]
  defaultControl := Page.entry_setEntry_of_ne _ _ (by omega)
  beyond _ hi := Page.setEntry_beyond _ _ hk hi

section Walk

variable {buf : ℕ → Byte} {p : ℕ} {speed : Byte} {alloc : ℕ → Addr} {s s' : Parse}
  {e : EndpointDescriptor} {l : List ℕ}

/-- The index is in the range of the other endpoints unless the number is 0. -/
theorem EndpointDescriptor.contextIndex_iff :
    1 ≤ e.contextIndex ∧ e.contextIndex ≤ 30 ↔ e.address &&& 0x0f ≠ 0 := by
  have hlt := e.dci_lt
  have hdir : e.direction.toNat ≤ 1 := by
    have haddr := e.address.isLt
    rw [direction, BitVec.toNat_ushiftRight, Nat.shiftRight_eq_div_pow]
    omega
  have hnum : (e.address &&& 0x0f).toNat ≤ 15 := by
    rw [BitVec.toNat_and]
    exact Nat.and_le_right
  have hdci : e.dci.toNat = 2 * (e.address &&& 0x0f).toNat + e.direction.toNat := by
    rw [dci]
    bv_omega
  rw [contextIndex, hdci]
  rw [hdci] at hlt
  constructor
  · rintro ⟨hle, -⟩ hzero
    rw [hzero] at hle
    simp at hle
    omega
  · intro hne
    have hpos : 0 < (e.address &&& 0x0f).toNat := by bv_omega
    omega

theorem sparesOthers_descriptor (hs : s.descriptor buf speed alloc p = some s')
    (h : buf (p + 1) = 5 → (endpointAt buf p).address &&& 0x0f ≠ 0) :
    SparesOthers s.page s'.page := by
  rcases descriptor_cases hs with ⟨hfive, hend⟩ | ⟨-, hpage, -⟩
  · obtain ⟨t, hpage, -⟩ := endpoint_spec hend
    obtain ⟨hle, hle'⟩ := EndpointDescriptor.contextIndex_iff.mpr (h hfive)
    rw [EndpointDescriptor.contextIndex] at hle hle'
    rw [hpage]
    exact (sparesOthers_mark _ (by omega)).trans (sparesOthers_setEntry _ _ (by omega) (by omega))
  · rw [hpage]
    exact .refl _

theorem sparesOthers_over (hs : s.over buf speed alloc l = some s')
    (h : ∀ p ∈ l, buf (p + 1) = 5 → (endpointAt buf p).address &&& 0x0f ≠ 0) :
    SparesOthers s.page s'.page :=
  foldlM_invariant (P := fun s' ↦ SparesOthers s.page s'.page) hs (.refl _)
    fun p hp _ _ hspares hstep ↦ hspares.trans (sparesOthers_descriptor hstep (h p hp))

end Walk

/-- What is asked of the assignments for the endpoint descriptors of a configuration: they are to
contexts of other endpoints than the default control endpoint, and at every point of the walk the
rest of the input context and the memory around it are as at the start. -/
def WritesInside (buf : ℕ → Byte) : Prop :=
  (∀ p ∈ descriptors buf, buf (p + 1) = 5 →
    1 ≤ (endpointAt buf p).contextIndex ∧ (endpointAt buf p).contextIndex ≤ 30) ∧
  ∀ speed alloc allocs classes fresh slot l s, l <+: descriptors buf →
    (Parse.start allocs classes fresh slot).over buf speed alloc l = some s →
      SparesOthers (startPage fresh slot) s.page

/-- **Places of the endpoint contexts.** -/
theorem endpoint_writes_inside_iff (buf : ℕ → Byte) : WritesInside buf ↔
    ∀ p ∈ descriptors buf, buf (p + 1) = 5 → (endpointAt buf p).address &&& 0x0f ≠ 0 := by
  constructor
  · exact fun h p hp hfive ↦ EndpointDescriptor.contextIndex_iff.mp (h.1 p hp hfive)
  · intro h
    refine ⟨fun p hp hfive ↦ EndpointDescriptor.contextIndex_iff.mpr (h p hp hfive), ?_⟩
    intro speed alloc allocs classes fresh slot l s hl hs
    exact sparesOthers_over hs fun p hp ↦ h p (hl.subset hp)

/-- A configuration with one endpoint, the default control endpoint. -/
def controlConfiguration : ℕ → Byte := fun i ↦
  [0x09, 0x02, 0x10, 0x00, 0x01, 0x01, 0x00, 0xa0, 0x32,
    0x07, 0x05, 0x80, 0x03, 0x08, 0x00, 0x0a].getD i 0

/-- Its descriptor changes the context of the default control endpoint. -/
theorem not_endpoint_writes_inside : ¬∀ buf, WritesInside buf := by
  intro h
  have hmem : 9 ∈ descriptors controlConfiguration :=
    mem_descriptors.mpr ⟨.refl, by decide, by decide⟩
  exact EndpointDescriptor.contextIndex_iff.mp ((h controlConfiguration).1 9 hmem (by decide))
    (by decide)

/-! ## Values -/

/-- `wMaxPacketSize` holds the packet size, and the number of further packets above it. -/
def EndpointDescriptor.packetSize (e : EndpointDescriptor) : ℕ := e.maxPacketSize.toNat % 2 ^ 11

def EndpointDescriptor.burstSize (e : EndpointDescriptor) : ℕ := e.maxPacketSize.toNat / 2 ^ 11 % 4

/-- The exponent of the period that is asked for, in units of 125 µs. -/
def EndpointDescriptor.exponent (e : EndpointDescriptor) (speed : Byte) : ℕ :=
  if (speed = 1 ∨ speed = 2) ∧ e.interrupt then e.interval.toNat.log2 + 3
  else if speed = 1 ∧ e.isochronous then e.interval.toNat + 2
  else e.interval.toNat - 1

/-- What xHCI asks of the context of an endpoint. -/
structure FollowsRules (speed : Byte) (e : EndpointDescriptor) (c : Context) : Prop where
  packetSize : (c.field 1 16 16).toNat = e.packetSize
  burstSize : (c.field 1 8 8).toNat = e.burstSize
  payload : (c.field 0 24 8 ++ c.field 4 16 16).toNat = e.packetSize * (e.burstSize + 1)
  interval : (c.field 0 16 8).toNat = e.exponent speed

/-- Where the exponent comes out right: never for an interrupt endpoint of full or low speed, and
for another one of these speeds by chance only. -/
def IntervalRight (speed : Byte) (e : EndpointDescriptor) : Prop :=
  speed = 1 ∨ speed = 2 →
    e.isochronous ∧ speed = 1 ∧ e.interval.toNat ≤ 253 ∨
      e.bulk ∧ (e.interval = 7 ∨ e.interval = 8)

section Values

variable {speed : Byte} {e : EndpointDescriptor} {c : Context} {trPointer : Addr}

theorem maxBurstSize_toNat : e.maxBurstSize.toNat = e.burstSize := by
  have hmask : (0x1800 : Word).toNat >>> 11 = 2 ^ 2 - 1 := by decide
  rw [EndpointDescriptor.maxBurstSize, BitVec.toNat_ushiftRight, BitVec.toNat_and,
    Nat.shiftRight_and_distrib, hmask, Nat.and_two_pow_sub_one_eq_mod, Nat.shiftRight_eq_div_pow,
    BitVec.toNat_setWidth_of_le (by decide)]
  rfl

theorem emitPayload_toNat : e.emitPayload.toNat = e.maxPacketSize.toNat * (e.burstSize + 1) := by
  have hpacket := e.maxPacketSize.isLt
  have hburst : e.burstSize < 4 := Nat.mod_lt _ (by decide)
  have hle := Nat.mul_le_mul hpacket.le (show e.burstSize + 1 ≤ 4 from hburst)
  have hsucc : (e.maxBurstSize + 1).toNat = e.burstSize + 1 := by
    have hone : (1 : Word).toNat = 1 := rfl
    rw [BitVec.toNat_add, maxBurstSize_toNat, hone]
    exact Nat.mod_eq_of_lt (by omega)
  rw [EndpointDescriptor.emitPayload, BitVec.toNat_mul, hsucc,
    BitVec.toNat_setWidth_of_le (by decide)]
  exact Nat.mod_eq_of_lt (by omega)

/-- The packet size is right if it is all that `wMaxPacketSize` holds. -/
theorem packetSize_iff : e.maxPacketSize.toNat = e.packetSize ↔ e.maxPacketSize.toNat < 2 ^ 11 := by
  rw [EndpointDescriptor.packetSize, eq_comm, Nat.mod_eq_iff_lt (by decide)]

/-- `get_highest_bit` counts the bits. -/
theorem highestBitLoop_eq {fuel : ℕ} (r : ℕ) {b : Byte} (hb : b.toNat < 2 ^ fuel) :
    highestBitLoop fuel b r = r + if b = 0 then 0 else b.toNat.log2 + 1 := by
  induction fuel generalizing r b with
  | zero =>
    have hzero : b = 0 := by bv_omega
    rw [if_pos hzero]
    rfl
  | succ fuel ih =>
    rw [highestBitLoop]
    by_cases hzero : b = 0
    · rw [if_neg (not_not.mpr hzero), if_pos hzero, add_zero]
    · have hhalf : (b >>> 1).toNat = b.toNat / 2 := by
        rw [BitVec.toNat_ushiftRight, Nat.shiftRight_eq_div_pow, pow_one]
      have hpos : 0 < b.toNat := by bv_omega
      rw [if_pos hzero, if_neg hzero, ih (r + 1) (by omega), hhalf, Nat.log2_def b.toNat]
      by_cases hone : b.toNat = 1
      · have hhalf' : b >>> 1 = 0 := by
          refine BitVec.eq_of_toNat_eq ?_
          rw [hhalf, hone]
          rfl
        rw [if_pos hhalf', if_neg (by omega)]
      · have hhalf' : b >>> 1 ≠ 0 := by bv_omega
        rw [if_neg hhalf', if_pos (by omega)]
        omega

theorem getHighestBit_eq {b : Byte} (hb : b ≠ 0) : getHighestBit b = b.toNat.log2 + 1 := by
  rw [getHighestBit, highestBitLoop_eq 0 b.isLt, if_neg hb, zero_add]

theorem attributes_cases (htype : e.attributes &&& 0x03 ≠ 0) :
    e.attributes &&& 0x03 = 1 ∨ e.attributes &&& 0x03 = 2 ∨ e.attributes &&& 0x03 = 3 := by
  have hle : (e.attributes &&& 0x03).toNat ≤ 3 := by
    rw [BitVec.toNat_and]
    exact Nat.and_le_right
  bv_omega

/-- The transfer types apart from control. -/
theorem type_cases (htype : e.attributes &&& 0x03 ≠ 0) :
    e.interrupt = true ∧ e.isochronous = false ∧ e.bulk = false ∨
      e.interrupt = false ∧ e.isochronous = true ∧ e.bulk = false ∨
      e.interrupt = false ∧ e.isochronous = false ∧ e.bulk = true := by
  rw [EndpointDescriptor.interrupt, EndpointDescriptor.isochronous, EndpointDescriptor.bulk]
  rcases attributes_cases htype with h | h | h <;> rw [h] <;> decide

/-- The logarithm of a byte. -/
theorem log2_lt_eight (b : Byte) : b.toNat.log2 < 8 := by
  by_cases hzero : b.toNat = 0
  · rw [hzero, Nat.log2_zero]
    decide
  · exact (Nat.log2_lt hzero).mpr b.isLt

/-- The exponent of an interrupt or bulk endpoint, at full or low speed. -/
theorem ofNat_getHighestBit {b : Byte} (hb : b ≠ 0) :
    ((BitVec.ofNat 32 (getHighestBit b + 3)).setWidth 8).toNat = b.toNat.log2 + 4 := by
  have hlt := log2_lt_eight b
  rw [getHighestBit_eq hb, BitVec.toNat_setWidth, BitVec.toNat_ofNat]
  omega

theorem log2_add_four_eq {b : Byte} (hb : b ≠ 0) :
    b.toNat.log2 + 4 = b.toNat - 1 ↔ b = 7 ∨ b = 8 := by
  have hpos : b.toNat ≠ 0 := by bv_omega
  constructor
  · intro h
    obtain ⟨hle, hlt⟩ := (Nat.log2_eq_iff hpos).mp rfl
    have hlog := log2_lt_eight b
    generalize b.toNat.log2 = n at h hle hlt hlog
    interval_cases n <;> bv_omega
  · rintro (rfl | rfl) <;> rfl

theorem interval_iff (hinterval : e.interval ≠ 0) (htype : e.attributes &&& 0x03 ≠ 0) :
    ((e.intervalFor speed).setWidth 8).toNat = e.exponent speed ↔ IntervalRight speed e := by
  have hpos : 0 < e.interval.toNat := by bv_omega
  have hlt := e.interval.isLt
  rw [EndpointDescriptor.intervalFor, EndpointDescriptor.exponent, IntervalRight]
  by_cases hslow : speed = 1 ∨ speed = 2
  · rw [if_pos hslow, forall_prop_of_true hslow]
    rcases type_cases htype with ⟨hint, hiso, hbulk⟩ | ⟨hint, hiso, hbulk⟩ | ⟨hint, hiso, hbulk⟩
    · simp only [hint, hiso, hbulk, hslow, Bool.false_eq_true, false_and, or_false, and_true,
        if_false, if_true, ofNat_getHighestBit hinterval, iff_false]
      omega
    · have hadd : ((e.interval.setWidth 32 + 2 : Word).setWidth 8).toNat =
          (e.interval.toNat + 2) % 256 := by bv_omega
      simp only [hint, hiso, hbulk, Bool.false_eq_true, and_false, false_and, or_false, and_true,
        true_and, if_false, if_true, hadd]
      by_cases hfull : speed = 1
      · rw [if_pos hfull]
        simp only [hfull, true_and]
        omega
      · rw [if_neg hfull]
        simp only [hfull, false_and, iff_false]
        omega
    · simp only [hint, hiso, hbulk, Bool.false_eq_true, and_false, false_and, false_or, true_and,
        if_false, ofNat_getHighestBit hinterval, log2_add_four_eq hinterval]
  · have hsub : ((e.interval.setWidth 32 - 1).setWidth 8).toNat =
        e.interval.toNat - 1 := by bv_omega
    rw [if_neg hslow, if_neg fun h ↦ hslow h.1, if_neg fun h ↦ hslow (.inl h.1), hsub]
    exact iff_of_true rfl fun h ↦ absurd h hslow

theorem fillEndpoint_rules (hinterval : e.interval ≠ 0) (htype : e.attributes &&& 0x03 ≠ 0) :
    FollowsRules speed e (fillEndpoint speed e trPointer c) ↔
      e.maxPacketSize.toNat < 2 ^ 11 ∧ IntervalRight speed e := by
  constructor
  · intro h
    have hpacket := h.packetSize
    have hperiod := h.interval
    rw [fillEndpoint_maxPacketSize, packetSize_iff] at hpacket
    rw [fillEndpoint_interval, interval_iff hinterval htype] at hperiod
    exact ⟨hpacket, hperiod⟩
  · rintro ⟨hpacket, hperiod⟩
    have hburst : e.burstSize < 4 := Nat.mod_lt _ (by decide)
    refine ⟨?_, ?_, ?_, ?_⟩
    · rwa [fillEndpoint_maxPacketSize, packetSize_iff]
    · rw [fillEndpoint_maxBurst, BitVec.toNat_setWidth, maxBurstSize_toNat]
      exact Nat.mod_eq_of_lt (by omega)
    · rw [fillEndpoint_payloadHi, fillEndpoint_payloadLo, ← packetSize_iff.mpr hpacket,
        ← emitPayload_toNat, setWidth_shift_append, BitVec.toNat_setWidth]
      refine Nat.mod_eq_of_lt ?_
      have hle := Nat.mul_le_mul hpacket.le (show e.burstSize + 1 ≤ 4 from hburst)
      rw [emitPayload_toNat]
      omega
    · rwa [fillEndpoint_interval, interval_iff hinterval htype]

/-- The context of the DCI after the descriptor of an endpoint. -/
theorem entry_of_descriptor {buf : ℕ → Byte} {p : ℕ} {alloc : ℕ → Addr} {s s' : Parse}
    (hs : s.descriptor buf speed alloc p = some s') (hfive : buf (p + 1) = 5) :
    ∃ trPointer c, s'.page.entry ((endpointAt buf p).dci.toNat + 1) =
      fillEndpoint speed (endpointAt buf p) trPointer c := by
  rcases descriptor_cases hs with ⟨-, hend⟩ | ⟨hne, -⟩
  · obtain ⟨t, hpage, -⟩ := endpoint_spec hend
    exact ⟨t, _, by rw [hpage, Page.entry_setEntry_self]⟩
  · exact absurd hfive hne

end Values

/-- **Values of the endpoint contexts.** Whatever has been walked over before, the context that an
endpoint descriptor fills is as xHCI asks if and only if `wMaxPacketSize` has no bits above the
packet size and the exponent comes out right. -/
theorem endpoint_rules_iff {buf : ℕ → Byte} {p : ℕ} {speed : Byte} {alloc : ℕ → Addr} {s s' : Parse}
    (hs : s.descriptor buf speed alloc p = some s') (hfive : buf (p + 1) = 5)
    (hinterval : (endpointAt buf p).interval ≠ 0)
    (htype : (endpointAt buf p).attributes &&& 0x03 ≠ 0) :
    FollowsRules speed (endpointAt buf p) (s'.page.entry ((endpointAt buf p).dci.toNat + 1)) ↔
      (endpointAt buf p).maxPacketSize.toNat < 2 ^ 11 ∧ IntervalRight speed (endpointAt buf p) := by
  obtain ⟨trPointer, c, hentry⟩ := entry_of_descriptor hs hfive
  rw [hentry, fillEndpoint_rules hinterval htype]

/-- The endpoint of a boot keyboard, walked over first. -/
theorem exists_keyboardEndpoint (speed : Byte) : ∃ s',
    (Parse.start 0 (0, 0, 0) (fun _ ↦ 0) Context.zero).descriptor keyboardBuf speed (fun _ ↦ 1) 27 =
      some s' := ⟨_, rfl⟩

/-- A boot keyboard of high speed. -/
theorem endpoint_rules_iff_high : ∃ s',
    (Parse.start 0 (0, 0, 0) (fun _ ↦ 0) Context.zero).descriptor keyboardBuf 3 (fun _ ↦ 1) 27 =
      some s' ∧
    FollowsRules 3 (endpointAt keyboardBuf 27)
      (s'.page.entry ((endpointAt keyboardBuf 27).dci.toNat + 1)) := by
  obtain ⟨s', hs⟩ := exists_keyboardEndpoint 3
  have hslow : ¬((3 : Byte) = 1 ∨ (3 : Byte) = 2) := by decide
  exact ⟨s', hs, (endpoint_rules_iff hs (by decide) (by decide) (by decide)).mpr
    ⟨by decide, fun h ↦ absurd h hslow⟩⟩

/-- A boot keyboard of full speed with `bInterval` 10, which is at most 8 ms: it is polled after
16. -/
theorem not_endpoint_rules : ¬∀ (buf : ℕ → Byte) (p : ℕ) (speed : Byte) (alloc : ℕ → Addr)
    (s s' : Parse), s.descriptor buf speed alloc p = some s' → buf (p + 1) = 5 →
      (endpointAt buf p).interval ≠ 0 → (endpointAt buf p).attributes &&& 0x03 ≠ 0 →
        FollowsRules speed (endpointAt buf p)
          (s'.page.entry ((endpointAt buf p).dci.toNat + 1)) := by
  intro h
  obtain ⟨s', hs⟩ := exists_keyboardEndpoint 1
  have hrules := h _ _ _ _ _ _ hs (by decide) (by decide) (by decide)
  obtain ⟨trPointer, c, hentry⟩ := entry_of_descriptor hs (by decide)
  rw [hentry, fillEndpoint_rules (by decide) (by decide)] at hrules
  rcases hrules.2 (.inl rfl) with ⟨hiso, -⟩ | ⟨hbulk, -⟩
  · exact absurd hiso (by decide)
  · exact absurd hbulk (by decide)

end VimOS
