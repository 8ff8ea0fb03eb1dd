import Mathlib.Data.List.GetD
import VimOS.Xhci.EndpointContexts

/-!
# Well-formed configurations

What the walk over the descriptors makes of a configuration that is a list of descriptors: the
configuration descriptor, then interface descriptors, endpoint descriptors and others in any order,
each of its own length, with an interface before every endpoint. The result is told from the list
alone (`ParsedRight`): the flags and the number of entries from the DCIs, each endpoint context from
the last descriptor of its DCI, and the keyboard from the last interrupt IN endpoint below the
interface of a boot keyboard.

The walk carries the classes of the last interface, so the invariant of the induction over the list
says in addition what these are, and how many pages have been allocated.
-/

namespace VimOS

/-! ## Descriptors by themselves -/

/-- `struct interface_descriptor`, as far as it is read. -/
structure Interface where
  classCode : Byte
  subClassCode : Byte
  interface : Byte
  deriving DecidableEq

/-- A descriptor that follows the configuration descriptor. -/
inductive Descriptor : Type
  | interface (i : Interface)
  | endpoint (e : EndpointDescriptor)
  | other
  deriving DecidableEq

namespace Descriptor

def toInterface : Descriptor → Option Interface
  | interface i => some i
  | _ => none

def toEndpoint : Descriptor → Option EndpointDescriptor
  | endpoint e => some e
  | _ => none

/-- A descriptor by its bytes. -/
def decode (block : List Byte) : Descriptor :=
  if block.getD 1 0 = 4 then
    interface ⟨block.getD 5 0, block.getD 6 0, block.getD 7 0⟩
  else if block.getD 1 0 = 5 then endpoint (endpointAt (fun i ↦ block.getD i 0) 0)
  else other

end Descriptor

open Descriptor

/-- The endpoint descriptors among some descriptors. -/
def endpointsOf (l : List Descriptor) : List EndpointDescriptor := l.filterMap toEndpoint

/-- The last interface descriptor. -/
def nearestInterface (l : List Descriptor) : Option Interface := (l.filterMap toInterface).getLast?

/-- The bytes of one descriptor. -/
structure BlockOk (block : List Byte) : Prop where
  length : (block.getD 0 0).toNat = block.length
  two_le : 2 ≤ block.length
  interface : block.getD 1 0 = 4 → 9 ≤ block.length
  endpoint : block.getD 1 0 = 5 → 7 ≤ block.length

/-- Each endpoint descriptor comes after an interface descriptor, and is for an endpoint other than
0 that is isochronous, bulk or interrupt. -/
def EndpointsOk (l : List Descriptor) : Prop :=
  ∀ n e, l[n]? = some (.endpoint e) →
    nearestInterface (l.take n) ≠ none ∧ e.address &&& 0x0f ≠ 0 ∧ e.attributes &&& 0x03 ≠ 0

/-- The buffer holds a configuration descriptor, `header`, and other descriptors behind it. -/
structure WellFormed (buf : ℕ → Byte) (header : List Byte) (blocks : List (List Byte)) : Prop where
  header_length : (header.getD 0 0).toNat = header.length
  nine_le : 9 ≤ header.length
  blocksOk : ∀ block ∈ blocks, BlockOk block
  contents : ∀ i < (header ++ blocks.flatten).length, buf i = (header ++ blocks.flatten).getD i 0
  total : wTotalLength buf = (header ++ blocks.flatten).length
  size : wTotalLength buf ≤ 512
  endpoints : EndpointsOk (blocks.map decode)

/-! ## The result -/

/-- The type of an endpoint, as `ep_type` gives it: 1 to 3 for OUT, 5 to 7 for IN. -/
def EndpointDescriptor.typeCode (e : EndpointDescriptor) : BitVec 3 :=
  (e.attributes &&& 0x03).setWidth 3 + if e.direction = 1 then 4 else 0

/-- The context of an endpoint, with a ring whose cycle state is 1. -/
structure Filled (c : Context) (e : EndpointDescriptor) (ring : Addr) : Prop where
  epType : c.field 1 3 3 = e.typeCode
  trPointer : c 3 ++ c 2 = v2p ring ||| 1

/-- The `n`-th descriptor is for an interrupt IN endpoint below the interface of a boot keyboard. -/
def KeyboardAt (l : List Descriptor) (n : ℕ) (e : EndpointDescriptor) : Prop :=
  l[n]? = some (.endpoint e) ∧ e.direction = 1 ∧ e.interrupt = true ∧
    nearestInterface (l.take n) = some ⟨3, 1, 1⟩

/-- What the walk makes of some descriptors. The `k`-th endpoint descriptor has the `k`-th two
pages, its `struct ring` in the first and its TRBs in the second. -/
structure ParsedRight (alloc : ℕ → Addr) (allocs : ℕ) (slot : Context) (l : List Descriptor)
    (s : Parse) : Prop where
  flags : ∀ d < 32, (s.page.entry 0 1).getLsbD d = true ↔
    d = 0 ∨ ∃ e ∈ endpointsOf l, e.dci.toNat = d
  entries : ((s.page.entry 1).field 0 27 5).toNat =
    ((endpointsOf l).map fun e ↦ e.dci.toNat).foldl max (slot.field 0 27 5).toNat
  endpoints : ∀ n e, l[n]? = some (.endpoint e) →
    (∀ m e', n < m → l[m]? = some (.endpoint e') → e'.dci ≠ e.dci) →
      Filled (s.page.entry (e.dci.toNat + 1)) e
        (alloc (allocs + 2 * (endpointsOf (l.take n)).length + 1))
  setConfiguration : s.isSetConfiguration = true ↔ ∃ n e, KeyboardAt l n e
  registered : ∀ n e, KeyboardAt l n e → (∀ m e', KeyboardAt l m e' → m ≤ n) →
    s.keyboards.getLast? = some (alloc (allocs + 2 * (endpointsOf (l.take n)).length), e.dci)

/-! ## From the buffer to the list -/

/-- What the loop does at a descriptor. -/
def Parse.take (speed : Byte) (alloc : ℕ → Addr) (s : Parse) : Descriptor → Option Parse
  | .interface i => some { s with
      classCode := i.classCode, subClassCode := i.subClassCode, interface := i.interface }
  | .endpoint e => s.endpoint speed alloc e
  | .other => some s

section Blocks

variable {buf : ℕ → Byte} {speed : Byte} {alloc : ℕ → Addr} {s : Parse} {block : List Byte} {p : ℕ}

/-- Descriptors are not empty. -/
theorem length_le_flatten {blocks : List (List Byte)} (h : ∀ block ∈ blocks, BlockOk block) :
    blocks.length ≤ blocks.flatten.length := by
  induction blocks with
  | nil => exact Nat.le_refl 0
  | cons block blocks ih =>
    obtain ⟨hblock, hblocks⟩ := List.forall_mem_cons.mp h
    have hpos := hblock.two_le
    have hle := ih hblocks
    rw [List.flatten_cons, List.length_append, List.length_cons]
    omega

/-- The loop at a descriptor of the list. -/
theorem descriptor_eq_take (hblock : BlockOk block)
    (hbuf : ∀ i < block.length, buf (p + i) = block.getD i 0) :
    s.descriptor buf speed alloc p = s.take speed alloc (decode block) := by
  have htype : buf (p + 1) = block.getD 1 0 := hbuf 1 hblock.two_le
  rw [Parse.descriptor, decode, htype]
  by_cases hfour : block.getD 1 0 = 4
  · have hlen := hblock.interface hfour
    rw [if_pos hfour, if_pos hfour, hbuf 5 (by omega), hbuf 6 (by omega), hbuf 7 (by omega)]
    rfl
  · rw [if_neg hfour, if_neg hfour]
    by_cases hfive : block.getD 1 0 = 5
    · have hlen := hblock.endpoint hfive
      have hend : endpointAt buf p = endpointAt (fun i ↦ block.getD i 0) 0 := by
        rw [endpointAt, endpointAt, hbuf 2 (by omega), hbuf 3 (by omega), hbuf 4 (by omega),
          hbuf 5 (by omega), hbuf 6 (by omega)]
      rw [if_pos hfive, if_pos hfive, hend]
      rfl
    · rw [if_neg hfive, if_neg hfive]
      rfl

/-- The walk over a list of descriptors that stand in the buffer one behind another. -/
theorem over_eq_foldlM {blocks : List (List Byte)} {fuel : ℕ}
    (hblocks : ∀ block ∈ blocks, BlockOk block)
    (hbuf : ∀ i < blocks.flatten.length, buf (p + i) = blocks.flatten.getD i 0)
    (hfuel : blocks.length ≤ fuel) :
    s.over buf speed alloc (descriptorsFrom buf (p + blocks.flatten.length) fuel p) =
      (blocks.map decode).foldlM (Parse.take speed alloc) s := by
  induction blocks generalizing p s fuel with
  | nil =>
    have hnil : descriptorsFrom buf p fuel p = [] := by
      cases fuel with
      | zero => rfl
      | succ fuel => exact if_neg fun h ↦ Nat.lt_irrefl p h.1
    rw [List.flatten_nil, List.length_nil, add_zero, hnil]
    rfl
  | cons block blocks ih =>
    obtain ⟨hblock, hblocks⟩ := List.forall_mem_cons.mp hblocks
    rw [List.flatten_cons] at hbuf ⊢
    have hown : ∀ i < block.length, buf (p + i) = block.getD i 0 := by
      intro i hi
      rw [hbuf i (by rw [List.length_append]; omega), List.getD_append _ _ _ _ hi]
    have hrest : ∀ i < blocks.flatten.length,
        buf (p + block.length + i) = blocks.flatten.getD i 0 := by
      intro i hi
      rw [add_assoc, hbuf _ (by rw [List.length_append]; omega),
        List.getD_append_right _ _ _ _ (Nat.le_add_right _ i), Nat.add_sub_cancel_left]
    have hlen : (buf p).toNat = block.length := by
      rw [← hblock.length, ← hown 0 (by have := hblock.two_le; omega)]
      rfl
    have hpos := hblock.two_le
    have hne : buf p ≠ 0 := fun hzero ↦ by
      rw [hzero] at hlen
      exact absurd hlen (by simp; omega)
    obtain ⟨fuel, rfl⟩ : ∃ fuel', fuel = fuel' + 1 :=
      ⟨fuel - 1, by rw [List.length_cons] at hfuel; omega⟩
    rw [descriptorsFrom, if_pos ⟨by rw [List.length_append]; omega, hne⟩, hlen, Parse.over,
      List.map_cons, List.foldlM_cons, List.foldlM_cons, descriptor_eq_take hblock hown,
      List.length_append, ← add_assoc]
    refine congrArg _ (funext fun s' ↦ ?_)
    exact ih hblocks hrest (by rw [List.length_cons] at hfuel; omega)

end Blocks

/-- The walk over a well-formed configuration is one over its descriptors. -/
theorem WellFormed.parse_eq {buf : ℕ → Byte} {header : List Byte} {blocks : List (List Byte)}
    (h : WellFormed buf header blocks) (speed : Byte) (alloc : ℕ → Addr) (allocs : ℕ)
    (classes : Byte × Byte × Byte) (fresh : Page) (slot : Context) :
    parseConfiguration buf speed alloc allocs classes fresh slot =
      (blocks.map decode).foldlM (Parse.take speed alloc) (.start allocs classes fresh slot) := by
  have hstart : (buf 0).toNat = header.length := by
    have hpos := h.nine_le
    rw [h.contents 0 (by rw [List.length_append]; omega), List.getD_append _ _ _ _ (by omega),
      h.header_length]
  have hbuf : ∀ i < blocks.flatten.length, buf (header.length + i) = blocks.flatten.getD i 0 := by
    intro i hi
    rw [h.contents _ (by rw [List.length_append]; omega),
      List.getD_append_right _ _ _ _ (Nat.le_add_right _ i), Nat.add_sub_cancel_left]
  have hcount : blocks.length ≤ 2 ^ 16 := by
    have hle := length_le_flatten h.blocksOk
    have hsize := h.size
    rw [h.total, List.length_append] at hsize
    omega
  rw [parseConfiguration_over, descriptors, hstart, h.total, List.length_append]
  exact over_eq_foldlM h.blocksOk hbuf hcount

/-! ## Over the list -/

/-- The result so far, with the variables that the next descriptors depend on. -/
structure Parsing (alloc : ℕ → Addr) (allocs : ℕ) (slot : Context) (l : List Descriptor)
    (s : Parse) : Prop where
  result : ParsedRight alloc allocs slot l s
  classes : ∀ i, nearestInterface l = some i →
    s.classCode = i.classCode ∧ s.subClassCode = i.subClassCode ∧ s.interface = i.interface
  allocs_eq : s.allocs = allocs + 2 * (endpointsOf l).length

section Step

variable {speed : Byte} {alloc : ℕ → Addr} {allocs n : ℕ} {slot c : Context} {l : List Descriptor}
  {x y : Descriptor} {s s' : Parse} {e e' : EndpointDescriptor}

theorem getElem?_snoc : (l ++ [x])[n]? = some y ↔ l[n]? = some y ∨ n = l.length ∧ x = y := by
  rw [List.getElem?_append]
  split_ifs with hn
  · refine ⟨.inl, fun h ↦ h.resolve_right ?_⟩
    rintro ⟨rfl, -⟩
    exact absurd hn (Nat.lt_irrefl _)
  · rw [List.getElem?_eq_none (Nat.not_lt.mp hn), List.getElem?_singleton]
    split_ifs with hzero
    · have hlen : n = l.length := by omega
      simp [hlen]
    · have hlen : n ≠ l.length := by omega
      simp [hlen]

theorem take_snoc (h : n ≤ l.length) : (l ++ [x]).take n = l.take n :=
  List.take_append_of_le_length h

theorem lt_of_getElem? (h : l[n]? = some y) : n < l.length := (List.getElem?_eq_some_iff.mp h).1

theorem keyboardAt_snoc : KeyboardAt (l ++ [x]) n e ↔ KeyboardAt l n e ∨
    n = l.length ∧ x = .endpoint e ∧ e.direction = 1 ∧ e.interrupt = true ∧
      nearestInterface l = some ⟨3, 1, 1⟩ := by
  rw [KeyboardAt, KeyboardAt, getElem?_snoc]
  constructor
  · rintro ⟨hn | ⟨rfl, rfl⟩, hdir, hint, hnear⟩
    · rw [take_snoc (lt_of_getElem? hn).le] at hnear
      exact .inl ⟨hn, hdir, hint, hnear⟩
    · rw [List.take_left] at hnear
      exact .inr ⟨rfl, rfl, hdir, hint, hnear⟩
  · rintro (⟨hn, hdir, hint, hnear⟩ | ⟨rfl, rfl, hdir, hint, hnear⟩)
    · rw [take_snoc (lt_of_getElem? hn).le]
      exact ⟨.inl hn, hdir, hint, hnear⟩
    · rw [List.take_left]
      exact ⟨.inr ⟨rfl, rfl⟩, hdir, hint, hnear⟩

theorem endpointsOf_snoc : endpointsOf (l ++ [x]) = endpointsOf l ++ (toEndpoint x).toList := by
  rw [endpointsOf, List.filterMap_append]
  cases x <;> rfl

theorem nearestInterface_snoc :
    nearestInterface (l ++ [x]) = (toInterface x).or (nearestInterface l) := by
  rw [nearestInterface, List.filterMap_append, List.getLast?_append]
  cases x <;> rfl

/-- A descriptor that is not for an endpoint. -/
theorem ParsedRight.snoc_of_none (h : ParsedRight alloc allocs slot l s)
    (hx : toEndpoint x = none) (hpage : s'.page = s.page)
    (hset : s'.isSetConfiguration = s.isSetConfiguration)
    (hkeyboards : s'.keyboards = s.keyboards) :
    ParsedRight alloc allocs slot (l ++ [x]) s' := by
  have hends : endpointsOf (l ++ [x]) = endpointsOf l := by
    rw [endpointsOf_snoc, hx]
    exact List.append_nil _
  have hne : ∀ e, x ≠ .endpoint e := by
    rintro e rfl
    cases hx
  have hkeyboard : ∀ n e, KeyboardAt (l ++ [x]) n e ↔ KeyboardAt l n e := fun n e ↦
    keyboardAt_snoc.trans (or_iff_left fun hnew ↦ hne e hnew.2.1)
  have hget : ∀ n e, (l ++ [x])[n]? = some (endpoint e) ↔ l[n]? = some (endpoint e) := fun n e ↦
    getElem?_snoc.trans (or_iff_left fun hnew ↦ hne e hnew.2)
  refine ⟨?_, ?_, ?_, ?_, ?_⟩
  · rw [hpage, hends]
    exact h.flags
  · rw [hpage, hends]
    exact h.entries
  · intro n e hn hlast
    simp only [hget] at hn hlast
    rw [hpage, take_snoc (lt_of_getElem? hn).le]
    exact h.endpoints n e hn hlast
  · simp only [hset, hkeyboard]
    exact h.setConfiguration
  · intro n e hn hlast
    simp only [hkeyboard] at hn hlast
    rw [hkeyboards, take_snoc (lt_of_getElem? hn.1).le]
    exact h.registered n e hn hlast

/-! ### An endpoint descriptor -/

/-- What the loop does at an endpoint descriptor, when its ring can be made. -/
theorem exists_endpoint (speed : Byte) (e : EndpointDescriptor) (hring : alloc s.allocs ≠ 0)
    (hbuf : alloc (s.allocs + 1) ≠ 0) :
    ∃ s', s.endpoint speed alloc e = some s' ∧
      s'.page = (s.page.mark e.dci.toNat).setEntry (e.dci.toNat + 1)
        (fillEndpoint speed e (v2p (alloc (s.allocs + 1)) ||| 1)
          ((s.page.mark e.dci.toNat).entry (e.dci.toNat + 1))) ∧
      s'.isSetConfiguration = (s.isSetConfiguration ||
        decide (IsBootKeyboard s.classCode s.subClassCode s.interface e)) ∧
      s'.keyboards = (if IsBootKeyboard s.classCode s.subClassCode s.interface e then
        s.keyboards ++ [(alloc s.allocs, e.dci)] else s.keyboards) ∧
      s'.allocs = s.allocs + 2 ∧ s'.classCode = s.classCode ∧ s'.subClassCode = s.subClassCode ∧
      s'.interface = s.interface := by
  refine ⟨_, if_neg (not_or_intro hring hbuf), rfl, rfl, ?_, rfl, rfl, rfl, rfl⟩
  simp only [decide_eq_true_eq]

theorem getLsbD_addFlag {dci d : ℕ} (hd : d < 32) :
    (c.addFlag dci 1).getLsbD d = true ↔ (c 1).getLsbD d = true ∨ dci = d := by
  rw [Context.addFlag, Context.setDword_apply, if_pos rfl, BitVec.getLsbD_or,
    BitVec.getLsbD_shiftLeft, Bool.or_eq_true]
  refine or_congr_right ?_
  simp [hd, BitVec.getLsbD_one]
  omega

theorem raiseEntries_entries {dci : ℕ} (hdci : dci < 32) :
    ((c.raiseEntries dci).field 0 27 5).toNat = max (c.field 0 27 5).toNat dci := by
  have hentries : (c 0 >>> 27).toNat = (c.field 0 27 5).toNat := by
    have hlt := (c 0).isLt
    rw [Context.field, BitVec.extractLsb'_toNat, BitVec.toNat_ushiftRight,
      Nat.shiftRight_eq_div_pow]
    omega
  have hlt := (c.field 0 27 5).isLt
  rw [Context.raiseEntries, Context.field_setField (by decide), BitVec.toNat_setWidth,
    apply_ite BitVec.toNat,
    hentries, BitVec.toNat_ofNat]
  split_ifs with hle
  · rw [max_eq_right hle]
    omega
  · rw [max_eq_left (by omega)]
    omega

theorem direction_cases : e.direction = 0 ∨ e.direction = 1 := by
  have hlt : e.direction.toNat < 2 := by
    have haddr := e.address.isLt
    rw [EndpointDescriptor.direction, BitVec.toNat_ushiftRight, Nat.shiftRight_eq_div_pow]
    omega
  bv_omega

/-- One of the three types is assigned. -/
theorem setEpType_field (htype : e.attributes &&& 0x03 ≠ 0) :
    (setEpType e c).field 1 3 3 = e.typeCode := by
  have hcases := attributes_cases htype
  simp (disch := decide) only [setEpType, field_ite, Context.field_setField]
  rw [EndpointDescriptor.typeCode, EndpointDescriptor.interrupt, EndpointDescriptor.isochronous,
    EndpointDescriptor.bulk]
  rcases hcases with htype | htype | htype <;> rcases direction_cases with hdir | hdir <;>
    rw [htype, hdir] <;> rfl

theorem filled_fillEndpoint {ring : Addr} (htype : e.attributes &&& 0x03 ≠ 0) :
    Filled (fillEndpoint speed e (v2p ring ||| 1) c) e ring where
  epType := fillEndpoint_epType.trans (setEpType_field htype)
  trPointer := fillEndpoint_trPointer

theorem isBootKeyboard_iff {i : Interface} (h : Parsing alloc allocs slot l s)
    (hnear : nearestInterface l = some i) :
    IsBootKeyboard s.classCode s.subClassCode s.interface e ↔
      e.direction = 1 ∧ e.interrupt = true ∧ nearestInterface l = some ⟨3, 1, 1⟩ := by
  obtain ⟨hclass, hsub, hinterface⟩ := h.classes i hnear
  obtain ⟨classCode, subClassCode, interface⟩ := i
  rw [IsBootKeyboard, hclass, hsub, hinterface, hnear, Option.some.injEq, Interface.mk.injEq]
  tauto

theorem EndpointsOk.two_le_dci (hl : EndpointsOk l) (hn : l[n]? = some (.endpoint e)) :
    2 ≤ e.dci.toNat := by
  have hindex := (EndpointDescriptor.contextIndex_iff.mpr (hl n e hn).2.1).1
  rw [EndpointDescriptor.contextIndex] at hindex
  omega

/-- A context is overwritten only when a later descriptor is for the same endpoint. -/
theorem ParsedRight.endpoints_snoc {filled : Context} (h : ParsedRight alloc allocs slot l s)
    (hl : EndpointsOk (l ++ [.endpoint e]))
    (hpage : s'.page = (s.page.mark e.dci.toNat).setEntry (e.dci.toNat + 1) filled)
    (hfilled : Filled filled e (alloc (allocs + 2 * (endpointsOf l).length + 1)))
    (hn : (l ++ [.endpoint e])[n]? = some (.endpoint e'))
    (hlast : ∀ m e'', n < m → (l ++ [.endpoint e])[m]? = some (.endpoint e'') → e''.dci ≠ e'.dci) :
    Filled (s'.page.entry (e'.dci.toNat + 1)) e'
      (alloc (allocs + 2 * (endpointsOf ((l ++ [Descriptor.endpoint e]).take n)).length + 1)) := by
  rcases getElem?_snoc.mp hn with hold | ⟨rfl, heq⟩
  · have hlt := lt_of_getElem? hold
    have hne : e.dci ≠ e'.dci := hlast l.length e hlt (getElem?_snoc.mpr (.inr ⟨rfl, rfl⟩))
    have hne' : e.dci.toNat ≠ e'.dci.toNat := fun heq ↦ hne (BitVec.eq_of_toNat_eq heq)
    have hdci := hl.two_le_dci hn
    rw [hpage, Page.entry_setEntry_of_ne _ _ (by omega), Page.entry_mark, if_neg (by omega),
      if_neg (by omega), take_snoc hlt.le]
    exact h.endpoints n e' hold fun m e'' hm hget ↦
      hlast m e'' hm (getElem?_snoc.mpr (.inl hget))
  · obtain rfl := Descriptor.endpoint.inj heq
    rw [hpage, Page.entry_setEntry_self, List.take_left]
    exact hfilled

/-- The last keyboard of the registered ones. -/
theorem ParsedRight.registered_snoc {boot : Prop} [Decidable boot]
    (h : ParsedRight alloc allocs slot l s)
    (hboot : boot ↔ e.direction = 1 ∧ e.interrupt = true ∧ nearestInterface l = some ⟨3, 1, 1⟩)
    (hkeyboards : s'.keyboards = if boot then
      s.keyboards ++ [(alloc (allocs + 2 * (endpointsOf l).length), e.dci)] else s.keyboards)
    (hn : KeyboardAt (l ++ [.endpoint e]) n e')
    (hlast : ∀ m e'', KeyboardAt (l ++ [.endpoint e]) m e'' → m ≤ n) :
    s'.keyboards.getLast? = some (alloc (allocs +
      2 * (endpointsOf ((l ++ [Descriptor.endpoint e]).take n)).length), e'.dci) := by
  rw [hkeyboards]
  split_ifs with hkeyboard
  · -- the new one is the last
    have hle := hlast l.length e (keyboardAt_snoc.mpr (.inr ⟨rfl, rfl, hboot.mp hkeyboard⟩))
    rcases keyboardAt_snoc.mp hn with hn | ⟨rfl, heq, -⟩
    · exact absurd (lt_of_getElem? hn.1) (Nat.not_lt.mpr hle)
    · obtain rfl := Descriptor.endpoint.inj heq
      rw [List.getLast?_append, List.take_left]
      rfl
  · rcases keyboardAt_snoc.mp hn with hn | ⟨-, heq, hnew⟩
    · rw [take_snoc (lt_of_getElem? hn.1).le]
      exact h.registered n e' hn fun m e'' hm ↦
        hlast m e'' (keyboardAt_snoc.mpr (.inl hm))
    · obtain rfl := Descriptor.endpoint.inj heq
      exact absurd (hboot.mpr hnew) hkeyboard

theorem exists_keyboardAt_snoc : (∃ n e', KeyboardAt (l ++ [.endpoint e]) n e') ↔
    (∃ n e', KeyboardAt l n e') ∨
      e.direction = 1 ∧ e.interrupt = true ∧ nearestInterface l = some ⟨3, 1, 1⟩ := by
  constructor
  · rintro ⟨n, e', hn⟩
    rcases keyboardAt_snoc.mp hn with hn | ⟨-, heq, hnew⟩
    · exact .inl ⟨n, e', hn⟩
    · obtain rfl := Descriptor.endpoint.inj heq
      exact .inr hnew
  · rintro (⟨n, e', hn⟩ | hnew)
    · exact ⟨n, e', keyboardAt_snoc.mpr (.inl hn)⟩
    · exact ⟨l.length, e, keyboardAt_snoc.mpr (.inr ⟨rfl, rfl, hnew⟩)⟩

/-- The result after an endpoint descriptor. -/
theorem Parsing.snoc_endpoint (h : Parsing alloc allocs slot l s)
    (hl : EndpointsOk (l ++ [.endpoint e]))
    (halloc : ∀ n < allocs + 2 * (endpointsOf (l ++ [.endpoint e])).length, alloc n ≠ 0) :
    ∃ s', s.take speed alloc (.endpoint e) = some s' ∧
      Parsing alloc allocs slot (l ++ [.endpoint e]) s' := by
  have hget : (l ++ [.endpoint e])[l.length]? = some (.endpoint e) :=
    getElem?_snoc.mpr (.inr ⟨rfl, rfl⟩)
  obtain ⟨hnear, -, htype⟩ := hl l.length e hget
  rw [List.take_left] at hnear
  obtain ⟨i, hi⟩ := Option.ne_none_iff_exists'.mp hnear
  have hends : endpointsOf (l ++ [.endpoint e]) = endpointsOf l ++ [e] := endpointsOf_snoc
  rw [hends, List.length_append, List.length_singleton] at halloc
  obtain ⟨s', hs', hpage, hset, hkeyboards, hallocs, hclasses⟩ := exists_endpoint speed e
    (halloc s.allocs (by rw [h.allocs_eq]; omega))
    (halloc (s.allocs + 1) (by rw [h.allocs_eq]; omega))
  have hboot := isBootKeyboard_iff (e := e) h hi
  have hdci := hl.two_le_dci hget
  have hdci' := e.dci_lt
  rw [h.allocs_eq] at hpage hkeyboards
  refine ⟨s', hs', { result := ⟨?_, ?_, ?_, ?_, ?_⟩, classes := ?_, allocs_eq := ?_ }⟩
  · intro d hd
    rw [hpage, Page.entry_setEntry_of_ne _ _ (by omega), Page.entry_mark, if_pos rfl,
      getLsbD_addFlag hd, h.result.flags d hd, hends]
    simp only [List.mem_append, List.mem_singleton, or_and_right, exists_or,
      exists_eq_left, or_assoc]
  · rw [hpage, Page.entry_setEntry_of_ne _ _ (by omega), Page.entry_mark, if_neg (by decide),
      if_pos rfl, raiseEntries_entries hdci', h.result.entries, hends, List.map_append,
      List.foldl_append]
    rfl
  · exact fun n e' hn hlast ↦
      h.result.endpoints_snoc hl hpage (filled_fillEndpoint htype) hn hlast
  · rw [hset, Bool.or_eq_true, decide_eq_true_eq, h.result.setConfiguration, hboot,
      exists_keyboardAt_snoc]
  · exact fun n e' hn hlast ↦ h.result.registered_snoc hboot hkeyboards hn hlast
  · intro i hi
    rw [nearestInterface_snoc] at hi
    rw [hclasses.1, hclasses.2.1, hclasses.2.2]
    exact h.classes i hi
  · rw [hallocs, h.allocs_eq, hends, List.length_append, List.length_singleton]
    omega

/-- **The step.** -/
theorem Parsing.snoc (speed : Byte) (h : Parsing alloc allocs slot l s)
    (hl : EndpointsOk (l ++ [x]))
    (halloc : ∀ n < allocs + 2 * (endpointsOf (l ++ [x])).length, alloc n ≠ 0) :
    ∃ s', s.take speed alloc x = some s' ∧ Parsing alloc allocs slot (l ++ [x]) s' := by
  cases x with
  | endpoint e => exact h.snoc_endpoint hl halloc
  | interface i =>
    refine ⟨_, rfl, h.result.snoc_of_none rfl rfl rfl rfl, ?_, ?_⟩
    · intro i' hi'
      rw [nearestInterface_snoc] at hi'
      obtain rfl := Option.some.inj hi'
      exact ⟨rfl, rfl, rfl⟩
    · rw [endpointsOf_snoc]
      exact h.allocs_eq.trans (by simp [toEndpoint])
  | other =>
    refine ⟨_, rfl, h.result.snoc_of_none rfl rfl rfl rfl, ?_, ?_⟩
    · intro i' hi'
      rw [nearestInterface_snoc] at hi'
      exact h.classes i' hi'
    · rw [endpointsOf_snoc]
      exact h.allocs_eq.trans (by simp [toEndpoint])

theorem EndpointsOk.of_snoc (h : EndpointsOk (l ++ [x])) : EndpointsOk l := by
  intro n e hn
  have hsnoc := h n e (getElem?_snoc.mpr (.inl hn))
  rwa [take_snoc (lt_of_getElem? hn).le] at hsnoc

theorem parsing_start (alloc : ℕ → Addr) (allocs : ℕ) (classes : Byte × Byte × Byte) (fresh : Page)
    (slot : Context) :
    Parsing alloc allocs slot [] (.start allocs classes fresh slot) where
  result := {
    flags := by
      intro d hd
      have hentry : (Parse.start allocs classes fresh slot).page.entry 0 =
          Context.zero.setDword 1 0x01 := startPage_entry (by decide)
      rw [hentry, Context.setDword_apply, if_pos rfl]
      simp [endpointsOf]
    entries := by
      have hentry : (Parse.start allocs classes fresh slot).page.entry 1 = slot :=
        startPage_entry (by decide)
      rw [hentry]
      rfl
    endpoints := by
      intro n e hn
      cases hn
    setConfiguration := by
      refine iff_of_false Bool.false_ne_true ?_
      rintro ⟨n, e, hn, -⟩
      cases hn
    registered := by
      rintro n e ⟨hn, -⟩
      cases hn }
  classes := nofun
  allocs_eq := rfl

/-- **The run.** -/
theorem exists_parsing (speed : Byte) (slot : Context) (classes : Byte × Byte × Byte) (fresh : Page)
    (hl : EndpointsOk l)
    (halloc : ∀ n < allocs + 2 * (endpointsOf l).length, alloc n ≠ 0) :
    ∃ s, l.foldlM (Parse.take speed alloc) (.start allocs classes fresh slot) = some s ∧
      Parsing alloc allocs slot l s := by
  induction l using List.reverseRecOn with
  | nil => exact ⟨_, rfl, parsing_start alloc allocs classes fresh slot⟩
  | append_singleton l x ih =>
    obtain ⟨s, hs, hparsing⟩ := ih hl.of_snoc fun n hn ↦ halloc n (by
      rw [endpointsOf_snoc, List.length_append]
      omega)
    obtain ⟨s', hs', hparsing'⟩ := hparsing.snoc speed hl halloc
    refine ⟨s', ?_, hparsing'⟩
    rw [List.foldlM_append, hs]
    simpa using hs'

end Step

/-- **Well-formed configurations** are walked over to their end when memory suffices, with the right
result, whatever the class codes of the device are. -/
theorem configuration_parsed {buf : ℕ → Byte} {header : List Byte} {blocks : List (List Byte)}
    (h : WellFormed buf header blocks) (speed : Byte) {alloc : ℕ → Addr} {allocs : ℕ}
    (halloc : ∀ n < allocs + 2 * (endpointsOf (blocks.map decode)).length, alloc n ≠ 0)
    (classes : Byte × Byte × Byte) (fresh : Page) (slot : Context) :
    ∃ s, parseConfiguration buf speed alloc allocs classes fresh slot = some s ∧
      ParsedRight alloc allocs slot (blocks.map decode) s := by
  obtain ⟨s, hs, hparsing⟩ := exists_parsing speed slot classes fresh h.endpoints halloc
  exact ⟨s, (h.parse_eq speed alloc allocs classes fresh slot).trans hs, hparsing.result⟩

/-- The descriptors of a boot keyboard: the interface, the HID descriptor and the endpoint. -/
def keyboardBlocks : List (List Byte) :=
  [[0x09, 0x04, 0x00, 0x00, 0x01, 0x03, 0x01, 0x01, 0x00],
    [0x09, 0x21, 0x11, 0x01, 0x00, 0x01, 0x22, 0x3f, 0x00],
    [0x07, 0x05, 0x81, 0x03, 0x08, 0x00, 0x0a]]

theorem wellFormed_keyboard : WellFormed keyboardBuf
    [0x09, 0x02, 0x22, 0x00, 0x01, 0x01, 0x00, 0xa0, 0x32] keyboardBlocks where
  header_length := rfl
  nine_le := by decide
  blocksOk := by
    rw [keyboardBlocks]
    simp only [List.forall_mem_cons]
    exact ⟨⟨rfl, by decide, by decide, by decide⟩, ⟨rfl, by decide, by decide, by decide⟩,
      ⟨rfl, by decide, by decide, by decide⟩, List.forall_mem_nil _⟩
  contents := by decide
  total := rfl
  size := by decide
  endpoints := by
    intro n e hn
    match n with
    | 0 => cases hn
    | 1 => cases hn
    | 2 =>
      obtain rfl := Descriptor.endpoint.inj (Option.some.inj hn)
      decide
    | n + 3 => cases hn

/-- A boot keyboard. -/
theorem configuration_parsed_keyboard : ∃ s,
    parseConfiguration keyboardBuf 1 (fun _ ↦ 1) 0 (0, 0, 0) (fun _ ↦ 0) Context.zero = some s ∧
      ParsedRight (fun _ ↦ 1) 0 Context.zero (keyboardBlocks.map decode) s :=
  configuration_parsed wellFormed_keyboard 1 (fun _ _ ↦ by decide) (0, 0, 0)
    (fun _ ↦ 0) Context.zero

end VimOS
