import VimOS.Xhci.Trb

/-!
# The input context of a configuration

`usb_process_events` walks the descriptors of a configuration and fills an input context, which the
controller reads at a Configure Endpoint command: the input control context, the slot context and
one endpoint context for each DCI, each of eight dwords.

The driver lays them out one after another, 32 bytes each. The controller takes 32 or 64 bytes for
each, as HCCPARAMS1.CSZ says; the driver reads CSZ but does not use it. The endpoint context of DCI
`d` is `epctx[d - 1]`, so that an endpoint of DCI 0 is filled where the slot context is.
-/

namespace VimOS

/-! ## Contexts -/

/-- The eight dwords of a context. -/
abbrev Context := Fin 8 → Word

/-- Assignment to a bit field. -/
def setBits (lo width : ℕ) (v x : Word) : Word :=
  let mask := BitVec.ofNat 32 (2 ^ width - 1)
  v &&& ~~~(mask <<< lo) ||| (x &&& mask) <<< lo

def Context.zero : Context := fun _ ↦ 0

def Context.setDword (c : Context) (j : Fin 8) (x : Word) : Context := Function.update c j x

/-- Assignment to a bit field of a context. -/
def Context.setField (c : Context) (j : Fin 8) (lo width : ℕ) (x : Word) : Context :=
  c.setDword j (setBits lo width (c j) x)

theorem Context.setDword_apply (c : Context) (i j : Fin 8) (x : Word) :
    c.setDword j x i = if i = j then x else c i := Function.update_apply ..

theorem Context.setField_apply (c : Context) (i j : Fin 8) (lo width : ℕ) (x : Word) :
    c.setField j lo width x i = if i = j then setBits lo width (c j) x else c i :=
  Context.setDword_apply ..

/-- `a_flags |= (1 << dci)`. -/
def Context.addFlag (dci : ℕ) (c : Context) : Context :=
  c.setDword 1 (c 1 ||| 1#32 <<< dci)

/-- `context_entries` is raised to the DCI. -/
def Context.raiseEntries (dci : ℕ) (c : Context) : Context :=
  let entries := c 0 >>> 27
  c.setField 0 27 5 (if entries.toNat ≤ dci then BitVec.ofNat 32 dci else entries)

/-- The page of the input context, by dwords. -/
abbrev Page := ℕ → Word

/-- A context of `struct input_context`, in the order of its fields. -/
def Page.entry (page : Page) (k : ℕ) : Context := fun j ↦ page (8 * k + j)

def Page.setEntry (page : Page) (k : ℕ) (c : Context) : Page := fun i ↦
  if i / 8 = k then c ⟨i % 8, Nat.mod_lt i (by decide)⟩ else page i

theorem Page.entry_setEntry (page : Page) (k k' : ℕ) (c : Context) :
    (page.setEntry k c).entry k' = if k' = k then c else page.entry k' := by
  funext j
  have hdiv : (8 * k' + (j : ℕ)) / 8 = k' := by omega
  have hmod : (⟨(8 * k' + (j : ℕ)) % 8, Nat.mod_lt _ (by decide)⟩ : Fin 8) = j := by
    ext
    simp only
    omega
  rw [Page.entry, Page.setEntry, hdiv]
  split_ifs
  · rw [hmod]
  · rfl

@[simp] theorem Page.entry_setEntry_self (page : Page) (k : ℕ) (c : Context) :
    (page.setEntry k c).entry k = c := by
  rw [Page.entry_setEntry, if_pos rfl]

theorem Page.entry_setEntry_of_ne (page : Page) {k k' : ℕ} (c : Context) (h : k' ≠ k) :
    (page.setEntry k c).entry k' = page.entry k' := by
  rw [Page.entry_setEntry, if_neg h]

/-- The flag and the number of entries of a DCI. -/
def Page.mark (page : Page) (dci : ℕ) : Page :=
  let page := page.setEntry 0 ((page.entry 0).addFlag dci)
  page.setEntry 1 ((page.entry 1).raiseEntries dci)

theorem Page.entry_mark (page : Page) (dci k : ℕ) : (page.mark dci).entry k =
    if k = 0 then (page.entry 0).addFlag dci
    else if k = 1 then (page.entry 1).raiseEntries dci
    else page.entry k := by
  rw [Page.mark, Page.entry_setEntry, Page.entry_setEntry_of_ne _ _ (by decide : (1 : ℕ) ≠ 0)]
  split_ifs with h1 h0 h0
  · omega
  · rfl
  · rw [h0, Page.entry_setEntry_self]
  · exact Page.entry_setEntry_of_ne _ _ h0

/-! ## The endpoint context -/

/-- `struct endpoint_descriptor`, as far as it is read. -/
structure EndpointDescriptor where
  address : Byte
  attributes : Byte
  maxPacketSize : BitVec 16
  interval : Byte
  deriving DecidableEq

namespace EndpointDescriptor

variable (e : EndpointDescriptor)

def direction : Byte := e.address >>> 7

def interrupt : Bool := e.attributes &&& 0x03 = 3

def isochronous : Bool := e.attributes &&& 0x03 = 1

def bulk : Bool := e.attributes &&& 0x03 = 2

/-- `ep_in_dci`. -/
def dci : Byte := 2 * (e.address &&& 0x0f) + e.direction

theorem dci_lt : e.dci.toNat < 32 := by
  have hnum : (e.address &&& 0x0f).toNat ≤ 15 := by
    rw [BitVec.toNat_and]
    exact Nat.and_le_right
  have hdir : e.direction.toNat ≤ 1 := by
    have hlt := e.address.isLt
    rw [direction, BitVec.toNat_ushiftRight, Nat.shiftRight_eq_div_pow]
    omega
  rw [dci]
  bv_omega

end EndpointDescriptor

/-- The loop of `get_highest_bit`, with `r`. -/
def highestBitLoop : ℕ → Byte → ℕ → ℕ
  | 0, _, r => r
  | fuel + 1, b, r => if b ≠ 0 then highestBitLoop fuel (b >>> 1) (r + 1) else r

/-- `get_highest_bit`; a byte is zero after eight shifts. -/
def getHighestBit (b : Byte) : ℕ := highestBitLoop 8 b 0

/-- The assignments to `ep_type`. -/
def setEpType (e : EndpointDescriptor) (c : Context) : Context :=
  let c := if e.interrupt then c.setField 1 3 3 (if e.direction ≠ 0 then 7 else 3) else c
  let c := if e.isochronous then c.setField 1 3 3 (if e.direction ≠ 0 then 5 else 1) else c
  if e.bulk then c.setField 1 3 3 (if e.direction ≠ 0 then 6 else 2) else c

/-- What is assigned to `max_burst_size`. -/
def EndpointDescriptor.maxBurstSize (e : EndpointDescriptor) : Word :=
  (e.maxPacketSize.setWidth 32 &&& 0x1800) >>> 11

def EndpointDescriptor.emitPayload (e : EndpointDescriptor) : Word :=
  e.maxPacketSize.setWidth 32 * (e.maxBurstSize + 1)

/-- What is assigned to `interval`; `speed` is the port's `device_speed`. -/
def EndpointDescriptor.intervalFor (e : EndpointDescriptor) (speed : Byte) : Word :=
  if speed = 1 ∨ speed = 2 then
    if e.isochronous then e.interval.setWidth 32 + 2
    else BitVec.ofNat 32 (getHighestBit e.interval + 3)
  else e.interval.setWidth 32 - 1

/-- The assignments to `epctx[ep_in_dci - 1]`, in their order. -/
def fillEndpoint (speed : Byte) (e : EndpointDescriptor) (trPointer : Addr)
    (c : Context) : Context :=
  let c := setEpType e c
  -- `tr_pointer`
  let c := c.setDword 2 (trPointer.setWidth 32)
  let c := c.setDword 3 ((trPointer >>> 32).setWidth 32)
  -- `max_packet_size`, `max_burst_size` and `mult`
  let c := c.setField 1 16 16 (e.maxPacketSize.setWidth 32)
  let c := c.setField 1 8 8 e.maxBurstSize
  let c := c.setField 0 8 2 0
  -- `max_payload_lo` and `max_payload_hi`
  let c := c.setField 4 16 16 e.emitPayload
  let c := c.setField 0 24 8 (e.emitPayload >>> 16)
  -- `interval`, `max_pstreams` and `cerr`
  let c := c.setField 0 16 8 (e.intervalFor speed)
  let c := c.setField 0 10 5 0
  let c := c.setField 1 1 2 (if e.isochronous then 0 else 3)
  -- `average_length`
  let c := c.setField 4 0 16 (3 * 1024)
  if e.interrupt then c.setField 4 0 16 1024 else c

section Fill

variable {speed : Byte} {e : EndpointDescriptor} {trPointer : Addr} {c : Context}

theorem setEpType_five : setEpType e c 5 = c 5 := by
  simp only [setEpType, ite_apply, Context.setField_apply, Fin.reduceEq, if_false, ite_self]

/-- A reserved dword is left alone. -/
theorem fillEndpoint_five : fillEndpoint speed e trPointer c 5 = c 5 := by
  simp only [fillEndpoint, ite_apply, Context.setField_apply,
    Context.setDword_apply, setEpType_five,
    Fin.reduceEq, if_false, ite_self]

theorem setWidth_setBits (v x : Word) : (setBits 0 16 v x).setWidth 16 = x.setWidth 16 := by
  ext i hi
  interval_cases i <;> simp [setBits]

/-- The average length of a filled context is not zero. -/
theorem fillEndpoint_four :
    (fillEndpoint speed e trPointer c 4).setWidth 16 ≠ (0 : BitVec 16) := by
  rw [fillEndpoint]
  by_cases hint : e.interrupt = true
  · rw [if_pos hint, Context.setField_apply, if_pos rfl, setWidth_setBits]
    decide
  · rw [if_neg hint, Context.setField_apply, if_pos rfl, setWidth_setBits]
    decide

end Fill

/-! ## The walk over the descriptors -/

/-- What the driver means by its assignments: each context apart from where it is laid out, an
endpoint context for each DCI. -/
structure Contexts where
  control : Context
  slot : Context
  endpoints : ℕ → Context

/-- The variables of the walk, and the number of calls of `alloc_mem`. `keyboards` are the calls of
`init_usb_keyboard`, with the ring and the DCI; `rings` and `meant` are not in the source and keep
account of the rings that `new_ring` has made and of what is meant by the assignments. -/
structure Parse where
  classCode : Byte
  subClassCode : Byte
  interface : Byte
  page : Page
  isSetConfiguration : Bool
  allocs : ℕ
  keyboards : List (Addr × Byte)
  rings : List Addr
  meant : Contexts

/-- The endpoint descriptor at an offset in the buffer. -/
def endpointAt (buf : ℕ → Byte) (p : ℕ) : EndpointDescriptor where
  address := buf (p + 2)
  attributes := buf (p + 3)
  maxPacketSize := buf (p + 5) ++ buf (p + 4)
  interval := buf (p + 6)

/-- An interrupt IN endpoint in the interface of a boot keyboard. -/
def IsBootKeyboard (classCode subClassCode interface : Byte) (e : EndpointDescriptor) : Prop :=
  classCode = 3 ∧ subClassCode = 1 ∧ interface = 1 ∧ e.direction = 1 ∧ e.interrupt

instance (a b c : Byte) (e : EndpointDescriptor) : Decidable (IsBootKeyboard a b c e) :=
  inferInstanceAs (Decidable (_ ∧ _))

/-- The branch for an endpoint descriptor; `none` is a panic. The ring's buffer is the second page,
and its cycle bit is 1. -/
def Parse.endpoint (speed : Byte) (alloc : ℕ → Addr) (e : EndpointDescriptor) (s : Parse) :
    Option Parse :=
  let dci := e.dci.toNat
  let page := s.page.mark dci
  let endpoint := alloc s.allocs
  let buf := alloc (s.allocs + 1)
  if endpoint = 0 ∨ buf = 0 then none
  else
    let trPointer := v2p buf ||| 1
    -- `epctx[dci - 1]`
    let page := page.setEntry (dci + 1) (fillEndpoint speed e trPointer (page.entry (dci + 1)))
    let keyboard : Bool := IsBootKeyboard s.classCode s.subClassCode s.interface e
    some { s with
      page := page
      isSetConfiguration := s.isSetConfiguration || keyboard
      allocs := s.allocs + 2
      keyboards := if keyboard then s.keyboards ++ [(endpoint, e.dci)] else s.keyboards
      rings := s.rings ++ [endpoint]
      meant := {
        control := s.meant.control.addFlag dci
        slot := s.meant.slot.raiseEntries dci
        endpoints := Function.update s.meant.endpoints dci
          (fillEndpoint speed e trPointer (s.meant.endpoints dci)) } }

/-- The descriptor at an offset in the buffer. -/
def Parse.descriptor (buf : ℕ → Byte) (speed : Byte) (alloc : ℕ → Addr) (p : ℕ) (s : Parse) :
    Option Parse :=
  if buf (p + 1) = 4 then
    some { s with classCode := buf (p + 5), subClassCode := buf (p + 6), interface := buf (p + 7) }
  else if buf (p + 1) = 5 then s.endpoint speed alloc (endpointAt buf p)
  else some s

/-- The loop over the descriptors, at offset `p`. -/
def parseLoop (buf : ℕ → Byte) (totalLength : ℕ) (speed : Byte) (alloc : ℕ → Addr) :
    ℕ → ℕ → Parse → Option Parse
  | 0, _, s => some s
  | fuel + 1, p, s =>
    if p < totalLength then
      if buf p = 0 then some s
      else
        match s.descriptor buf speed alloc p with
        | none => none
        | some s => parseLoop buf totalLength speed alloc fuel (p + (buf p).toNat) s
    else some s

/-- `wTotalLength` of the configuration descriptor in the buffer. -/
def wTotalLength (buf : ℕ → Byte) : ℕ := (buf 3 ++ buf 2).toNat

/-- The input context when the walk starts: cleared, with a copy of the slot context. `fresh` is
what the page holds when it is allocated. -/
def startPage (fresh : Page) (slot : Context) : Page :=
  let page : Page := fun i ↦ if i < 8 * 33 then 0 else fresh i
  let page := page.setEntry 1 slot
  page.setEntry 0 ((page.entry 0).setDword 1 0x01)

/-- What the walk over the descriptors starts with. -/
def Parse.start (allocs : ℕ) (classes : Byte × Byte × Byte) (fresh : Page)
    (slot : Context) : Parse where
  classCode := classes.1
  subClassCode := classes.2.1
  interface := classes.2.2
  page := startPage fresh slot
  isSetConfiguration := false
  allocs := allocs
  keyboards := []
  rings := []
  meant := {
    control := Context.zero.setDword 1 0x01
    slot := slot
    endpoints := fun _ ↦ Context.zero }

/-- The walk over a configuration, after the classes of the descriptors before. The walk starts at
`dev_desc->bLength`, which is the first byte of the same buffer. -/
def parseConfiguration (buf : ℕ → Byte) (speed : Byte) (alloc : ℕ → Addr) (allocs : ℕ)
    (classes : Byte × Byte × Byte) (fresh : Page) (slot : Context) : Option Parse :=
  parseLoop buf (wTotalLength buf) speed alloc (2 ^ 16) (buf 0).toNat
    (.start allocs classes fresh slot)

/-! ## The descriptors by themselves -/

/-- The offsets of the descriptors in the buffer, from `p` on. -/
def descriptorsFrom (buf : ℕ → Byte) (totalLength : ℕ) : ℕ → ℕ → List ℕ
  | 0, _ => []
  | fuel + 1, p =>
    if p < totalLength ∧ buf p ≠ 0 then
      p :: descriptorsFrom buf totalLength fuel (p + (buf p).toNat)
    else []

/-- The descriptors of a configuration, by their offsets. -/
def descriptors (buf : ℕ → Byte) : List ℕ :=
  descriptorsFrom buf (wTotalLength buf) (2 ^ 16) (buf 0).toNat

section Walk

variable {buf : ℕ → Byte} {totalLength fuel p : ℕ} {speed : Byte} {alloc : ℕ → Addr} {s s' : Parse}
  {e : EndpointDescriptor} {P : Parse → Prop} {l : List ℕ}

/-- The loop takes the descriptors one after another. -/
theorem parseLoop_eq : parseLoop buf totalLength speed alloc fuel p s =
    (descriptorsFrom buf totalLength fuel p).foldlM
      (fun (s : Parse) p ↦ s.descriptor buf speed alloc p) s := by
  induction fuel generalizing p s with
  | zero => rfl
  | succ fuel ih =>
    rw [parseLoop, descriptorsFrom]
    by_cases hp : p < totalLength
    · by_cases hzero : buf p = 0
      · rw [if_pos hp, if_pos hzero, if_neg fun h ↦ h.2 hzero]
        rfl
      · rw [if_pos hp, if_neg hzero, if_pos ⟨hp, hzero⟩, List.foldlM_cons]
        cases hstep : s.descriptor buf speed alloc p with
        | none => rfl
        | some s' => exact ih
    · rw [if_neg hp, if_neg fun h ↦ hp h.1]
      rfl

/-- **The invariant rule** of the walk. -/
theorem foldlM_invariant
    (h : l.foldlM (fun (s : Parse) p ↦ s.descriptor buf speed alloc p) s = some s')
    (h₀ : P s) (hstep : ∀ p ∈ l, ∀ s s' : Parse, P s →
      s.descriptor buf speed alloc p = some s' → P s') :
    P s' := by
  induction l generalizing s with
  | nil => exact Option.some.inj h ▸ h₀
  | cons p l ih =>
    rw [List.foldlM_cons] at h
    obtain ⟨s₁, hs₁, hrest⟩ := Option.bind_eq_some_iff.mp h
    rw [List.forall_mem_cons] at hstep
    exact ih hrest (hstep.1 s s₁ h₀ hs₁) hstep.2

/-- What one descriptor brings about, and all the others keep, holds at the end. -/
theorem foldlM_of_mem
    (h : l.foldlM (fun (s : Parse) p ↦ s.descriptor buf speed alloc p) s = some s')
    (hp : p ∈ l) (hself : ∀ s s' : Parse, s.descriptor buf speed alloc p = some s' → P s')
    (hstep : ∀ p ∈ l, ∀ s s' : Parse, P s →
      s.descriptor buf speed alloc p = some s' → P s') : P s' := by
  induction l generalizing s with
  | nil => exact absurd hp List.not_mem_nil
  | cons q l ih =>
    rw [List.foldlM_cons] at h
    obtain ⟨s₁, hs₁, hrest⟩ := Option.bind_eq_some_iff.mp h
    have hstep' := (List.forall_mem_cons.mp hstep).2
    rcases List.mem_cons.mp hp with rfl | hp
    · exact foldlM_invariant hrest (hself s s₁ hs₁) hstep'
    · exact ih hrest hp hstep'

/-- Without a panic the walk comes to its end. -/
theorem exists_foldlM (halloc : ∀ n, alloc n ≠ 0) :
    ∃ s', l.foldlM (fun (s : Parse) p ↦ s.descriptor buf speed alloc p) s = some s' := by
  induction l generalizing s with
  | nil => exact ⟨s, rfl⟩
  | cons p l ih =>
    have hsome : ∃ s₁, s.descriptor buf speed alloc p = some s₁ := by
      rw [Parse.descriptor]
      split_ifs
      · exact ⟨_, rfl⟩
      · rw [Parse.endpoint, if_neg (not_or_intro (halloc _) (halloc _))]
        exact ⟨_, rfl⟩
      · exact ⟨_, rfl⟩
    obtain ⟨s₁, hs₁⟩ := hsome
    obtain ⟨s', hs'⟩ := @ih s₁
    refine ⟨s', ?_⟩
    rw [List.foldlM_cons, hs₁]
    exact hs'

/-- What an endpoint descriptor does to the contexts. -/
theorem endpoint_spec (h : s.endpoint speed alloc e = some s') :
    ∃ t, s'.page = (s.page.mark e.dci.toNat).setEntry (e.dci.toNat + 1)
        (fillEndpoint speed e t ((s.page.mark e.dci.toNat).entry (e.dci.toNat + 1))) ∧
      s'.meant.control = s.meant.control.addFlag e.dci.toNat ∧
      s'.meant.slot = s.meant.slot.raiseEntries e.dci.toNat ∧
      s'.meant.endpoints = Function.update s.meant.endpoints e.dci.toNat
        (fillEndpoint speed e t (s.meant.endpoints e.dci.toNat)) := by
  rw [Parse.endpoint] at h
  split_ifs at h
  obtain rfl := Option.some.inj h
  exact ⟨_, rfl, rfl, rfl, rfl⟩

/-- A descriptor fills an endpoint context or leaves the contexts alone. -/
theorem descriptor_cases (h : s.descriptor buf speed alloc p = some s') :
    (buf (p + 1) = 5 ∧ s.endpoint speed alloc (endpointAt buf p) = some s') ∨
      (buf (p + 1) ≠ 5 ∧ s'.page = s.page ∧ s'.meant = s.meant) := by
  rw [Parse.descriptor] at h
  split_ifs at h with hfour hfive
  · obtain rfl := Option.some.inj h
    refine .inr ⟨?_, rfl, rfl⟩
    rw [hfour]
    decide
  · exact .inl ⟨hfive, h⟩
  · obtain rfl := Option.some.inj h
    exact .inr ⟨hfive, rfl, rfl⟩

end Walk

/-! ## What the controller finds -/

/-- The context that a controller reads as entry `i`. -/
def controllerEntry (csz : Bool) (page : Page) (i : ℕ) : Context := fun j ↦
  page ((if csz then 16 else 8) * i + j)

/-- The controller finds each context that is meant for it. -/
def ControllerFinds (csz : Bool) (s : Parse) : Prop :=
  controllerEntry csz s.page 0 = s.meant.control ∧ controllerEntry csz s.page 1 = s.meant.slot ∧
    ∀ d, 1 ≤ d → (s.meant.control 1).getLsbD d = true →
      controllerEntry csz s.page (d + 1) = s.meant.endpoints d

/-- Each context is in its place in `struct input_context`. -/
def Parse.InPlace (s : Parse) : Prop :=
  s.page.entry 0 = s.meant.control ∧ s.page.entry 1 = s.meant.slot ∧
    ∀ d, 1 ≤ d → d < 32 → s.page.entry (d + 1) = s.meant.endpoints d

section Places

variable {buf : ℕ → Byte} {p : ℕ} {speed : Byte} {alloc : ℕ → Addr} {s s' : Parse}
  {e : EndpointDescriptor}

theorem startPage_entry {fresh : Page} {slot : Context} {k : ℕ} (hk : k < 33) :
    (startPage fresh slot).entry k =
      if k = 0 then Context.zero.setDword 1 0x01 else if k = 1 then slot else Context.zero := by
  have hclear : ∀ k < 33, Page.entry (fun i ↦ if i < 8 * 33 then 0 else fresh i) k =
      Context.zero := by
    intro k hk
    funext j
    exact if_pos (by omega)
  rw [startPage, Page.entry_setEntry, Page.entry_setEntry_of_ne _ _ (by decide : (0 : ℕ) ≠ 1),
    hclear 0 (by decide), Page.entry_setEntry, hclear k hk]

theorem Parse.InPlace.endpoint (h : s.InPlace) (hdci : e.dci ≠ 0)
    (hs : s.endpoint speed alloc e = some s') : s'.InPlace := by
  obtain ⟨t, hpage, hcontrol, hslot, hendpoints⟩ := endpoint_spec hs
  have hpos : 0 < e.dci.toNat := by bv_omega
  obtain ⟨h0, h1, hd⟩ := h
  refine ⟨?_, ?_, fun d hd1 hd32 ↦ ?_⟩
  · rw [hpage, Page.entry_setEntry_of_ne _ _ (by omega), Page.entry_mark, if_pos rfl, hcontrol, h0]
  · rw [hpage, Page.entry_setEntry_of_ne _ _ (by omega), Page.entry_mark, if_neg (by decide),
      if_pos rfl, hslot, h1]
  · have hmark : ∀ k, 1 ≤ k → (s.page.mark e.dci.toNat).entry (k + 1) = s.page.entry (k + 1) := by
      intro k hk
      rw [Page.entry_mark, if_neg (by omega), if_neg (by omega)]
    rw [hpage, hendpoints, Page.entry_setEntry, Function.update_apply, hmark _ hpos, hmark d hd1,
      hd d hd1 hd32, hd _ hpos e.dci_lt]
    simp only [Nat.add_right_cancel_iff]

/-- The slot context that a device may have. -/
def testSlot : Context := Context.zero.setDword 5 1

/-- With this slot context, the two reserved dwords tell it from an endpoint context. -/
def SlotMarked (s : Parse) : Prop := s.meant.slot 4 = 0 ∧ s.meant.slot 5 = 1 ∧ s.page.entry 2 5 = 0

theorem slotMarked_endpoint (h : SlotMarked s) (hs : s.endpoint speed alloc e = some s') :
    SlotMarked s' := by
  obtain ⟨t, hpage, -, hslot, -⟩ := endpoint_spec hs
  obtain ⟨h4, h5, hentry⟩ := h
  have hraise : ∀ j : Fin 8, j ≠ 0 → s'.meant.slot j = s.meant.slot j := by
    intro j hj
    rw [hslot, Context.raiseEntries, Context.setField_apply, if_neg hj]
  have hmark : (s.page.mark e.dci.toNat).entry 2 = s.page.entry 2 := by
    rw [Page.entry_mark, if_neg (by decide), if_neg (by decide)]
  refine ⟨(hraise 4 (by decide)).trans h4, (hraise 5 (by decide)).trans h5, ?_⟩
  rw [hpage, Page.entry_setEntry]
  split_ifs with hdci
  · rw [fillEndpoint_five, ← hdci, hmark, hentry]
  · rw [hmark, hentry]

/-- An endpoint context is where the slot context is to be. -/
def SlotOverwritten (s : Parse) : Prop := (s.page.entry 1 4).setWidth 16 ≠ (0 : BitVec 16)

theorem slotOverwritten_endpoint (hs : s.endpoint speed alloc e = some s')
    (h : e.dci = 0 ∨ SlotOverwritten s) : SlotOverwritten s' := by
  obtain ⟨t, hpage, -⟩ := endpoint_spec hs
  rw [SlotOverwritten, hpage, Page.entry_setEntry]
  split_ifs with hdci
  · exact fillEndpoint_four
  · have hne : e.dci ≠ 0 := fun hzero ↦ hdci (by rw [hzero]; rfl)
    rw [Page.entry_mark, if_neg (by decide), if_pos rfl, Context.raiseEntries,
      Context.setField_apply, if_neg (by decide)]
    exact h.resolve_left hne

variable {allocs : ℕ} {classes : Byte × Byte × Byte} {fresh : Page} {slot : Context}

/-- Over the descriptors of a configuration. -/
theorem parseConfiguration_eq : parseConfiguration buf speed alloc allocs classes fresh slot =
    (descriptors buf).foldlM (fun (s : Parse) p ↦ s.descriptor buf speed alloc p)
      { classCode := classes.1
        subClassCode := classes.2.1
        interface := classes.2.2
        page := startPage fresh slot
        isSetConfiguration := false
        allocs := allocs
        keyboards := []
        rings := []
        meant := {
          control := Context.zero.setDword 1 0x01
          slot := slot
          endpoints := fun _ ↦ Context.zero } } := parseLoop_eq

theorem inPlace_of_parse (hdci : ∀ p ∈ descriptors buf, buf (p + 1) = 5 →
    (endpointAt buf p).dci ≠ 0)
    (hs : parseConfiguration buf speed alloc allocs classes fresh slot = some s) : s.InPlace := by
  rw [parseConfiguration_eq] at hs
  refine foldlM_invariant hs ?_ fun p hp s s' h hstep ↦ ?_
  · refine ⟨startPage_entry (by decide), startPage_entry (by decide), fun d hd1 hd32 ↦ ?_⟩
    rw [startPage_entry (by omega), if_neg (by omega), if_neg (by omega)]
  · rcases descriptor_cases hstep with ⟨hfive, hend⟩ | ⟨-, hpage, hmeant⟩
    · exact h.endpoint (hdci p hp hfive) hend
    · rw [Parse.InPlace, hpage, hmeant]
      exact h

theorem slotMarked_of_parse
    (hs : parseConfiguration buf speed alloc allocs classes fresh testSlot = some s) :
    SlotMarked s := by
  rw [parseConfiguration_eq] at hs
  refine foldlM_invariant hs ?_ fun p _ s s' h hstep ↦ ?_
  · refine ⟨rfl, rfl, ?_⟩
    rw [startPage_entry (by decide)]
    rfl
  · rcases descriptor_cases hstep with ⟨-, hend⟩ | ⟨-, hpage, hmeant⟩
    · exact slotMarked_endpoint h hend
    · rw [SlotMarked, hpage, hmeant]
      exact h

theorem slotOverwritten_of_parse (hp : p ∈ descriptors buf) (hfive : buf (p + 1) = 5)
    (hdci : (endpointAt buf p).dci = 0)
    (hs : parseConfiguration buf speed alloc allocs classes fresh slot = some s) :
    SlotOverwritten s := by
  rw [parseConfiguration_eq] at hs
  refine foldlM_of_mem hs hp (fun s s' hstep ↦ ?_) fun q _ s s' h hstep ↦ ?_
  · rcases descriptor_cases hstep with ⟨-, hend⟩ | ⟨hne, -, -⟩
    · exact slotOverwritten_endpoint hend (.inl hdci)
    · exact absurd hfive hne
  · rcases descriptor_cases hstep with ⟨-, hend⟩ | ⟨-, hpage, -⟩
    · exact slotOverwritten_endpoint hend (.inr h)
    · rw [SlotOverwritten, hpage]
      exact h

theorem exists_parse (buf : ℕ → Byte) (speed : Byte) (allocs : ℕ) (classes : Byte × Byte × Byte)
    (slot : Context) : ∃ s, parseConfiguration buf speed (fun _ ↦ 1) allocs classes
      (fun _ ↦ 0) slot = some s := by
  rw [parseConfiguration_eq]
  exact exists_foldlM fun _ ↦ by decide

/-- A controller that takes 64 bytes for a context does not find the slot context. -/
theorem not_finds_csz (h : SlotMarked s) : ¬ ControllerFinds true s := by
  rintro ⟨-, hslot, -⟩
  have hfive : s.page.entry 2 5 = s.meant.slot 5 := congrFun hslot 5
  rw [h.2.1, h.2.2] at hfive
  exact absurd hfive (by decide)

end Places

/-- **The layout of the contexts**. For every configuration, the controller finds the contexts that
the driver means, whatever the device's slot context and the pages are, if and only if CSZ is 0 and
no endpoint has DCI 0. -/
theorem controllerFinds_iff (csz : Bool) (buf : ℕ → Byte) (speed : Byte) (allocs : ℕ)
    (classes : Byte × Byte × Byte) :
    (∀ alloc fresh slot s, parseConfiguration buf speed alloc allocs classes fresh slot = some s →
      ControllerFinds csz s) ↔
    csz = false ∧ ∀ p ∈ descriptors buf, buf (p + 1) = 5 → (endpointAt buf p).dci ≠ 0 := by
  constructor
  · intro h
    obtain ⟨s, hs⟩ := exists_parse buf speed allocs classes testSlot
    have hmarked := slotMarked_of_parse hs
    have hfinds := h _ _ _ s hs
    cases csz with
    | true => exact absurd hfinds (not_finds_csz hmarked)
    | false =>
      refine ⟨rfl, fun p hp hfive hdci ↦ slotOverwritten_of_parse hp hfive hdci hs ?_⟩
      have hfour : s.page.entry 1 4 = s.meant.slot 4 := congrFun hfinds.2.1 4
      rw [hfour, hmarked.1]
      rfl
  · rintro ⟨rfl, hdci⟩ alloc fresh slot s hs
    obtain ⟨h0, h1, hd⟩ := inPlace_of_parse hdci hs
    refine ⟨h0, h1, fun d hd1 hflag ↦ hd d hd1 ?_⟩
    by_contra hge
    rw [BitVec.getLsbD_of_ge _ _ (Nat.le_of_not_lt hge)] at hflag
    exact absurd hflag (by decide)

/-- The configuration of a boot keyboard. -/
def keyboardBuf : ℕ → Byte := fun i ↦
  [0x09, 0x02, 0x22, 0x00, 0x01, 0x01, 0x00, 0xa0, 0x32,
    0x09, 0x04, 0x00, 0x00, 0x01, 0x03, 0x01, 0x01, 0x00,
    0x09, 0x21, 0x11, 0x01, 0x00, 0x01, 0x22, 0x3f, 0x00,
    0x07, 0x05, 0x81, 0x03, 0x08, 0x00, 0x0a].getD i 0

/-- With CSZ set, the contexts of a boot keyboard are not found. -/
theorem not_controllerFinds : ¬ ∀ csz buf speed allocs classes alloc fresh slot s,
    parseConfiguration buf speed alloc allocs classes fresh slot = some s →
      ControllerFinds csz s := by
  intro h
  obtain ⟨s, hs⟩ := exists_parse keyboardBuf 1 0 (0, 0, 0) testSlot
  exact not_finds_csz (slotMarked_of_parse hs) (h true _ _ _ _ _ _ _ s hs)

end VimOS
