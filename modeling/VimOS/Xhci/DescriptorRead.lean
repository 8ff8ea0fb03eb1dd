import VimOS.Xhci.ControlTransfer
import VimOS.Xhci.InputContext

/-!
# Reading the descriptors of a device

What the driver does with the default control pipe of a device, from the creation of the transfer
ring on: it asks for the device descriptor and waits for the Transfer Event; then it asks for the
configurations one after another, into the same buffer, and walks over each. It does not wait for
these, and reads `wTotalLength` right after the doorbell.

So the walk is over the descriptors of the configuration only if the controller has been as quick
as the driver's next step (`configuration_arrived`). A controller that has done nothing by then
leaves the device descriptor in the buffer (`not_configuration_arrived`).

The input contexts that the walk fills are not followed here.
-/

namespace VimOS

open Machine ByteMemory GuardedRun

/-! ## The driver -/

def readByte (a : Addr) : UsbProg Byte := Prog.perform (UsbOp.ring (.loadByte a))

def callAllocMem : UsbProg Addr := Prog.perform UsbOp.allocMem

/-- A Transfer Event, by its code. -/
def takeTransferEvent : UsbProg Byte := Prog.perform UsbOp.event

/-- A `uint16_t` in memory. -/
def readHalf (a : Addr) : UsbProg (BitVec 16) := do
  let lo ← readByte a
  let hi ← readByte (a + 1)
  pure (hi ++ lo)

/-- `alloc_mem(1)`, and a panic if it returns `NULL`. -/
def allocPage : UsbProg Addr := do
  let page ← callAllocMem
  if page = 0 then Prog.op .panic nofun else pure page

/-- TRBs for the default control pipe, and its doorbell. -/
def submit (ring : Ring) (slotId : Byte) (ts : List Trb) : UsbProg Ring := do
  let ring ← (writeAll ring ts).lift UsbOp.ring
  let _ ← Prog.perform (.ring (.doorbell slotId 1))
  pure ring

/-- `get_descriptor`. `get_descriptor_noreport` does the same. -/
def getDescriptor (ring : Ring) (slotId : Byte) (descType : BitVec 16) (descIndex : Byte)
    (buf : Addr) (bufLen : BitVec 64) : UsbProg Ring :=
  submit ring slotId (getDescriptorTrbs descType descIndex buf bufLen)

/-- `sizeof(device_status[0].buf)`. -/
def bufLen : ℕ := 512

/-- `classCode`, `subClassCode` and `interface`. -/
structure Classes where
  classCode : Byte
  subClassCode : Byte
  interface : Byte

/-- The branch for an endpoint descriptor: its fields are read, and the pages of its ring are
allocated. The configuration is set for a boot keyboard. -/
def atEndpoint (slotId configurationValue : Byte) (c : Classes) (ring : Ring)
    (p : Addr) : UsbProg (Bool × Ring) := do
  let address ← readByte (p + 2)
  let attributes ← readByte (p + 3)
  -- the `struct ring`, and the page that `new_ring` allocates for it
  let endpoint ← allocPage
  let _ ← allocPage
  let maxPacketSize ← readHalf (p + 4)
  let interval ← readByte (p + 6)
  let e : EndpointDescriptor := ⟨address, attributes, maxPacketSize, interval⟩
  if IsBootKeyboard c.classCode c.subClassCode c.interface e then
    let ring ← submit ring slotId (setConfigurationTrbs configurationValue)
    let _ ← Prog.perform (.initUsbKeyboard endpoint slotId e.dci)
    pure (true, ring)
  else pure (false, ring)

/-- The loop over the descriptors, at offset `p`, and whether the configuration is set. -/
def walkDescriptors (buf : Addr) (slotId configurationValue : Byte) (totalLength : BitVec 16) :
    ℕ → ℕ → Classes → Bool → Ring → UsbProg (Classes × Bool × Ring)
  | 0, _, c, isSet, ring => pure (c, isSet, ring)
  | fuel + 1, p, c, isSet, ring =>
    let desc := buf + BitVec.ofNat 64 p
    if p < totalLength.toNat then do
      let descType ← readByte (desc + 1)
      let length ← readByte desc
      if length = 0 then pure (c, isSet, ring)
      -- an interface descriptor
      else if descType = 4 then
        let classCode ← readByte (desc + 5)
        let subClassCode ← readByte (desc + 6)
        let interface ← readByte (desc + 7)
        let length ← readByte desc
        walkDescriptors buf slotId configurationValue totalLength fuel (p + length.toNat)
          ⟨classCode, subClassCode, interface⟩ isSet ring
      -- an endpoint descriptor
      else if descType = 5 then
        let (keyboard, ring) ← atEndpoint slotId configurationValue c ring desc
        let length ← readByte desc
        walkDescriptors buf slotId configurationValue totalLength fuel (p + length.toNat) c
          (isSet || keyboard) ring
      else
        let length ← readByte desc
        walkDescriptors buf slotId configurationValue totalLength fuel (p + length.toNat) c isSet
          ring
    else pure (c, isSet, ring)

/-- The loop over the configurations, `n` of them from `descIndex` on. -/
def readConfigurations (buf : Addr) (slotId : Byte) (fuel : ℕ) :
    ℕ → ℕ → Classes → Ring → UsbProg Ring
  | 0, _, _, ring => pure ring
  | n + 1, descIndex, c, ring => do
    let _ ← Prog.perform (.request (BitVec.ofNat 8 descIndex))
    let ring ← getDescriptor ring slotId 2 (BitVec.ofNat 8 descIndex) buf (BitVec.ofNat 64 bufLen)
    let totalLength ← readHalf (buf + 2)
    let configurationValue ← readByte (buf + 5)
    -- the input context
    let _ ← allocPage
    -- `dev_desc->bLength`, in the same buffer
    let length ← readByte buf
    let (c, isSet, ring) ←
      walkDescriptors buf slotId configurationValue totalLength fuel length.toNat c false ring
    if isSet then
      -- Configure Endpoint
      let _ ← Prog.perform .command
      readConfigurations buf slotId fuel n (descIndex + 1) c ring
    else readConfigurations buf slotId fuel n (descIndex + 1) c ring

/-- Transfer Events of the slot, `rounds` at most, while the device descriptor is asked for. -/
def transferEvents (buf : Addr) (slotId : Byte) (fuel : ℕ) : ℕ → Ring → UsbProg Ring
  | 0, ring => pure ring
  | rounds + 1, ring => do
    let code ← takeTransferEvent
    if code = 1 ∨ code = 13 then
      let classCode ← readByte (buf + 4)
      let subClassCode ← readByte (buf + 5)
      let numConfigs ← readByte (buf + 17)
      if numConfigs = 0 then transferEvents buf slotId fuel rounds ring
      else readConfigurations buf slotId fuel numConfigs.toNat 0 ⟨classCode, subClassCode, 0⟩ ring
    else transferEvents buf slotId fuel rounds ring

/-- Transfer Events of the slot before the device has its address. -/
def ignoreEvents : ℕ → UsbProg Unit
  | 0 => pure ()
  | n + 1 => do
    let _ ← takeTransferEvent
    ignoreEvents n

/-- The end of `handle_enable_slot`, for a device of full speed. -/
def adjustPacketSize (buf : Addr) (slotId : Byte) (ring : Ring) : UsbProg Ring := do
  let ring ← getDescriptor ring slotId 1 0 buf 8
  let maxPacketSize0 ← readByte (buf + 7)
  if maxPacketSize0 ≠ 0 then
    let _ ← Prog.perform .command
    pure ring
  else pure ring

/-- The use of the default control pipe, from `new_ring` on. -/
def useControlPipe (fullSpeed : Bool) (buf : Addr) (slotId : Byte) (early rounds fuel : ℕ)
    (ring : Ring) : UsbProg Ring := do
  let ring ← if fullSpeed then adjustPacketSize buf slotId ring else pure ring
  ignoreEvents early
  let ring ← getDescriptor ring slotId 1 0 buf (BitVec.ofNat 64 bufLen)
  transferEvents buf slotId fuel rounds ring

/-! ## What is promised -/

/-- The descriptor of a configuration, as far as the buffer takes it. -/
def UsbDevice.configuration (dev : UsbDevice) (descIndex : Byte) : List Byte :=
  (dev.descriptor (2 <<< 8 ||| descIndex.setWidth 16)).take bufLen

/-- The TRBs that ask for a configuration. -/
def configurationTrbs (buf : Addr) (descIndex : Byte) : List Trb :=
  getDescriptorTrbs 2 descIndex buf (BitVec.ofNat 64 bufLen)

/-- The buffer holds the descriptor of a configuration. -/
def HoldsConfiguration (dev : UsbDevice) (buf : Addr) (descIndex : Byte) (bytes : Bytes) : Prop :=
  ∀ k (hk : k < (dev.configuration descIndex).length),
    bytes (v2p (buf + BitVec.ofNat 64 k)) = (dev.configuration descIndex)[k]

/-- The configuration asked for last has arrived: the controller has taken the TRBs that were passed
for it, no data stage is under way, and the buffer holds the descriptor. -/
def Arrived (dev : UsbDevice) (buf : Addr) (s : ControlState) : Prop :=
  ∀ i n, s.request = some (i, n) →
    configurationTrbs buf i <+: (s.ring.consumed.map Trb.clearCycle).drop n ∧ s.data = none ∧
      HoldsConfiguration dev buf i s.pipe.bytes

/-- The runs in which the controller, once the doorbell has been rung for a configuration, is done
before the driver goes on. Before that, the driver waits for an event. -/
def KeepsUp (dev : UsbDevice) : ControlState → Act UsbOp ControlStep → Prop
  | s, .own _ => s.rung = true → s.request ≠ none → Quiescent dev s
  | _, .env _ => True

def controlContract (dev : UsbDevice) (buf : Addr) : Contract UsbOp ControlStep ControlState where
  guard := KeepsUp dev
  inv _ := True
  pre
    | .ring (.loadByte _), s => Arrived dev buf s
    | _, _ => True

/-- Once all of it is done, the configuration asked for last is in the buffer. -/
def Answered (dev : UsbDevice) (buf : Addr) (pipe₀ : Pipe) (L : List Trb)
    (request : Option (Byte × ℕ)) : Prop :=
  ∀ i n, request = some (i, n) → configurationTrbs buf i <+: L.drop n ∧
    HoldsConfiguration dev buf i (L.foldl dev.serve pipe₀).bytes

/-- Between two requests: the TRBs of `L` have been passed, and unless the doorbell was the last the
driver did, the controller is through with them. -/
structure Working (dev : UsbDevice) (base : Addr) (pipe₀ : Pipe) (L : List Trb)
    (request : Option (Byte × ℕ)) (s : ControlState) : Prop where
  quiet : Quiet base L s.ring
  serves : Serves dev pipe₀ s
  request_eq : s.request = request
  settled : s.rung = false → Settled L s

/-- The driver is between two requests, and what it reads of a configuration has arrived. -/
def AtRest (dev : UsbDevice) (buf ringBuf : Addr) (pipe₀ : Pipe) (ring : Ring)
    (request : Option (Byte × ℕ)) (s : ControlState) : Prop :=
  ∃ L, request ≠ none ∧ ring = ringAfter ringBuf L.length ∧ Answered dev buf pipe₀ L request ∧
    Working dev (v2p ringBuf) pipe₀ L request s

/-- No configuration has been asked for. -/
structure Starting (dev : UsbDevice) (base : Addr) (pipe₀ : Pipe) (L : List Trb)
    (s : ControlState) : Prop where
  quiet : Quiet base L s.ring
  serves : Serves dev pipe₀ s
  request_eq : s.request = none

/-- The driver is between two requests, none of them for a configuration; it has passed `k` TRBs at
most, of which nothing is known. -/
def AtStart (dev : UsbDevice) (ringBuf : Addr) (pipe₀ : Pipe) (k : ℕ) (ring : Ring)
    (s : ControlState) : Prop :=
  ∃ L : List Trb, L.length ≤ k ∧ ring = ringAfter ringBuf L.length ∧
    Starting dev (v2p ringBuf) pipe₀ L s

/-- While TRBs are passed: the controller is through with those of `L`, but for the six of the two
requests for the device descriptor. -/
structure Submitting (dev : UsbDevice) (pipe₀ : Pipe) (L : List Trb)
    (request : Option (Byte × ℕ)) (s : ControlState) : Prop where
  serves : Serves dev pipe₀ s
  request_eq : s.request = request
  consumed_le : L.length ≤ s.ring.consumed.length + 6

section Rules

variable {dev : UsbDevice} {buf ringBuf base : Addr} {slotId : Byte} {pipe₀ : Pipe}
  {L ts : List Trb} {request : Option (Byte × ℕ)} {s s' : ControlState} {i : ControlStep}
  {e : UsbOp} {guard : ControlState → Act UsbOp ControlStep → Prop}

theorem stable_working : Stable (controlMachine dev) guard (Working dev base pipe₀ L request) := by
  rintro s i s' ⟨hquiet, hserves, hrequest, hsettled⟩ - hstep
  obtain ⟨-, hrung, hrequest'⟩ := env_cases hstep
  refine ⟨hquiet.env hstep, hserves.step hstep, hrequest'.trans hrequest, fun hnot ↦ ?_⟩
  exact (hsettled (hrung.symm.trans hnot)).env hquiet hstep

theorem stable_starting : Stable (controlMachine dev) guard (Starting dev base pipe₀ L) := by
  rintro s i s' ⟨hquiet, hserves, hrequest⟩ - hstep
  exact ⟨hquiet.env hstep, hserves.step hstep, (env_cases hstep).2.2.trans hrequest⟩

theorem keepsUp_env (s : ControlState) (i : ControlStep) : KeepsUp dev s (.env i) := trivial

theorem Working.others (h : Working dev base pipe₀ L request s)
    (hothers : (controlMachine dev).Others (KeepsUp dev) s s') :
    Working dev base pipe₀ L request s' :=
  stable_working.others (C := controlContract dev 0) h hothers

theorem Submitting.env (h : Submitting dev pipe₀ L request s)
    (hstep : (controlMachine dev).env s i s') : Submitting dev pipe₀ L request s' :=
  ⟨h.serves.step hstep, (env_cases hstep).2.2.trans h.request_eq,
    h.consumed_le.trans (Nat.add_le_add_right (consumed_le_of_env hstep) 6)⟩

theorem Working.settle (h : Working dev base pipe₀ L request s) (hrequest : request ≠ none)
    (hguard : s.rung = true → s.request ≠ none → Quiescent dev s) : Settled L s := by
  cases hrung : s.rung with
  | false => exact h.settled hrung
  | true =>
    rw [h.request_eq] at hguard
    exact (hguard hrung hrequest).settled h.serves h.quiet

theorem Working.arrived (h : Working dev base pipe₀ L request s) (hsettled : Settled L s)
    (hanswered : Answered dev buf pipe₀ L request) : Arrived dev buf s := by
  intro i n hrequest
  rw [hsettled.consumed_eq h.quiet, hsettled.pipe_eq h.serves h.quiet]
  obtain ⟨htrbs, hbytes⟩ := hanswered i n (h.request_eq.symm.trans hrequest)
  exact ⟨htrbs, hsettled.data_eq, hbytes⟩

/-- The operations that have nothing to do with the ring. -/
def UsbOp.Silent : UsbOp → Prop
  | .ring (.loadByte _) | .event | .allocMem | .command | .initUsbKeyboard _ _ _ | .panic => True
  | _ => False

theorem UsbOp.Silent.effect_eq (h : e.Silent) (s : ControlState) : (e.effect s).ring = s.ring ∧
    (e.effect s).request = s.request ∧ (e.effect s).rung = false := by
  cases e with
  | ring e =>
    cases e with
    | loadByte a => exact ⟨rfl, rfl, rfl⟩
    | _ => exact h.elim
  | request i => exact h.elim
  | _ => exact ⟨rfl, rfl, rfl⟩

/-- `write_ring`, as the pipe sees it. -/
theorem wp_writeAll_lift (hring : ringBuf.toNat % 4096 = 0)
    (hts : ∀ t ∈ ts, t.c = false ∧ t.type ≠ 6) (hlen : ts.length ≤ 248)
    (hquiet : Quiet (v2p ringBuf) L s.ring) (h : Submitting dev pipe₀ L request s) :
    (controlMachine dev).wp (controlContract dev buf)
      ((writeAll (ringAfter ringBuf L.length) ts).lift UsbOp.ring)
      (fun ring s ↦ (ring = ringAfter ringBuf (L ++ ts).length ∧
        Quiet (v2p ringBuf) (L ++ ts) s.ring) ∧ Submitting dev pipe₀ L request s) s := by
  -- only that much of the state is known in the midst of a call
  let room : RingState → Act RingOp Consume → Prop := fun s _ ↦ L.length ≤ s.consumed.length + 6
  have hroom : ∀ (t : Trb) (s : RingState), s.passed.length < L.length + ts.length →
      room s (.own (.call t)) → s.Room := by
    intro t s hlt hle
    have hle : L.length ≤ s.consumed.length + 6 := hle
    refine ⟨?_, fun _ ↦ ?_⟩
    all_goals
      rw [RingState.outstanding]
      omega
  refine wp_lift (g := UsbOp.ring) (C := ringContract (v2p ringBuf) room)
    (J := Submitting dev pipe₀ L request) (π := ControlState.ring)
    (Q := fun ring s ↦ ring = ringAfter ringBuf (L ++ ts).length ∧ Quiet (v2p ringBuf) (L ++ ts) s)
    (fun t i t' hJ _ hstep ↦ ?_) (fun _ _ _ ↦ ?_) (fun e t hok hJ _ ↦ ?_) (writeAll_only _ _)
    (wp_writeAll hring hts hroom hquiet) h
  · refine ⟨hJ.env hstep, ?_⟩
    obtain ⟨heq | ⟨j, hj⟩, -, -⟩ := env_cases hstep
    · rw [heq]
      exact .refl _
    · exact (Run.refl _).tail hJ.consumed_le hj
  · trivial
  · refine ⟨hJ.consumed_le, fun _ ↦ ?_, ?_⟩
    · cases e with
      | loadByte a => exact hok.elim
      | _ => trivial
    · rintro r t' ⟨-, rfl⟩
      refine ⟨rfl, hJ.serves.effect _, hJ.request_eq, ?_⟩
      rw [((UsbOp.ring e).effect_spares t).2.2.2]
      exact hJ.consumed_le

/-- A request: its TRBs are passed, and the doorbell is rung. -/
theorem wp_submit (hring : ringBuf.toNat % 4096 = 0)
    (hts : ∀ t ∈ ts, t.c = false ∧ t.type ≠ 6) (hlen : ts.length ≤ 248)
    (hquiet : Quiet (v2p ringBuf) L s.ring) (h : Submitting dev pipe₀ L request s) :
    (controlMachine dev).wp (controlContract dev buf)
      (submit (ringAfter ringBuf L.length) slotId ts)
      (fun ring s ↦ ring = ringAfter ringBuf (L ++ ts).length ∧
        Working dev (v2p ringBuf) pipe₀ (L ++ ts) request s) s := by
  refine wp_bind ((wp_writeAll_lift hring hts hlen hquiet h).mono ?_)
  rintro ring s₁ ⟨⟨rfl, hquiet⟩, hsub⟩
  -- the doorbell
  refine wp_op (P := fun s ↦ Quiet (v2p ringBuf) (L ++ ts) s.ring ∧
    Submitting dev pipe₀ L request s) ?_ (fun _ _ ↦ trivial) ?_ ⟨hquiet, hsub⟩
  · rintro s i s' ⟨hquiet, hsub⟩ - hstep
    exact ⟨hquiet.env hstep, hsub.env hstep⟩
  · rintro s ⟨hquiet, hsub⟩ -
    refine ⟨trivial, ?_⟩
    rintro r _ ⟨-, rfl⟩
    exact wp_ret stable_working (fun _ _ ↦ trivial) (fun _ hs ↦ ⟨rfl, hs⟩)
      ⟨hquiet, hsub.serves.effect _, hsub.request_eq, nofun⟩

/-! ### What is in the buffer -/

/-- Requests without a data stage leave the buffer alone. -/
theorem Answered.append (h : Answered dev buf pipe₀ L request) (hts : ∀ t ∈ ts, t.type ≠ 3) :
    Answered dev buf pipe₀ (L ++ ts) request := by
  intro i n hrequest
  obtain ⟨htrbs, hbytes⟩ := h i n hrequest
  rw [List.foldl_append, UsbDevice.foldl_serve_bytes hts]
  exact ⟨htrbs.trans ((List.prefix_append L ts).drop n), hbytes⟩

theorem v2p_buf (hbuf : buf.toNat + bufLen ≤ pageOffset.toNat) {k : ℕ} (hk : k < bufLen) :
    v2p (buf + BitVec.ofNat 64 k) = v2p buf + BitVec.ofNat 64 k := by
  rw [bufLen] at hbuf hk
  have hpage : pageOffset.toNat = 0xffff806000000000 := rfl
  rw [hpage] at hbuf
  have hnot : ∀ j ≤ k, ¬ buf + BitVec.ofNat 64 j - pageOffset < buf + BitVec.ofNat 64 j := by
    intro j hj
    rw [sub_pageOffset_lt_iff, BitVec.not_le, BitVec.lt_def, hpage]
    bv_omega
  have hzero := hnot 0 (Nat.zero_le k)
  rw [BitVec.add_zero] at hzero
  rw [v2p, v2p, if_neg (hnot k le_rfl), if_neg hzero]
  bv_omega

/-- A request for a configuration puts its descriptor there. -/
theorem answered_configuration (hbuf : buf.toNat + bufLen ≤ pageOffset.toNat) (i : Byte) :
    Answered dev buf pipe₀ (L ++ configurationTrbs buf i) (some (i, L.length)) := by
  rintro _ _ ⟨rfl, rfl⟩
  rw [List.drop_left]
  refine ⟨List.prefix_rfl, fun k hk ↦ ?_⟩
  have hle : k < bufLen := hk.trans_le (List.length_take_le _ _)
  rw [List.foldl_append, configurationTrbs, UsbDevice.foldl_serve_getDescriptor (by decide),
    v2p_buf hbuf hle]
  exact storeList_getElem hk (hle.trans (by decide))

/-! ### Steps of the driver -/

variable {α : Type} {Q : α → ControlState → Prop} {ring : Ring}

/-- An operation that has nothing to do with the ring. -/
theorem AtRest.silent {f : e.Answer → UsbProg α} (he : e.Silent)
    (hf : ∀ r s, AtRest dev buf ringBuf pipe₀ ring request s →
      (controlMachine dev).wp (controlContract dev buf) (f r) Q s)
    (h : AtRest dev buf ringBuf pipe₀ ring request s) :
    (controlMachine dev).wp (controlContract dev buf) (Prog.perform e >>= f) Q s := by
  obtain ⟨L, hsome, hL, hanswered, hworking⟩ := h
  refine wp_op stable_working (fun _ _ ↦ trivial) (fun s hs hguard ↦ ?_) hworking
  have hsettled := hs.settle hsome hguard
  refine ⟨?_, ?_⟩
  · cases e with
    | ring e =>
      cases e with
      | loadByte a => exact hs.arrived hsettled hanswered
      | _ => trivial
    | _ => trivial
  · rintro r s' ⟨-, rfl⟩
    obtain ⟨hring, hrequest, -⟩ := he.effect_eq s
    refine hf r _ ⟨L, hsome, hL, hanswered, ?_, hs.serves.effect e, hrequest.trans hs.request_eq,
      fun _ ↦ hsettled.effect e⟩
    rw [hring]
    exact hs.quiet

theorem AtRest.ret {a : α} (hQ : ∀ s, AtRest dev buf ringBuf pipe₀ ring request s → Q a s)
    (h : AtRest dev buf ringBuf pipe₀ ring request s) :
    (controlMachine dev).wp (controlContract dev buf) (.ret a) Q s := by
  obtain ⟨L, hsome, hL, hanswered, hworking⟩ := h
  exact wp_ret stable_working (fun _ _ ↦ trivial)
    (fun s hs ↦ hQ s ⟨L, hsome, hL, hanswered, hs⟩) hworking

/-- `set_configuration`, of which the buffer has nothing. -/
theorem AtRest.setConfiguration {f : Ring → UsbProg α} (hring : ringBuf.toNat % 4096 = 0)
    (value : Byte)
    (hf : ∀ ring s, AtRest dev buf ringBuf pipe₀ ring request s →
      (controlMachine dev).wp (controlContract dev buf) (f ring) Q s)
    (h : AtRest dev buf ringBuf pipe₀ ring request s) :
    (controlMachine dev).wp (controlContract dev buf)
      (submit ring slotId (setConfigurationTrbs value) >>= f) Q s := by
  obtain ⟨L, hsome, rfl, hL, hworking⟩ := h
  have hsubmit : (controlMachine dev).wp (controlContract dev buf)
      (submit (ringAfter ringBuf L.length) slotId (setConfigurationTrbs value))
      (fun ring s ↦ ring = ringAfter ringBuf (L ++ setConfigurationTrbs value).length ∧
        Working dev (v2p ringBuf) pipe₀ (L ++ setConfigurationTrbs value) request s) s := by
    refine wp_of_guard (e := .ring (.call _)) rfl stable_working (fun _ _ ↦ trivial)
      (fun s hs hguard ↦ ?_) hworking
    have hlen := (hs.settle hsome hguard).consumed_length
    exact wp_submit hring setConfigurationTrbs_data (by decide : 2 ≤ 248) hs.quiet
      ⟨hs.serves, hs.request_eq, by omega⟩
  refine wp_bind (hsubmit.mono ?_)
  rintro _ s' ⟨rfl, hs'⟩
  exact hf _ s' ⟨_, hsome, rfl, hL.append setConfigurationTrbs_no_data, hs'⟩

/-! ### Before a configuration is asked for -/

/-- An operation that has nothing to do with the ring. -/
theorem AtStart.silent {f : e.Answer → UsbProg α} {k : ℕ} (he : e.Silent)
    (hf : ∀ r s, AtStart dev ringBuf pipe₀ k ring s →
      (controlMachine dev).wp (controlContract dev buf) (f r) Q s)
    (h : AtStart dev ringBuf pipe₀ k ring s) :
    (controlMachine dev).wp (controlContract dev buf) (Prog.perform e >>= f) Q s := by
  obtain ⟨L, hk, hL, hstarting⟩ := h
  refine wp_op stable_starting (fun _ _ ↦ trivial) (fun s hs _ ↦ ⟨?_, ?_⟩) hstarting
  · cases e with
    | ring e =>
      cases e with
      | loadByte a => exact fun i n hrequest ↦ nomatch hs.request_eq.symm.trans hrequest
      | _ => trivial
    | _ => trivial
  · rintro r s' ⟨-, rfl⟩
    obtain ⟨hring, hrequest, -⟩ := he.effect_eq s
    refine hf r _ ⟨L, hk, hL, ?_, hs.serves.effect e, hrequest.trans hs.request_eq⟩
    rw [hring]
    exact hs.quiet

theorem AtStart.ret {a : α} {k : ℕ} (hQ : ∀ s, AtStart dev ringBuf pipe₀ k ring s → Q a s)
    (h : AtStart dev ringBuf pipe₀ k ring s) :
    (controlMachine dev).wp (controlContract dev buf) (.ret a) Q s := by
  obtain ⟨L, hk, hL, hstarting⟩ := h
  exact wp_ret stable_starting (fun _ _ ↦ trivial) (fun s hs ↦ hQ s ⟨L, hk, hL, hs⟩) hstarting

/-- The device descriptor is asked for, twice at most. -/
theorem AtStart.getDevice {f : Ring → UsbProg α} {k : ℕ} {len : BitVec 64}
    (hring : ringBuf.toNat % 4096 = 0) (hk : k ≤ 3)
    (hf : ∀ ring s, AtStart dev ringBuf pipe₀ (k + 3) ring s →
      (controlMachine dev).wp (controlContract dev buf) (f ring) Q s)
    (h : AtStart dev ringBuf pipe₀ k ring s) :
    (controlMachine dev).wp (controlContract dev buf)
      (getDescriptor ring slotId 1 0 buf len >>= f) Q s := by
  obtain ⟨L, hL, rfl, hs⟩ := h
  refine wp_bind ((wp_submit hring getDescriptorTrbs_data (by decide : 3 ≤ 248) hs.quiet
    ⟨hs.serves, hs.request_eq, by omega⟩).mono ?_)
  rintro _ s' ⟨rfl, hs'⟩
  refine hf _ s' ⟨_, ?_, rfl, hs'.quiet, hs'.serves, hs'.request_eq⟩
  rw [List.length_append]
  exact Nat.add_le_add_right hL 3

/-- Either no configuration has been asked for, or the last one has arrived. -/
def Asking (dev : UsbDevice) (buf ringBuf : Addr) (pipe₀ : Pipe) (ring : Ring)
    (s : ControlState) : Prop :=
  AtStart dev ringBuf pipe₀ 6 ring s ∨ ∃ request, AtRest dev buf ringBuf pipe₀ ring request s

/-- The TRBs that ask for a configuration, behind the mark for it. -/
theorem wp_getConfiguration {f : Ring → UsbProg α} {descIndex : Byte}
    (hring : ringBuf.toNat % 4096 = 0) (hbuf : buf.toNat + bufLen ≤ pageOffset.toNat)
    (hf : ∀ ring request s, AtRest dev buf ringBuf pipe₀ ring request s →
      (controlMachine dev).wp (controlContract dev buf) (f ring) Q s)
    (hquiet : Quiet (v2p ringBuf) L s.ring) (hserves : Serves dev pipe₀ s)
    (hle : L.length ≤ s.ring.consumed.length + 6) :
    (controlMachine dev).wp (controlContract dev buf)
      (getDescriptor (ringAfter ringBuf L.length) slotId 2 descIndex buf
        (BitVec.ofNat 64 bufLen) >>= f) Q (UsbOp.effect s (.request descIndex)) := by
  have hrequest : (UsbOp.effect s (.request descIndex)).request = some (descIndex, L.length) := by
    rw [← hquiet.passed_eq]
    rfl
  refine wp_bind ((wp_submit hring getDescriptorTrbs_data (by decide : 3 ≤ 248)
    (s := UsbOp.effect s (.request descIndex)) hquiet ⟨hserves.effect _, hrequest, hle⟩).mono ?_)
  rintro _ s' ⟨rfl, hs'⟩
  exact hf _ _ s' ⟨_, Option.some_ne_none _, rfl, answered_configuration hbuf descIndex, hs'⟩

theorem Asking.getConfiguration {f : Ring → UsbProg α} {descIndex : Byte}
    (hring : ringBuf.toNat % 4096 = 0) (hbuf : buf.toNat + bufLen ≤ pageOffset.toNat)
    (hf : ∀ ring request s, AtRest dev buf ringBuf pipe₀ ring request s →
      (controlMachine dev).wp (controlContract dev buf) (f ring) Q s)
    (h : Asking dev buf ringBuf pipe₀ ring s) :
    (controlMachine dev).wp (controlContract dev buf)
      (Prog.perform (UsbOp.request descIndex) >>= fun _ ↦
        getDescriptor ring slotId 2 descIndex buf (BitVec.ofNat 64 bufLen) >>= f) Q s := by
  rcases h with ⟨L, hL, rfl, hstarting⟩ | ⟨request, L, hsome, rfl, -, hworking⟩
  · refine wp_op stable_starting (fun _ _ ↦ trivial) (fun s hs _ ↦ ⟨trivial, ?_⟩) hstarting
    rintro r _ ⟨-, rfl⟩
    exact wp_getConfiguration hring hbuf hf hs.quiet hs.serves (by omega)
  · refine wp_op stable_working (fun _ _ ↦ trivial) (fun s hs hguard ↦ ⟨trivial, ?_⟩) hworking
    have hlen := (hs.settle hsome hguard).consumed_length
    rintro r _ ⟨-, rfl⟩
    exact wp_getConfiguration hring hbuf hf hs.quiet hs.serves (by omega)

/-! ### The driver -/

theorem AtRest.allocPage {f : Addr → UsbProg α}
    (hf : ∀ page s, AtRest dev buf ringBuf pipe₀ ring request s →
      (controlMachine dev).wp (controlContract dev buf) (f page) Q s)
    (h : AtRest dev buf ringBuf pipe₀ ring request s) :
    (controlMachine dev).wp (controlContract dev buf) (VimOS.allocPage >>= f) Q s := by
  rw [VimOS.allocPage]
  refine wp_bind (h.silent trivial fun (page : Addr) s hs ↦ ?_)
  refine wp_ite (fun _ ↦ ?_) fun _ ↦ hs.ret fun s hs ↦ hf page s hs
  exact hs.silent (e := .panic) (f := fun r ↦ nomatch r) trivial fun r ↦ nomatch r

theorem AtRest.readHalf {f : BitVec 16 → UsbProg α} {a : Addr}
    (hf : ∀ v s, AtRest dev buf ringBuf pipe₀ ring request s →
      (controlMachine dev).wp (controlContract dev buf) (f v) Q s)
    (h : AtRest dev buf ringBuf pipe₀ ring request s) :
    (controlMachine dev).wp (controlContract dev buf) (VimOS.readHalf a >>= f) Q s :=
  h.silent trivial fun _ _ hs ↦ hs.silent trivial fun _ s hs ↦ hf _ s hs

theorem wp_atEndpoint (hring : ringBuf.toNat % 4096 = 0) (value : Byte) (c : Classes) (p : Addr)
    (h : AtRest dev buf ringBuf pipe₀ ring request s) :
    (controlMachine dev).wp (controlContract dev buf) (atEndpoint slotId value c ring p)
      (fun r s ↦ AtRest dev buf ringBuf pipe₀ r.2 request s) s := by
  rw [atEndpoint]
  refine h.silent trivial fun address s hs ↦ ?_
  refine hs.silent trivial fun attributes s hs ↦ ?_
  refine hs.allocPage fun endpoint s hs ↦ ?_
  refine hs.allocPage fun _ s hs ↦ ?_
  refine hs.readHalf fun maxPacketSize s hs ↦ ?_
  refine hs.silent trivial fun interval s hs ↦ ?_
  refine wp_ite (fun _ ↦ ?_) fun _ ↦ hs.ret fun s hs ↦ hs
  refine hs.setConfiguration hring value fun ring s hs ↦ ?_
  exact hs.silent trivial fun _ s hs ↦ hs.ret fun s hs ↦ hs

theorem wp_walkDescriptors (hring : ringBuf.toNat % 4096 = 0) (value : Byte)
    (totalLength : BitVec 16) {fuel p : ℕ} {c : Classes} {isSet : Bool}
    (h : AtRest dev buf ringBuf pipe₀ ring request s) :
    (controlMachine dev).wp (controlContract dev buf)
      (walkDescriptors buf slotId value totalLength fuel p c isSet ring)
      (fun r s ↦ AtRest dev buf ringBuf pipe₀ r.2.2 request s) s := by
  induction fuel generalizing p c isSet ring s with
  | zero => exact h.ret fun s hs ↦ hs
  | succ fuel ih =>
    rw [walkDescriptors]
    refine wp_ite (fun _ ↦ ?_) fun _ ↦ h.ret fun s hs ↦ hs
    refine h.silent trivial fun (descType : Byte) s hs ↦ ?_
    refine hs.silent trivial fun (length : Byte) s hs ↦ ?_
    refine wp_ite (fun _ ↦ hs.ret fun s hs ↦ hs) fun _ ↦ ?_
    refine wp_ite (fun _ ↦ ?_) fun _ ↦ wp_ite (fun _ ↦ ?_) fun _ ↦ ?_
    · refine hs.silent trivial fun classCode s hs ↦ ?_
      refine hs.silent trivial fun subClassCode s hs ↦ ?_
      refine hs.silent trivial fun interface s hs ↦ ?_
      exact hs.silent trivial fun length s hs ↦ ih hs
    · refine wp_bind ((wp_atEndpoint hring value c _ hs).mono ?_)
      rintro ⟨keyboard, ring⟩ s hs
      exact hs.silent trivial fun length s hs ↦ ih hs
    · exact hs.silent trivial fun length s hs ↦ ih hs

theorem wp_readConfigurations (hring : ringBuf.toNat % 4096 = 0)
    (hbuf : buf.toNat + bufLen ≤ pageOffset.toNat) {fuel n descIndex : ℕ} {c : Classes}
    (h : Asking dev buf ringBuf pipe₀ ring s) :
    (controlMachine dev).wp (controlContract dev buf)
      (readConfigurations buf slotId fuel n descIndex c ring) (fun _ _ ↦ True) s := by
  induction n generalizing descIndex c ring s with
  | zero =>
    rcases h with h | ⟨request, h⟩
    · exact h.ret fun _ _ ↦ trivial
    · exact h.ret fun _ _ ↦ trivial
  | succ n ih =>
    rw [readConfigurations]
    refine h.getConfiguration hring hbuf fun ring request s hs ↦ ?_
    refine hs.readHalf fun totalLength s hs ↦ ?_
    refine hs.silent trivial fun configurationValue s hs ↦ ?_
    refine hs.allocPage fun _ s hs ↦ ?_
    refine hs.silent trivial fun length s hs ↦ ?_
    refine wp_bind ((wp_walkDescriptors hring configurationValue totalLength hs).mono ?_)
    rintro ⟨c, isSet, ring⟩ s hs
    exact wp_ite (fun _ ↦ hs.silent trivial fun _ s hs ↦ ih (.inr ⟨_, hs⟩))
      fun _ ↦ ih (.inr ⟨_, hs⟩)

theorem wp_transferEvents (hring : ringBuf.toNat % 4096 = 0)
    (hbuf : buf.toNat + bufLen ≤ pageOffset.toNat) {fuel rounds : ℕ}
    (h : AtStart dev ringBuf pipe₀ 6 ring s) :
    (controlMachine dev).wp (controlContract dev buf)
      (transferEvents buf slotId fuel rounds ring) (fun _ _ ↦ True) s := by
  induction rounds generalizing ring s with
  | zero => exact h.ret fun _ _ ↦ trivial
  | succ rounds ih =>
    rw [transferEvents]
    refine h.silent trivial fun (code : Byte) s hs ↦ wp_ite (fun _ ↦ ?_) fun _ ↦ ih hs
    refine hs.silent trivial fun classCode s hs ↦ ?_
    refine hs.silent trivial fun subClassCode s hs ↦ ?_
    refine hs.silent trivial fun (numConfigs : Byte) s hs ↦ ?_
    exact wp_ite (fun _ ↦ ih hs) fun _ ↦ wp_readConfigurations hring hbuf (.inl hs)

theorem wp_ignoreEvents {n k : ℕ} (h : AtStart dev ringBuf pipe₀ k ring s) :
    (controlMachine dev).wp (controlContract dev buf) (ignoreEvents n)
      (fun _ s ↦ AtStart dev ringBuf pipe₀ k ring s) s := by
  induction n generalizing s with
  | zero => exact h.ret fun s hs ↦ hs
  | succ n ih => exact h.silent trivial fun _ s hs ↦ ih hs

theorem wp_adjustPacketSize (hring : ringBuf.toNat % 4096 = 0)
    (h : AtStart dev ringBuf pipe₀ 0 ring s) :
    (controlMachine dev).wp (controlContract dev buf) (adjustPacketSize buf slotId ring)
      (fun ring s ↦ AtStart dev ringBuf pipe₀ 3 ring s) s := by
  rw [adjustPacketSize]
  refine h.getDevice hring (Nat.zero_le 3) fun ring s hs ↦ ?_
  refine hs.silent trivial fun (maxPacketSize0 : Byte) s hs ↦ ?_
  refine wp_ite (fun _ ↦ ?_) fun _ ↦ hs.ret fun s hs ↦ hs
  exact hs.silent trivial fun _ s hs ↦ hs.ret fun s hs ↦ hs

theorem wp_useControlPipe (hring : ringBuf.toNat % 4096 = 0)
    (hbuf : buf.toNat + bufLen ≤ pageOffset.toNat) {fullSpeed : Bool} {early rounds fuel : ℕ}
    (h : AtStart dev ringBuf pipe₀ 0 ring s) :
    (controlMachine dev).wp (controlContract dev buf)
      (useControlPipe fullSpeed buf slotId early rounds fuel ring) (fun _ _ ↦ True) s := by
  have hrest : ∀ ring s, AtStart dev ringBuf pipe₀ 3 ring s →
      (controlMachine dev).wp (controlContract dev buf) (ignoreEvents early >>= fun _ ↦
        getDescriptor ring slotId 1 0 buf (BitVec.ofNat 64 bufLen) >>= fun ring ↦
          transferEvents buf slotId fuel rounds ring) (fun _ _ ↦ True) s := by
    intro ring s hs
    refine wp_bind ((wp_ignoreEvents hs).mono fun _ s hs ↦ ?_)
    exact hs.getDevice hring le_rfl fun ring s hs ↦ wp_transferEvents hring hbuf hs
  cases fullSpeed with
  | true => exact wp_bind ((wp_adjustPacketSize hring h).mono hrest)
  | false =>
    obtain ⟨L, hL, hring', hstarting⟩ := h
    exact hrest ring s ⟨L, hL.trans (Nat.zero_le 3), hring', hstarting⟩

end Rules

/-- **Descriptors are read when they have arrived**, in every run in which the controller keeps up
with the requests for configurations: whenever the driver reads the buffer. -/
theorem configuration_arrived {dev : UsbDevice} {buf ringBuf : Addr} {mem : PhysMem} {pipe : Pipe}
    {fullSpeed : Bool} {slotId : Byte} {early rounds fuel : ℕ} {a : Addr}
    {k : Byte → UsbProg Ring} {s : ControlState} (hring : ringBuf.toNat % 4096 = 0)
    (hbuf : buf.toNat + bufLen ≤ pageOffset.toNat)
    (hrun : (controlMachine dev).Runs (KeepsUp dev)
      (useControlPipe fullSpeed buf slotId early rounds fuel (newRing ringBuf mem).2,
        .start ringBuf mem pipe) (.op (.ring (.loadByte a)) k, s))
    (hguard : KeepsUp dev s (.own (.ring (.loadByte a)))) : Arrived dev buf s := by
  have hstart : AtStart dev ringBuf pipe 0 (newRing ringBuf mem).2 (.start ringBuf mem pipe) :=
    ⟨[], le_rfl, rfl, quiet_start ringBuf mem, serves_start ringBuf mem, rfl⟩
  have hwp : (controlMachine dev).wp (controlContract dev buf)
      (useControlPipe fullSpeed buf slotId early rounds fuel (newRing ringBuf mem).2)
      (fun _ _ ↦ True) (.start ringBuf mem pipe) := wp_useControlPipe hring hbuf hstart
  exact (hwp.run hrun).pre hguard

/-! ## A controller that keeps up, and one that does not -/

section Runs

variable {dev : UsbDevice} {buf ringBuf base : Addr} {slotId : Byte} {pipe₀ : Pipe}
  {L ts : List Trb} {request : Option (Byte × ℕ)} {s : ControlState} {t : Trb} {ring : Ring}
  {fuel : ℕ}

/-- A request, the controller doing nothing. -/
theorem mayReturn_submit (hring : ringBuf.toNat % 4096 = 0)
    (hts : ∀ x ∈ t :: ts, x.c = false ∧ x.type ≠ 6) (hlen : (t :: ts).length ≤ 248)
    (h : Working dev (v2p ringBuf) pipe₀ L request s) (hrung : s.rung = false) :
    (controlMachine dev).mayReturn (KeepsUp dev)
      (submit (ringAfter ringBuf L.length) slotId (t :: ts))
      (fun ring s' ↦ (s'.ring.consumed = s.ring.consumed ∧ s'.data = s.data) ∧
        ring = ringAfter ringBuf (L ++ t :: ts).length ∧
        Working dev (v2p ringBuf) pipe₀ (L ++ t :: ts) request s') s := by
  have hsettled := h.settled hrung
  have hroom : ∀ s' : RingState, s'.consumer = s.ring.consumer →
      s'.passed.length < L.length + (t :: ts).length → s'.Room := by
    intro s' hconsumer hlt
    have hconsumed : s'.consumed = s.ring.consumed := congrArg (·.2.2.1) hconsumer
    have hle := hsettled.consumed_length
    refine ⟨?_, fun _ ↦ ?_⟩
    all_goals
      rw [RingState.outstanding, hconsumed]
      omega
  have hlift : (controlMachine dev).mayReturn (KeepsUp dev)
      ((writeAll (ringAfter ringBuf L.length) (t :: ts)).lift UsbOp.ring)
      (fun ring s' ↦ (ring = ringAfter ringBuf (L ++ t :: ts).length ∧
        Quiet (v2p ringBuf) (L ++ t :: ts) s'.ring ∧ s'.ring.consumer = s.ring.consumer) ∧
          s'.rung = false ∧ s'.data = s.data) s := by
    refine mayReturn_lift (g := UsbOp.ring) (π := ControlState.ring)
      (J := fun s' : ControlState ↦ s'.rung = false ∧ s'.data = s.data)
      (Q := fun (ring : Ring) (s' : RingState) ↦ ring = ringAfter ringBuf (L ++ t :: ts).length ∧
        Quiet (v2p ringBuf) (L ++ t :: ts) s' ∧ s'.consumer = s.ring.consumer)
      ?_ (writeAll_only _ _) (mayReturn_writeAll (t :: ts) hring hts h.quiet hroom) ⟨hrung, rfl⟩
    rintro e s' r s'' hok ⟨hrung', hdata⟩ - rfl
    refine ⟨fun h ↦ absurd (hrung'.symm.trans h) Bool.false_ne_true, _, ⟨?_, rfl⟩, rfl, ?_, hdata⟩
    · cases e with
      | loadByte a => exact hok.elim
      | _ => trivial
    · cases e with
      | doorbell reg v => exact hok.elim
      | _ => rfl
  have hlen' := hsettled.consumed_length
  refine mayReturn.and_wp (C := controlContract dev 0) ?_
    (wp_submit hring hts hlen h.quiet ⟨h.serves, h.request_eq, by omega⟩)
  refine mayReturn_bind (hlift.mono ?_)
  rintro _ s' ⟨⟨rfl, -, hconsumer⟩, hrung', hdata⟩
  exact ⟨fun h ↦ absurd (hrung'.symm.trans h) Bool.false_ne_true, (), _, ⟨trivial, rfl⟩,
    congrArg (·.2.2.1) hconsumer, hdata⟩

theorem mayReturn_getDescriptor (slotId : Byte) (descType : BitVec 16) (descIndex : Byte)
    (buf : Addr) (len : BitVec 64) (hring : ringBuf.toNat % 4096 = 0)
    (h : Working dev (v2p ringBuf) pipe₀ L request s) (hrung : s.rung = false) :
    (controlMachine dev).mayReturn (KeepsUp dev)
      (getDescriptor (ringAfter ringBuf L.length) slotId descType descIndex buf len)
      (fun ring s' ↦ (s'.ring.consumed = s.ring.consumed ∧ s'.data = s.data) ∧
        ring = ringAfter ringBuf (L ++ getDescriptorTrbs descType descIndex buf len).length ∧
        Working dev (v2p ringBuf) pipe₀ (L ++ getDescriptorTrbs descType descIndex buf len) request
          s') s :=
  mayReturn_submit hring getDescriptorTrbs_data (by decide : 3 ≤ 248) h hrung

/-- A Transfer Event is there, and the device has one configuration. -/
theorem runs_transferEvent (slotId : Byte) (fuel : ℕ) (ring : Ring)
    (hidle : s.rung = true → Quiescent dev s) (hposted : 0 < s.posted)
    (hnum : s.pipe.bytes (v2p (buf + 17)) = 1) :
    ∃ c, (controlMachine dev).Runs (KeepsUp dev) (transferEvents buf slotId fuel 1 ring, s)
      (readConfigurations buf slotId fuel 1 0 c ring,
        { s with posted := s.posted - 1, rung := false }) := by
  let s' := UsbOp.effect s .event
  have hload : ∀ (a : Addr) (v : Byte) (f : Byte → UsbProg Ring), s.pipe.bytes (v2p a) = v →
      (controlMachine dev).Runs (KeepsUp dev) (readByte a >>= f, s') (f v, s') := by
    rintro a _ f rfl
    exact (Run.refl _).tail (i := .own (.ring (.loadByte a))) nofun (.own ⟨rfl, rfl⟩)
  have hevent : (controlMachine dev).Runs (KeepsUp dev) (transferEvents buf slotId fuel 1 ring, s)
      (readByte (buf + 4) >>= fun classCode ↦ readByte (buf + 5) >>= fun subClassCode ↦
        readByte (buf + 17) >>= fun numConfigs ↦
          if numConfigs = 0 then transferEvents buf slotId fuel 0 ring
          else readConfigurations buf slotId fuel numConfigs.toNat 0
            ⟨classCode, subClassCode, 0⟩ ring, s') := by
    have hexec : (controlMachine dev).exec .event s (1 : Byte) s' := ⟨hposted, rfl⟩
    exact (Run.refl _).tail (i := .own .event) (fun hrung _ ↦ hidle hrung) (.own hexec)
  exact ⟨_, ((hevent.trans (hload _ _ _ rfl)).trans (hload _ _ _ rfl)).trans (hload _ _ _ hnum)⟩

/-- The first configuration is asked for. -/
theorem runs_request (buf : Addr) (slotId : Byte) (fuel : ℕ) (c : Classes)
    (hring : ringBuf.toNat % 4096 = 0) (h : Working dev (v2p ringBuf) pipe₀ L request s)
    (hrung : s.rung = false) :
    ∃ k s', (controlMachine dev).Runs (KeepsUp dev)
      (readConfigurations buf slotId fuel 1 0 c (ringAfter ringBuf L.length), s)
      (.op (.ring (.loadByte (buf + 2))) k, s') ∧
      Working dev (v2p ringBuf) pipe₀ (L ++ configurationTrbs buf 0) (some (0, L.length)) s' ∧
      s'.ring.consumed = s.ring.consumed ∧ s'.data = s.data := by
  have hrequest : (UsbOp.effect s (.request 0)).request = some (0, L.length) := by
    rw [← h.quiet.passed_eq]
    rfl
  have hworking : Working dev (v2p ringBuf) pipe₀ L (some (0, L.length))
      (UsbOp.effect s (.request 0)) :=
    ⟨h.quiet, h.serves.effect _, hrequest, fun _ ↦ (h.settled hrung).effect _⟩
  have hmay := mayReturn_getDescriptor slotId 2 0 buf (BitVec.ofNat 64 bufLen) hring hworking rfl
  obtain ⟨_, s', hrun, ⟨hconsumed, hdata⟩, rfl, hworking'⟩ := hmay.exists_run fun ring ↦
    readHalf (buf + 2) >>= fun totalLength ↦ readByte (buf + 5) >>= fun value ↦
      allocPage >>= fun _ ↦ readByte buf >>= fun length ↦
        walkDescriptors buf slotId value totalLength fuel length.toNat c false ring >>=
          fun r ↦ if r.2.1 then Prog.perform UsbOp.command >>= fun _ ↦ .ret r.2.2 else .ret r.2.2
  have hstep : (controlMachine dev).exec (.request 0) s () (UsbOp.effect s (.request 0)) :=
    ⟨trivial, rfl⟩
  exact ⟨_, s', Run.head (i := .own (.request 0))
    (fun h ↦ absurd (hrung.symm.trans h) Bool.false_ne_true) (.own hstep) hrun, hworking',
    hconsumed, hdata⟩

end Runs

/-- A boot keyboard, with one configuration. -/
def bootKeyboard : UsbDevice where
  descriptor wValue :=
    if wValue = 0x100 then
      [0x12, 0x01, 0x10, 0x01, 0x00, 0x00, 0x00, 0x08, 0x6d, 0x04, 0x1c, 0xc3, 0x10, 0x01,
        0x01, 0x02, 0x00, 0x01]
    else if wValue = 0x200 then
      [0x09, 0x02, 0x22, 0x00, 0x01, 0x01, 0x00, 0xa0, 0x32,
        0x09, 0x04, 0x00, 0x00, 0x01, 0x03, 0x01, 0x01, 0x00,
        0x09, 0x21, 0x11, 0x01, 0x00, 0x01, 0x22, 0x3f, 0x00,
        0x07, 0x05, 0x81, 0x03, 0x08, 0x00, 0x0a]
    else []

/-- A buffer in the kernel's image. -/
def portBuf : Addr := 0xffff800000200000

/-- Nothing asked for, and memory cleared. -/
def blankPipe : Pipe := ⟨⟨0, 0⟩, fun _ ↦ 0⟩

/-- The device descriptor has been asked for. -/
def deviceTrbs : List Trb := getDescriptorTrbs 1 0 portBuf (BitVec.ofNat 64 bufLen)

/-- The device descriptor is in the buffer: there is one configuration. -/
theorem numConfigs_eq :
    (deviceTrbs.foldl bootKeyboard.serve blankPipe).bytes (v2p (portBuf + 17)) = 1 := by
  have haddr : v2p (portBuf + 17) = v2p portBuf + BitVec.ofNat 64 17 := by decide
  rw [deviceTrbs, UsbDevice.foldl_serve_getDescriptor (by decide), haddr,
    storeList_getElem (by decide) (by decide)]
  decide

/-- The driver is about to read `wTotalLength`, and the controller has done nothing about the
configuration. -/
theorem exists_asked : ∃ k s,
    (controlMachine bootKeyboard).Runs (KeepsUp bootKeyboard)
      (useControlPipe false portBuf 1 0 1 512 (newRing ringPage fun _ ↦ 0).2,
        .start ringPage (fun _ ↦ 0) blankPipe) (.op (.ring (.loadByte (portBuf + 2))) k, s) ∧
    Working bootKeyboard (v2p ringPage) blankPipe (deviceTrbs ++ configurationTrbs portBuf 0)
      (some (0, 3)) s ∧ s.ring.consumed.length = 3 ∧ s.data = none := by
  have hring : ringPage.toNat % 4096 = 0 := by decide
  have hstart : Working bootKeyboard (v2p ringPage) blankPipe [] none
      (.start ringPage (fun _ ↦ 0) blankPipe) :=
    ⟨quiet_start _ _, serves_start _ _, rfl, fun _ ↦ ⟨rfl, rfl⟩⟩
  obtain ⟨_, s₁, hrun₁, ⟨hconsumed₁, hdata₁⟩, rfl, hworking₁⟩ :=
    (mayReturn_getDescriptor 1 1 0 portBuf (BitVec.ofNat 64 bufLen) hring hstart rfl).exists_run
      fun ring ↦ transferEvents portBuf 1 512 1 ring
  -- the controller works the request off
  obtain ⟨s₂, hothers, hidle, hposts⟩ := exists_quiescent keepsUp_env hworking₁.quiet
    hworking₁.serves hdata₁
  have hworking₂ := hworking₁.others hothers
  have hsettled₂ := hidle.settled hworking₂.serves hworking₂.quiet
  have hposted : 0 < s₂.posted := by
    rw [hconsumed₁] at hposts
    exact hposts _ (List.mem_cons_of_mem _ List.mem_cons_self)
      ⟨.inl getDescriptorData_type, getDescriptorData_ioc⟩
  have hnum : s₂.pipe.bytes (v2p (portBuf + 17)) = 1 := by
    rw [hsettled₂.pipe_eq hworking₂.serves hworking₂.quiet]
    exact numConfigs_eq
  obtain ⟨c, hrun₂⟩ := runs_transferEvent 1 512 (ringAfter ringPage 3) (fun _ ↦ hidle) hposted hnum
  have hworking₃ : Working bootKeyboard (v2p ringPage) blankPipe deviceTrbs none
      (UsbOp.effect s₂ .event) :=
    ⟨hworking₂.quiet, hworking₂.serves.effect _, hworking₂.request_eq, fun _ ↦ hsettled₂.effect _⟩
  obtain ⟨k, s, hrun₃, hworking, hconsumed, hdata⟩ :=
    runs_request portBuf 1 512 c hring hworking₃ rfl
  refine ⟨k, s, ?_, hworking, ?_, hdata.trans hsettled₂.data_eq⟩
  · exact ((hrun₁.trans (runs_of_others hothers)).trans hrun₂).trans hrun₃
  · rw [hconsumed]
    exact hsettled₂.consumed_length

/-- A controller that keeps up: `wTotalLength` is read from the descriptor. -/
theorem configuration_arrived_first : ∃ k s,
    (controlMachine bootKeyboard).Runs (KeepsUp bootKeyboard)
      (useControlPipe false portBuf 1 0 1 512 (newRing ringPage fun _ ↦ 0).2,
        .start ringPage (fun _ ↦ 0) blankPipe) (.op (.ring (.loadByte (portBuf + 2))) k, s) ∧
    s.request = some (0, 3) ∧ Arrived bootKeyboard portBuf s := by
  obtain ⟨k, s₁, hrun₁, hworking₁, -, hdata₁⟩ := exists_asked
  obtain ⟨s, hothers, hidle, -⟩ :=
    exists_quiescent keepsUp_env hworking₁.quiet hworking₁.serves hdata₁
  have hrun := hrun₁.trans (runs_of_others hothers)
  exact ⟨k, s, hrun, (hworking₁.others hothers).request_eq,
    configuration_arrived (by decide) (by decide) hrun fun _ _ ↦ hidle⟩

/-- A controller that has not begun: `wTotalLength` is read from the device descriptor. -/
theorem not_configuration_arrived : ¬∀ (dev : UsbDevice) (buf ringBuf : Addr) (mem : PhysMem)
    (pipe : Pipe) (fullSpeed : Bool) (slotId : Byte) (early rounds fuel : ℕ) (a : Addr)
    (k : Byte → UsbProg Ring) (s : ControlState), ringBuf.toNat % 4096 = 0 →
    buf.toNat + bufLen ≤ pageOffset.toNat →
    (controlMachine dev).Runs (fun _ _ ↦ True)
      (useControlPipe fullSpeed buf slotId early rounds fuel (newRing ringBuf mem).2,
        .start ringBuf mem pipe) (.op (.ring (.loadByte a)) k, s) → Arrived dev buf s := by
  intro h
  obtain ⟨k, s, hrun, hworking, hlen, -⟩ := exists_asked
  have harrived := h _ _ _ _ _ _ _ _ _ _ _ _ _ (by decide) (by decide)
    (hrun.mono fun _ _ _ ↦ trivial) 0 3 hworking.request_eq
  have hle := harrived.1.length_le
  rw [List.length_drop, List.length_map, hlen] at hle
  exact absurd hle (by decide : ¬3 ≤ 3 - 3)

end VimOS
