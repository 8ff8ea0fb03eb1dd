import VimOS.Library.ByteMemory
import VimOS.Xhci.RingDelivery

/-!
# Control transfers

The default control pipe of a device: the driver queues the TRBs of a request on the transfer ring,
and the controller works through them, storing what the device answers one byte at a time. It posts
a Transfer Event when a stage with IOC is over. `UsbDevice.serve` is what a TRB brings about as a
whole; `Serves` says that the controller is through with the TRBs it has taken, or amid the data
stage of the last of them. It can always go on until it has nothing left to do
(`exists_quiescent`), and then everything queued has been served (`Settled.pipe_eq`).

The ring's page and the buffers are apart, so each has a memory of its own here.
-/

namespace VimOS

open Machine ByteMemory GuardedRun

/-! ## The TRBs of a request -/

/-- `init_setup_stage_trb`: `type = 2`, `idt = 1`, `trb_length = 8`. -/
def initSetupStageTrb : Trb := ⟨0, 0, 8, 2#32 <<< 10 ||| 1#32 <<< 6⟩

/-- `init_data_stage_trb(trb, buf, len)`: `type = 3`, `ioc = 1`; `length` has 17 bits. -/
def initDataStageTrb (buf : Addr) (len : Word) : Trb :=
  ⟨buf.setWidth 32, (buf >>> 32).setWidth 32, (len.setWidth 17).setWidth 32,
    3#32 <<< 10 ||| 1#32 <<< 5⟩

/-- `init_status_stage_trb`: `type = 4`. -/
def initStatusStageTrb : Trb := ⟨0, 0, 0, 4#32 <<< 10⟩

/-- The setup packet, as a Setup Stage TRB carries it. -/
structure SetupPacket where
  w0 : Word
  w1 : Word

namespace SetupPacket

def of (requestType request : Byte) (wValue wIndex wLength : BitVec 16) : SetupPacket :=
  ⟨wValue ++ request ++ requestType, wLength ++ wIndex⟩

def requestType (p : SetupPacket) : Byte := p.w0.extractLsb' 0 8

def request (p : SetupPacket) : Byte := p.w0.extractLsb' 8 8

def wValue (p : SetupPacket) : BitVec 16 := p.w0.extractLsb' 16 16

def wLength (p : SetupPacket) : BitVec 16 := p.w1.extractLsb' 16 16

section Of

variable (requestType request : Byte) (wValue wIndex wLength : BitVec 16)

@[simp] theorem requestType_of :
    (of requestType request wValue wIndex wLength).requestType = requestType :=
  BitVec.extractLsb'_append_eq_right

@[simp] theorem request_of : (of requestType request wValue wIndex wLength).request = request :=
  (BitVec.extractLsb'_append_eq_of_le (by decide)).trans BitVec.extractLsb'_append_eq_right

@[simp] theorem wValue_of : (of requestType request wValue wIndex wLength).wValue = wValue :=
  (BitVec.extractLsb'_append_eq_of_le (by decide)).trans BitVec.extractLsb'_append_eq_left

@[simp] theorem wLength_of : (of requestType request wValue wIndex wLength).wLength = wLength :=
  BitVec.extractLsb'_append_eq_left

end Of

end SetupPacket

/-- The setup packet of `get_descriptor`. -/
def getDescriptorPacket (descType : BitVec 16) (descIndex : Byte) (bufLen : BitVec 64) :
    SetupPacket :=
  .of 0x80 6 (descType <<< 8 ||| descIndex.setWidth 16) 0 (bufLen.setWidth 16)

/-- The setup stage of `get_descriptor`: `trt = 3`. -/
def getDescriptorSetup (descType : BitVec 16) (descIndex : Byte) (bufLen : BitVec 64) : Trb :=
  let packet := getDescriptorPacket descType descIndex bufLen
  { initSetupStageTrb with
    w0 := packet.w0, w1 := packet.w1, w3 := initSetupStageTrb.w3 ||| 3#32 <<< 16 }

/-- The data stage of `get_descriptor`: `dir = 1`. -/
def getDescriptorData (buf : Addr) (bufLen : BitVec 64) : Trb :=
  let data := initDataStageTrb (v2p buf) (bufLen.setWidth 32)
  { data with w3 := data.w3 ||| 1#32 <<< 16 }

/-- The TRBs of `get_descriptor`, in their order. -/
def getDescriptorTrbs (descType : BitVec 16) (descIndex : Byte) (buf : Addr) (bufLen : BitVec 64) :
    List Trb :=
  [getDescriptorSetup descType descIndex bufLen, getDescriptorData buf bufLen, initStatusStageTrb]

/-- The TRBs of SET_CONFIGURATION: the setup stage with `trt = 0` and the status stage with
`dir = 1` and `ioc = 1`. -/
def setConfigurationTrbs (value : Byte) : List Trb :=
  let packet := SetupPacket.of 0 9 (value.setWidth 16) 0 0
  [{ initSetupStageTrb with w0 := packet.w0, w1 := packet.w1 },
    { initStatusStageTrb with w3 := initStatusStageTrb.w3 ||| 1#32 <<< 16 ||| 1#32 <<< 5 }]

/-- The field `length` of a Data Stage TRB. -/
def Trb.dataLength (t : Trb) : BitVec 17 := t.w2.extractLsb' 0 17

/-- The field `dir`. -/
def Trb.dir (t : Trb) : Bool := t.w3.getLsbD 16

/-- The field `ioc`. -/
def Trb.ioc (t : Trb) : Bool := t.w3.getLsbD 5

section Fields

variable {descType : BitVec 16} {descIndex : Byte} {buf : Addr} {bufLen : BitVec 64} {len : ℕ}

theorem getDescriptorSetup_type : (getDescriptorSetup descType descIndex bufLen).type = 2 := by
  have h : (2#32 <<< 10 ||| 1#32 <<< 6 ||| 3#32 <<< 16).extractLsb' 10 6 = 2#6 := by decide
  exact h

theorem getDescriptorData_type : (getDescriptorData buf bufLen).type = 3 := by
  have h : (3#32 <<< 10 ||| 1#32 <<< 5 ||| 1#32 <<< 16).extractLsb' 10 6 = 3#6 := by decide
  exact h

theorem getDescriptorData_dir : (getDescriptorData buf bufLen).dir = true := by
  have h : (3#32 <<< 10 ||| 1#32 <<< 5 ||| 1#32 <<< 16).getLsbD 16 = true := by decide
  exact h

theorem getDescriptorData_ioc : (getDescriptorData buf bufLen).ioc = true := by
  have h : (3#32 <<< 10 ||| 1#32 <<< 5 ||| 1#32 <<< 16).getLsbD 5 = true := by decide
  exact h

theorem getDescriptorData_ptr : (getDescriptorData buf bufLen).ptr = v2p buf :=
  linkTrb_ptr (v2p buf)

theorem getDescriptorData_length (h : len < 2 ^ 17) :
    (getDescriptorData buf (BitVec.ofNat 64 len)).dataLength.toNat = len := by
  rw [Trb.dataLength, getDescriptorData, initDataStageTrb]
  simp
  omega

end Fields

theorem getDescriptorTrbs_w3 (descType : BitVec 16) (descIndex : Byte) (buf : Addr)
    (bufLen : BitVec 64) : (getDescriptorTrbs descType descIndex buf bufLen).map Trb.w3 =
      [2#32 <<< 10 ||| 1#32 <<< 6 ||| 3#32 <<< 16, 3#32 <<< 10 ||| 1#32 <<< 5 ||| 1#32 <<< 16,
        4#32 <<< 10] := rfl

theorem setConfigurationTrbs_w3 (value : Byte) : (setConfigurationTrbs value).map Trb.w3 =
    [2#32 <<< 10 ||| 1#32 <<< 6, 4#32 <<< 10 ||| 1#32 <<< 16 ||| 1#32 <<< 5] := rfl

/-- What is known of the last words is known of the TRBs. -/
theorem forall_of_w3 {ts : List Trb} {ws : List Word} {P : Word → Prop} [DecidablePred P]
    (hts : ts.map Trb.w3 = ws) (h : ws.all (P ·) = true) : ∀ t ∈ ts, P t.w3 := by
  intro t ht
  rw [← hts, List.all_map, List.all_eq_true] at h
  exact of_decide_eq_true (h t ht)

theorem getDescriptorTrbs_data {descType : BitVec 16} {descIndex : Byte} {buf : Addr}
    {bufLen : BitVec 64} :
    ∀ t ∈ getDescriptorTrbs descType descIndex buf bufLen, t.c = false ∧ t.type ≠ 6 :=
  forall_of_w3 (P := fun w ↦ w.getLsbD 0 = false ∧ w.extractLsb' 10 6 ≠ 6)
    (getDescriptorTrbs_w3 ..) (by decide)

theorem setConfigurationTrbs_data {value : Byte} :
    ∀ t ∈ setConfigurationTrbs value, t.c = false ∧ t.type ≠ 6 :=
  forall_of_w3 (P := fun w ↦ w.getLsbD 0 = false ∧ w.extractLsb' 10 6 ≠ 6)
    (setConfigurationTrbs_w3 _) (by decide)

/-- SET_CONFIGURATION has no data stage. -/
theorem setConfigurationTrbs_no_data {value : Byte} :
    ∀ t ∈ setConfigurationTrbs value, t.type ≠ 3 :=
  forall_of_w3 (P := fun w ↦ w.extractLsb' 10 6 ≠ 3) (setConfigurationTrbs_w3 _) (by decide)

/-! ## The device -/

/-- A device, as far as it describes itself: its descriptors, by the `wValue` they are asked for
with. The descriptor of a configuration is followed by those of its interfaces and endpoints. -/
structure UsbDevice where
  descriptor : BitVec 16 → List Byte

/-- What the control transfers have left: the setup packet of the last request, and memory. -/
structure Pipe where
  packet : SetupPacket
  bytes : Bytes

namespace UsbDevice

variable (dev : UsbDevice)

/-- What the device sends back: no more of a descriptor than is asked for. -/
def answer (p : SetupPacket) : List Byte :=
  if p.requestType = 0x80 ∧ p.request = 6 then (dev.descriptor p.wValue).take p.wLength.toNat
  else []

/-- What goes to the buffer of a Data Stage TRB. -/
def transfer (p : SetupPacket) (data : Trb) : List Byte :=
  if data.dir then (dev.answer p).take data.dataLength.toNat else []

/-- What a TRB brings about. -/
def serve (pipe : Pipe) (t : Trb) : Pipe :=
  if t.type = 2 then { pipe with packet := ⟨t.w0, t.w1⟩ }
  else if t.type = 3 then
    { pipe with bytes := storeList pipe.bytes t.ptr (dev.transfer pipe.packet t) }
  else pipe

variable {dev} {pipe : Pipe} {t : Trb} {ts : List Trb}

theorem dir_clearCycle : t.clearCycle.dir = t.dir := by
  rw [Trb.dir, Trb.dir, Trb.clearCycle]
  simp

theorem serve_clearCycle : dev.serve pipe t.clearCycle = dev.serve pipe t := by
  have htransfer : dev.transfer pipe.packet t.clearCycle = dev.transfer pipe.packet t := by
    rw [transfer, transfer, dir_clearCycle]
    rfl
  rw [serve, serve, Trb.type_clearCycle, htransfer]
  rfl

theorem foldl_serve_clearCycle :
    (ts.map Trb.clearCycle).foldl dev.serve pipe = ts.foldl dev.serve pipe := by
  rw [List.foldl_map]
  exact congrArg (fun f ↦ ts.foldl f pipe) (funext₂ fun _ _ ↦ serve_clearCycle)

theorem transfer_length_le (p : SetupPacket) : (dev.transfer p t).length < 2 ^ 17 := by
  have hlt := t.dataLength.isLt
  rw [transfer]
  split_ifs
  · exact (List.length_take_le _ _).trans_lt hlt
  · exact Nat.two_pow_pos 17

/-- Without a data stage nothing is stored. -/
theorem foldl_serve_bytes (h : ∀ t ∈ ts, t.type ≠ 3) :
    (ts.foldl dev.serve pipe).bytes = pipe.bytes := by
  induction ts generalizing pipe with
  | nil => rfl
  | cons t ts ih =>
    rw [List.foldl_cons, ih fun x hx ↦ h x (List.mem_cons_of_mem _ hx), serve,
      if_neg (h t List.mem_cons_self)]
    split_ifs
    · rfl
    · rfl

section GetDescriptor

variable {descType : BitVec 16} {descIndex : Byte} {buf : Addr} {len : ℕ}

theorem answer_getDescriptor (hlen : len < 2 ^ 16) :
    dev.answer (getDescriptorPacket descType descIndex (BitVec.ofNat 64 len)) =
      (dev.descriptor (descType <<< 8 ||| descIndex.setWidth 16)).take len := by
  have hle : ((BitVec.ofNat 64 len).setWidth 16).toNat = len := by
    rw [BitVec.toNat_setWidth, BitVec.toNat_ofNat]
    omega
  rw [answer, getDescriptorPacket, SetupPacket.requestType_of, SetupPacket.request_of,
    if_pos ⟨rfl, rfl⟩, SetupPacket.wValue_of, SetupPacket.wLength_of, hle]

theorem transfer_getDescriptor (hlen : len < 2 ^ 16) :
    dev.transfer (getDescriptorPacket descType descIndex (BitVec.ofNat 64 len))
        (getDescriptorData buf (BitVec.ofNat 64 len)) =
      (dev.descriptor (descType <<< 8 ||| descIndex.setWidth 16)).take len := by
  rw [transfer, getDescriptorData_dir, if_pos rfl, getDescriptorData_length (by omega),
    answer_getDescriptor hlen, List.take_take, Nat.min_self]

/-- **A request for a descriptor** stores as much of it as is asked for. -/
theorem foldl_serve_getDescriptor (hlen : len < 2 ^ 16) :
    ((getDescriptorTrbs descType descIndex buf (BitVec.ofNat 64 len)).foldl dev.serve pipe).bytes =
      storeList pipe.bytes (v2p buf)
        ((dev.descriptor (descType <<< 8 ||| descIndex.setWidth 16)).take len) := by
  have hsetup : dev.serve pipe (getDescriptorSetup descType descIndex (BitVec.ofNat 64 len)) =
      { pipe with packet := getDescriptorPacket descType descIndex (BitVec.ofNat 64 len) } :=
    if_pos getDescriptorSetup_type
  have hstatus : ∀ pipe, dev.serve pipe initStatusStageTrb = pipe := fun _ ↦ rfl
  rw [getDescriptorTrbs, List.foldl_cons, List.foldl_cons, List.foldl_cons, List.foldl_nil, hstatus,
    hsetup, serve, getDescriptorData_type, if_neg (by decide), if_pos rfl, getDescriptorData_ptr,
    transfer_getDescriptor hlen]

end GetDescriptor

end UsbDevice

/-! ## The driver and the controller -/

/-- What the driver does that concerns the pipe. `request` is not in the source and marks that a
configuration is about to be asked for. -/
inductive UsbOp : Type
  /-- On the transfer ring, or a read of memory. -/
  | ring (e : RingOp)
  /-- A Transfer Event of the slot is taken, answered with its code. -/
  | event
  | request (descIndex : Byte)
  /-- `alloc_mem(1)`. -/
  | allocMem
  /-- A command on the command ring, and its doorbell. -/
  | command
  /-- `init_usb_keyboard`, which uses the ring of another endpoint. -/
  | initUsbKeyboard (endpoint : Addr) (slotId dci : Byte)
  | panic

/-- What an operation answers. -/
def UsbOp.Answer : UsbOp → Type
  | .ring e => e.Answer
  | .event => Byte
  | .allocMem => Addr
  | .panic => Empty
  | _ => Unit

abbrev UsbProg := Prog UsbOp UsbOp.Answer

/-- The pipe in use. `data` is the data stage under way, with the number of bytes `stored`, and
`posted` the number of Transfer Events that wait to be taken. The rest keeps account: `rung` says
that the driver has done nothing since it rang the doorbell, and `request` is the configuration
asked for last, with the number of TRBs passed before. -/
structure ControlState where
  ring : RingState
  pipe : Pipe
  data : Option Trb
  stored : ℕ
  posted : ℕ
  rung : Bool
  request : Option (Byte × ℕ)

namespace ControlState

/-- The transfer ring as set up by `new_ring`. -/
def start (buf : Addr) (mem : PhysMem) (pipe : Pipe) : ControlState where
  ring := .start buf mem
  pipe := pipe
  data := none
  stored := 0
  posted := 0
  rung := false
  request := none

/-- The controller takes a TRB: a setup packet, the beginning of a data stage, or a status stage. -/
def take (s : ControlState) : ControlState :=
  let t := readTrb s.ring.mem s.ring.deq
  { s with
    ring := s.ring.take
    pipe := if t.type = 2 then { s.pipe with packet := ⟨t.w0, t.w1⟩ } else s.pipe
    data := if t.type = 3 then some t else none
    stored := 0
    posted := if t.type = 4 ∧ t.ioc then s.posted + 1 else s.posted }

def follow (s : ControlState) : ControlState := { s with ring := s.ring.follow }

/-- One byte of a data stage is stored. -/
def store (s : ControlState) (data : Trb) (b : Byte) : ControlState :=
  { s with
    pipe := { s.pipe with
      bytes := Function.update s.pipe.bytes (data.ptr + BitVec.ofNat 64 s.stored) b }
    stored := s.stored + 1 }

/-- A data stage is over. -/
def complete (s : ControlState) (data : Trb) : ControlState :=
  { s with data := none, posted := if data.ioc then s.posted + 1 else s.posted }

end ControlState

def RingOp.isDoorbell : RingOp → Bool
  | .doorbell _ _ => true
  | _ => false

/-- The effect of an operation. -/
def UsbOp.effect (s : ControlState) : UsbOp → ControlState
  | .ring e => { s with ring := e.effect s.ring, rung := e.isDoorbell }
  | .event => { s with posted := s.posted - 1, rung := false }
  | .request i => { s with request := some (i, s.ring.passed.length), rung := false }
  | _ => { s with rung := false }

/-- What an operation may answer. There is an event only when one has been posted. -/
def UsbOp.Answers : (e : UsbOp) → ControlState → e.Answer → Prop
  | .ring (.loadByte a), s, b => b = s.pipe.bytes (v2p a)
  | .event, s, _ => 0 < s.posted
  | _, _, _ => True

/-- The controller's steps. -/
inductive ControlStep : Type
  | take
  | follow
  | store
  | complete

/-- The driver and the controller. A TRB is taken only when the data stage before is over. -/
def controlMachine (dev : UsbDevice) : Machine UsbOp UsbOp.Answer ControlState ControlStep where
  exec e s r s' := e.Answers s r ∧ s' = e.effect s
  env
    | s, .take, s' => s.data = none ∧ ringMachine.env s.ring .take s'.ring ∧ s' = s.take
    | s, .follow, s' => ringMachine.env s.ring .follow s'.ring ∧ s' = s.follow
    | s, .store, s' => ∃ data b, s.data = some data ∧
      (dev.transfer s.pipe.packet data)[s.stored]? = some b ∧ s' = s.store data b
    | s, .complete, s' => ∃ data, s.data = some data ∧
      s.stored = (dev.transfer s.pipe.packet data).length ∧ s' = s.complete data

/-! ## What the controller has done -/

/-- The controller is through with the TRBs it has taken, or the last of them is a data stage that
is under way. -/
inductive Serves (dev : UsbDevice) (pipe₀ : Pipe) (s : ControlState) : Prop
  | idle (hdata : s.data = none) (hpipe : s.pipe = s.ring.consumed.foldl dev.serve pipe₀)
  | storing (data : Trb) (pipe : Pipe) (earlier : List Trb) (hdata : s.data = some data)
    (htype : data.type = 3) (hconsumed : s.ring.consumed = earlier ++ [data])
    (hearlier : pipe = earlier.foldl dev.serve pipe₀)
    (hle : s.stored ≤ (dev.transfer pipe.packet data).length)
    (hpipe : s.pipe = { pipe with
      bytes := storeList pipe.bytes data.ptr ((dev.transfer pipe.packet data).take s.stored) })

section Serves

variable {dev : UsbDevice} {pipe₀ : Pipe} {s s' : ControlState} {i : ControlStep}

theorem serves_start (buf : Addr) (mem : PhysMem) :
    Serves dev pipe₀ (.start buf mem pipe₀) := .idle rfl rfl

/-- Between two TRBs. -/
theorem Serves.pipe_eq (h : Serves dev pipe₀ s) (hdata : s.data = none) :
    s.pipe = s.ring.consumed.foldl dev.serve pipe₀ := by
  cases h with
  | idle _ hpipe => exact hpipe
  | storing data pipe earlier hdata' => exact absurd (hdata.symm.trans hdata') nofun

/-- During a data stage. -/
theorem Serves.of_data (h : Serves dev pipe₀ s) {data : Trb} (hdata : s.data = some data) :
    ∃ pipe earlier, data.type = 3 ∧ s.ring.consumed = earlier ++ [data] ∧
      pipe = earlier.foldl dev.serve pipe₀ ∧
      s.stored ≤ (dev.transfer pipe.packet data).length ∧
      s.pipe = { pipe with
        bytes := storeList pipe.bytes data.ptr
          ((dev.transfer pipe.packet data).take s.stored) } := by
  cases h with
  | idle hdata' => exact absurd (hdata'.symm.trans hdata) nofun
  | storing data' pipe earlier hdata' htype hconsumed hearlier hle hpipe =>
    obtain rfl : data' = data := Option.some.inj (hdata'.symm.trans hdata)
    exact ⟨pipe, earlier, htype, hconsumed, hearlier, hle, hpipe⟩

/-- No more is stored than the device sends. -/
theorem Serves.stored_le (h : Serves dev pipe₀ s) {data : Trb} (hdata : s.data = some data) :
    s.stored ≤ (dev.transfer s.pipe.packet data).length := by
  obtain ⟨pipe, earlier, -, -, -, hle, hpipe⟩ := h.of_data hdata
  rw [hpipe]
  exact hle

/-- The driver leaves the controller's part alone. -/
theorem UsbOp.effect_spares (e : UsbOp) (s : ControlState) :
    (e.effect s).pipe = s.pipe ∧ (e.effect s).data = s.data ∧ (e.effect s).stored = s.stored ∧
      (e.effect s).ring.consumed = s.ring.consumed := by
  cases e with
  | ring e => exact ⟨rfl, rfl, rfl, congrArg (·.2.2.1) (consumer_effect s.ring e)⟩
  | _ => exact ⟨rfl, rfl, rfl, rfl⟩

theorem Serves.effect (h : Serves dev pipe₀ s) (e : UsbOp) : Serves dev pipe₀ (e.effect s) := by
  obtain ⟨hpipe', hdata', hstored, hring⟩ := e.effect_spares s
  cases h with
  | idle hdata hpipe =>
    exact .idle (hdata'.trans hdata) (by rw [hpipe', hring, hpipe])
  | storing data pipe earlier hdata htype hconsumed hearlier hle hpipe =>
    refine .storing data pipe earlier (hdata'.trans hdata) htype (hring.trans hconsumed) hearlier
      ?_ ?_
    · rw [hstored]
      exact hle
    · rw [hpipe', hstored, hpipe]

theorem Serves.take (h : Serves dev pipe₀ s) (hdata : s.data = none) :
    Serves dev pipe₀ s.take := by
  have hpipe := h.pipe_eq hdata
  have hconsumed : s.take.ring.consumed =
      s.ring.consumed ++ [readTrb s.ring.mem s.ring.deq] := rfl
  by_cases htype : (readTrb s.ring.mem s.ring.deq).type = 3
  · refine .storing _ _ _ (if_pos htype) htype hconsumed rfl (Nat.zero_le _) ?_
    rw [ControlState.take, htype, if_neg (by decide), hpipe]
    rfl
  · refine .idle (if_neg htype) ?_
    rw [hconsumed, List.foldl_append, List.foldl_cons, List.foldl_nil, ← hpipe, UsbDevice.serve,
      if_neg htype]
    rfl

theorem Serves.store (h : Serves dev pipe₀ s) {data : Trb} {b : Byte} (hdata : s.data = some data)
    (hb : (dev.transfer s.pipe.packet data)[s.stored]? = some b) :
    Serves dev pipe₀ (s.store data b) := by
  obtain ⟨pipe, earlier, htype, hconsumed, hearlier, -, hpipe⟩ := h.of_data hdata
  rw [hpipe] at hb
  obtain ⟨hlt, rfl⟩ := List.getElem?_eq_some_iff.mp hb
  have h64 : s.stored < 2 ^ 64 := by
    have hlen := dev.transfer_length_le (t := data) pipe.packet
    simp only at hlt
    omega
  refine .storing data pipe earlier hdata htype hconsumed hearlier hlt ?_
  rw [ControlState.store, hpipe]
  simp only
  rw [storeList_take_succ hlt h64]

theorem Serves.complete (h : Serves dev pipe₀ s) {data : Trb} (hdata : s.data = some data)
    (hall : s.stored = (dev.transfer s.pipe.packet data).length) :
    Serves dev pipe₀ (s.complete data) := by
  obtain ⟨pipe, earlier, htype, hconsumed, hearlier, -, hpipe⟩ := h.of_data hdata
  rw [hpipe] at hall
  refine .idle rfl ?_
  rw [ControlState.complete]
  simp only
  rw [hconsumed, List.foldl_append, List.foldl_cons, List.foldl_nil, ← hearlier, hpipe, hall,
    List.take_length, UsbDevice.serve, htype, if_neg (by decide), if_pos rfl]

/-- **The controller's steps** bring about what the TRBs say. -/
theorem Serves.step (h : Serves dev pipe₀ s) (hstep : (controlMachine dev).env s i s') :
    Serves dev pipe₀ s' := by
  cases i with
  | take =>
    obtain ⟨hdata, -, rfl⟩ := hstep
    exact h.take hdata
  | follow =>
    obtain ⟨-, rfl⟩ := hstep
    cases h with
    | idle hdata hpipe => exact .idle hdata hpipe
    | storing data pipe earlier hdata htype hconsumed hearlier hle hpipe =>
      exact .storing data pipe earlier hdata htype hconsumed hearlier hle hpipe
  | store =>
    obtain ⟨data, b, hdata, hb, rfl⟩ := hstep
    exact h.store hdata hb
  | complete =>
    obtain ⟨data, hdata, hall, rfl⟩ := hstep
    exact h.complete hdata hall

end Serves

/-! ## When the controller is done -/

/-- The controller has no step left to take. -/
def Quiescent (dev : UsbDevice) (s : ControlState) : Prop :=
  ∀ i s', ¬(controlMachine dev).env s i s'

/-- The controller is through with the TRBs passed. -/
structure Settled (L : List Trb) (s : ControlState) : Prop where
  data_eq : s.data = none
  consumed_length : s.ring.consumed.length = L.length

section Done

variable {dev : UsbDevice} {base : Addr} {pipe₀ : Pipe} {L : List Trb} {s s' : ControlState}
  {i : ControlStep}

/-- The controller's steps as the ring sees them. -/
theorem env_cases (h : (controlMachine dev).env s i s') :
    (s'.ring = s.ring ∨ ∃ j, ringMachine.env s.ring j s'.ring) ∧ s'.rung = s.rung ∧
      s'.request = s.request := by
  cases i with
  | take =>
    obtain ⟨-, hring, rfl⟩ := h
    exact ⟨.inr ⟨_, hring⟩, rfl, rfl⟩
  | follow =>
    obtain ⟨hring, rfl⟩ := h
    exact ⟨.inr ⟨_, hring⟩, rfl, rfl⟩
  | store =>
    obtain ⟨data, b, -, -, rfl⟩ := h
    exact ⟨.inl rfl, rfl, rfl⟩
  | complete =>
    obtain ⟨data, -, -, rfl⟩ := h
    exact ⟨.inl rfl, rfl, rfl⟩

theorem consumed_le_of_env (h : (controlMachine dev).env s i s') :
    s.ring.consumed.length ≤ s'.ring.consumed.length := by
  obtain ⟨heq | ⟨j, hj⟩, -, -⟩ := env_cases h
  · rw [heq]
  · cases j with
    | take =>
      rw [hj.2.2, RingState.take, List.length_append]
      exact Nat.le_add_right _ _
    | follow => rw [hj.2.2, RingState.follow]

theorem Quiet.env (h : Quiet base L s.ring) (hstep : (controlMachine dev).env s i s') :
    Quiet base L s'.ring := by
  obtain ⟨heq | ⟨j, hj⟩, -, -⟩ := env_cases hstep
  · rwa [heq]
  · have hstable : Stable ringMachine (fun _ _ ↦ True) (Quiet base L) := stable_quiet
    exact hstable _ _ _ h trivial hj

/-- A controller that is through with everything only follows a Link TRB. -/
theorem Settled.env (h : Settled L s) (hquiet : Quiet base L s.ring)
    (hstep : (controlMachine dev).env s i s') : Settled L s' := by
  have hquiet' := hquiet.env hstep
  have hle : s'.ring.consumed.length ≤ L.length := by
    obtain ⟨R, hinv⟩ := hquiet'.inv
    have hle := hinv.consumed_le
    rwa [hquiet'.passed_eq] at hle
  cases i with
  | take =>
    obtain ⟨-, -, rfl⟩ := hstep
    have hlen : s.take.ring.consumed.length = s.ring.consumed.length + 1 := List.length_append
    rw [hlen, h.consumed_length] at hle
    omega
  | follow =>
    obtain ⟨-, rfl⟩ := hstep
    exact ⟨h.data_eq, h.consumed_length⟩
  | store =>
    obtain ⟨data, b, hdata, -, -⟩ := hstep
    exact absurd (h.data_eq.symm.trans hdata) nofun
  | complete =>
    obtain ⟨data, hdata, -, -⟩ := hstep
    exact absurd (h.data_eq.symm.trans hdata) nofun

/-- A controller with nothing left to do is through with everything. -/
theorem Quiescent.settled (h : Quiescent dev s) (hserves : Serves dev pipe₀ s)
    (hquiet : Quiet base L s.ring) : Settled L s := by
  have hdata : s.data = none := by
    refine Option.eq_none_iff_forall_ne_some.mpr fun data hdata ↦ ?_
    rcases (hserves.stored_le hdata).lt_or_eq with hlt | heq
    · exact h .store _ ⟨data, _, hdata, List.getElem?_eq_getElem hlt, rfl⟩
    · exact h .complete _ ⟨data, hdata, heq, rfl⟩
  have hnot : ¬s.ring.Ready := by
    intro hready
    by_cases htype : (readTrb s.ring.mem s.ring.deq).type = 6
    · exact h .follow s.follow ⟨⟨hready, htype, rfl⟩, rfl⟩
    · exact h .take s.take ⟨hdata, ⟨hready, htype, rfl⟩, rfl⟩
  obtain ⟨R, hinv⟩ := hquiet.inv
  have hle := hinv.holds.read_le
  have hlen := hinv.consumed_length
  rw [hinv.ready_iff] at hnot
  exact ⟨hdata, by omega⟩

theorem Settled.effect (h : Settled L s) (e : UsbOp) : Settled L (e.effect s) := by
  obtain ⟨-, hdata, -, hconsumed⟩ := e.effect_spares s
  exact ⟨hdata.trans h.data_eq, (congrArg List.length hconsumed).trans h.consumed_length⟩

theorem Settled.consumed_eq (h : Settled L s) (hquiet : Quiet base L s.ring) :
    s.ring.consumed.map Trb.clearCycle = L := by
  obtain ⟨R, hinv⟩ := hquiet.inv
  have hconsumed := hinv.consumed_eq
  rwa [hquiet.passed_eq, h.consumed_length, List.take_length] at hconsumed

/-- What the pipe has come to. -/
theorem Settled.pipe_eq (h : Settled L s) (hserves : Serves dev pipe₀ s)
    (hquiet : Quiet base L s.ring) : s.pipe = L.foldl dev.serve pipe₀ := by
  rw [hserves.pipe_eq h.data_eq, ← UsbDevice.foldl_serve_clearCycle, h.consumed_eq hquiet]

end Done

/-! ## The controller can go on -/

/-- Being through with the TRB posts a Transfer Event. -/
def Trb.Posts (t : Trb) : Prop := (t.type = 3 ∨ t.type = 4) ∧ t.ioc = true

section GoOn

variable {dev : UsbDevice} {base : Addr} {pipe₀ : Pipe} {L : List Trb} {s s' : ControlState}
  {guard : ControlState → Act UsbOp ControlStep → Prop}

theorem ioc_clearCycle {t : Trb} : t.clearCycle.ioc = t.ioc := by
  rw [Trb.ioc, Trb.ioc, Trb.clearCycle]
  simp

theorem posts_clearCycle {t : Trb} : t.clearCycle.Posts ↔ t.Posts := by
  rw [Trb.Posts, Trb.Posts, Trb.type_clearCycle, ioc_clearCycle]

/-- What is left of a data stage is stored, and the stage ends. -/
theorem exists_complete (hguard : ∀ s i, guard s (.env i)) {data : Trb}
    (h : Serves dev pipe₀ s) (hdata : s.data = some data) :
    ∃ s', (controlMachine dev).Others guard s s' ∧ s'.data = none ∧ s'.ring = s.ring ∧
      s'.posted = if data.ioc then s.posted + 1 else s.posted := by
  obtain ⟨n, hn⟩ := Nat.exists_eq_add_of_le (h.stored_le hdata)
  induction n generalizing s with
  | zero =>
    refine ⟨s.complete data, (Run.refl s).tail (i := .complete) (hguard s _) ?_, rfl, rfl, rfl⟩
    exact ⟨data, hdata, hn.symm, rfl⟩
  | succ n ih =>
    have hlt : s.stored < (dev.transfer s.pipe.packet data).length := by omega
    have hstep : (controlMachine dev).env s .store (s.store data _) :=
      ⟨data, _, hdata, List.getElem?_eq_getElem hlt, rfl⟩
    obtain ⟨s', hothers, hdata', hring, hposted⟩ :=
      ih (h.step hstep) hdata (by
        rw [ControlState.store]
        simp only
        omega)
    exact ⟨s', Run.head (hguard s _) hstep hothers, hdata', hring, hposted⟩

/-- A Link TRB is followed, if the controller stands at one and more has been passed. -/
theorem exists_at_data (dev : UsbDevice) (hguard : ∀ s i, guard s (.env i))
    (hquiet : Quiet base L s.ring) (hlt : s.ring.consumed.length < L.length) :
    ∃ s', (controlMachine dev).Others guard s s' ∧ s'.data = s.data ∧ s'.posted = s.posted ∧
      s'.ring.consumed = s.ring.consumed ∧ s'.ring.Ready ∧
      (readTrb s'.ring.mem s'.ring.deq).clearCycle = L[s.ring.consumed.length] := by
  obtain ⟨R, hinv⟩ := hquiet.inv
  have hlen := hinv.consumed_length
  have hpassed := hquiet.passed_eq
  have hitem : ∀ n, n % 256 ≠ 255 → n - n / 256 = s.ring.consumed.length →
      item base s.ring.passed n = L[s.ring.consumed.length] := by
    intro n hslot hn
    subst hpassed
    rw [item_of_ne hslot (by omega)]
    simp only [hn]
  by_cases hslot : R % 256 = 255
  · have hr : R < L.length + L.length / 255 := by omega
    have hready := hinv.ready_iff.mpr hr
    have htype := (hinv.type_iff hr).mpr hslot
    have hinv' := hinv.follow hready htype
    refine ⟨s.follow, (Run.refl s).tail (i := .follow) (hguard s _) ⟨⟨hready, htype, rfl⟩, rfl⟩,
      rfl, rfl, rfl, hinv'.ready_iff.mpr (by omega), ?_⟩
    exact (hinv'.read_eq (by omega)).trans (hitem (R + 1) (by omega) (by omega))
  · have hr : R < L.length + L.length / 255 := by omega
    exact ⟨s, .refl s, rfl, rfl, rfl, hinv.ready_iff.mpr hr,
      (hinv.read_eq hr).trans (hitem R hslot hlen.symm)⟩

/-- One more TRB. -/
theorem exists_take (hguard : ∀ s i, guard s (.env i)) (hquiet : Quiet base L s.ring)
    (hserves : Serves dev pipe₀ s) (hdata : s.data = none)
    (hlt : s.ring.consumed.length < L.length) :
    ∃ s', (controlMachine dev).Others guard s s' ∧ s'.data = none ∧
      s'.ring.consumed.length = s.ring.consumed.length + 1 ∧ s.posted ≤ s'.posted ∧
      (L[s.ring.consumed.length].Posts → 0 < s'.posted) := by
  obtain ⟨s₁, hothers, hdata₁, hposted₁, hconsumed₁, hready, hread⟩ :=
    exists_at_data dev hguard hquiet hlt
  have hserves₁ : Serves dev pipe₀ s₁ :=
    hothers.invariant hserves fun _ _ _ h _ hstep ↦ h.step hstep
  have htype : (readTrb s₁.ring.mem s₁.ring.deq).type ≠ 6 := by
    obtain ⟨R, hinv⟩ := hquiet.inv
    rw [← Trb.type_clearCycle, hread]
    exact (hinv.passed_data _ (hquiet.passed_eq ▸ List.getElem_mem hlt)).2
  have hstep : (controlMachine dev).env s₁ .take s₁.take :=
    ⟨hdata₁.trans hdata, ⟨hready, htype, rfl⟩, rfl⟩
  have htake := hothers.tail (hguard s₁ _) hstep
  have hlen : s₁.take.ring.consumed.length = s.ring.consumed.length + 1 := by
    rw [← hconsumed₁]
    exact List.length_append
  rw [← hread, posts_clearCycle, ← hposted₁]
  generalize ht : readTrb s₁.ring.mem s₁.ring.deq = t
  have hposted : s₁.take.posted = if t.type = 4 ∧ t.ioc then s₁.posted + 1 else s₁.posted := by
    rw [ControlState.take, ht]
  by_cases hthree : t.type = 3
  · -- a data stage is gone through to its end
    have hdata' : s₁.take.data = some t := by
      rw [ControlState.take, ht]
      exact if_pos hthree
    obtain ⟨s', hothers', hdone, hring, hposted'⟩ :=
      exists_complete hguard (hserves₁.step hstep) hdata'
    rw [hthree, if_neg fun h ↦ absurd h.1 (by decide)] at hposted
    rw [hposted] at hposted'
    refine ⟨s', htake.trans hothers', hdone, hring ▸ hlen, ?_, fun hposts ↦ ?_⟩
    · rw [hposted']
      split_ifs <;> omega
    · rw [hposted', if_pos hposts.2]
      exact Nat.succ_pos _
  · refine ⟨s₁.take, htake, ?_, hlen, ?_, fun hposts ↦ ?_⟩
    · rw [ControlState.take, ht]
      exact if_neg hthree
    · rw [hposted]
      split_ifs <;> omega
    · rw [hposted, if_pos ⟨hposts.1.resolve_left hthree, hposts.2⟩]
      exact Nat.succ_pos _

/-- **The controller can finish** what has been passed, and then an event waits if one of the TRBs
posts one. -/
theorem exists_settled (hguard : ∀ s i, guard s (.env i)) (hquiet : Quiet base L s.ring)
    (hserves : Serves dev pipe₀ s) (hdata : s.data = none) :
    ∃ s', (controlMachine dev).Others guard s s' ∧ Settled L s' ∧ s.posted ≤ s'.posted ∧
      ∀ t ∈ L.drop s.ring.consumed.length, t.Posts → 0 < s'.posted := by
  have hle : s.ring.consumed.length ≤ L.length := by
    obtain ⟨R, hinv⟩ := hquiet.inv
    exact hquiet.passed_eq ▸ hinv.consumed_le
  obtain ⟨n, hn⟩ := Nat.exists_eq_add_of_le hle
  induction n generalizing s with
  | zero =>
    refine ⟨s, .refl s, ⟨hdata, hn.symm⟩, le_rfl, fun t ht ↦ ?_⟩
    rw [List.drop_eq_nil_of_le (by omega)] at ht
    exact absurd ht List.not_mem_nil
  | succ n ih =>
    have hlt : s.ring.consumed.length < L.length := by omega
    obtain ⟨s₁, hothers, hdata₁, hlen, hposted, hposts⟩ :=
      exists_take hguard hquiet hserves hdata hlt
    have hquiet₁ : Quiet base L s₁.ring :=
      hothers.invariant (P := fun s ↦ Quiet base L s.ring) hquiet fun _ _ _ h _ hstep ↦ h.env hstep
    have hserves₁ : Serves dev pipe₀ s₁ :=
      hothers.invariant hserves fun _ _ _ h _ hstep ↦ h.step hstep
    obtain ⟨s', hothers', hsettled, hposted', hposts'⟩ :=
      ih hquiet₁ hserves₁ hdata₁ (by omega) (by omega)
    refine ⟨s', hothers.trans hothers', hsettled, hposted.trans hposted', fun t ht hpost ↦ ?_⟩
    rw [List.drop_eq_getElem_cons hlt] at ht
    rcases List.mem_cons.mp ht with rfl | ht
    · exact (hposts hpost).trans_le hposted'
    · exact hposts' t (hlen ▸ ht) hpost

/-- **The controller can come to rest.** -/
theorem exists_quiescent (hguard : ∀ s i, guard s (.env i)) (hquiet : Quiet base L s.ring)
    (hserves : Serves dev pipe₀ s) (hdata : s.data = none) :
    ∃ s', (controlMachine dev).Others guard s s' ∧ Quiescent dev s' ∧
      ∀ t ∈ L.drop s.ring.consumed.length, t.Posts → 0 < s'.posted := by
  obtain ⟨s₁, hothers, hsettled, -, hposts⟩ := exists_settled hguard hquiet hserves hdata
  have hquiet₁ : Quiet base L s₁.ring :=
    hothers.invariant (P := fun s ↦ Quiet base L s.ring) hquiet fun _ _ _ h _ hstep ↦ h.env hstep
  obtain ⟨R, hinv⟩ := hquiet₁.inv
  have hlen := hinv.consumed_length
  rw [hsettled.consumed_length] at hlen
  have hidle : ∀ s' : ControlState, s'.data = none → ¬s'.ring.Ready → Quiescent dev s' := by
    intro s' hnone hnot i s'' hstep
    cases i with
    | take => exact hnot hstep.2.1.1
    | follow => exact hnot hstep.1.1
    | store =>
      obtain ⟨data, b, hsome, -, -⟩ := hstep
      exact absurd (hnone.symm.trans hsome) nofun
    | complete =>
      obtain ⟨data, hsome, -, -⟩ := hstep
      exact absurd (hnone.symm.trans hsome) nofun
  by_cases hready : s₁.ring.Ready
  · -- only the Link TRB is left
    have hr := hinv.ready_iff.mp hready
    have htype := (hinv.type_iff hr).mpr (by omega)
    refine ⟨s₁.follow, hothers.tail (i := .follow) (hguard s₁ _) ⟨⟨hready, htype, rfl⟩, rfl⟩,
      hidle _ hsettled.data_eq ?_, hposts⟩
    rw [ControlState.follow, (hinv.follow hready htype).ready_iff]
    omega
  · exact ⟨s₁, hothers, hidle _ hsettled.data_eq hready, hposts⟩

end GoOn

end VimOS
