import VimOS.Library.Run
import VimOS.Xhci.Trb

/-!
# Enumeration of the ports

What `usb_process_events` of `kernel/xhci.c` does with one event, apart from parsing descriptors:
the states of `device_status`, `current_port`, the array of device contexts, and the commands it
queues. A port is given a slot and an address while it is `current_port`; ports that report in the
meantime wait, and the last of them in the array is next.

The pointer `start` is `NULL` and stays so: `start->next` reads a page that the page-fault handler
maps and that is all zeros.
-/

namespace VimOS

/-- The states of a port, `USB_DEVICE_STATUS_RESET` and so on. -/
inductive DeviceStatus : Type
  | reset
  | waitEnableSlot
  | enableSlot
  | addressDevice
  | getDescriptor
  | endOfInitialize
  deriving DecidableEq

/-- A command on the command ring, with the slot it names. -/
inductive Command : Type
  | enableSlot
  | addressDevice (slotId : Byte)
  | configureEndpoint (slotId : Byte)
  | evaluateContext (slotId : Byte)
  deriving DecidableEq

/-- The field `type` of its TRB. -/
def Command.type : Command → BitVec 6
  | .enableSlot => 9
  | .addressDevice _ => 11
  | .configureEndpoint _ => 12
  | .evaluateContext _ => 13

/-- The variables the events work on. `deviceContexts` gives the `root_hub_port_num` of the slot
context a slot points to; `requests` are the calls of `get_descriptor` that ask for a device
descriptor, each with the index of the port whose ring it uses, and `portWrites` the writes to
`PORTSC` registers. -/
structure Driver where
  deviceStatus : Fin 255 → DeviceStatus
  deviceSpeed : Fin 255 → Word
  currentPort : ℤ
  deviceContexts : Byte → Option Byte
  commands : List Command
  requests : List (ℤ × Byte)
  portWrites : List (BitVec 16 × Word)

/-- What the driver reads while it handles an event: the operational registers, the field
`bMaxPacketSize0` in the port's buffer, the byte that stands for `root_hub_port_num` where there is
no device context, and for each configuration whether its descriptors lead to a keyboard. -/
structure Readings where
  operation : BitVec 16 → Word
  maxPacketSize0 : Byte
  noContext : Byte
  keyboards : List Bool

/-- The macro `PORTSC`. -/
def portsc (n : Byte) : BitVec 16 := 0x400 + 0x10 * (n.setWidth 16 - 1)

namespace Driver

/-- The state in `device_status[i]`; there is none outside the array. -/
def statusAt (d : Driver) (i : ℤ) : Option DeviceStatus :=
  if h : 0 ≤ i ∧ i < 255 then some (d.deviceStatus ⟨i.toNat, by omega⟩) else none

/-- `device_status[i].state = status`. -/
def setStatus (d : Driver) (i : ℤ) (status : DeviceStatus) : Driver :=
  if h : 0 ≤ i ∧ i < 255 then
    { d with deviceStatus := Function.update d.deviceStatus ⟨i.toNat, by omega⟩ status }
  else d

/-- `device_speed[i] = speed`. -/
def setSpeed (d : Driver) (i : ℤ) (speed : Word) : Driver :=
  if h : 0 ≤ i ∧ i < 255 then
    { d with deviceSpeed := Function.update d.deviceSpeed ⟨i.toNat, by omega⟩ speed }
  else d

/-- `write_ring(&cmd_ring, …)`. -/
def issue (d : Driver) (c : Command) : Driver := { d with commands := d.commands ++ [c] }

/-- `get_descriptor`, or `get_descriptor_noreport`, on the ring of `device_status[i]`. -/
def request (d : Driver) (i : ℤ) (slotId : Byte) : Driver :=
  { d with requests := d.requests ++ [(i, slotId)] }

/-- `device_contexts[slot_id]->root_hub_port_num`, or `portId` where there is no context. -/
def contextPort (d : Driver) (slotId portId : Byte) : Byte :=
  (d.deviceContexts slotId).getD portId

/-- `handle_enable_slot(event, port_id)`. -/
def handleEnableSlot (r : Readings) (slotId portId : Byte) (d : Driver) : Driver :=
  let speed := r.operation (portsc portId) >>> 10 &&& 0x0f
  let d := { d with
    deviceContexts := Function.update d.deviceContexts slotId
      (some (BitVec.ofInt 8 d.currentPort)) }
  let d := d.issue (.addressDevice slotId)
  -- full speed: the first bytes of the device descriptor are asked for
  let d :=
    if speed = 1 then
      let d := d.request (portId.toNat - 1) slotId
      if r.maxPacketSize0 ≠ 0 then d.issue (.evaluateContext slotId) else d
    else d
  let d := d.setSpeed (d.currentPort - 1) speed
  d.setStatus (d.currentPort - 1) .addressDevice

/-- The loop that looks for a waiting port. -/
def nextPort (d : Driver) : ℤ :=
  (List.range 256).foldl
    (fun (port : ℤ) (i : ℕ) ↦ if d.statusAt i = some .waitEnableSlot then i + 1 else port) (-1)

/-- What follows the Address Device command: the next port is taken up. -/
def handOver (d : Driver) : Driver :=
  let d := { d with currentPort := d.nextPort }
  if d.currentPort ≠ -1 then
    (d.setStatus (d.currentPort - 1) .enableSlot).issue .enableSlot
  else d

/-- The branch for a Command Completion Event whose `ptr` points to a TRB of the given type. -/
def commandCompletion (r : Readings) (type : BitVec 6) (slotId : Byte) (d : Driver) : Driver :=
  let portId := d.contextPort slotId (BitVec.ofInt 8 d.currentPort)
  -- Enable Slot
  let d :=
    if type = 9 ∧ d.statusAt (d.currentPort - 1) = some .enableSlot then
      d.handleEnableSlot r slotId portId
    else d
  -- Address Device
  if type = 11 ∧ d.statusAt (d.currentPort - 1) = some .addressDevice then
    let d := d.request (portId.toNat - 1) slotId
    let d := d.setStatus (d.currentPort - 1) .getDescriptor
    d.handOver
  else d

/-- The branch for a Port Status Change Event. Its first test reads register 0, since the macro
`PORTSC` and the mask are taken together. -/
def portStatusChange (r : Readings) (port : Byte) (d : Driver) : Driver :=
  if r.operation (portsc port &&& 0x01) ≠ 0 then
    let portStatus := r.operation (portsc port)
    if portStatus &&& 0x02 ≠ 0 then
      let d := d.issue .enableSlot
      if d.currentPort = -1 then
        { d with currentPort := port.toNat }.setStatus (port.toNat - 1) .enableSlot
      else d.setStatus (port.toNat - 1) .waitEnableSlot
    else
      let portStatus := portStatus &&& 0x0e00c3e0 ||| 1#32 <<< 17 ||| 0x10
      { d with portWrites := d.portWrites ++ [(portsc port, portStatus)] }
  else d

/-- The configurations of a device, one after another. -/
def configure (i : ℤ) (slotId : Byte) : List Bool → Driver → Driver
  | [], d => d
  | keyboard :: keyboards, d =>
    let d := if keyboard then d.issue (.configureEndpoint slotId) else d
    configure i slotId keyboards (d.setStatus i .endOfInitialize)

/-- The branch for a Transfer Event. -/
def transfer (r : Readings) (code slotId : Byte) (d : Driver) : Driver :=
  let portId := d.contextPort slotId r.noContext
  if code = 1 ∨ code = 13 then
    if d.statusAt (portId.toNat - 1) = some .getDescriptor then
      d.configure (portId.toNat - 1) slotId r.keyboards
    else d
  else d

end Driver

/-- An event as `usb_process_events` sees it; of a completion, the type of the command it is for. -/
inductive UsbEvent : Type
  | transfer (code slotId : Byte)
  | commandCompletion (type : BitVec 6) (slotId : Byte)
  | portStatusChange (port : Byte)
  deriving DecidableEq

/-- One iteration of `usb_process_events`. -/
def Driver.process (r : Readings) : UsbEvent → Driver → Driver
  | .transfer code slotId => transfer r code slotId
  | .commandCompletion type slotId => commandCompletion r type slotId
  | .portStatusChange port => portStatusChange r port

/-- The variables after `init_xhci`, the scratchpad array standing at slot 0. -/
def Driver.start (scratchpad : Byte) : Driver where
  deviceStatus := fun _ ↦ .reset
  deviceSpeed := fun _ ↦ 0
  currentPort := -1
  deviceContexts := fun slotId ↦ if slotId = 0 then some scratchpad else none
  commands := []
  requests := []
  portWrites := []

/-- An event and what is read with it. -/
structure Arrival where
  readings : Readings
  event : UsbEvent

/-- A Port Status Change Event of a port that has `PED` set, as the driver reads it. -/
def Arrival.Enabled (a : Arrival) (port : Byte) : Prop :=
  a.event = .portStatusChange port ∧ a.readings.operation (portsc port &&& 0x01) ≠ 0 ∧
    a.readings.operation (portsc port) &&& 0x02 ≠ 0

/-- The ports an event may name: they are counted from 1. -/
def Arrival.PortOk (a : Arrival) : Prop := a.event ≠ .portStatusChange 0

end VimOS
