import VimOS.Xhci.MainLoop
import VimOS.Xhci.SlotPairing

/-!
# What single events do

Three events that are to do little. A port without a device is to start nothing, but the parentheses
of `read_xhci_operation(PORTSC(event->port) & 0x01)` make the driver look at register 0 instead of
the connect status. A command that has failed is to change nothing, but no completion code is looked
at. And events are to use elements of `device_status` only, but `start` is `NULL` wherever its
`next` is read, the search for a waiting port looks at one element too many, and no port may be
current when a command completes.

Each time the condition is exact: it tells the states and events in which the code does what it
should.
-/

namespace VimOS

open GuardedRun

/-! ## A port without a device -/

/-- No slot is asked for, no port is to be given one and no port is reset. -/
structure StartsNothing (d d' : Driver) : Prop where
  commands : ∃ new, d'.commands = d.commands ++ new ∧ Command.enableSlot ∉ new
  states : ∀ i, d'.deviceStatus i = .enableSlot ∨ d'.deviceStatus i = .waitEnableSlot →
    d'.deviceStatus i = d.deviceStatus i
  resets : ∃ new, d'.portWrites = d.portWrites ++ new ∧
    ∀ write ∈ new, write.2.getLsbD 4 = false

theorem StartsNothing.refl (d : Driver) : StartsNothing d d where
  commands := ⟨[], (List.append_nil _).symm, List.not_mem_nil⟩
  states _ _ := rfl
  resets := ⟨[], (List.append_nil _).symm, fun _ h ↦ absurd h List.not_mem_nil⟩

/-- The register that the first test reads, whatever the port is. -/
theorem portsc_and_one (port : Byte) : portsc port &&& 0x01 = 0 := by
  decide +revert

/-- The value that is written to reset a port. -/
theorem resets_port (v : Word) : (v &&& 0x0e00c3e0 ||| 1#32 <<< 17 ||| 0x10).getLsbD 4 = true := by
  simp

/-- An event of a port that has PED set. -/
theorem Driver.portStatusChange_commands {r : Readings} {port : Byte} (d : Driver)
    (hzero : r.operation 0 ≠ 0) (hped : r.operation (portsc port) &&& 0x02 ≠ 0) :
    (d.portStatusChange r port).commands = d.commands ++ [.enableSlot] := by
  rw [portStatusChange, portsc_and_one, if_pos hzero]
  simp only [if_pos hped]
  split_ifs
  · rw [setStatus_commands]
    rfl
  · rw [setStatus_commands]
    rfl

/-- An event of a port that has PED clear. -/
theorem Driver.portStatusChange_portWrites {r : Readings} {port : Byte} (d : Driver)
    (hzero : r.operation 0 ≠ 0) (hped : ¬ r.operation (portsc port) &&& 0x02 ≠ 0) :
    (d.portStatusChange r port).portWrites = d.portWrites ++
      [(portsc port, r.operation (portsc port) &&& 0x0e00c3e0 ||| 1#32 <<< 17 ||| 0x10)] := by
  rw [portStatusChange, portsc_and_one, if_pos hzero]
  simp only [if_neg hped]

theorem Driver.not_startsNothing {r : Readings} (d : Driver) (port : Byte)
    (hzero : r.operation 0 ≠ 0) : ¬ StartsNothing d (d.portStatusChange r port) := by
  intro h
  by_cases hped : r.operation (portsc port) &&& 0x02 ≠ 0
  · obtain ⟨new, hnew, hnot⟩ := h.commands
    rw [d.portStatusChange_commands hzero hped] at hnew
    rw [← List.append_cancel_left hnew] at hnot
    exact hnot List.mem_cons_self
  · obtain ⟨new, hnew, hnot⟩ := h.resets
    rw [d.portStatusChange_portWrites hzero hped] at hnew
    rw [← List.append_cancel_left hnew, List.forall_mem_singleton, resets_port] at hnot
    cases hnot

/-- **Disconnects.** Whatever the connect status of the port is, its event starts nothing exactly if
register 0, USBCMD, is 0. -/
theorem disconnect_starts_nothing (d : Driver) (r : Readings) (port : Byte) :
    StartsNothing d (d.process r (.portStatusChange port)) ↔ r.operation 0 = 0 := by
  rw [Driver.process]
  by_cases hzero : r.operation 0 = 0
  · refine iff_of_true ?_ hzero
    rw [Driver.portStatusChange, portsc_and_one, if_neg (not_not.mpr hzero)]
    exact .refl d
  · exact iff_of_false (d.not_startsNothing port hzero) hzero

/-- The registers while the controller runs and no port has a device. -/
def noDevice : Readings where
  operation reg := if reg = 0 then 1 else 0
  maxPacketSize0 := 0
  noContext := 0
  keyboards := []

/-- A device is unplugged, and the port is reset. -/
theorem disconnect_starts_something : ¬∀ (d : Driver) (r : Readings) (port : Byte),
    (r.operation (portsc port)).getLsbD 0 = false →
      StartsNothing d (d.process r (.portStatusChange port)) := by
  intro h
  have hzero : noDevice.operation 0 ≠ 0 := by decide
  exact Driver.not_startsNothing _ 1 hzero (h (.start 0) noDevice 1 (by decide))

/-! ## A command that has failed -/

/-- The array of device contexts, the states of the ports and the rings are as before. -/
structure ChangesNothing (d d' : Driver) : Prop where
  contexts : d'.deviceContexts = d.deviceContexts
  states : d'.deviceStatus = d.deviceStatus
  commands : d'.commands = d.commands
  requests : d'.requests = d.requests

/-- The current port waits for a command of a type to complete. -/
def Driver.Awaits (d : Driver) (type : BitVec 6) : Prop :=
  type = 9 ∧ d.statusAt (d.currentPort - 1) = some .enableSlot ∨
    type = 11 ∧ d.statusAt (d.currentPort - 1) = some .addressDevice

namespace Driver

variable {d : Driver} {i : ℤ} {s : DeviceStatus}

@[simp] theorem setStatus_requests : (d.setStatus i s).requests = d.requests := by
  rw [setStatus]
  split <;> rfl

theorem handOver_requests : d.handOver.requests = d.requests := by
  rw [handOver]
  dsimp only
  split_ifs
  · rw [issue, setStatus_requests]
  · rfl

theorem commandCompletion_of_not_awaits (r : Readings) {type : BitVec 6} (slotId : Byte)
    (h : ¬ d.Awaits type) : d.commandCompletion r type slotId = d :=
  commandCompletion_none r slotId (fun htype hst ↦ h (.inl ⟨htype, hst⟩))
    fun htype hst ↦ h (.inr ⟨htype, hst⟩)

/-- A completion that is waited for is followed by a command or a request. -/
theorem not_changesNothing_of_awaits (r : Readings) {type : BitVec 6} (slotId : Byte)
    (h : d.Awaits type) : ¬ ChangesNothing d (d.commandCompletion r type slotId) := by
  intro hnothing
  rcases h with ⟨rfl, hst⟩ | ⟨rfl, hst⟩
  · obtain ⟨l, hl, -⟩ := handleEnableSlot_commands (d := d) r slotId (d.completionPort slotId)
    have hcommands := hnothing.commands
    rw [commandCompletion_enable r slotId hst, hl] at hcommands
    simp at hcommands
  · have hrequests := hnothing.requests
    rw [commandCompletion_address r slotId hst, handOver_requests, setStatus_requests,
      request] at hrequests
    simp at hrequests

end Driver

theorem Driver.handle_completion (d : Driver) (r : Readings) (issuer : Trb) {t : Trb}
    (ht : t.type = 33) :
    d.handle r issuer t = d.commandCompletion r issuer.type t.slotId := by
  rw [handle, Trb.usbEvent, if_neg (by rw [ht]; decide), if_pos ht]
  rfl

/-- **Failed commands.** In a state reached by any events, the completion of a command that has
failed changes nothing exactly if the current port does not wait for a command of its type. -/
theorem failed_command_changes_nothing {scratchpad : Byte} {hs : List HandledEvent} {d : Driver}
    (_ : d = hs.foldl HandledEvent.apply (.start scratchpad)) (r : Readings) (issuer : Trb)
    {t : Trb} (ht : t.type = 33) (_ : t.code ≠ 1) :
    ChangesNothing d (d.handle r issuer t) ↔ ¬ d.Awaits issuer.type := by
  rw [d.handle_completion r issuer ht]
  by_cases hawaits : d.Awaits issuer.type
  · exact iff_of_false (Driver.not_changesNothing_of_awaits r t.slotId hawaits)
      (not_not.mpr hawaits)
  · rw [Driver.commandCompletion_of_not_awaits r t.slotId hawaits]
    exact iff_of_true ⟨rfl, rfl, rfl, rfl⟩ hawaits

/-- The completion of a command with No Slots Available. -/
def noSlotsAvailable : Trb := ⟨0, 0, 9#32 <<< 24, 33#32 <<< 10⟩

/-- A TRB that is an Enable Slot command. -/
def enableSlotTrb : Trb := ⟨0, 0, 0, 9#32 <<< 10⟩

/-- A TRB that is an Address Device command. -/
def addressDeviceTrb : Trb := ⟨0, 0, 0, 11#32 <<< 10⟩

/-- Port 1 reports. -/
def portOneReport : HandledEvent :=
  ⟨(portReports 1).readings, statusChangeEvent 1, statusChangeEvent 1⟩

/-- The driver once port 1 has reported. -/
def portOneReported : Driver :=
  (Driver.start 0).handle (portReports 1).readings (statusChangeEvent 1) (statusChangeEvent 1)

theorem portOneReported_eq :
    portOneReported = [portOneReport].foldl HandledEvent.apply (.start 0) := rfl

/-- Port 1 waits for a slot, and not for an address. -/
theorem failed_command_changes_nothing_reported :
    ChangesNothing portOneReported
      (portOneReported.handle (portReports 1).readings addressDeviceTrb noSlotsAvailable) := by
  refine (failed_command_changes_nothing portOneReported_eq _ _ (by decide) (by decide)).mpr ?_
  rintro (⟨htype, -⟩ | ⟨-, hst⟩)
  · exact absurd htype (by decide)
  · cases hst

/-- When there is no slot left, the scratchpad array is replaced by the context of a device. -/
theorem failed_command_changes_something :
    ¬∀ (hs : List HandledEvent) (d : Driver), d = hs.foldl HandledEvent.apply (.start 0) →
      ∀ (r : Readings) (issuer t : Trb),
      t.type = 33 → t.code ≠ 1 → ChangesNothing d (d.handle r issuer t) := by
  intro h
  have hcontexts := (h _ _ portOneReported_eq (portReports 1).readings enableSlotTrb
    noSlotsAvailable (by decide) (by decide)).contexts
  have hzero := congrFun hcontexts 0
  have hafter : (portOneReported.handle (portReports 1).readings enableSlotTrb
      noSlotsAvailable).deviceContexts 0 = some 1 := rfl
  have hbefore : portOneReported.deviceContexts 0 = some 0 := rfl
  rw [hafter, hbefore] at hzero
  exact absurd (Option.some.inj hzero) (by decide)

/-! ## Elements of the arrays -/

/-- What an event makes the driver use: an element of `device_status`, one of `device_speed`, or
`start->next`. -/
inductive Access : Type
  | status (i : ℤ)
  | speed (i : ℤ)
  | startNext
  deriving DecidableEq

/-- An element that exists, `start` being as given. -/
def Access.Valid (start : Option (Fin 255)) : Access → Prop
  | .status i | .speed i => 0 ≤ i ∧ i < 255
  | .startNext => start ≠ none

namespace Driver

/-- What `handle_enable_slot` uses. -/
def enableSlotAccesses (r : Readings) (portId : Byte) (d : Driver) : List Access :=
  let speed := r.operation (portsc portId) >>> 10 &&& 0x0f
  .status (d.currentPort - 1) ::
    (if speed = 1 then [.status (portId.toNat - 1)] else []) ++
      [.speed (d.currentPort - 1), .status (d.currentPort - 1)]

/-- What the branch for an Address Device command uses: the buffer, the ring and the state, then
every element the loop looks at, then the one of the port that is taken up. -/
def addressDeviceAccesses (portId : Byte) (slotId : Byte) (d : Driver) : List Access :=
  let next := ((d.request (portId.toNat - 1) slotId).setStatus (d.currentPort - 1)
    .getDescriptor).nextPort
  [.status (d.currentPort - 1), .status (portId.toNat - 1), .status (d.currentPort - 1)] ++
    (List.range 256).map (fun (i : ℕ) ↦ .status i) ++
      if next ≠ -1 then [.status (next - 1)] else []

/-- What a Command Completion Event makes the driver use. -/
def completionAccesses (r : Readings) (type : BitVec 6) (slotId : Byte) (d : Driver) :
    List Access :=
  let portId := d.contextPort slotId (BitVec.ofInt 8 d.currentPort)
  if type = 9 then
    .status (d.currentPort - 1) ::
      if d.statusAt (d.currentPort - 1) = some .enableSlot then
        d.enableSlotAccesses r portId ++ [.startNext]
      else []
  else if type = 11 then
    .status (d.currentPort - 1) ::
      if d.statusAt (d.currentPort - 1) = some .addressDevice then
        d.addressDeviceAccesses portId slotId ++ [.startNext]
      else []
  else []

/-- What a Port Status Change Event makes the driver use. -/
def portAccesses (r : Readings) (port : Byte) : List Access :=
  if r.operation (portsc port &&& 0x01) ≠ 0 then
    if r.operation (portsc port) &&& 0x02 ≠ 0 then [.status (port.toNat - 1)] else []
  else []

/-- What an event other than a Transfer Event makes the driver use, in the order of the source. -/
def accesses (r : Readings) (event : UsbEvent) (d : Driver) : List Access :=
  match event with
  | .transfer _ _ => []
  | .commandCompletion type slotId => d.completionAccesses r type slotId
  | .portStatusChange port => portAccesses r port

end Driver

/-- The driver with the pointers of the list that `start` was to head. -/
structure Watched where
  driver : Driver
  start : Option (Fin 255)
  next : Fin 255 → Option (Fin 255)

namespace Watched

/-- `static struct device_state *start = NULL`. -/
def init (scratchpad : Byte) : Watched where
  driver := .start scratchpad
  start := none
  next := fun _ ↦ none

/-- One iteration. `start->next` of a `NULL` pointer is read from a page of zeros. -/
def Step (w : Watched) (a : Arrival) (w' : Watched) : Prop :=
  w'.driver = w.driver.process a.readings a.event ∧ w'.next = w.next ∧
    w'.start = (if .startNext ∈ w.driver.accesses a.readings a.event then w.start.bind w.next
      else w.start)

end Watched

/-- What may arrive while ports are enumerated: any port reports, and commands that were issued
complete. -/
def Arrival.Solicited (d : Driver) (a : Arrival) : Prop :=
  match a.event with
  | .transfer _ _ => False
  | .commandCompletion type _ => ∃ c ∈ d.commands, c.type = type
  | .portStatusChange port => port ≠ 0

/-! ### The port that is current -/

/-- A current port is one of the 255. -/
def Driver.CurrentOk (d : Driver) : Prop :=
  d.currentPort = -1 ∨ ∃ k : Fin 255, d.currentPort = k + 1

theorem PortStep.currentOk {st st' : PortStates} {cur cur' : ℤ} {l : Option (Fin 255)}
    (hstep : PortStep st cur l st' cur') (h : cur = -1 ∨ ∃ k : Fin 255, cur = k + 1) :
    cur' = -1 ∨ ∃ k : Fin 255, cur' = k + 1 := by
  cases hstep with
  | stay => exact h
  | take i hcur => exact .inr ⟨i, rfl⟩
  | wait i hcur => exact h
  | enabled i hcur hi => exact h
  | release i hcur hi hnone => exact .inl rfl
  | handOver i j hcur hi hj => exact .inr ⟨j, rfl⟩
  | configured i hi => exact h

theorem Arrival.Solicited.portOk {d : Driver} {a : Arrival} (h : a.Solicited d) : a.PortOk := by
  intro hevent
  rw [Solicited, hevent] at h
  exact h rfl

theorem Watched.Step.currentOk {w w' : Watched} {a : Arrival} (hstep : w.Step a w')
    (ha : a.Solicited w.driver) (h : w.driver.CurrentOk) : w'.driver.CurrentOk := by
  obtain ⟨l, hport, -⟩ := process_portStep w.driver ha.portOk
  rw [Driver.CurrentOk, hstep.1]
  exact hport.currentOk h

/-- Nothing ever heads the list. -/
theorem Watched.Step.start_none {w w' : Watched} {a : Arrival} (hstep : w.Step a w')
    (h : w.start = none) : w'.start = none := by
  rw [hstep.2.2, h]
  split_ifs <;> rfl

/-! ### Which accesses are valid -/

namespace Driver

variable {d : Driver}

/-- The element of the current port. -/
theorem CurrentOk.valid_iff (h : d.CurrentOk) (start : Option (Fin 255)) :
    (Access.status (d.currentPort - 1)).Valid start ↔ d.currentPort ≠ -1 := by
  rw [Access.Valid]
  rcases h with h | ⟨k, h⟩ <;> omega

theorem completionAccesses_enable (r : Readings) (slotId : Byte) :
    d.completionAccesses r 9 slotId = .status (d.currentPort - 1) ::
      if d.statusAt (d.currentPort - 1) = some .enableSlot then
        d.enableSlotAccesses r (d.completionPort slotId) ++ [.startNext]
      else [] := rfl

theorem completionAccesses_address (r : Readings) (slotId : Byte) :
    d.completionAccesses r 11 slotId = .status (d.currentPort - 1) ::
      if d.statusAt (d.currentPort - 1) = some .addressDevice then
        d.addressDeviceAccesses (d.completionPort slotId) slotId ++ [.startNext]
      else [] := rfl

/-- Accesses that follow a test of the current port's state, `start->next` being the last. -/
theorem forall_valid_test {p : Prop} [Decidable p] (h : d.CurrentOk) (l : List Access) :
    (∀ access ∈ .status (d.currentPort - 1) :: (if p then l ++ [.startNext] else []),
      access.Valid none) ↔ d.currentPort ≠ -1 ∧ ¬ p := by
  rw [List.forall_mem_cons, h.valid_iff]
  refine and_congr_right fun _ ↦ ?_
  by_cases hp : p
  · rw [if_pos hp]
    refine iff_of_false (fun hall ↦ ?_) (not_not.mpr hp)
    exact hall .startNext (List.mem_append_right _ List.mem_cons_self) rfl
  · rw [if_neg hp]
    exact iff_of_true (List.forall_mem_nil _) hp

theorem completionAccesses_valid_iff (h : d.CurrentOk) (r : Readings) (type : BitVec 6)
    (slotId : Byte) : (∀ access ∈ d.completionAccesses r type slotId, access.Valid none) ↔
      (type = 9 ∨ type = 11 → d.currentPort ≠ -1 ∧ ¬ d.Awaits type) := by
  by_cases h9 : type = 9
  · subst h9
    rw [completionAccesses_enable, forall_valid_test h]
    simp [Awaits]
  · by_cases h11 : type = 11
    · subst h11
      rw [completionAccesses_address, forall_valid_test h]
      simp [Awaits]
    · rw [completionAccesses, if_neg h9, if_neg h11]
      exact iff_of_true (List.forall_mem_nil _) fun h ↦ (h.elim h9 h11).elim

theorem portAccesses_valid (r : Readings) {port : Byte} (hport : port ≠ 0)
    (start : Option (Fin 255)) : ∀ access ∈ portAccesses r port, access.Valid start := by
  obtain ⟨k, hk, -⟩ := exists_port hport
  rw [portAccesses]
  split_ifs
  · rw [List.forall_mem_singleton, hk, Access.Valid]
    omega
  · exact List.forall_mem_nil _
  · exact List.forall_mem_nil _

end Driver

/-- **Valid accesses.** In every state that is reached, an event makes the driver use valid elements
only, exactly if it is not the completion of an Enable Slot or Address Device command that finds no
port current or the current port waiting for it. -/
theorem accesses_valid_iff {scratchpad : Byte} {w : Watched}
    (hrun : Run Watched.Step (fun w a ↦ a.Solicited w.driver) (.init scratchpad) w) {a : Arrival}
    (ha : a.Solicited w.driver) :
    (∀ access ∈ w.driver.accesses a.readings a.event, access.Valid w.start) ↔
      ∀ type slotId, a.event = .commandCompletion type slotId → type = 9 ∨ type = 11 →
        w.driver.currentPort ≠ -1 ∧ ¬ w.driver.Awaits type := by
  have hcur : w.driver.CurrentOk := hrun.invariant (P := fun w ↦ w.driver.CurrentOk) (.inl rfl)
    fun _ _ _ h ha hstep ↦ hstep.currentOk ha h
  have hstart : w.start = none := hrun.invariant (P := fun w ↦ w.start = none) rfl
    fun _ _ _ h _ hstep ↦ hstep.start_none h
  obtain ⟨r, event⟩ := a
  rw [hstart]
  cases event with
  | transfer code slotId => exact ha.elim
  | commandCompletion type slotId =>
    refine (Driver.completionAccesses_valid_iff hcur r type slotId).trans ⟨?_, ?_⟩
    · rintro h _ _ ⟨⟩
      exact h
    · exact fun h ↦ h type slotId rfl
  | portStatusChange port =>
    exact iff_of_true (Driver.portAccesses_valid r ha none) nofun

/-- Port 1 has reported, and its command completes. -/
def portOneWatched : Watched := ⟨(Driver.start 0).after [portReports 1], none, fun _ ↦ none⟩

theorem run_portOneWatched :
    Run Watched.Step (fun w a ↦ a.Solicited w.driver) (.init 0) portOneWatched := by
  have hsolicited : (portReports 1).Solicited (Watched.init 0).driver :=
    (by decide : (1 : Byte) ≠ 0)
  have hstep : (Watched.init 0).Step (portReports 1) portOneWatched := ⟨rfl, rfl, rfl⟩
  exact (Run.refl _).tail hsolicited hstep

/-- A port that reports is looked up, and nothing else. -/
theorem accesses_valid_iff_second :
    portOneWatched.driver.accesses (portReports 2).readings (portReports 2).event = [.status 1] ∧
      ∀ access ∈ portOneWatched.driver.accesses (portReports 2).readings (portReports 2).event,
        access.Valid portOneWatched.start := by
  have hsolicited : (portReports 2).Solicited portOneWatched.driver := (by decide : (2 : Byte) ≠ 0)
  exact ⟨by decide, (accesses_valid_iff run_portOneWatched hsolicited).mpr nofun⟩

/-- The slot of the first port is there, and `start` is `NULL`. -/
theorem not_accesses_valid : ¬∀ (w : Watched) (a : Arrival),
    Run Watched.Step (fun w a ↦ a.Solicited w.driver) (.init 0) w → a.Solicited w.driver →
      ∀ access ∈ w.driver.accesses a.readings a.event, access.Valid w.start := by
  intro h
  have hsolicited : (commandCompletes .enableSlot 1).Solicited portOneWatched.driver :=
    ⟨.enableSlot, List.mem_singleton_self _, rfl⟩
  have hstart := h _ _ run_portOneWatched hsolicited .startNext
    (by decide : Access.startNext ∈ portOneWatched.driver.completionAccesses _ 9 1)
  exact hstart rfl

end VimOS
