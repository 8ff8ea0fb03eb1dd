import VimOS.Xhci.PortRuns

/-!
# One slot for each device

The controller completes the commands of the command ring in order, and gives a slot to every Enable
Slot command. Such a command is issued in two places, when a port reports and again when a port that
waited is taken up, and a completion does not say which port it is for: `usb_process_events` takes
it to be for the current port.

So a port that reports while another one is current gets two Enable Slot commands, and the slot of
the first is given to no port (`slot_unbound`). While every port reports with no port current, the
invariant `Enumeration.Paired` holds: the command ring has at most one Enable Slot or Address Device
command pending, and slots and ports are in step (`one_slot_each`).
-/

namespace VimOS

open GuardedRun

/-- The driver and the controller's side of the command ring: how many commands are completed, the
ports that have reported themselves enabled and the slots that were given out, oldest first. In
`issuedFor` each Enable Slot command issued so far is noted with the port it is issued for. -/
structure Enumeration where
  driver : Driver
  completed : ℕ
  reported : List Byte
  slots : List Byte
  issuedFor : List Byte

instance (a : Arrival) (port : Byte) : Decidable (a.Enabled port) :=
  inferInstanceAs (Decidable (_ ∧ _ ∧ _))

namespace Enumeration

/-- The commands that are not completed. -/
def pending (w : Enumeration) : List Command := w.driver.commands.drop w.completed

/-- What may arrive: each port reports itself enabled once, the commands complete in order, and an
Enable Slot command returns a fresh slot. -/
def Admits (w : Enumeration) (a : Arrival) : Prop :=
  match a.event with
  | .transfer _ _ => True
  | .commandCompletion type slotId => ∃ c, w.pending.head? = some c ∧ c.type = type ∧
      match c with
      | .enableSlot => slotId ≠ 0 ∧ slotId ∉ w.slots
      | .addressDevice slotId' | .configureEndpoint slotId' | .evaluateContext slotId' =>
        slotId = slotId'
  | .portStatusChange port => port ≠ 0 ∧ (a.Enabled port → port ∉ w.reported)

/-- The port that the Enable Slot commands issued with an event are for: the one that reports, else
the one that is taken up. -/
def portFor (event : UsbEvent) (d : Driver) : Byte :=
  match event with
  | .portStatusChange port => port
  | _ => BitVec.ofInt 8 d.currentPort

/-- The Enable Slot commands that `d` has issued and `d₀` had not. -/
def newEnables (d₀ d : Driver) : ℕ := (d.commands.drop d₀.commands.length).count .enableSlot

/-- One iteration of `usb_process_events`. -/
def next (w : Enumeration) (a : Arrival) : Enumeration :=
  let d := w.driver.process a.readings a.event
  { driver := d
    completed := match a.event with
      | .commandCompletion _ _ => w.completed + 1
      | _ => w.completed
    reported := match a.event with
      | .portStatusChange port => if a.Enabled port then w.reported ++ [port] else w.reported
      | _ => w.reported
    slots := match a.event with
      | .commandCompletion type slotId => if type = 9 then w.slots ++ [slotId] else w.slots
      | _ => w.slots
    issuedFor := w.issuedFor ++
      List.replicate (newEnables w.driver d) (portFor a.event d) }

def start (scratchpad : Byte) : Enumeration where
  driver := .start scratchpad
  completed := 0
  reported := []
  slots := []
  issuedFor := []

def Step (w : Enumeration) (a : Arrival) (w' : Enumeration) : Prop := w.Admits a ∧ w' = w.next a

/-- Exactly one Enable Slot command is issued for each port that has reported, and the slots are
bound to ports that have reported, different slots to different ports. -/
structure OneSlotEach (w : Enumeration) : Prop where
  issued : ∀ port ∈ w.reported, w.issuedFor.count port = 1
  bound : ∀ slotId ∈ w.slots, ∃ port ∈ w.reported, w.driver.deviceContexts slotId = some port
  distinct : ∀ slotId ∈ w.slots, ∀ slotId' ∈ w.slots,
    w.driver.deviceContexts slotId = w.driver.deviceContexts slotId' → slotId = slotId'

/-- A port that reports itself enabled does so while no port is current. -/
def ReportsAlone (w : Enumeration) (a : Arrival) : Prop :=
  ∀ port, a.Enabled port → w.driver.currentPort = -1

/-! ## What an event does to the command ring -/

end Enumeration

/-- Commands that enumeration does not wait for. -/
def Command.Minor (c : Command) : Prop := c.type ≠ 9 ∧ c.type ≠ 11

theorem Command.minor_configureEndpoint (slotId : Byte) : (configureEndpoint slotId).Minor :=
  ⟨(by decide : (12 : BitVec 6) ≠ 9), (by decide : (12 : BitVec 6) ≠ 11)⟩

theorem Command.minor_evaluateContext (slotId : Byte) : (evaluateContext slotId).Minor :=
  ⟨(by decide : (13 : BitVec 6) ≠ 9), (by decide : (13 : BitVec 6) ≠ 11)⟩

/-- The commands that enumeration waits for. -/
def majors (l : List Command) : List Command := l.filter fun c ↦ c.type = 9 ∨ c.type = 11

theorem majors_append (l l' : List Command) : majors (l ++ l') = majors l ++ majors l' :=
  List.filter_append _ _

theorem majors_eq_nil {l : List Command} (h : ∀ c ∈ l, c.Minor) : majors l = [] := by
  refine List.filter_eq_nil_iff.mpr fun c hc ↦ ?_
  have := h c hc
  simpa [Command.Minor] using this

theorem majors_cons {c : Command} {l : List Command} (h : c.type = 9 ∨ c.type = 11) :
    majors (c :: l) = c :: majors l := List.filter_cons_of_pos (by simpa using h)

theorem majors_cons_minor {c : Command} {l : List Command} (h : c.Minor) :
    majors (c :: l) = majors l := List.filter_cons_of_neg (by simpa [Command.Minor] using h)

/-- The first command is the first that enumeration waits for, if it waits for it. -/
theorem head_majors {c : Command} {l : List Command} (hhead : l.head? = some c)
    (h : c.type = 9 ∨ c.type = 11) : (majors l).head? = some c := by
  obtain ⟨rest, rfl⟩ := List.head?_eq_some_iff.mp hhead
  rw [majors_cons h, List.head?_cons]

theorem majors_ne_nil {c : Command} {l : List Command} (hhead : l.head? = some c)
    (h : c.type = 9 ∨ c.type = 11) : majors l ≠ [] := by
  intro hnil
  have hmajors := head_majors hhead h
  rw [hnil] at hmajors
  cases hmajors

/-- Minor commands are no Enable Slot commands. -/
theorem count_enableSlot {l : List Command} (h : ∀ c ∈ l, c.Minor) : l.count .enableSlot = 0 :=
  List.count_eq_zero.mpr fun hmem ↦ (h _ hmem).1 rfl

namespace Driver

variable {d : Driver} {i : ℤ} {k : Fin 255} {s : DeviceStatus}

@[simp] theorem setStatus_commands : (d.setStatus i s).commands = d.commands := by
  rw [setStatus]
  split <;> rfl

@[simp] theorem setStatus_deviceContexts :
    (d.setStatus i s).deviceContexts = d.deviceContexts := by
  rw [setStatus]
  split <;> rfl

@[simp] theorem setSpeed_commands {v : Word} : (d.setSpeed i v).commands = d.commands := by
  rw [setSpeed]
  split <;> rfl

@[simp] theorem setSpeed_deviceContexts {v : Word} :
    (d.setSpeed i v).deviceContexts = d.deviceContexts := by
  rw [setSpeed]
  split <;> rfl

theorem handleEnableSlot_commands (r : Readings) (slotId portId : Byte) :
    ∃ l, (d.handleEnableSlot r slotId portId).commands =
        d.commands ++ .addressDevice slotId :: l ∧ ∀ c ∈ l, c.Minor := by
  rw [handleEnableSlot, setStatus_commands, setSpeed_commands]
  split_ifs
  · refine ⟨[.evaluateContext slotId], by simp [issue, request], ?_⟩
    rw [List.forall_mem_singleton]
    exact Command.minor_evaluateContext slotId
  · exact ⟨[], rfl, List.forall_mem_nil _⟩
  · exact ⟨[], rfl, List.forall_mem_nil _⟩

theorem handleEnableSlot_deviceContexts (r : Readings) (slotId portId : Byte) :
    (d.handleEnableSlot r slotId portId).deviceContexts =
      Function.update d.deviceContexts slotId (some (BitVec.ofInt 8 d.currentPort)) := by
  rw [handleEnableSlot, setStatus_deviceContexts, setSpeed_deviceContexts]
  split_ifs <;> rfl

theorem configure_deviceContexts (keyboards : List Bool) (slotId : Byte) :
    (d.configure i slotId keyboards).deviceContexts = d.deviceContexts := by
  induction keyboards generalizing d with
  | nil => rfl
  | cons keyboard keyboards ih =>
    rw [configure, ih, setStatus_deviceContexts]
    split <;> rfl

theorem configure_commands (keyboards : List Bool) (slotId : Byte) :
    ∃ l, (d.configure i slotId keyboards).commands = d.commands ++ l ∧ ∀ c ∈ l, c.Minor := by
  induction keyboards generalizing d with
  | nil => exact ⟨[], (List.append_nil _).symm, List.forall_mem_nil _⟩
  | cons keyboard keyboards ih =>
    rw [configure]
    obtain ⟨l, hl, hminor⟩ := ih (d := (if keyboard then d.issue (.configureEndpoint slotId)
      else d).setStatus i .endOfInitialize)
    rw [setStatus_commands] at hl
    cases keyboard with
    | false => exact ⟨l, hl, hminor⟩
    | true =>
      refine ⟨.configureEndpoint slotId :: l, ?_, ?_⟩
      · rw [hl, if_pos rfl, issue, List.append_assoc, List.singleton_append]
      · intro c hc
        rcases List.mem_cons.mp hc with rfl | hc
        · exact Command.minor_configureEndpoint slotId
        · exact hminor c hc

theorem transfer_deviceContexts (r : Readings) (code slotId : Byte) :
    (d.transfer r code slotId).deviceContexts = d.deviceContexts := by
  rw [transfer]
  split_ifs
  · exact configure_deviceContexts _ _
  · rfl
  · rfl

theorem transfer_currentPort (r : Readings) (code slotId : Byte) :
    (d.transfer r code slotId).currentPort = d.currentPort := by
  rw [transfer]
  split_ifs
  · exact configure_currentPort _ _
  · rfl
  · rfl

theorem transfer_commands (r : Readings) (code slotId : Byte) :
    ∃ l, (d.transfer r code slotId).commands = d.commands ++ l ∧ ∀ c ∈ l, c.Minor := by
  rw [transfer]
  split_ifs
  · exact configure_commands _ _
  · exact ⟨[], (List.append_nil _).symm, List.forall_mem_nil _⟩
  · exact ⟨[], (List.append_nil _).symm, List.forall_mem_nil _⟩

theorem transfer_deviceStatus (r : Readings) (code slotId : Byte)
    (hk : d.deviceStatus k ≠ .getDescriptor) :
    (d.transfer r code slotId).deviceStatus k = d.deviceStatus k := by
  rw [transfer]
  by_cases hcode : code = 1 ∨ code = 13
  · by_cases hst : d.statusAt ((d.contextPort slotId r.noContext).toNat - 1) = some .getDescriptor
    · simp only [if_pos hcode, if_pos hst]
      obtain ⟨k', hk', hst⟩ := statusAt_eq_some.mp hst
      rw [← hk']
      cases r.keyboards with
      | nil => rfl
      | cons keyboard keyboards =>
        rw [configure_deviceStatus, Function.update_of_ne]
        rintro rfl
        exact hk hst
    · simp only [if_pos hcode, if_neg hst]
  · simp only [if_neg hcode]

/-- When no port waits, none is taken up. -/
theorem handOver_eq (hnone : ∀ k, d.deviceStatus k ≠ .waitEnableSlot) :
    d.handOver = { d with currentPort := -1 } := by
  rcases nextPort_cases d with ⟨hnext, -⟩ | ⟨k, hk, -⟩
  · simp only [handOver, hnext, ne_eq, not_true, if_false]
  · exact absurd hk (hnone k)

/-- What a port that reports itself enabled gets when no port is current. -/
theorem portStatusChange_enabled {r : Readings} {port : Byte}
    (henabled : (⟨r, .portStatusChange port⟩ : Arrival).Enabled port) (hcur : d.currentPort = -1)
    (hport : (port.toNat : ℤ) = k + 1) :
    d.portStatusChange r port = { d with
      deviceStatus := Function.update d.deviceStatus k .enableSlot
      currentPort := k + 1
      commands := d.commands ++ [.enableSlot] } := by
  obtain ⟨-, hzero, hped⟩ := henabled
  simp only [portStatusChange, if_pos hzero, if_pos hped, issue, hcur, if_true, hport,
    add_sub_cancel_right, setStatus_fin]

/-- A port that is not enabled is reset. -/
theorem portStatusChange_disabled {r : Readings} {port : Byte}
    (hdisabled : ¬(⟨r, .portStatusChange port⟩ : Arrival).Enabled port) :
    ∃ writes, d.portStatusChange r port = { d with portWrites := writes } := by
  rw [portStatusChange]
  by_cases hzero : r.operation (portsc port &&& 0x01) ≠ 0
  · by_cases hped : r.operation (portsc port) &&& 0x02 ≠ 0
    · exact absurd ⟨rfl, hzero, hped⟩ hdisabled
    · simp only [if_pos hzero, if_neg hped]
      exact ⟨_, rfl⟩
  · simp only [if_neg hzero]
    exact ⟨d.portWrites, rfl⟩

end Driver

namespace Enumeration

variable {w w' : Enumeration} {a : Arrival} {scratchpad : Byte}

/-! ## The invariant -/

/-- How far the current port is, with the commands that are pending for it: no port is current, or
the current one waits for its slot or for its address. -/
inductive Phase (w : Enumeration) : Prop
  | idle (hcur : w.driver.currentPort = -1) (hpending : majors w.pending = [])
      (hbound : w.slots.map w.driver.deviceContexts = w.reported.map some)
  | enable (k : Fin 255) (ports : List Byte) (hcur : w.driver.currentPort = k + 1)
      (hst : w.driver.deviceStatus k = .enableSlot) (hpending : majors w.pending = [.enableSlot])
      (hreported : w.reported = ports ++ [BitVec.ofInt 8 (k + 1)])
      (hbound : w.slots.map w.driver.deviceContexts = ports.map some)
  | address (k : Fin 255) (slotId : Byte) (hcur : w.driver.currentPort = k + 1)
      (hst : w.driver.deviceStatus k = .addressDevice)
      (hpending : majors w.pending = [.addressDevice slotId])
      (hbound : w.slots.map w.driver.deviceContexts = w.reported.map some)

/-- **The invariant.** Each Enable Slot command is for a port that has reported, no port waits, and
slots are bound in the order in which their ports reported. -/
structure Paired (w : Enumeration) : Prop where
  completed_le : w.completed ≤ w.driver.commands.length
  issued : w.issuedFor = w.reported
  nodup : w.reported.Nodup
  noWait : ∀ k, w.driver.deviceStatus k ≠ .waitEnableSlot
  phase : w.Phase

theorem newEnables_eq {d₀ d : Driver} {l : List Command} (h : d.commands = d₀.commands ++ l) :
    newEnables d₀ d = l.count .enableSlot := by
  rw [newEnables, h, List.drop_left]

theorem issuedFor_next {l : List Command}
    (hcommands : (w.next a).driver.commands = w.driver.commands ++ l) :
    (w.next a).issuedFor = w.issuedFor ++
      List.replicate (l.count .enableSlot) (portFor a.event (w.next a).driver) := by
  rw [← newEnables_eq hcommands]
  rfl

theorem pending_append (w' : Enumeration)
    {l : List Command} (hle : w.completed ≤ w.driver.commands.length)
    (hcompleted : w'.completed = w.completed)
    (hcommands : w'.driver.commands = w.driver.commands ++ l) : w'.pending = w.pending ++ l := by
  rw [pending, pending, hcompleted, hcommands, List.drop_append_of_le_length hle]

/-- The first pending command is completed. -/
theorem pending_complete (w' : Enumeration) {c : Command} {l : List Command}
    (hhead : w.pending.head? = some c)
    (hcompleted : w'.completed = w.completed + 1)
    (hcommands : w'.driver.commands = w.driver.commands ++ l) :
    w'.completed ≤ w'.driver.commands.length ∧
      ∃ rest, w.pending = c :: rest ∧ w'.pending = rest ++ l := by
  have hlt : w.completed < w.driver.commands.length := by
    by_contra hge
    rw [pending, List.drop_eq_nil_of_le (by omega)] at hhead
    cases hhead
  refine ⟨by rw [hcompleted, hcommands, List.length_append]; omega, w.pending.tail, ?_, ?_⟩
  · cases hpending : w.pending with
    | nil =>
      rw [hpending] at hhead
      cases hhead
    | cons c' rest =>
      rw [hpending] at hhead
      rw [List.tail_cons, Option.some.inj hhead]
  · rw [pending, pending, hcompleted, hcommands, List.tail_drop,
      List.drop_append_of_le_length (by omega)]

/-- An event that does not concern the current port leaves the phase alone. -/
theorem Phase.congr (h : w.Phase) (hcur : w'.driver.currentPort = w.driver.currentPort)
    (hst : ∀ k, w.driver.deviceStatus k ≠ .getDescriptor →
      w'.driver.deviceStatus k = w.driver.deviceStatus k)
    (hcontexts : w'.driver.deviceContexts = w.driver.deviceContexts)
    (hpending : majors w'.pending = majors w.pending) (hreported : w'.reported = w.reported)
    (hslots : w'.slots = w.slots) : w'.Phase := by
  cases h with
  | idle hcur₀ hpending₀ hbound₀ =>
    exact .idle (hcur.trans hcur₀) (hpending.trans hpending₀)
      (by rw [hslots, hcontexts, hreported]; exact hbound₀)
  | enable k ports hcur₀ hst₀ hpending₀ hreported₀ hbound₀ =>
    refine .enable k ports (hcur.trans hcur₀) ?_ (hpending.trans hpending₀)
      (hreported.trans hreported₀) (by rw [hslots, hcontexts]; exact hbound₀)
    rw [hst k (by rw [hst₀]; decide), hst₀]
  | address k slotId hcur₀ hst₀ hpending₀ hbound₀ =>
    refine .address k slotId (hcur.trans hcur₀) ?_ (hpending.trans hpending₀)
      (by rw [hslots, hcontexts, hreported]; exact hbound₀)
    rw [hst k (by rw [hst₀]; decide), hst₀]

/-! ## Steps -/

/-- No port is made to wait. -/
theorem noWait_next (hport : a.PortOk) (halone : w.ReportsAlone a)
    (h : ∀ k, w.driver.deviceStatus k ≠ .waitEnableSlot) (k : Fin 255) :
    (w.next a).driver.deviceStatus k ≠ .waitEnableSlot := by
  obtain ⟨l, hstep, hl⟩ := process_portStep w.driver hport
  refine hstep.noWait (fun i hi ↦ ?_) h k
  obtain ⟨port, henabled, -⟩ := hl i hi
  exact halone port henabled

theorem Paired.transfer (h : w.Paired) (r : Readings) (code slotId : Byte) :
    (w.next ⟨r, .transfer code slotId⟩).Paired := by
  obtain ⟨l, hl, hminor⟩ := Driver.transfer_commands (d := w.driver) r code slotId
  have hnew : newEnables w.driver (w.driver.transfer r code slotId) = 0 := by
    rw [newEnables_eq hl, count_enableSlot hminor]
  refine ⟨?_, ?_, h.nodup, noWait_next nofun nofun h.noWait, ?_⟩
  · show w.completed ≤ (w.driver.transfer r code slotId).commands.length
    rw [hl, List.length_append]
    exact le_add_right h.completed_le
  · show w.issuedFor ++ List.replicate (newEnables w.driver (w.driver.transfer r code slotId)) _ =
      w.reported
    rw [hnew, List.replicate_zero, List.append_nil, h.issued]
  · refine h.phase.congr (Driver.transfer_currentPort r code slotId)
      (fun k ↦ Driver.transfer_deviceStatus r code slotId)
      (Driver.transfer_deviceContexts r code slotId) ?_ rfl rfl
    rw [pending_append (w.next ⟨r, .transfer code slotId⟩) h.completed_le rfl hl, majors_append,
      majors_eq_nil hminor, List.append_nil]

/-- A completion that enumeration does not wait for. -/
theorem Paired.minor (h : w.Paired) (r : Readings) {c : Command} (hminor : c.Minor)
    (hhead : w.pending.head? = some c) (slotId : Byte) :
    (w.next ⟨r, .commandCompletion c.type slotId⟩).Paired := by
  have hd : w.driver.process r (.commandCompletion c.type slotId) = w.driver :=
    Driver.commandCompletion_none r slotId (fun h9 ↦ absurd h9 hminor.1)
      fun h11 ↦ absurd h11 hminor.2
  have hslots : (w.next ⟨r, .commandCompletion c.type slotId⟩).slots = w.slots :=
    if_neg hminor.1
  obtain ⟨hle, rest, hpending, hpending'⟩ :=
    pending_complete (w.next ⟨r, .commandCompletion c.type slotId⟩) (l := []) hhead rfl
      (by rw [List.append_nil]; exact congrArg _ hd)
  refine ⟨hle, ?_, h.nodup, noWait_next nofun nofun h.noWait, ?_⟩
  · show w.issuedFor ++ List.replicate (newEnables w.driver _) _ = w.reported
    rw [newEnables_eq (l := []) (by rw [List.append_nil]; exact congrArg _ hd), List.count_nil,
      List.replicate_zero, List.append_nil, h.issued]
  · refine h.phase.congr (congrArg _ hd) (fun k _ ↦ congrFun (congrArg _ hd) k) (congrArg _ hd) ?_
      rfl hslots
    rw [hpending', hpending, List.append_nil, majors_cons_minor hminor]

/-- The Enable Slot command of the current port completes. -/
theorem Paired.enable (h : w.Paired) (r : Readings) (hhead : w.pending.head? = some .enableSlot)
    {slotId : Byte} (hfresh : slotId ∉ w.slots) :
    (w.next ⟨r, .commandCompletion 9 slotId⟩).Paired := by
  -- in the other phases no Enable Slot command is waited for
  cases h.phase with
  | idle hcur hpending hbound => exact absurd hpending (majors_ne_nil hhead (.inl rfl))
  | address k slotId' hcur hst hpending hbound =>
    exact absurd (head_majors hhead (.inl rfl)) (by rw [hpending]; nofun)
  | enable k ports hcur hst hpending hreported hbound =>
    have hd : w.driver.process r (.commandCompletion 9 slotId) =
        w.driver.handleEnableSlot r slotId (w.driver.completionPort slotId) :=
      Driver.commandCompletion_enable r slotId
        (Driver.statusAt_eq_some.mpr ⟨k, by rw [hcur, add_sub_cancel_right], hst⟩)
    obtain ⟨l, hl, hminor⟩ := Driver.handleEnableSlot_commands (d := w.driver) r slotId
      (w.driver.completionPort slotId)
    have hcommands : (w.next ⟨r, .commandCompletion 9 slotId⟩).driver.commands =
        w.driver.commands ++ .addressDevice slotId :: l := (congrArg _ hd).trans hl
    obtain ⟨hle, rest, hpending₀, hpending'⟩ := pending_complete _ hhead rfl hcommands
    have hcount : (Command.addressDevice slotId :: l).count .enableSlot = 0 := by
      have hne : Command.addressDevice slotId ≠ .enableSlot := by rintro ⟨⟩
      rw [List.count_cons_of_ne hne, count_enableSlot hminor]
    refine ⟨hle, ?_, h.nodup, noWait_next nofun nofun h.noWait,
      .address k slotId ?_ ?_ ?_ ?_⟩
    · rw [issuedFor_next hcommands, hcount, List.replicate_zero, List.append_nil]
      exact h.issued
    · exact (congrArg _ hd).trans ((Driver.handleEnableSlot_currentPort r slotId _).trans hcur)
    · refine (congrFun ((congrArg _ hd).trans
        (Driver.handleEnableSlot_deviceStatus r slotId _)) k).trans ?_
      rw [hcur, add_sub_cancel_right, Driver.setStatus_fin]
      exact Function.update_self _ _ _
    · rw [hpending₀, majors_cons (.inl rfl)] at hpending
      rw [hpending', majors_append, (List.cons_eq_cons.mp hpending).2,
        majors_cons (.inr rfl), majors_eq_nil hminor, List.nil_append]
    · show (w.slots ++ [slotId]).map (w.driver.process r _).deviceContexts = _
      rw [hd, Driver.handleEnableSlot_deviceContexts, List.map_append, List.map_singleton,
        Function.update_self, hcur]
      have hslots : w.slots.map (Function.update w.driver.deviceContexts slotId
          (some (BitVec.ofInt 8 (k + 1)))) = w.slots.map w.driver.deviceContexts := by
        refine List.map_congr_left fun slotId' hmem ↦ Function.update_of_ne ?_ _ _
        rintro rfl
        exact hfresh hmem
      show _ = w.reported.map some
      rw [hslots, hbound, hreported, List.map_append, List.map_singleton]

/-- The Address Device command of the current port completes. -/
theorem Paired.address (h : w.Paired) (r : Readings) {slotId : Byte}
    (hhead : w.pending.head? = some (.addressDevice slotId)) :
    (w.next ⟨r, .commandCompletion 11 slotId⟩).Paired := by
  cases h.phase with
  | idle hcur hpending hbound => exact absurd hpending (majors_ne_nil hhead (.inr rfl))
  | enable k ports hcur hst hpending hreported hbound =>
    exact absurd (head_majors hhead (.inr rfl)) (by rw [hpending]; nofun)
  | address k slotId' hcur hst hpending hbound =>
    have hk : w.driver.currentPort - 1 = k := by rw [hcur, add_sub_cancel_right]
    obtain ⟨d, hd, hcommands, hcontexts, hcur'⟩ : ∃ d, w.driver.process r
        (.commandCompletion 11 slotId) = d ∧ d.commands = w.driver.commands ++ [] ∧
          d.deviceContexts = w.driver.deviceContexts ∧ d.currentPort = -1 := by
      refine ⟨_, Driver.commandCompletion_address r slotId
        (Driver.statusAt_eq_some.mpr ⟨k, hk.symm, hst⟩), ?_⟩
      rw [hk, Driver.setStatus_fin, Driver.handOver_eq]
      · exact ⟨(List.append_nil _).symm, rfl, rfl⟩
      · exact fun j hj ↦ h.noWait j (PortStep.of_update hj (by decide)).2
    have hcommands : (w.next ⟨r, .commandCompletion 11 slotId⟩).driver.commands =
        w.driver.commands ++ [] := (congrArg _ hd).trans hcommands
    obtain ⟨hle, rest, hpending₀, hpending'⟩ := pending_complete _ hhead rfl hcommands
    refine ⟨hle, ?_, h.nodup, noWait_next nofun nofun h.noWait, .idle ?_ ?_ ?_⟩
    · rw [issuedFor_next hcommands, List.count_nil, List.replicate_zero, List.append_nil]
      exact h.issued
    · exact (congrArg _ hd).trans hcur'
    · rw [hpending₀, majors_cons (.inr rfl)] at hpending
      rw [hpending', List.append_nil, (List.cons_eq_cons.mp hpending).2]
    · show w.slots.map (w.driver.process r _).deviceContexts = w.reported.map some
      rw [hd, hcontexts, hbound]

/-- A port that is not enabled reports. -/
theorem Paired.disabled (h : w.Paired) {r : Readings} {port : Byte}
    (hdisabled : ¬(⟨r, .portStatusChange port⟩ : Arrival).Enabled port) :
    (w.next ⟨r, .portStatusChange port⟩).Paired := by
  obtain ⟨writes, hd⟩ := Driver.portStatusChange_disabled (d := w.driver) hdisabled
  have hd : (w.next ⟨r, .portStatusChange port⟩).driver =
    { w.driver with portWrites := writes } := hd
  have hcommands : (w.next ⟨r, .portStatusChange port⟩).driver.commands =
      w.driver.commands ++ [] := by rw [hd, List.append_nil]
  have hreported : (w.next ⟨r, .portStatusChange port⟩).reported = w.reported := if_neg hdisabled
  refine ⟨?_, ?_, by rw [hreported]; exact h.nodup, ?_, ?_⟩
  · rw [hcommands, List.append_nil]
    exact h.completed_le
  · rw [issuedFor_next hcommands, List.count_nil, List.replicate_zero, List.append_nil, hreported,
      h.issued]
  · rw [hd]
    exact h.noWait
  · refine h.phase.congr (by rw [hd]) (fun k _ ↦ by rw [hd]) (by rw [hd]) ?_ hreported rfl
    rw [pending_append (w.next _) h.completed_le rfl hcommands, List.append_nil]

/-- A port that is enabled reports while no port is current. -/
theorem Paired.enabled (h : w.Paired) {r : Readings} {port : Byte} (hport : port ≠ 0)
    (henabled : (⟨r, .portStatusChange port⟩ : Arrival).Enabled port)
    (hcur : w.driver.currentPort = -1) (hfresh : port ∉ w.reported) :
    (w.next ⟨r, .portStatusChange port⟩).Paired := by
  obtain ⟨k, -, hk⟩ := Driver.exists_port hport
  have hd : (w.next ⟨r, .portStatusChange port⟩).driver = _ :=
    Driver.portStatusChange_enabled henabled hcur hk
  have hcommands : (w.next ⟨r, .portStatusChange port⟩).driver.commands =
      w.driver.commands ++ [.enableSlot] := by rw [hd]
  have hreported : (w.next ⟨r, .portStatusChange port⟩).reported = w.reported ++ [port] :=
    if_pos henabled
  have hnodup : (w.reported ++ [port]).Nodup := by
    rw [List.nodup_append]
    refine ⟨h.nodup, List.nodup_singleton port, fun p hp q hq ↦ ?_⟩
    rintro rfl
    exact hfresh ((List.mem_singleton.mp hq) ▸ hp)
  cases h.phase with
  | enable j ports hcur' _ _ _ _ => omega
  | address j slotId hcur' _ _ _ => omega
  | idle hcur' hpending hbound =>
    refine ⟨?_, ?_, by rw [hreported]; exact hnodup, ?_, .enable k w.reported ?_ ?_ ?_ ?_ ?_⟩
    · rw [hcommands, List.length_append]
      exact le_add_right h.completed_le
    · rw [issuedFor_next hcommands, hreported, h.issued]
      rfl
    · rw [hd]
      exact fun j hj ↦ h.noWait j (PortStep.of_update hj (by decide)).2
    · rw [hd]
    · rw [hd]
      exact Function.update_self _ _ _
    · rw [pending_append (w.next _) h.completed_le rfl hcommands, majors_append, hpending,
        List.nil_append,
        majors_cons (.inl rfl)]
      rfl
    · rw [hreported, ← hk]
      simp
    · show w.slots.map _ = _
      rw [hd]
      exact hbound

theorem Step.paired (hstep : w.Step a w') (halone : w.ReportsAlone a) (h : w.Paired) :
    w'.Paired := by
  obtain ⟨hadmits, rfl⟩ := hstep
  obtain ⟨r, event⟩ := a
  cases event with
  | transfer code slotId => exact h.transfer r code slotId
  | commandCompletion type slotId =>
    obtain ⟨c, hhead, rfl, hslot⟩ := hadmits
    cases c with
    | enableSlot => exact h.enable r hhead hslot.2
    | addressDevice slotId' =>
      obtain rfl : slotId = slotId' := hslot
      exact h.address r hhead
    | configureEndpoint slotId' => exact h.minor r (Command.minor_configureEndpoint _) hhead slotId
    | evaluateContext slotId' => exact h.minor r (Command.minor_evaluateContext _) hhead slotId
  | portStatusChange port =>
    obtain ⟨hport, hfresh⟩ := hadmits
    by_cases henabled : (⟨r, .portStatusChange port⟩ : Arrival).Enabled port
    · exact h.enabled hport henabled (halone port henabled) (hfresh henabled)
    · exact h.disabled henabled

/-- Slots are bound to the ports in front, in their order. -/
theorem Phase.exists_ports (h : w.Phase) :
    ∃ ports rest, w.reported = ports ++ rest ∧
      w.slots.map w.driver.deviceContexts = ports.map some := by
  cases h with
  | idle _ _ hbound => exact ⟨w.reported, [], (List.append_nil _).symm, hbound⟩
  | enable k ports _ _ _ hreported hbound => exact ⟨ports, _, hreported, hbound⟩
  | address k slotId _ _ _ hbound => exact ⟨w.reported, [], (List.append_nil _).symm, hbound⟩

theorem Paired.oneSlotEach (h : w.Paired) : w.OneSlotEach := by
  obtain ⟨ports, rest, hreported, hbound⟩ := h.phase.exists_ports
  have hnodup : (w.slots.map w.driver.deviceContexts).Nodup := by
    have hports := h.nodup
    rw [hreported] at hports
    rw [hbound]
    exact (List.nodup_append.mp hports).1.map (Option.some_injective _)
  constructor
  · intro port hport
    rw [h.issued]
    exact List.count_eq_one_of_mem h.nodup hport
  · intro slotId hslot
    have hmem := List.mem_map_of_mem (f := w.driver.deviceContexts) hslot
    rw [hbound] at hmem
    obtain ⟨port, hport, heq⟩ := List.mem_map.mp hmem
    refine ⟨port, ?_, heq.symm⟩
    rw [hreported]
    exact List.mem_append_left _ hport
  · exact fun _ hslot _ hslot' heq ↦ List.inj_on_of_nodup_map hnodup hslot hslot' heq

theorem start_paired (scratchpad : Byte) : (start scratchpad).Paired :=
  ⟨le_rfl, rfl, List.nodup_nil, nofun, .idle rfl rfl rfl⟩

/-! ## Runs -/

/-- **One slot for each device**, if ports report themselves enabled only while no port is
current. -/
theorem one_slot_each (hrun : Run Step ReportsAlone (start scratchpad) w) : w.OneSlotEach := by
  have hpaired : w.Paired := hrun.invariant (start_paired scratchpad)
    fun _ _ _ h halone hstep ↦ hstep.paired halone h
  exact hpaired.oneSlotEach

/-- What some arrivals lead to. -/
def after (w : Enumeration) (as : List Arrival) : Enumeration := as.foldl next w

/-- A guard and the protocol admit them one after another. -/
def AdmitsAll (guard : Enumeration → Arrival → Prop) : Enumeration → List Arrival → Prop
  | _, [] => True
  | w, a :: as => guard w a ∧ w.Admits a ∧ AdmitsAll guard (w.next a) as

theorem AdmitsAll.run {guard : Enumeration → Arrival → Prop} {as : List Arrival}
    (h : w.AdmitsAll guard as) : Run Step guard w (w.after as) := by
  induction as generalizing w with
  | nil => exact .refl w
  | cons a as ih => exact Run.head h.1 ⟨h.2.1, rfl⟩ (ih h.2.2)

theorem admits_portReports {port : Byte} (hport : port ≠ 0) (hfresh : port ∉ w.reported) :
    w.Admits (portReports port) := ⟨hport, fun _ ↦ hfresh⟩

theorem admits_enableSlot {slotId : Byte} (hhead : w.pending.head? = some .enableSlot)
    (hfresh : slotId ≠ 0 ∧ slotId ∉ w.slots) :
    w.Admits (commandCompletes .enableSlot slotId) := ⟨_, hhead, rfl, hfresh⟩

theorem admits_addressDevice {slotId : Byte}
    (hhead : w.pending.head? = some (.addressDevice slotId)) :
    w.Admits (commandCompletes (.addressDevice slotId) slotId) := ⟨_, hhead, rfl, rfl⟩

theorem reportsAlone_commandCompletes (c : Command) (slotId : Byte) :
    w.ReportsAlone (commandCompletes c slotId) := by
  rintro _ ⟨⟨⟩, -⟩

/-- Two devices one after the other. -/
theorem one_slot_each_two :
    ((start 0).after [portReports 1, commandCompletes .enableSlot 1,
      commandCompletes (.addressDevice 1) 1, portReports 2,
      commandCompletes .enableSlot 2]).OneSlotEach := by
  refine one_slot_each (AdmitsAll.run ⟨fun _ _ ↦ rfl, admits_portReports (by decide) (by decide),
    reportsAlone_commandCompletes _ _, admits_enableSlot (by decide) (by decide),
    reportsAlone_commandCompletes _ _, admits_addressDevice (by decide +kernel),
    fun _ _ ↦ ?_, admits_portReports (by decide) (by decide +kernel),
    reportsAlone_commandCompletes _ _, admits_enableSlot (by decide +kernel) (by decide +kernel),
    trivial⟩)
  decide +kernel

/-- The device that is plugged in while another is enumerated gets two slots, and one of them is
bound to no port. -/
theorem slot_unbound :
    ¬∀ w, Run Step (fun _ _ ↦ True) (start 0) w → w.pending = [] → w.OneSlotEach := by
  intro h
  have hrun : Run Step (fun _ _ ↦ True) (start 0) ((start 0).after
      [portReports 1, portReports 2, commandCompletes .enableSlot 1, commandCompletes .enableSlot 2,
        commandCompletes (.addressDevice 1) 1, commandCompletes .enableSlot 3,
        commandCompletes (.addressDevice 3) 3]) :=
    AdmitsAll.run ⟨trivial, admits_portReports (by decide) (by decide),
      trivial, admits_portReports (by decide) (by decide),
      trivial, admits_enableSlot (by decide) (by decide),
      trivial, admits_enableSlot (by decide) (by decide),
      trivial, admits_addressDevice (by decide),
      trivial, admits_enableSlot (by decide +kernel) (by decide +kernel),
      trivial, admits_addressDevice (by decide +kernel), trivial⟩
  obtain ⟨port, -, hbound⟩ := (h _ hrun (by decide +kernel)).bound 2 (by decide +kernel)
  have hnone : ((start 0).after [portReports 1, portReports 2, commandCompletes .enableSlot 1,
      commandCompletes .enableSlot 2, commandCompletes (.addressDevice 1) 1,
      commandCompletes .enableSlot 3,
      commandCompletes (.addressDevice 3) 3]).driver.deviceContexts 2 = none := by
    decide +kernel
  rw [hnone] at hbound
  cases hbound

end Enumeration

end VimOS
