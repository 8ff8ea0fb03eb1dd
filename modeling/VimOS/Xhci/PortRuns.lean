import VimOS.Xhci.PortStep

/-!
# The port that is current

Two invariants of `usb_process_events` between its iterations, over all orders of events. At most
one port is being addressed, it is the current one, and no port waits while none is current
(`PortStep.exclusive`): this needs nothing of the events. The other direction, that the current port
is being addressed and so will be released (`PortStep.addressing`), fails when the current port
reports a second time: it is then put back to wait, and no completion finds it in a state in which
it is handled. It holds in the runs in which that does not happen.
-/

namespace VimOS

open GuardedRun

/-- One iteration, as a step labelled with what arrives. -/
def Driver.Step (d : Driver) (a : Arrival) (d' : Driver) : Prop :=
  d' = d.process a.readings a.event

/-- The current port, if there is one, waits for a completion that releases it. -/
def Driver.Addressing (d : Driver) : Prop :=
  d.currentPort ≠ -1 → d.statusAt (d.currentPort - 1) = some .enableSlot ∨
    d.statusAt (d.currentPort - 1) = some .addressDevice

/-- Ports being addressed are current, and a port waits only while some port is current. -/
structure Driver.Exclusive (d : Driver) : Prop where
  current : ∀ i : Fin 255, d.deviceStatus i = .enableSlot ∨ d.deviceStatus i = .addressDevice →
    d.currentPort = i + 1
  waiting : ∀ i : Fin 255, d.deviceStatus i = .waitEnableSlot → d.currentPort ≠ -1

/-- What may arrive while ports are enumerated: enabled ports report, any number of times, and
commands that were issued complete. -/
def Arrival.Delivered (d : Driver) (a : Arrival) : Prop :=
  match a.event with
  | .transfer _ _ => False
  | .commandCompletion type _ => ∃ c ∈ d.commands, c.type = type
  | .portStatusChange port => port ≠ 0 ∧ a.Enabled port

/-- The current port does not report again. -/
def Arrival.SparesCurrent (d : Driver) (a : Arrival) : Prop :=
  a.PortOk ∧ ∀ port, a.Enabled port → (port.toNat : ℤ) ≠ d.currentPort

/-! ## The ports alone -/

namespace PortStep

variable {st st' : PortStates} {cur cur' : ℤ} {l : Option (Fin 255)}

theorem addressing (hstep : PortStep st cur l st' cur') (hl : ∀ i, l = some i → cur ≠ i + 1)
    (h : cur = -1 ∨ ∃ i : Fin 255, cur = i + 1 ∧ (st i = .enableSlot ∨ st i = .addressDevice)) :
    cur' = -1 ∨ ∃ i : Fin 255, cur' = i + 1 ∧ (st' i = .enableSlot ∨ st' i = .addressDevice) := by
  cases hstep with
  | stay => exact h
  | take i hcur => exact .inr ⟨i, rfl, .inl (Function.update_self _ _ _)⟩
  | wait i hcur =>
    obtain ⟨j, rfl, hj⟩ := h.resolve_left hcur
    have hij : j ≠ i := fun hij ↦ hl i rfl (by rw [hij])
    rw [← Function.update_of_ne hij .waitEnableSlot st] at hj
    exact .inr ⟨j, rfl, hj⟩
  | enabled i hcur hi => exact .inr ⟨i, hcur, .inr (Function.update_self _ _ _)⟩
  | release i hcur hi hnone => exact .inl rfl
  | handOver i j hcur hi hj => exact .inr ⟨j, rfl, .inl (Function.update_self _ _ _)⟩
  | configured i hi =>
    refine h.imp_right fun ⟨j, hcur, hj⟩ ↦ ⟨j, hcur, ?_⟩
    have hij : j ≠ i := by
      rintro rfl
      rw [hi] at hj
      rcases hj with hj | hj <;> cases hj
    rwa [Function.update_of_ne hij]

/-- A state that an update does not write stood there before. -/
theorem of_update {i j : Fin 255} {s t : DeviceStatus} (h : Function.update st j s i = t)
    (hne : s ≠ t) : i ≠ j ∧ st i = t := by
  have hij : i ≠ j := by
    rintro rfl
    rw [Function.update_self] at h
    exact hne h
  rw [Function.update_of_ne hij] at h
  exact ⟨hij, h⟩

/-- Ports in a state of which the following holds are current. -/
theorem current {s : DeviceStatus} (hs : s = .enableSlot ∨ s = .addressDevice)
    (hstep : PortStep st cur l st' cur')
    (h : ∀ t, t = .enableSlot ∨ t = .addressDevice → ∀ i : Fin 255, st i = t → cur = i + 1)
    (i : Fin 255) (hi : st' i = s) : cur' = i + 1 := by
  have hne : s ≠ .waitEnableSlot ∧ s ≠ .getDescriptor ∧ s ≠ .endOfInitialize := by
    rcases hs with rfl | rfl <;> decide
  cases hstep with
  | stay => exact h s hs i hi
  | take j hcur =>
    by_cases hij : i = j
    · rw [hij]
    · rw [Function.update_of_ne hij] at hi
      have := h s hs i hi
      omega
  | wait j hcur => exact h s hs i (of_update hi hne.1.symm).2
  | enabled j hcur hj =>
    by_cases hij : i = j
    · rw [hij, hcur]
    · rw [Function.update_of_ne hij] at hi
      exact h s hs i hi
  | release j hcur hj hnone =>
    obtain ⟨hij, hi⟩ := of_update hi hne.2.1.symm
    have := h s hs i hi
    exact absurd (Fin.ext (by omega)) hij
  | handOver j j' hcur hj hj' =>
    by_cases hij' : i = j'
    · rw [hij']
    · rw [Function.update_of_ne hij'] at hi
      obtain ⟨hij, hi⟩ := of_update hi hne.2.1.symm
      have := h s hs i hi
      exact absurd (Fin.ext (by omega)) hij
  | configured j hj => exact h s hs i (of_update hi hne.2.2.symm).2

/-- A port waits only while some port is current. -/
theorem waiting (hstep : PortStep st cur l st' cur')
    (h : ∀ i : Fin 255, st i = .waitEnableSlot → cur ≠ -1)
    (i : Fin 255) (hi : st' i = .waitEnableSlot) : cur' ≠ -1 := by
  cases hstep with
  | stay => exact h i hi
  | take j hcur => omega
  | wait j hcur => exact hcur
  | enabled j hcur hj => omega
  | release j hcur hj hnone => exact absurd (of_update hi (by decide)).2 (hnone i)
  | handOver j j' hcur hj hj' => omega
  | configured j hj => exact h i (of_update hi (by decide)).2

/-- If ports report only when none is current, none is made to wait. -/
theorem noWait (hstep : PortStep st cur l st' cur') (hl : ∀ i, l = some i → cur = -1)
    (h : ∀ i, st i ≠ .waitEnableSlot) (i : Fin 255) : st' i ≠ .waitEnableSlot := by
  intro hi
  cases hstep with
  | stay => exact h i hi
  | take j hcur => exact h i (of_update hi (by decide)).2
  | wait j hcur => exact hcur (hl j rfl)
  | enabled j hcur hj => exact h i (of_update hi (by decide)).2
  | release j hcur hj hnone => exact h i (of_update hi (by decide)).2
  | handOver j j' hcur hj hj' => exact h j' hj'
  | configured j hj => exact h i (of_update hi (by decide)).2

end PortStep

/-! ## The driver -/

variable {d d' : Driver} {a : Arrival} {scratchpad : Byte}

theorem Driver.addressing_iff :
    d.Addressing ↔ d.currentPort = -1 ∨ ∃ i : Fin 255, d.currentPort = i + 1 ∧
      (d.deviceStatus i = .enableSlot ∨ d.deviceStatus i = .addressDevice) := by
  rw [Addressing, statusAt_eq_some, statusAt_eq_some]
  constructor
  · intro h
    refine or_iff_not_imp_left.mpr fun hcur ↦ ?_
    rcases h hcur with ⟨i, hi, hst⟩ | ⟨i, hi, hst⟩
    · exact ⟨i, by omega, .inl hst⟩
    · exact ⟨i, by omega, .inr hst⟩
  · rintro (hcur | ⟨i, hi, hst⟩) hne
    · exact absurd hcur hne
    · have hi' : (i : ℤ) = d.currentPort - 1 := by omega
      exact hst.imp (⟨i, hi', ·⟩) (⟨i, hi', ·⟩)

theorem Driver.Step.addressing (hstep : d.Step a d') (ha : a.SparesCurrent d)
    (h : d.Addressing) : d'.Addressing := by
  obtain ⟨l, hport, hl⟩ := process_portStep d ha.1
  rw [Driver.Step] at hstep
  rw [Driver.addressing_iff, hstep]
  refine hport.addressing (fun i hi hcur ↦ ?_) (Driver.addressing_iff.mp h)
  obtain ⟨port, henabled, hport⟩ := hl i hi
  exact ha.2 port henabled (by rw [hport, hcur])

theorem Driver.Step.exclusive (hstep : d.Step a d') (ha : a.PortOk) (h : d.Exclusive) :
    d'.Exclusive := by
  obtain ⟨l, hport, -⟩ := process_portStep d ha
  rw [Driver.Step] at hstep
  rw [hstep]
  have hcurrent : ∀ t, t = .enableSlot ∨ t = .addressDevice →
      ∀ i : Fin 255, d.deviceStatus i = t → d.currentPort = i + 1 :=
    fun t ht i hi ↦ h.current i (by rw [hi]; exact ht)
  exact ⟨fun i hi ↦ hport.current hi hcurrent i rfl, hport.waiting h.waiting⟩

theorem Driver.start_exclusive (scratchpad : Byte) : (Driver.start scratchpad).Exclusive := by
  refine ⟨?_, ?_⟩
  · rintro i (hi | hi) <;> cases hi
  · intro i hi
    cases hi

/-! ## Arrivals -/

/-- A report of a port that is enabled. -/
def portReports (port : Byte) : Arrival where
  readings := { operation := fun _ ↦ 3, maxPacketSize0 := 0, noContext := 0, keyboards := [] }
  event := .portStatusChange port

/-- The completion of a command that names a slot. -/
def commandCompletes (c : Command) (slotId : Byte) : Arrival where
  readings := { operation := fun _ ↦ 3, maxPacketSize0 := 0, noContext := 0, keyboards := [] }
  event := .commandCompletion c.type slotId

/-- What the driver is left with after some arrivals. -/
def Driver.after (d : Driver) (as : List Arrival) : Driver :=
  as.foldl (fun d a ↦ d.process a.readings a.event) d

/-- A guard admits them one after another. -/
def Driver.Admits (guard : Driver → Arrival → Prop) : Driver → List Arrival → Prop
  | _, [] => True
  | d, a :: as => guard d a ∧ Admits guard (d.process a.readings a.event) as

theorem Driver.Admits.run {guard : Driver → Arrival → Prop} {as : List Arrival}
    (h : d.Admits guard as) : Run Driver.Step guard d (d.after as) := by
  induction as generalizing d with
  | nil => exact .refl d
  | cons a as ih => exact Run.head h.1 rfl (ih h.2)

theorem Arrival.portOk_portReports {port : Byte} (h : port ≠ 0) : (portReports port).PortOk := by
  rintro ⟨⟩
  exact h rfl

theorem Arrival.sparesCurrent_portReports {port : Byte} (h : port ≠ 0)
    (hcur : (port.toNat : ℤ) ≠ d.currentPort) : (portReports port).SparesCurrent d := by
  refine ⟨portOk_portReports h, ?_⟩
  rintro _ ⟨⟨⟩, -⟩
  exact hcur

theorem Arrival.sparesCurrent_commandCompletes (c : Command) (slotId : Byte) :
    (commandCompletes c slotId).SparesCurrent d := by
  refine ⟨nofun, ?_⟩
  rintro _ ⟨⟨⟩, -⟩

/-! ## Runs -/

/-- **The current port is being addressed** in every state, if it does not report again while it is
current. -/
theorem current_port_addressing
    (hrun : Run Driver.Step (fun d a ↦ a.SparesCurrent d) (.start scratchpad) d) :
    d.Addressing :=
  hrun.invariant (fun hcur ↦ absurd rfl hcur) fun _ _ _ h ha hstep ↦ hstep.addressing ha h

/-- Two ports report, and the second is taken up once the first has its address. -/
theorem current_port_addressing_two :
    ((Driver.start 0).after [portReports 1, portReports 2, commandCompletes .enableSlot 1,
      commandCompletes (.addressDevice 1) 1]).Addressing := by
  refine current_port_addressing (Driver.Admits.run ?_)
  exact ⟨Arrival.sparesCurrent_portReports (by decide) (by decide),
    Arrival.sparesCurrent_portReports (by decide) (by decide),
    Arrival.sparesCurrent_commandCompletes _ _, Arrival.sparesCurrent_commandCompletes _ _, trivial⟩

/-- A port that reports twice is left waiting while it is current. -/
theorem current_port_wedged :
    ¬∀ d, Run Driver.Step (fun d a ↦ a.Delivered d) (.start 0) d → d.Addressing := by
  intro h
  have hdelivered : ∀ d, (portReports 1).Delivered d :=
    fun d ↦ ⟨by decide, rfl, by decide, by decide⟩
  have haddressing := h ((Driver.start 0).after [portReports 1, portReports 1])
    (Driver.Admits.run ⟨hdelivered _, hdelivered _, trivial⟩)
  have hstatus : ((Driver.start 0).after [portReports 1, portReports 1]).deviceStatus 0 =
      .waitEnableSlot := rfl
  rcases Driver.addressing_iff.mp haddressing with hcur | ⟨i, hcur, hst⟩
  · exact absurd hcur (by decide)
  · have hi : i = 0 := Fin.ext (by
      have : (1 : ℤ) = i + 1 := hcur
      rw [Fin.val_zero]
      omega)
    rw [hi, hstatus] at hst
    rcases hst with hst | hst <;> cases hst

/-- **Mutual exclusion.** Every port being addressed is the current one, and a port waits only while
some port is current. -/
theorem ports_exclusive
    (hrun : Run Driver.Step (fun _ a ↦ a.PortOk) (.start scratchpad) d) : d.Exclusive :=
  hrun.invariant (Driver.start_exclusive scratchpad) fun _ _ _ h ha hstep ↦ hstep.exclusive ha h

/-- The second port waits while the first is current. -/
theorem ports_exclusive_two :
    ((Driver.start 0).after [portReports 1, portReports 2]).Exclusive := by
  refine ports_exclusive (Driver.Admits.run ?_)
  exact ⟨Arrival.portOk_portReports (by decide), Arrival.portOk_portReports (by decide), trivial⟩

end VimOS
