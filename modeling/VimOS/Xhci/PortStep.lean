import VimOS.Xhci.Enumeration

/-!
# What an event does to the states of the ports

`PortStep` is the life of a port without the driver's data: a port that reports is taken up or
waits, the port that is taken up gets a slot and an address, then a waiting one follows it. Every
iteration of `usb_process_events` is such a step (`process_portStep`), and it is labelled with a
port only if that port has reported itself enabled.
-/

namespace VimOS

/-- The states of all ports. -/
abbrev PortStates := Fin 255 → DeviceStatus

/-- Steps of the states of the ports and of the port that is current, `-1` standing for none. -/
inductive PortStep (st : PortStates) (cur : ℤ) : Option (Fin 255) → PortStates → ℤ → Prop
  | stay : PortStep st cur none st cur
  | take (i : Fin 255) (hcur : cur = -1) :
      PortStep st cur (some i) (Function.update st i .enableSlot) (i + 1)
  | wait (i : Fin 255) (hcur : cur ≠ -1) :
      PortStep st cur (some i) (Function.update st i .waitEnableSlot) cur
  | enabled (i : Fin 255) (hcur : cur = i + 1) (hi : st i = .enableSlot) :
      PortStep st cur none (Function.update st i .addressDevice) cur
  | release (i : Fin 255) (hcur : cur = i + 1) (hi : st i = .addressDevice)
      (hnone : ∀ j, st j ≠ .waitEnableSlot) :
      PortStep st cur none (Function.update st i .getDescriptor) (-1)
  | handOver (i j : Fin 255) (hcur : cur = i + 1) (hi : st i = .addressDevice)
      (hj : st j = .waitEnableSlot) :
      PortStep st cur none
        (Function.update (Function.update st i .getDescriptor) j .enableSlot) (j + 1)
  | configured (i : Fin 255) (hi : st i = .getDescriptor) :
      PortStep st cur none (Function.update st i .endOfInitialize) cur

namespace Driver

variable {d : Driver} {i : ℤ} {k : Fin 255} {s : DeviceStatus}

theorem statusAt_eq_some :
    d.statusAt i = some s ↔ ∃ k : Fin 255, (k : ℤ) = i ∧ d.deviceStatus k = s := by
  rw [statusAt]
  constructor
  · intro h
    split_ifs at h with hi
    exact ⟨⟨i.toNat, by omega⟩, by simp [hi.1], Option.some.inj h⟩
  · rintro ⟨k, rfl, rfl⟩
    have hk : 0 ≤ (k : ℤ) ∧ (k : ℤ) < 255 := by omega
    rw [dif_pos hk]
    rfl

theorem setStatus_fin (k : Fin 255) :
    d.setStatus k s = { d with deviceStatus := Function.update d.deviceStatus k s } := by
  have hk : 0 ≤ (k : ℤ) ∧ (k : ℤ) < 255 := by omega
  rw [setStatus, dif_pos hk]
  rfl

@[simp] theorem setSpeed_deviceStatus {v : Word} :
    (d.setSpeed i v).deviceStatus = d.deviceStatus := by
  rw [setSpeed]
  split <;> rfl

@[simp] theorem setSpeed_currentPort {v : Word} : (d.setSpeed i v).currentPort = d.currentPort := by
  rw [setSpeed]
  split <;> rfl

/-- The part of the loop that has looked at `n` ports. -/
theorem foldl_nextPort (d : Driver) (n : ℕ) :
    let port := (List.range n).foldl
      (fun (port : ℤ) (i : ℕ) ↦ if d.statusAt i = some .waitEnableSlot then i + 1 else port) (-1)
    port = -1 ∧ (∀ k : Fin 255, (k : ℕ) < n → d.deviceStatus k ≠ .waitEnableSlot) ∨
      ∃ k : Fin 255, d.deviceStatus k = .waitEnableSlot ∧ port = k + 1 := by
  induction n with
  | zero => exact .inl ⟨rfl, fun k hk ↦ absurd hk (Nat.not_lt_zero k)⟩
  | succ n ih =>
    simp only [List.range_succ, List.foldl_append, List.foldl_cons, List.foldl_nil]
    by_cases hn : d.statusAt n = some .waitEnableSlot
    · obtain ⟨k, hk, hst⟩ := statusAt_eq_some.mp hn
      rw [if_pos hn]
      exact .inr ⟨k, hst, by rw [← hk]⟩
    · rw [if_neg hn]
      rcases ih with ⟨hfold, hnone⟩ | hsome
      · refine .inl ⟨hfold, fun k hk hst ↦ ?_⟩
        rcases Nat.lt_succ_iff_lt_or_eq.mp hk with hlt | heq
        · exact hnone k hlt hst
        · exact hn (statusAt_eq_some.mpr ⟨k, by rw [heq], hst⟩)
      · exact .inr hsome

/-- The loop ends with a waiting port, if there is one. -/
theorem nextPort_cases (d : Driver) :
    d.nextPort = -1 ∧ (∀ k, d.deviceStatus k ≠ .waitEnableSlot) ∨
      ∃ k : Fin 255, d.deviceStatus k = .waitEnableSlot ∧ d.nextPort = k + 1 := by
  rcases foldl_nextPort d 256 with ⟨hfold, hnone⟩ | hsome
  · exact .inl ⟨hfold, fun k ↦ hnone k (by omega)⟩
  · exact .inr hsome

@[simp] theorem setStatus_currentPort : (d.setStatus i s).currentPort = d.currentPort := by
  rw [setStatus]
  split <;> rfl

/-- A record that differs elsewhere has the same states afterwards. -/
theorem setStatus_congr {d' : Driver} (h : d'.deviceStatus = d.deviceStatus) :
    (d'.setStatus i s).deviceStatus = (d.setStatus i s).deviceStatus := by
  rw [setStatus, setStatus]
  split
  · rw [h]
  · exact h

theorem handleEnableSlot_currentPort (r : Readings) (slotId portId : Byte) :
    (d.handleEnableSlot r slotId portId).currentPort = d.currentPort := by
  rw [handleEnableSlot, setStatus_currentPort, setSpeed_currentPort]
  split_ifs <;> rfl

theorem handleEnableSlot_deviceStatus (r : Readings) (slotId portId : Byte) :
    (d.handleEnableSlot r slotId portId).deviceStatus =
      (d.setStatus (d.currentPort - 1) .addressDevice).deviceStatus := by
  have hcur := handleEnableSlot_currentPort (d := d) r slotId portId
  rw [handleEnableSlot, setStatus_currentPort, setSpeed_currentPort] at hcur
  rw [handleEnableSlot, setSpeed_currentPort, hcur]
  refine setStatus_congr ?_
  rw [setSpeed_deviceStatus]
  split_ifs <;> rfl

/-- The element of the array an event's port stands for. -/
theorem exists_port {port : Byte} (hport : port ≠ 0) :
    ∃ k : Fin 255, (port.toNat : ℤ) - 1 = k ∧ (port.toNat : ℤ) = k + 1 := by
  have hpos : port.toNat ≠ 0 := fun h ↦ hport (BitVec.eq_of_toNat_eq h)
  exact ⟨⟨port.toNat - 1, by omega⟩, by simp only; omega, by simp only; omega⟩

theorem portStatusChange_portStep (r : Readings) {port : Byte} (hport : port ≠ 0) :
    ∃ l, PortStep d.deviceStatus d.currentPort l (d.portStatusChange r port).deviceStatus
        (d.portStatusChange r port).currentPort ∧
      ∀ k, l = some k → (port.toNat : ℤ) = k + 1 ∧ r.operation (portsc port &&& 0x01) ≠ 0 ∧
        r.operation (portsc port) &&& 0x02 ≠ 0 := by
  obtain ⟨k, hk, hk'⟩ := exists_port hport
  rw [portStatusChange]
  by_cases hzero : r.operation (portsc port &&& 0x01) ≠ 0
  · by_cases hped : r.operation (portsc port) &&& 0x02 ≠ 0
    · refine ⟨some k, ?_, ?_⟩
      · by_cases hcur : d.currentPort = -1
        · simp only [if_pos hzero, if_pos hped, issue, hcur, if_true, hk', add_sub_cancel_right,
            setStatus_fin]
          rw [← hcur]
          exact .take k hcur
        · simp only [if_pos hzero, if_pos hped, issue, hcur, if_false, hk, setStatus_fin]
          exact .wait k hcur
      · rintro _ ⟨⟩
        exact ⟨hk', hzero, hped⟩
    · simp only [if_pos hzero, if_neg hped]
      exact ⟨none, .stay, by simp⟩
  · simp only [if_neg hzero]
    exact ⟨none, .stay, by simp⟩

theorem handOver_portStep (hcur : d.currentPort = k + 1) (hst : d.deviceStatus k = .addressDevice) :
    PortStep d.deviceStatus d.currentPort none (d.setStatus k .getDescriptor).handOver.deviceStatus
      (d.setStatus k .getDescriptor).handOver.currentPort := by
  rw [setStatus_fin, handOver]
  rcases nextPort_cases { d with deviceStatus := Function.update d.deviceStatus k .getDescriptor }
    with ⟨hnext, hnone⟩ | ⟨j, hj, hnext⟩
  · simp only [hnext, ne_eq, not_true, if_false]
    refine .release k hcur hst fun j hj ↦ hnone j ?_
    simp only
    rwa [Function.update_of_ne]
    rintro rfl
    rw [hst] at hj
    cases hj
  · have hne : (j : ℤ) + 1 ≠ -1 := by omega
    have hjk : j ≠ k := by
      rintro rfl
      simp at hj
    simp only [hnext, ne_eq, hne, not_false_iff, if_true, add_sub_cancel_right, setStatus_fin,
      issue]
    simp only [Function.update_of_ne hjk] at hj
    exact .handOver k j hcur hst hj

/-- The port a completion is taken to be for. -/
def completionPort (d : Driver) (slotId : Byte) : Byte :=
  d.contextPort slotId (BitVec.ofInt 8 d.currentPort)

theorem commandCompletion_enable (r : Readings) (slotId : Byte)
    (hst : d.statusAt (d.currentPort - 1) = some .enableSlot) :
    d.commandCompletion r 9 slotId = d.handleEnableSlot r slotId (d.completionPort slotId) := by
  simp [commandCompletion, hst, completionPort]

theorem commandCompletion_address (r : Readings) (slotId : Byte)
    (hst : d.statusAt (d.currentPort - 1) = some .addressDevice) :
    d.commandCompletion r 11 slotId =
      ((d.request ((d.completionPort slotId).toNat - 1) slotId).setStatus (d.currentPort - 1)
        .getDescriptor).handOver := by
  simp [commandCompletion, hst, completionPort, request]

theorem commandCompletion_none (r : Readings) {type : BitVec 6} (slotId : Byte)
    (henable : type = 9 → d.statusAt (d.currentPort - 1) ≠ some .enableSlot)
    (haddress : type = 11 → d.statusAt (d.currentPort - 1) ≠ some .addressDevice) :
    d.commandCompletion r type slotId = d := by
  have h9 : ¬(type = 9 ∧ d.statusAt (d.currentPort - 1) = some .enableSlot) :=
    fun h ↦ henable h.1 h.2
  have h11 : ¬(type = 11 ∧ d.statusAt (d.currentPort - 1) = some .addressDevice) :=
    fun h ↦ haddress h.1 h.2
  simp only [commandCompletion, if_neg h9, if_neg h11]

theorem commandCompletion_portStep (r : Readings) (type : BitVec 6) (slotId : Byte) :
    PortStep d.deviceStatus d.currentPort none (d.commandCompletion r type slotId).deviceStatus
      (d.commandCompletion r type slotId).currentPort := by
  by_cases henable : type = 9 ∧ d.statusAt (d.currentPort - 1) = some .enableSlot
  · obtain ⟨rfl, hst⟩ := henable
    rw [commandCompletion_enable r slotId hst]
    obtain ⟨k, hk, hst⟩ := statusAt_eq_some.mp hst
    rw [handleEnableSlot_currentPort, handleEnableSlot_deviceStatus, ← hk, setStatus_fin]
    exact .enabled k (by rw [hk, sub_add_cancel]) hst
  · by_cases haddress : type = 11 ∧ d.statusAt (d.currentPort - 1) = some .addressDevice
    · obtain ⟨rfl, hst⟩ := haddress
      rw [commandCompletion_address r slotId hst]
      obtain ⟨k, hk, hst⟩ := statusAt_eq_some.mp hst
      rw [← hk]
      exact handOver_portStep (d := d.request _ slotId)
        (by rw [hk]; exact (sub_add_cancel _ _).symm)
        hst
    · rw [commandCompletion_none r slotId (fun h hst ↦ henable ⟨h, hst⟩)
        fun h hst ↦ haddress ⟨h, hst⟩]
      exact .stay

theorem configure_currentPort (keyboards : List Bool) (slotId : Byte) :
    (d.configure i slotId keyboards).currentPort = d.currentPort := by
  induction keyboards generalizing d with
  | nil => rfl
  | cons keyboard keyboards ih =>
    rw [configure, ih, setStatus_currentPort]
    split <;> rfl

/-- However many configurations there are, the port ends as the first leaves it. -/
theorem configure_deviceStatus (keyboard : Bool) (keyboards : List Bool) (slotId : Byte) :
    (d.configure k slotId (keyboard :: keyboards)).deviceStatus =
      Function.update d.deviceStatus k .endOfInitialize := by
  induction keyboards generalizing d keyboard with
  | nil =>
    rw [configure, configure, setStatus_fin]
    split <;> rfl
  | cons keyboard' keyboards ih =>
    rw [configure, ih, setStatus_fin]
    split <;> exact Function.update_idem _ _ _

theorem transfer_portStep (r : Readings) (code slotId : Byte) :
    PortStep d.deviceStatus d.currentPort none (d.transfer r code slotId).deviceStatus
      (d.transfer r code slotId).currentPort := by
  rw [transfer]
  by_cases hcode : code = 1 ∨ code = 13
  · by_cases hst : d.statusAt ((d.contextPort slotId r.noContext).toNat - 1) = some .getDescriptor
    · simp only [if_pos hcode, if_pos hst]
      obtain ⟨k, hk, hst⟩ := statusAt_eq_some.mp hst
      rw [← hk]
      cases r.keyboards with
      | nil => exact .stay
      | cons keyboard keyboards =>
        rw [configure_deviceStatus, configure_currentPort]
        exact .configured k hst
    · simp only [if_pos hcode, if_neg hst]
      exact .stay
  · simp only [if_neg hcode]
    exact .stay

end Driver

/-- Every iteration is a step of the ports, and one labelled with a port is for an event of that
port, which is enabled. -/
theorem process_portStep (d : Driver) {a : Arrival} (ha : a.PortOk) :
    ∃ l, PortStep d.deviceStatus d.currentPort l (d.process a.readings a.event).deviceStatus
        (d.process a.readings a.event).currentPort ∧
      ∀ k : Fin 255, l = some k → ∃ port, a.Enabled port ∧ (port.toNat : ℤ) = k + 1 := by
  obtain ⟨r, event⟩ := a
  cases event with
  | transfer code slotId => exact ⟨none, Driver.transfer_portStep r code slotId, by simp⟩
  | commandCompletion type slotId =>
    exact ⟨none, Driver.commandCompletion_portStep r type slotId, by simp⟩
  | portStatusChange port =>
    have hport : port ≠ 0 := fun h ↦ ha (by rw [h])
    obtain ⟨l, hstep, hl⟩ := Driver.portStatusChange_portStep (d := d) r hport
    refine ⟨l, hstep, fun k hk ↦ ?_⟩
    obtain ⟨hk', hzero, hped⟩ := hl k hk
    exact ⟨port, ⟨rfl, hzero, hped⟩, hk'⟩

end VimOS
