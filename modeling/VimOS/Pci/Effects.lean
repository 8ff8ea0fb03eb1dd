import VimOS.Pci.Scan

/-!
# What the scan leaves behind

`init_pci` writes to the registers of the controllers that it finds, and to nothing else. It may
find one several times (`initPci_visits`), but then it writes what is there already.
-/

namespace VimOS

/-! ## One controller -/

/-- The registers of a controller, enabled. An Intel controller takes over the ports of the EHCI:
every port that can be switched is. -/
def enabledRegisters (regs : BitVec 6 → BitVec 32) : BitVec 6 → BitVec 32 :=
  let command := Function.update regs 1 (regs 1 ||| 0x16)
  if (regs 0).setWidth 16 = (0x8086 : BitVec 16) then
    Function.update (Function.update command 54 (regs 55)) 52 (regs 53)
  else command

/-- The device that a controller's registers describe. -/
def deviceOf (regs : BitVec 6 → BitVec 32) : PciDevice where
  vendor := (regs 0).setWidth 16
  device := (regs 0).extractLsb' 16 16
  bar0 := regs 4
  bar1 := regs 5
  bar2 := regs 6
  bar3 := regs 7
  bar4 := regs 8
  bar5 := regs 9

section Enable

variable {regs : BitVec 6 → BitVec 32} {bus dev : BitVec 8} {c : ConfigSpace} {s : PciState}

/-- Four registers are written at most. -/
theorem enabledRegisters_of_notMem {r : BitVec 6} (h : r ∉ [(1 : BitVec 6), 52, 54]) :
    enabledRegisters regs r = regs r := by
  simp only [List.mem_cons, List.not_mem_nil, or_false, not_or] at h
  rw [enabledRegisters]
  split_ifs
  · rw [Function.update_of_ne h.2.1, Function.update_of_ne h.2.2, Function.update_of_ne h.1]
  · rw [Function.update_of_ne h.1]

theorem enabledRegisters_command : enabledRegisters regs 1 = regs 1 ||| 0x16 := by
  rw [enabledRegisters]
  split_ifs
  · rw [Function.update_of_ne (by decide), Function.update_of_ne (by decide),
      Function.update_self]
  · rw [Function.update_self]

theorem deviceOf_enabledRegisters : deviceOf (enabledRegisters regs) = deviceOf regs := by
  have hkeep : ∀ r, r ∉ [(1 : BitVec 6), 52, 54] → enabledRegisters regs r = regs r :=
    fun r ↦ enabledRegisters_of_notMem
  simp only [deviceOf, hkeep 0 (by decide), hkeep 4 (by decide), hkeep 5 (by decide),
    hkeep 6 (by decide), hkeep 7 (by decide), hkeep 8 (by decide), hkeep 9 (by decide)]

/-- A controller that is enabled already is left as it is. -/
theorem enabledRegisters_idem :
    enabledRegisters (enabledRegisters regs) = enabledRegisters regs := by
  have hkeep : ∀ r, r ∉ [(1 : BitVec 6), 52, 54] → enabledRegisters regs r = regs r :=
    fun r ↦ enabledRegisters_of_notMem
  have hcommand : enabledRegisters regs 1 ||| 0x16 = enabledRegisters regs 1 := by
    rw [enabledRegisters_command, BitVec.or_assoc, BitVec.or_self]
  conv_lhs => rw [enabledRegisters]
  rw [hcommand, Function.update_eq_self, hkeep 0 (by decide), hkeep 55 (by decide),
    hkeep 53 (by decide)]
  split_ifs with hintel
  · have hports : enabledRegisters regs 54 = regs 55 := by
      rw [enabledRegisters, if_pos hintel, Function.update_of_ne (by decide), Function.update_self]
    have hroutes : enabledRegisters regs 52 = regs 53 := by
      rw [enabledRegisters, if_pos hintel, Function.update_self]
    rw [← hports, Function.update_eq_self, ← hroutes, Function.update_eq_self]
  · rfl

theorem pciWrite_eq {offset : BitVec 8} {data : BitVec 32} :
    pciWrite c bus dev 0 offset data = Function.update c (selected bus dev)
      (Function.update (c (selected bus dev)) (offset.extractLsb' 2 6) data) := by
  rw [pciWrite, selectRegister_configAddr, selectFunction_configAddr, selected_eq]

theorem pciRead_device :
    pciRead c bus dev 0 0x02 = (c (selected bus dev) 0).extractLsb' 16 16 := by
  rw [pciRead, pciRead32_eq]
  ext i hi
  interval_cases i <;> simp

/-- The scan of a controller is the enabling of what is selected. -/
theorem enableXhci_eq : enableXhci bus dev s =
    ⟨Function.update s.config (selected bus dev)
        (enabledRegisters (s.config (selected bus dev))),
      s.calls ++ [(selected bus dev, deviceOf (s.config (selected bus dev)))]⟩ := by
  have hvendor : pciRead s.config bus dev 0 0x00 =
      (s.config (selected bus dev) 0).setWidth 16 := pciRead_vendor
  have hbits : s.config (selected bus dev) 1 ||| 0x04 ||| 0x10 ||| 0x02 =
      s.config (selected bus dev) 1 ||| 0x16 := by
    rw [BitVec.or_assoc, BitVec.or_assoc]
    rfl
  rw [enableXhci, hvendor, pciRead_device, pciRead32_eq]
  simp only [pciRead32_eq, pciWrite_eq, Function.update_self, Function.update_idem]
  rw [PciState.mk.injEq]
  refine ⟨?_, ?_⟩
  · rw [enabledRegisters]
    split_ifs
    · simp only [← hbits]
      rfl
    · rw [← hbits]
      rfl
  · rfl

end Enable

/-! ## The whole scan -/

/-- What is there behind the calls of a part of the scan: the called controllers are enabled, and
each was called for with its own device. -/
structure Scanned (c : ConfigSpace) (s : PciState) : Prop where
  config : s.config = fun f ↦
    if f ∈ s.calls.map Prod.fst then enabledRegisters (c f) else c f
  calls : s.calls = (s.calls.map Prod.fst).map fun f ↦ (f, deviceOf (c f))

section Scan

variable {bus dev : BitVec 8} {c : ConfigSpace} {s : PciState}

theorem Scanned.enableXhci (h : Scanned c s) : Scanned c (enableXhci bus dev s) := by
  have hdevice : deviceOf (s.config (selected bus dev)) = deviceOf (c (selected bus dev)) := by
    rw [h.config]
    dsimp only
    split_ifs
    · exact deviceOf_enabledRegisters
    · rfl
  have hregisters : enabledRegisters (s.config (selected bus dev)) =
      enabledRegisters (c (selected bus dev)) := by
    rw [h.config]
    dsimp only
    split_ifs
    · exact enabledRegisters_idem
    · rfl
  rw [enableXhci_eq, hdevice, hregisters]
  refine ⟨funext fun f ↦ ?_, ?_⟩
  · simp only [List.map_append, List.map_cons, List.map_nil, List.mem_append, List.mem_singleton]
    by_cases hf : f = selected bus dev
    · rw [hf, Function.update_self, if_pos (.inr rfl)]
    · rw [Function.update_of_ne hf, h.config]
      simp only [hf, or_false]
  · simp only [List.map_append, List.map_cons, List.map_nil]
    rw [← h.calls]

theorem Scanned.scanDevice (h : Scanned c s) : Scanned c (scanDevice bus dev s) := by
  rw [scanDevice_eq]
  split_ifs
  · exact h.enableXhci
  · exact h

theorem Scanned.foldl {ι : Type*} {l : List ι} {step : PciState → ι → PciState}
    (h : Scanned c s) (hstep : ∀ s i, Scanned c s → Scanned c (step s i)) :
    Scanned c (l.foldl step s) :=
  List.foldlRecOn l step h fun s hs i _ ↦ hstep s i hs

theorem Scanned.scanBus (h : Scanned c s) : Scanned c (scanBus bus s) := by
  refine h.foldl fun s dev hs ↦ ?_
  split_ifs
  · exact hs
  · exact hs.scanDevice

end Scan

end VimOS
