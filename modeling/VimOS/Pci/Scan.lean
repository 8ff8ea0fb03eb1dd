import Mathlib.Data.List.Nodup
import Mathlib.Data.List.ProdSigma
import Mathlib.Tactic

/-!
# The scan of the PCI buses

`init_pci` looks for xHCI controllers. It goes through the device numbers of the buses it has found
and calls `init_xhci` where function 0 has the class of an xHCI.

Configuration space is selected by the bits of the address register: 8 for the bus, 5 for the
device, 3 for the function, 6 for the register. The loop takes 255 device numbers, not 32: what does
not fit is or-ed into the bits of the bus, so that higher numbers select functions of other buses.
-/

namespace VimOS

/-! ## Configuration space -/

/-- A function of a PCI device. -/
structure PciFunction where
  bus : BitVec 8
  dev : BitVec 5
  func : BitVec 3
  deriving DecidableEq

/-- The registers of all functions. -/
abbrev ConfigSpace := PciFunction → BitVec 6 → BitVec 32

/-- The address that is written to `PCI_CONFIG_ADDRESS`. -/
def configAddr (bus dev func offset : BitVec 8) : BitVec 32 :=
  0x80000000 ||| (bus.setWidth 32 <<< 16) ||| (dev.setWidth 32 <<< 11) |||
    (func.setWidth 32 <<< 8) ||| (offset &&& 0xfc).setWidth 32

/-- The function that an address selects. -/
def selectFunction (addr : BitVec 32) : PciFunction where
  bus := addr.extractLsb' 16 8
  dev := addr.extractLsb' 11 5
  func := addr.extractLsb' 8 3

/-- The register that an address selects. -/
def selectRegister (addr : BitVec 32) : BitVec 6 := addr.extractLsb' 2 6

def pciRead32 (c : ConfigSpace) (bus dev func offset : BitVec 8) : BitVec 32 :=
  let addr := configAddr bus dev func offset
  c (selectFunction addr) (selectRegister addr)

def pciRead (c : ConfigSpace) (bus dev func offset : BitVec 8) : BitVec 16 :=
  (pciRead32 c bus dev func offset >>> ((offset &&& 2) * 8).toNat &&& 0xffff).setWidth 16

def pciWrite (c : ConfigSpace) (bus dev func offset : BitVec 8) (data : BitVec 32) : ConfigSpace :=
  let addr := configAddr bus dev func offset
  Function.update c (selectFunction addr)
    (Function.update (c (selectFunction addr)) (selectRegister addr) data)

/-! ## The scan -/

/-- `struct pci_device`. -/
structure PciDevice where
  vendor : BitVec 16
  device : BitVec 16
  bar0 : BitVec 32
  bar1 : BitVec 32
  bar2 : BitVec 32
  bar3 : BitVec 32
  bar4 : BitVec 32
  bar5 : BitVec 32

structure PciState where
  config : ConfigSpace
  /-- The calls of `init_xhci`, with the function whose registers the device holds. -/
  calls : List (PciFunction × PciDevice)

def readHeaderType (c : ConfigSpace) (bus dev func : BitVec 8) : BitVec 8 :=
  (pciRead c bus dev func 0x0e &&& 0xff).setWidth 8

def isSingleFunctionDevice (headerType : BitVec 8) : Bool := headerType &&& 0x80 = 0

/-- Prints the function in a test build, and does nothing otherwise. -/
def scanFunction (_bus _dev _func : BitVec 8) (s : PciState) : PciState := s

/-- What is done with an xHCI, up to the call of `init_xhci`. -/
def enableXhci (bus dev : BitVec 8) (s : PciState) : PciState :=
  let vendid := pciRead s.config bus dev 0 0x00
  let devid := pciRead s.config bus dev 0 0x02
  -- bus mastering, memory write and memory space
  let data := pciRead32 s.config bus dev 0 0x04 ||| 0x04 ||| 0x10 ||| 0x02
  let c := pciWrite s.config bus dev 0 0x04 data
  let device : PciDevice := {
    vendor := vendid
    device := devid
    bar0 := pciRead32 c bus dev 0 0x10
    bar1 := pciRead32 c bus dev 0 0x14
    bar2 := pciRead32 c bus dev 0 0x18
    bar3 := pciRead32 c bus dev 0 0x1c
    bar4 := pciRead32 c bus dev 0 0x20
    bar5 := pciRead32 c bus dev 0 0x24 }
  -- the ports of the EHCI are handed over
  let c :=
    if vendid = 0x8086 then
      let c := pciWrite c bus dev 0 0xd8 (pciRead32 c bus dev 0 0xdc)
      pciWrite c bus dev 0 0xd0 (pciRead32 c bus dev 0 0xd4)
    else c
  ⟨c, s.calls ++ [(selectFunction (configAddr bus dev 0 0), device)]⟩

def scanDevice (bus dev : BitVec 8) (s : PciState) : PciState :=
  let s := scanFunction bus dev 0 s
  let progIf := ((pciRead s.config bus dev 0 0x08 &&& 0xff00) >>> 8).setWidth 8
  let classCode := ((pciRead s.config bus dev 0 0x0a &&& 0xff00) >>> 8).setWidth 8
  let subclassCode := (pciRead s.config bus dev 0 0x0a &&& 0x00ff).setWidth 8
  let s :=
    if classCode = (0x0c : BitVec 8) ∧ subclassCode = (0x03 : BitVec 8) ∧ progIf = (0x30 : BitVec 8)
    then enableXhci bus dev s
    else s
  if isSingleFunctionDevice (readHeaderType s.config bus dev 0) then s
  else
    ((List.range' 1 7).map (BitVec.ofNat 8)).foldl (fun s func ↦
      if pciRead s.config bus dev func 0x00 = 0xffff then s else scanFunction bus dev func s) s

/-- The values of `dev` in `scanBus`. -/
def deviceNumbers : List (BitVec 8) := (List.range 255).map (BitVec.ofNat 8)

def scanBus (bus : BitVec 8) (s : PciState) : PciState :=
  deviceNumbers.foldl (fun s dev ↦
    if pciRead s.config bus dev 0 0x00 = 0xffff then s else scanDevice bus dev s) s

/-- The values of `func` in `initPci`. -/
def functionNumbers : List (BitVec 8) := (List.range 8).map (BitVec.ofNat 8)

def initPci (c : ConfigSpace) : PciState :=
  if isSingleFunctionDevice (readHeaderType c 0 0 0) then scanBus 0 ⟨c, []⟩
  else
    functionNumbers.foldl (fun s func ↦
      if pciRead s.config 0 0 func 0x00 = 0xffff then s else scanBus func s) ⟨c, []⟩

/-! ## What there is to be found -/

/-- The vendor of a function that does not exist reads as ones. -/
def FunctionExists (c : ConfigSpace) (f : PciFunction) : Prop :=
  (c f 0).setWidth 16 ≠ (0xffff : BitVec 16)

/-- Class, subclass and programming interface are those of an xHCI. -/
def HasXhciClass (c : ConfigSpace) (f : PciFunction) : Prop :=
  (c f 2).extractLsb' 24 8 = 0x0c ∧ (c f 2).extractLsb' 16 8 = 0x03 ∧ (c f 2).extractLsb' 8 8 = 0x30

/-- An existing function that is an xHCI. -/
def IsXhci (c : ConfigSpace) (f : PciFunction) : Prop := FunctionExists c f ∧ HasXhciClass c f

instance (c : ConfigSpace) (f : PciFunction) : Decidable (FunctionExists c f) :=
  inferInstanceAs (Decidable (_ ≠ _))

instance (c : ConfigSpace) (f : PciFunction) : Decidable (HasXhciClass c f) :=
  inferInstanceAs (Decidable (_ ∧ _))

instance (c : ConfigSpace) (f : PciFunction) : Decidable (IsXhci c f) :=
  inferInstanceAs (Decidable (_ ∧ _))

/-- The buses that are scanned: bus 0 if 0:0.0 has a single function, otherwise one for each
existing function of 0:0. -/
def scannedBuses (c : ConfigSpace) : List (BitVec 8) :=
  if (c ⟨0, 0, 0⟩ 3).getLsbD 23 = false then [0]
  else functionNumbers.filter fun func ↦ FunctionExists c ⟨0, 0, func.setWidth 3⟩

/-- The function that function 0 of a device number selects. -/
def selected (bus dev : BitVec 8) : PciFunction := selectFunction (configAddr bus dev 0 0)

/-! ## The address -/

section Address

variable {bus dev func offset : BitVec 8} {c : ConfigSpace} {f : PciFunction}

theorem selectRegister_configAddr :
    selectRegister (configAddr bus dev func offset) = offset.extractLsb' 2 6 := by
  ext i hi
  interval_cases i <;> simp [selectRegister, configAddr]

/-- The upper three bits of the device number go into the bus. -/
theorem selectFunction_configAddr : selectFunction (configAddr bus dev 0 offset) =
    ⟨bus ||| dev >>> 5, dev.setWidth 5, 0⟩ := by
  rw [selectFunction, PciFunction.mk.injEq]
  refine ⟨?_, ?_, ?_⟩
  all_goals
    ext i hi
    interval_cases i <;> simp [configAddr]

theorem selected_eq : selected bus dev = ⟨bus ||| dev >>> 5, dev.setWidth 5, 0⟩ :=
  selectFunction_configAddr

/-- A device number of five bits selects a device of its bus. -/
theorem selected_of_lt (hdev : dev < 32) : selected bus dev = ⟨bus, dev.setWidth 5, 0⟩ := by
  have hzero : dev >>> 5 = 0 := by
    rw [BitVec.lt_def] at hdev
    refine BitVec.eq_of_toNat_eq ?_
    rw [BitVec.toNat_ushiftRight, Nat.shiftRight_eq_div_pow]
    exact Nat.div_eq_of_lt hdev
  rw [selected_eq, hzero]
  exact congrArg (PciFunction.mk · _ _) BitVec.or_zero

theorem lt_255_of_lt (hdev : dev < 32) : dev < 255 :=
  Nat.lt_trans hdev (by decide)

theorem setWidth_dev_lt (dev : BitVec 5) : dev.setWidth 8 < 32 := by
  rw [BitVec.lt_def, BitVec.toNat_setWidth_of_le (by decide)]
  exact dev.isLt

/-- Function 0 of a device is selected by the device's own number. -/
theorem selected_self (hfunc : f.func = 0) : selected f.bus (f.dev.setWidth 8) = f := by
  have hdev : (f.dev.setWidth 8).setWidth 5 = f.dev := by
    rw [BitVec.setWidth_setWidth_of_le _ (by decide), BitVec.setWidth_eq]
  rw [selected_of_lt (setWidth_dev_lt _), hdev, ← hfunc]

theorem selectFunction_host (func : BitVec 3) (offset : BitVec 8) :
    selectFunction (configAddr 0 0 (func.setWidth 8) offset) = ⟨0, 0, func⟩ := by
  rw [selectFunction, PciFunction.mk.injEq]
  refine ⟨?_, ?_, ?_⟩
  all_goals
    ext i hi
    interval_cases i <;> simp [configAddr]

theorem setWidth_functionNumber (hfunc : func ∈ functionNumbers) :
    (func.setWidth 3).setWidth 8 = func := by
  revert func
  decide

end Address

/-! ## The registers that are read -/

section Headers

variable {bus dev func : BitVec 8} {c c' : ConfigSpace} {f : PciFunction}

theorem pciRead32_eq {offset : BitVec 8} :
    pciRead32 c bus dev 0 offset = c (selected bus dev) (offset.extractLsb' 2 6) := by
  rw [pciRead32, selectRegister_configAddr, selectFunction_configAddr, selected_eq]

theorem pciRead_vendor :
    pciRead c bus dev func 0x00 =
      (c (selectFunction (configAddr bus dev func 0)) 0).setWidth 16 := by
  rw [pciRead, pciRead32, selectRegister_configAddr]
  ext i hi
  interval_cases i <;> simp

theorem isSingleFunctionDevice_readHeaderType :
    isSingleFunctionDevice (readHeaderType c bus dev 0) ↔
      (c (selected bus dev) 3).getLsbD 23 = false := by
  have hread : readHeaderType c bus dev 0 = (c (selected bus dev) 3).extractLsb' 16 8 := by
    rw [readHeaderType, pciRead, pciRead32_eq]
    ext i hi
    interval_cases i <;> simp
  rw [isSingleFunctionDevice, decide_eq_true_iff, hread]
  generalize c (selected bus dev) 3 = v
  constructor
  · intro h
    have hbit := congrArg (BitVec.getLsbD · 7) h
    simpa using hbit
  · intro h
    have hbit : v[23] = false := by simpa using h
    ext i hi
    interval_cases i <;> simp [hbit]

theorem class_iff :
    ((pciRead c bus dev 0 0x0a &&& 0xff00) >>> 8).setWidth 8 = (0x0c : BitVec 8) ∧
      (pciRead c bus dev 0 0x0a &&& 0x00ff).setWidth 8 = (0x03 : BitVec 8) ∧
      ((pciRead c bus dev 0 0x08 &&& 0xff00) >>> 8).setWidth 8 = (0x30 : BitVec 8) ↔
    HasXhciClass c (selected bus dev) := by
  have hclass : ((pciRead c bus dev 0 0x0a &&& 0xff00) >>> 8).setWidth 8 =
      (c (selected bus dev) 2).extractLsb' 24 8 := by
    rw [pciRead, pciRead32_eq]
    ext i hi
    interval_cases i <;> simp
  have hsubclass : (pciRead c bus dev 0 0x0a &&& 0x00ff).setWidth 8 =
      (c (selected bus dev) 2).extractLsb' 16 8 := by
    rw [pciRead, pciRead32_eq]
    ext i hi
    interval_cases i <;> simp
  have hprogIf : ((pciRead c bus dev 0 0x08 &&& 0xff00) >>> 8).setWidth 8 =
      (c (selected bus dev) 2).extractLsb' 8 8 := by
    rw [pciRead, pciRead32_eq]
    ext i hi
    interval_cases i <;> simp
  rw [hclass, hsubclass, hprogIf, HasXhciClass]

/-- The registers that decide over the scan: vendor, class and header type. -/
def SameHeaders (c c' : ConfigSpace) : Prop :=
  ∀ f, c' f 0 = c f 0 ∧ c' f 2 = c f 2 ∧ c' f 3 = c f 3

theorem SameHeaders.hasXhciClass_iff (h : SameHeaders c c') :
    HasXhciClass c' f ↔ HasXhciClass c f := by
  rw [HasXhciClass, (h f).2.1]
  rfl

theorem SameHeaders.pciWrite {offset : BitVec 8} {data : BitVec 32} (h : SameHeaders c c')
    (hreg : offset.extractLsb' 2 6 ∉ [(0 : BitVec 6), 2, 3]) :
    SameHeaders c (VimOS.pciWrite c' bus dev func offset data) := by
  intro f
  simp only [List.mem_cons, not_or, List.not_mem_nil] at hreg
  have hother : ∀ r, offset.extractLsb' 2 6 ≠ r →
      VimOS.pciWrite c' bus dev func offset data f r = c' f r := by
    intro r hr
    rw [VimOS.pciWrite, selectRegister_configAddr, Function.update_apply]
    split_ifs with hf
    · rw [hf, Function.update_of_ne hr.symm]
    · rfl
  rw [hother 0 hreg.1, hother 2 hreg.2.1, hother 3 hreg.2.2.1]
  exact h f

end Headers

/-! ## The calls of a scan -/

section Calls

variable {bus dev func : BitVec 8} {c c' : ConfigSpace} {s : PciState} {f : PciFunction}

/-- A part of the scan keeps the headers and calls `init_xhci` for the functions `fs`, in this
order. -/
def Finds (c : ConfigSpace) (step : PciState → PciState) (fs : List PciFunction) : Prop :=
  ∀ s, SameHeaders c s.config → SameHeaders c (step s).config ∧
    (step s).calls.map Prod.fst = s.calls.map Prod.fst ++ fs

theorem Finds.id : Finds c id [] := fun _ hs ↦ ⟨hs, (List.append_nil _).symm⟩

theorem Finds.foldl {ι : Type*} {l : List ι} {step : PciState → ι → PciState}
    {found : ι → List PciFunction} (h : ∀ i ∈ l, Finds c (step · i) (found i)) :
    Finds c (fun s ↦ l.foldl step s) (l.flatMap found) := by
  induction l with
  | nil => exact Finds.id
  | cons i l ih =>
    rw [List.forall_mem_cons] at h
    intro s hs
    obtain ⟨hsame, hcalls⟩ := h.1 s hs
    obtain ⟨hsame', hcalls'⟩ := ih h.2 (step s i) hsame
    refine ⟨hsame', hcalls'.trans ?_⟩
    rw [hcalls, List.flatMap_cons, List.append_assoc]

/-- A function is passed over if its vendor reads as ones. -/
theorem Finds.ite_exists {step : PciState → PciState} {fs : List PciFunction}
    (h : Finds c step fs) (hf : selectFunction (configAddr bus dev func 0) = f) :
    Finds c (fun s ↦ if pciRead s.config bus dev func 0x00 = 0xffff then s else step s)
      (if FunctionExists c f then fs else []) := by
  intro s hs
  have hiff : pciRead s.config bus dev func 0x00 = 0xffff ↔ ¬ FunctionExists c f := by
    rw [pciRead_vendor, hf, (hs f).1, FunctionExists, not_not]
  by_cases hexists : FunctionExists c f
  · simp only [hiff, hexists, not_true_eq_false, if_false, if_true]
    exact h s hs
  · simp only [hiff, hexists, not_false_eq_true, if_true, if_false]
    exact Finds.id s hs

theorem finds_enableXhci : Finds c (enableXhci bus dev) [selected bus dev] := by
  intro s hs
  refine ⟨?_, by rw [enableXhci, List.map_append]; rfl⟩
  have hcommand : ∀ data, SameHeaders c (pciWrite s.config bus dev 0 0x04 data) :=
    fun data ↦ hs.pciWrite (by decide)
  rw [enableXhci]
  dsimp only
  split_ifs
  · exact ((hcommand _).pciWrite (by decide)).pciWrite (by decide)
  · exact hcommand _

/-- The functions 1 to 7 of a device are only looked at. -/
theorem scanDevice_eq : scanDevice bus dev s =
    if HasXhciClass s.config (selected bus dev) then enableXhci bus dev s else s := by
  rw [scanDevice]
  simp only [scanFunction, ite_self, List.foldl_fixed, class_iff]

theorem finds_scanDevice : Finds c (scanDevice bus dev)
    (if HasXhciClass c (selected bus dev) then [selected bus dev] else []) := by
  intro s hs
  rw [scanDevice_eq]
  simp only [hs.hasXhciClass_iff]
  split_ifs
  · exact finds_enableXhci s hs
  · exact Finds.id s hs

theorem flatMap_ite {ι κ : Type*} (l : List ι) (p : ι → Prop) [DecidablePred p] (g : ι → List κ) :
    (l.flatMap fun i ↦ if p i then g i else []) = (l.filter p).flatMap g := by
  induction l with
  | nil => rfl
  | cons i l ih =>
    rw [List.flatMap_cons, ih, List.filter_cons]
    by_cases hi : p i
    · rw [if_pos hi, if_pos (decide_eq_true hi), List.flatMap_cons]
    · rw [if_neg hi, if_neg (by simpa using hi), List.nil_append]

/-- The controllers that the device numbers of a bus select. -/
def foundOn (c : ConfigSpace) (bus : BitVec 8) : List PciFunction :=
  (deviceNumbers.filter fun dev ↦ IsXhci c (selected bus dev)).map (selected bus)

theorem finds_scanBus : Finds c (scanBus bus) (foundOn c bus) := by
  have hdev : ∀ dev ∈ deviceNumbers, Finds c (fun s ↦
      if pciRead s.config bus dev 0 0x00 = 0xffff then s else scanDevice bus dev s)
      (if IsXhci c (selected bus dev) then [selected bus dev] else []) := by
    intro dev _
    have hfinds := (@finds_scanDevice bus dev c).ite_exists (show _ = selected bus dev from rfl)
    rwa [← ite_and] at hfinds
  have hscan := Finds.foldl hdev
  rwa [flatMap_ite, ← List.map_eq_flatMap] at hscan

/-- The functions for which `init_pci` calls `init_xhci`, in this order. -/
theorem calls_initPci :
    (initPci c).calls.map Prod.fst = (scannedBuses c).flatMap (foundOn c) := by
  have hstart : SameHeaders c (PciState.mk c []).config := fun _ ↦ ⟨rfl, rfl, rfl⟩
  have hhost : selected 0 0 = ⟨0, 0, 0⟩ := by decide
  have hsingle := @isSingleFunctionDevice_readHeaderType 0 0 c
  rw [hhost] at hsingle
  rw [initPci, scannedBuses]
  split_ifs with hread hbit
  · rw [(finds_scanBus _ hstart).2]
    exact (List.flatMap_singleton (foundOn c) 0).symm
  · exact absurd (hsingle.mp hread) hbit
  · exact absurd (hsingle.mpr ‹_›) hread
  · have hfunc : ∀ func ∈ functionNumbers, Finds c (fun s ↦
        if pciRead s.config 0 0 func 0x00 = 0xffff then s else scanBus func s)
        (if FunctionExists c ⟨0, 0, func.setWidth 3⟩ then foundOn c func else []) := by
      intro func hfunc
      have hf := selectFunction_host (func.setWidth 3) 0
      rw [setWidth_functionNumber hfunc] at hf
      exact finds_scanBus.ite_exists hf
    rw [(Finds.foldl hfunc _ hstart).2, flatMap_ite]
    rfl

theorem mem_deviceNumbers : dev ∈ deviceNumbers ↔ dev < 255 := by
  rw [deviceNumbers, List.mem_map]
  constructor
  · rintro ⟨n, hn, rfl⟩
    rw [List.mem_range] at hn
    rw [BitVec.lt_def, BitVec.toNat_ofNat, Nat.mod_eq_of_lt (hn.trans (by decide))]
    exact hn
  · intro hdev
    exact ⟨dev.toNat, List.mem_range.mpr hdev, by simp⟩

theorem nodup_deviceNumbers : deviceNumbers.Nodup := by
  refine List.Nodup.map_on (fun m hm n hn heq ↦ ?_) List.nodup_range
  rw [List.mem_range] at hm hn
  have hmod := congrArg BitVec.toNat heq
  rwa [BitVec.toNat_ofNat, BitVec.toNat_ofNat, Nat.mod_eq_of_lt (hm.trans (by decide)),
    Nat.mod_eq_of_lt (hn.trans (by decide))] at hmod

theorem nodup_scannedBuses : (scannedBuses c).Nodup := by
  rw [scannedBuses]
  split_ifs
  · exact List.nodup_singleton 0
  · exact List.Nodup.filter _ (by decide)

/-- The calls, by bus and device number. -/
theorem calls_initPci_eq_map : (initPci c).calls.map Prod.fst =
    ((scannedBuses c ×ˢ deviceNumbers).filter fun p ↦ IsXhci c (selected p.1 p.2)).map
      fun p ↦ selected p.1 p.2 := by
  rw [calls_initPci]
  simp only [SProd.sprod, List.product, List.filter_flatMap, List.map_flatMap, List.filter_map,
    List.map_map]
  rfl

theorem mem_calls_initPci : f ∈ (initPci c).calls.map Prod.fst ↔
    ∃ bus ∈ scannedBuses c, ∃ dev < 255, IsXhci c (selected bus dev) ∧ selected bus dev = f := by
  simp only [calls_initPci_eq_map, List.mem_map, List.mem_filter, List.mem_product, Prod.exists,
    mem_deviceNumbers, decide_eq_true_eq, and_assoc, exists_and_left]

/-- No controller is called for twice if and only if no two device numbers of scanned buses select
the same one. -/
theorem nodup_calls_initPci : ((initPci c).calls.map Prod.fst).Nodup ↔
    ∀ bus ∈ scannedBuses c, ∀ dev < 255, ∀ bus' ∈ scannedBuses c, ∀ dev' < 255,
      IsXhci c (selected bus dev) → selected bus dev = selected bus' dev' →
        bus = bus' ∧ dev = dev' := by
  rw [calls_initPci_eq_map, List.nodup_map_iff_inj_on
    ((nodup_scannedBuses.product nodup_deviceNumbers).filter _)]
  simp only [List.mem_filter, List.mem_product, Prod.forall, mem_deviceNumbers, decide_eq_true_eq,
    Prod.mk.injEq, and_imp]
  constructor
  · intro h bus hbus dev hdev bus' hbus' dev' hdev' hxhci heq
    exact h bus dev hbus hdev hxhci bus' dev' hbus' hdev' (heq ▸ hxhci) heq
  · intro h bus dev hbus hdev hxhci bus' dev' hbus' hdev' _ heq
    exact h bus hbus dev hdev bus' hbus' dev' hdev' hxhci heq

end Calls

/-- **The scan of the buses**. `init_pci` calls `init_xhci` once for each xHCI on the buses it means
to scan, and for nothing else, if and only if on these buses no function but function 0 is an xHCI,
and no device number of more than five bits selects one. -/
theorem initPci_visits (c : ConfigSpace) :
    (((initPci c).calls.map Prod.fst).Nodup ∧
      ∀ f, f ∈ (initPci c).calls.map Prod.fst ↔ f.bus ∈ scannedBuses c ∧ IsXhci c f) ↔
    ∀ bus ∈ scannedBuses c, (∀ f : PciFunction, f.bus = bus → f.func ≠ 0 → ¬ IsXhci c f) ∧
      ∀ dev, 32 ≤ dev → dev < 255 → ¬ IsXhci c (selected bus dev) := by
  constructor
  · rintro ⟨hnodup, hmem⟩ bus hbus
    constructor
    · rintro f rfl hfunc hxhci
      obtain ⟨bus, -, dev, -, -, rfl⟩ := mem_calls_initPci.mp ((hmem f).mpr ⟨hbus, hxhci⟩)
      rw [selected_eq] at hfunc
      exact hfunc rfl
    · intro dev hle hlt hxhci
      have hcalled := mem_calls_initPci.mpr ⟨bus, hbus, dev, hlt, hxhci, rfl⟩
      have hbus' := ((hmem _).mp hcalled).1
      have hself : selected (selected bus dev).bus ((selected bus dev).dev.setWidth 8) =
          selected bus dev := selected_self (by rw [selected_eq])
      have hdev' := setWidth_dev_lt (selected bus dev).dev
      -- the device's own number is called for as well
      have hsame := nodup_calls_initPci.mp hnodup bus hbus dev hlt _ hbus' _
        (lt_255_of_lt hdev') hxhci hself.symm
      exact absurd hle (BitVec.not_le.mpr (hsame.2 ▸ hdev'))
  · intro h
    have hlow : ∀ bus ∈ scannedBuses c, ∀ dev < 255, IsXhci c (selected bus dev) → dev < 32 :=
      fun bus hbus dev hlt hxhci ↦ BitVec.not_le.mp fun hle ↦ (h bus hbus).2 dev hle hlt hxhci
    refine ⟨nodup_calls_initPci.mpr ?_, fun f ↦ ?_⟩
    · intro bus hbus dev hdev bus' hbus' dev' hdev' hxhci heq
      have hlt := hlow bus hbus dev hdev hxhci
      have hlt' := hlow bus' hbus' dev' hdev' (heq ▸ hxhci)
      rw [selected_of_lt hlt, selected_of_lt hlt', PciFunction.mk.injEq] at heq
      refine ⟨heq.1, ?_⟩
      have hdev := congrArg BitVec.toNat heq.2.1
      bv_omega
    · rw [mem_calls_initPci]
      constructor
      · rintro ⟨bus, hbus, dev, hdev, hxhci, rfl⟩
        refine ⟨?_, hxhci⟩
        rw [selected_of_lt (hlow bus hbus dev hdev hxhci)]
        exact hbus
      · rintro ⟨hbus, hxhci⟩
        have hfunc : f.func = 0 := by
          by_contra hfunc
          exact (h f.bus hbus).1 f rfl hfunc hxhci
        have hself := selected_self hfunc
        exact ⟨f.bus, hbus, _, lt_255_of_lt (setWidth_dev_lt f.dev), hself.symm ▸ hxhci, hself⟩

/-- Bus 0 holds a host bridge with a single function, and bus 1 an xHCI. -/
def behindBridge : ConfigSpace := fun f r ↦
  if f = ⟨0, 0, 0⟩ then if r = 0 then 0x12378086 else 0
  else if f = ⟨1, 0, 0⟩ then if r = 0 then 0x000d1b36 else if r = 2 then 0x0c033001 else 0
  else 0xffffffff

/-- Device number 32 of bus 0 is the first device of bus 1, which is not to be scanned. -/
theorem not_initPci_visits : ¬ ∀ c : ConfigSpace, ((initPci c).calls.map Prod.fst).Nodup ∧
    ∀ f, f ∈ (initPci c).calls.map Prod.fst ↔ f.bus ∈ scannedBuses c ∧ IsXhci c f := by
  intro h
  have hcalled : ⟨1, 0, 0⟩ ∈ (initPci behindBridge).calls.map Prod.fst :=
    mem_calls_initPci.mpr ⟨0, by decide, 32, by decide, by decide, by decide⟩
  exact absurd (((h behindBridge).2 _).mp hcalled).1 (by decide)

end VimOS
