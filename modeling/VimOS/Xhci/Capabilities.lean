import VimOS.Library.LinkedChain

/-!
# The extended capabilities of the host controller

Before it resets the controller, `init_xhci` walks the list of extended capabilities: it claims the
controller in each "USB Legacy Support" and prints each "Supported Protocol".

A capability gives the distance to the next one in bits 15:8 of its header, in dwords, and the
distance is relative to the capability itself. The code takes bits 23:8 for the *offset* of the next
capability from the first, in 16 bits, so that bits 21:8 decide.
-/

namespace VimOS

open LinkedChain

/-- The registers, by their address. -/
abbrev Registers := BitVec 64 → BitVec 32

/-! ## The discovery loop -/

/-- What is printed of a "Supported Protocol". -/
structure SupportedProtocol where
  portOffset : BitVec 32
  portCount : BitVec 32
  psic : BitVec 32
  deriving DecidableEq

/-- The fields of the dword at offset 8. -/
def supportedProtocol (offset08 : BitVec 32) : SupportedProtocol where
  portOffset := offset08 &&& 0xff
  portCount := (offset08 >>> 8) &&& 0xff
  psic := (offset08 >>> 28) &&& 0x0f

/-- What the loop has done. -/
structure Discovery where
  registers : Registers
  /-- The headers that were read. -/
  visited : List (BitVec 64)
  printed : List SupportedProtocol

/-- `xhci_extend_capability`. -/
def extendCapability (hccparams : BitVec 32) : BitVec 32 := ((hccparams >>> 16) &&& 0xffff) <<< 2

/-- `off` at the end of a pass, by the header. -/
def nextOff (v : BitVec 32) : BitVec 16 := (((v >>> 8) &&& 0xffff) <<< 2).setWidth 16

/-- A pass of the loop, up to the assignment of `off`: the variable `v` and what has been done. -/
def visitCapability (a : BitVec 64) (d : Discovery) : BitVec 32 × Discovery :=
  let v := d.registers a
  let (v, registers) :=
    if v &&& 0xff = 1 then (v ||| 1 <<< 24, Function.update d.registers a (v ||| 1 <<< 24))
    else (v, d.registers)
  let printed :=
    if v &&& 0xff = 2 then d.printed ++ [supportedProtocol (registers (a + 0x08))] else d.printed
  (v, ⟨registers, d.visited ++ [a], printed⟩)

/-- The loop, with the address of the first capability and `off`. -/
def discoverLoop (base : BitVec 64) : ℕ → BitVec 16 → Discovery → Option Discovery
  | 0, _, _ => none
  | fuel + 1, off, d =>
    let (v, d) := visitCapability (base + off.setWidth 64) d
    let off := nextOff v
    if off = 0 then some d else discoverLoop base fuel off d

/-- The address of the first capability. -/
def firstCapability (mmioBase : BitVec 64) (hccparams : BitVec 32) : BitVec 64 :=
  mmioBase + (extendCapability hccparams).setWidth 64

/-- The part of `init_xhci` that discovers the extended capabilities. -/
def discoverCapabilities (fuel : ℕ) (mmioBase : BitVec 64) (hccparams : BitVec 32)
    (registers : Registers) : Option Discovery :=
  discoverLoop (firstCapability mmioBase hccparams) fuel 0 ⟨registers, [], []⟩

/-! ## The list of capabilities -/

/-- The id of a capability, bits 7:0. -/
def capabilityId (v : BitVec 32) : BitVec 32 := v &&& 0xff

/-- The distance to the next capability in dwords, bits 15:8. -/
def nextDistance (v : BitVec 32) : BitVec 8 := v.extractLsb' 8 8

/-- The capability after the one at `a`. -/
def nextCapability (registers : Registers) (a : BitVec 64) : Option (BitVec 64) :=
  let d := nextDistance (registers a)
  if d = 0 then none else some (a + 4 * d.setWidth 64)

/-- Only the OS-owned semaphores of the "USB Legacy Support" capabilities among `caps` are set. -/
def setOsOwned (caps : List (BitVec 64)) (registers : Registers) : Registers := fun a ↦
  if a ∈ caps ∧ capabilityId (registers a) = 1 then registers a ||| 0x01000000 else registers a

/-! ## The walk of the loop -/

section Loop

variable {v : BitVec 32} {a base : BitVec 64} {caps : List (BitVec 64)} {registers : Registers}
  {d d' : Discovery} {fuel : ℕ} {off : BitVec 16}

theorem capabilityId_setOsOwned :
    capabilityId (setOsOwned caps registers a) = capabilityId (registers a) := by
  rw [setOsOwned]
  split
  · rw [capabilityId, capabilityId, BitVec.and_or_distrib_right]
    exact BitVec.or_zero
  · rfl

theorem nextOff_or : nextOff (v ||| 0x01000000) = nextOff v := by
  rw [nextOff, nextOff, BitVec.ushiftRight_or_distrib, BitVec.and_or_distrib_right,
    BitVec.shiftLeft_or_distrib, BitVec.setWidth_or]
  exact BitVec.or_zero

theorem nextOff_setOsOwned : nextOff (setOsOwned caps registers a) = nextOff (registers a) := by
  rw [setOsOwned]
  split
  · exact nextOff_or
  · rfl

theorem setOsOwned_snoc (hid : capabilityId (registers a) ≠ 1) :
    setOsOwned (caps ++ [a]) registers = setOsOwned caps registers := by
  funext b
  have hiff : b ∈ caps ++ [a] ∧ capabilityId (registers b) = 1 ↔
      b ∈ caps ∧ capabilityId (registers b) = 1 := by
    rw [List.mem_append, List.mem_singleton]
    refine ⟨fun ⟨hb, hone⟩ ↦ ⟨hb.resolve_right ?_, hone⟩, fun ⟨hb, hone⟩ ↦ ⟨.inl hb, hone⟩⟩
    rintro rfl
    exact hid hone
  simp only [setOsOwned, hiff]

theorem setOsOwned_update (hid : capabilityId (registers a) = 1) :
    Function.update (setOsOwned caps registers) a (setOsOwned caps registers a ||| 0x01000000) =
      setOsOwned (caps ++ [a]) registers := by
  funext b
  rw [Function.update_apply]
  split_ifs with hb
  · subst hb
    have hmem : b ∈ caps ++ [b] := List.mem_append_right _ (List.mem_singleton_self b)
    rw [setOsOwned, setOsOwned, if_pos (⟨hmem, hid⟩ : b ∈ caps ++ [b] ∧ _)]
    -- on a second visit the bit is set already
    split
    · rw [BitVec.or_assoc, BitVec.or_self]
    · rfl
  · have hiff : b ∈ caps ++ [a] ↔ b ∈ caps := by simp [hb]
    simp only [setOsOwned, hiff]

/-- A pass sets the semaphore of the capability it is at, if there is one, and nothing else. -/
theorem visitCapability_spec (h : d.registers = setOsOwned d.visited registers) :
    nextOff (visitCapability a d).1 = nextOff (registers a) ∧
      (visitCapability a d).2.visited = d.visited ++ [a] ∧
      (visitCapability a d).2.registers = setOsOwned (d.visited ++ [a]) registers := by
  have hid : d.registers a &&& 0xff = capabilityId (registers a) := by
    rw [h]
    exact capabilityId_setOsOwned
  rw [visitCapability, hid]
  split_ifs with hone
  · refine ⟨?_, rfl, ?_⟩
    · rw [h]
      exact nextOff_or.trans nextOff_setOsOwned
    · rw [← setOsOwned_update hone, ← h]
      rfl
  · refine ⟨?_, rfl, ?_⟩
    · rw [h]
      exact nextOff_setOsOwned
    · rw [setOsOwned_snoc hone, ← h]

/-- Where the loop goes from a capability. -/
def nextVisited (base : BitVec 64) (registers : Registers) (a : BitVec 64) : Option (BitVec 64) :=
  let off := nextOff (registers a)
  if off = 0 then none else some (base + off.setWidth 64)

theorem discoverLoop_succ (h : d.registers = setOsOwned d.visited registers)
    (ha : a = base + off.setWidth 64) :
    discoverLoop base (fuel + 1) off d =
      if nextOff (registers a) = 0 then some (visitCapability a d).2
      else discoverLoop base fuel (nextOff (registers a)) (visitCapability a d).2 := by
  rw [ha, ← (visitCapability_spec h).1]
  rfl

/-- A run of the loop that comes to its end. -/
theorem discoverLoop_walk (h : d.registers = setOsOwned d.visited registers)
    (hrun : discoverLoop base fuel off d = some d') :
    ∃ l, LinkedChain.Walk (nextVisited base registers) (base + off.setWidth 64) l ∧
      d'.visited = d.visited ++ l ∧ d'.registers = setOsOwned d'.visited registers := by
  induction fuel generalizing off d with
  | zero => exact absurd hrun nofun
  | succ fuel ih =>
    obtain ⟨-, hvisited, hregisters⟩ := @visitCapability_spec (base + off.setWidth 64) _ _ h
    rw [discoverLoop_succ h rfl] at hrun
    split_ifs at hrun with hzero
    · obtain rfl := Option.some.inj hrun
      refine ⟨_, .last ?_, hvisited, ?_⟩
      · rw [nextVisited, if_pos hzero]
      · rw [hregisters, hvisited]
    · obtain ⟨l, hwalk, hl, hr⟩ := ih (hvisited ▸ hregisters) hrun
      refine ⟨_, .step ?_ hwalk, ?_, hr⟩
      · rw [nextVisited, if_neg hzero]
      · rw [hl, hvisited, List.append_assoc]
        rfl

/-- The loop comes to its end if its way does. -/
theorem exists_discoverLoop {l : List (BitVec 64)}
    (hwalk : LinkedChain.Walk (nextVisited base registers) a l)
    (h : d.registers = setOsOwned d.visited registers) (ha : a = base + off.setWidth 64) :
    ∃ fuel d', discoverLoop base fuel off d = some d' := by
  induction hwalk generalizing off d with
  | @last a hnone =>
    have hzero : nextOff (registers a) = 0 := by
      by_contra hne
      rw [nextVisited, if_neg hne] at hnone
      exact absurd hnone nofun
    refine ⟨1, (visitCapability a d).2, ?_⟩
    rw [discoverLoop_succ h ha, if_pos hzero]
  | @step a b l hsome _ ih =>
    obtain ⟨-, hvisited, hregisters⟩ := @visitCapability_spec a _ _ h
    rw [nextVisited] at hsome
    split_ifs at hsome with hzero
    obtain ⟨fuel, d', hrun⟩ := ih (hvisited ▸ hregisters) (Option.some.inj hsome).symm
    refine ⟨fuel + 1, d', ?_⟩
    rw [discoverLoop_succ h ha, if_neg hzero]
    exact hrun

theorem discoverCapabilities_iff {mmioBase : BitVec 64} {hccparams : BitVec 32} :
    (∃ fuel d, discoverCapabilities fuel mmioBase hccparams registers = some d ∧
      d.visited = caps ∧ d.registers = setOsOwned caps registers) ↔
    LinkedChain.Walk (nextVisited (firstCapability mmioBase hccparams) registers)
      (firstCapability mmioBase hccparams) caps := by
  have hstart : (Discovery.mk registers [] []).registers = setOsOwned [] registers := by
    funext a
    rw [setOsOwned, if_neg fun h ↦ List.not_mem_nil h.1]
  have hbase : firstCapability mmioBase hccparams =
      firstCapability mmioBase hccparams + BitVec.setWidth 64 (0 : BitVec 16) :=
    (BitVec.add_zero _).symm
  constructor
  · rintro ⟨fuel, d, hrun, rfl, -⟩
    obtain ⟨l, hwalk, hl, -⟩ := discoverLoop_walk hstart hrun
    rw [← hbase] at hwalk
    exact hl ▸ hwalk
  · intro hwalk
    obtain ⟨fuel, d, hrun⟩ := exists_discoverLoop hwalk hstart hbase
    obtain ⟨l, hwalk', hl, hr⟩ := discoverLoop_walk hstart hrun
    rw [← hbase] at hwalk'
    have hcaps : d.visited = caps := hl.trans (hwalk'.unique hwalk)
    exact ⟨fuel, d, hrun, hcaps, hcaps ▸ hr⟩

end Loop

/-! ## When the walk is the list -/

/-- Bits 21:16 of a header, which belong to the capability's own data. -/
def dataBits (v : BitVec 32) : BitVec 6 := v.extractLsb' 16 6

theorem setWidth_nextOff (v : BitVec 32) :
    (nextOff v).setWidth 64 =
      4 * (nextDistance v).setWidth 64 + 1024 * (dataBits v).setWidth 64 := by
  have hoff : (nextOff v).toNat = 4 * (v.toNat / 256 % 2 ^ 14) := by
    have hmask : BitVec.toNat (0xffff : BitVec 32) = 2 ^ 16 - 1 := rfl
    rw [nextOff, BitVec.toNat_setWidth, BitVec.toNat_shiftLeft, BitVec.toNat_and,
      BitVec.toNat_ushiftRight, hmask, Nat.and_two_pow_sub_one_eq_mod, Nat.shiftRight_eq_div_pow,
      Nat.shiftLeft_eq]
    omega
  have hdist : (nextDistance v).toNat = v.toNat / 256 % 2 ^ 8 := by
    rw [nextDistance, BitVec.extractLsb'_toNat, Nat.shiftRight_eq_div_pow]
  have hdata : (dataBits v).toNat = v.toNat / 2 ^ 16 % 2 ^ 6 := by
    rw [dataBits, BitVec.extractLsb'_toNat, Nat.shiftRight_eq_div_pow]
  bv_omega

theorem nextOff_eq_zero_iff (v : BitVec 32) :
    nextOff v = 0 ↔ nextDistance v = 0 ∧ dataBits v = 0 := by
  have hwidth := setWidth_nextOff v
  bv_omega

theorem nextVisited_eq_iff {base a : BitVec 64} {registers : Registers} :
    nextVisited base registers a = nextCapability registers a ↔
      1024 * (dataBits (registers a)).setWidth 64 =
        if nextDistance (registers a) = 0 then 0 else a - base := by
  rw [nextVisited, nextCapability]
  by_cases hdist : nextDistance (registers a) = 0
  · have hiff : nextOff (registers a) = 0 ↔
        1024 * (dataBits (registers a)).setWidth 64 = (0 : BitVec 64) := by
      rw [nextOff_eq_zero_iff, and_iff_right hdist]
      bv_omega
    rw [if_pos hdist, if_pos hdist, ← hiff]
    split_ifs with hoff
    · exact iff_of_true rfl hoff
    · exact iff_of_false nofun hoff
  · have hoff : nextOff (registers a) ≠ 0 := fun hoff ↦ hdist ((nextOff_eq_zero_iff _).mp hoff).1
    rw [if_neg hdist, if_neg hdist, if_neg hoff, Option.some_inj, setWidth_nextOff]
    bv_omega

/-- **The discovery of capabilities**. For every list of extended capabilities, the loop ends,
visits each capability once, in order, and sets the semaphores of exactly those with id 1, if and
only if bits 21:16 are zero in the last header, and in each other one are the distance in KiB from
the first capability. -/
theorem discoverCapabilities_spec (mmioBase : BitVec 64) (hccparams : BitVec 32)
    (registers : Registers) (caps : List (BitVec 64))
    (hcaps : LinkedChain.Walk (nextCapability registers)
      (firstCapability mmioBase hccparams) caps) :
    (∃ fuel d, discoverCapabilities fuel mmioBase hccparams registers = some d ∧
      (d.visited = caps ∧ d.visited.Nodup) ∧ d.registers = setOsOwned caps registers) ↔
    ∀ a ∈ caps, 1024 * (dataBits (registers a)).setWidth 64 =
      if nextDistance (registers a) = 0 then 0 else a - firstCapability mmioBase hccparams := by
  rw [← forall₂_congr fun a _ ↦ nextVisited_eq_iff, ← hcaps.iff_eq_on, ← discoverCapabilities_iff]
  refine exists₂_congr fun fuel d ↦ and_congr_right fun _ ↦ and_congr_left fun _ ↦ ?_
  exact and_iff_left_of_imp fun hvisited ↦ hvisited ▸ hcaps.nodup

/-- Headers of USB 2.0 at `0x20` and of USB 3.0 at `0x30`. -/
def twoProtocols : Registers := fun a ↦
  if a = 0x20 then 0x02000402 else if a = 0x30 then 0x03000002 else 0

theorem discoverCapabilities_spec_two :
    LinkedChain.Walk (nextCapability twoProtocols) (firstCapability 0 0x00080000) [0x20, 0x30] ∧
      ((∃ fuel d, discoverCapabilities fuel 0 0x00080000 twoProtocols = some d ∧
        (d.visited = [0x20, 0x30] ∧ d.visited.Nodup) ∧
          d.registers = setOsOwned [0x20, 0x30] twoProtocols) ↔
      ∀ a ∈ [0x20, 0x30], 1024 * (dataBits (twoProtocols a)).setWidth 64 =
        if nextDistance (twoProtocols a) = 0 then 0 else a - firstCapability 0 0x00080000) :=
  have hcaps : LinkedChain.Walk (nextCapability twoProtocols)
    (firstCapability 0 0x00080000) [0x20, 0x30] :=
    .step (by decide) (.last (by decide))
  ⟨hcaps, discoverCapabilities_spec 0 0x00080000 twoProtocols [0x20, 0x30] hcaps⟩

/-- The header of USB 3.1 at `0x20`. -/
def usb31 : Registers := fun a ↦ if a = 0x20 then 0x03100002 else 0

/-- With USB 3.1, whose minor revision is 0x10, the loop goes on behind the end of the list. -/
theorem not_discoverCapabilities_usb31 : ¬ ∀ mmioBase hccparams registers caps,
    LinkedChain.Walk (nextCapability registers) (firstCapability mmioBase hccparams) caps →
      ∃ fuel d, discoverCapabilities fuel mmioBase hccparams registers = some d ∧
        (d.visited = caps ∧ d.visited.Nodup) ∧ d.registers = setOsOwned caps registers := by
  intro h
  obtain ⟨fuel, d, hrun, ⟨hvisited, -⟩, hregisters⟩ :=
    h 0 0x00080000 usb31 [0x20] (.last (by decide))
  have hwalk := discoverCapabilities_iff.mp ⟨fuel, d, hrun, hvisited, hregisters⟩
  have hon : LinkedChain.Walk (nextVisited (firstCapability 0 0x00080000) usb31)
      (firstCapability 0 0x00080000)
      [0x20, 0x4020] := .step (by decide) (.last (by decide))
  exact absurd (hwalk.unique hon) (by decide)

end VimOS
