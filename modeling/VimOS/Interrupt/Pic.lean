import VimOS.Library.Run
import VimOS.Paging.Address

/-!
# The 8259A interrupt controllers

`kernel/pic.c` drives a pair of 8259As, the slave on line 2 of the master. A chip takes what it gets
at its data port by how far its initialisation has come, so `init_pic` is a protocol of four words
with each of them; afterwards the data port is the mask.

An end of interrupt does not name the line it is for: the chip takes the one of highest priority
that is in service. `served_exactly` is that this is always the line of the handler that comes to
its end, as handlers nest.
-/

namespace VimOS

open GuardedRun

/-! ## The chips -/

/-- What a chip takes the next word at its data port for. -/
inductive ChipInput : Type
  | mask
  | icw2
  | icw3
  | icw4
  deriving DecidableEq

/-- An 8259A: the lines that are masked and those in service, and what it has been told. -/
structure Chip where
  mask : Byte
  inService : Byte
  vector : Byte
  cascade : Byte
  mode8086 : Bool
  single : Bool
  needsIcw4 : Bool
  input : ChipInput
  deriving DecidableEq

/-- A register without its bit `k`. -/
def clearBit (b : Byte) (k : ℕ) : Byte := b &&& ~~~(1#8 <<< k)

/-- A register with its bit `k`. -/
def setBit (b : Byte) (k : ℕ) : Byte := b ||| 1#8 <<< k

/-- The line of highest priority among some. -/
def firstLine (b : Byte) : Option ℕ := (List.range 8).find? b.getLsbD

namespace Chip

/-- A word at the command port: ICW1, or a non-specific end of interrupt. No other commands are
sent. -/
def command (c : Chip) (d : Byte) : Chip :=
  if d.getLsbD 4 then
    { c with
      mask := 0, inService := 0, mode8086 := false, single := d.getLsbD 1
      needsIcw4 := d.getLsbD 0, input := .icw2 }
  else if d &&& 0xf8 = 0x20 then
    match firstLine c.inService with
    | some k => { c with inService := clearBit c.inService k }
    | none => c
  else c

/-- What comes after the words that every initialisation has. -/
def lastInput (c : Chip) : ChipInput := if c.needsIcw4 then .icw4 else .mask

/-- A word at the data port. -/
def data (c : Chip) (d : Byte) : Chip :=
  match c.input with
  | .mask => { c with mask := d }
  | .icw2 => { c with vector := d &&& 0xf8, input := if c.single then c.lastInput else .icw3 }
  | .icw3 => { c with cascade := d, input := c.lastInput }
  | .icw4 => { c with mode8086 := d.getLsbD 0, input := .mask }

end Chip

/-- The master and the slave. -/
structure Pics where
  master : Chip
  slave : Chip
  deriving DecidableEq

def masterPicCommand : BitVec 16 := 0x0020

def masterPicData : BitVec 16 := 0x0021

def slavePicCommand : BitVec 16 := 0x00a0

def slavePicData : BitVec 16 := 0x00a1

namespace Pics

def out8 (port : BitVec 16) (data : Byte) (p : Pics) : Pics :=
  if port = masterPicCommand then { p with master := p.master.command data }
  else if port = masterPicData then { p with master := p.master.data data }
  else if port = slavePicCommand then { p with slave := p.slave.command data }
  else if port = slavePicData then { p with slave := p.slave.data data }
  else p

/-- At the data port the mask is read; nothing else is. -/
def in8 (port : BitVec 16) (p : Pics) : Byte :=
  if port = masterPicData then p.master.mask
  else if port = slavePicData then p.slave.mask
  else 0

end Pics

/-! ## The code -/

def disablePic (p : Pics) : Pics := (p.out8 slavePicData 0xff).out8 masterPicData 0xff

def picUnmaskInterrupt (irq : ℕ) (p : Pics) : Pics :=
  if 8 ≤ irq then
    -- unmask master to slave
    let p := p.out8 masterPicData (clearBit (p.in8 masterPicData) 2)
    p.out8 slavePicData (clearBit (p.in8 slavePicData) (irq - 8))
  else p.out8 masterPicData (clearBit (p.in8 masterPicData) irq)

/-- `PIC_EOI`. -/
def picEndOfInterrupt : Byte := 0x20

def picEoi (irq : ℕ) (p : Pics) : Pics :=
  let p := if 8 ≤ irq then p.out8 slavePicCommand picEndOfInterrupt else p
  p.out8 masterPicCommand picEndOfInterrupt

def initPic (p : Pics) : Pics :=
  let p := disablePic p
  -- initialization mode
  let p := p.out8 masterPicCommand 0x11
  let p := p.out8 slavePicCommand 0x11
  -- interrupt vector offset
  let p := p.out8 masterPicData 0x20
  let p := p.out8 slavePicData 0x28
  -- the slave is on line 2
  let p := p.out8 masterPicData 0b00000100
  let p := p.out8 slavePicData 0b00000010
  let p := p.out8 masterPicData 0x01
  let p := p.out8 slavePicData 0x01
  disablePic p

/-! ## Lines and registers -/

section Registers

variable {b : Byte} {j k : ℕ}

theorem getLsbD_one_shiftLeft (hj : j < 8) : (1#8 <<< k).getLsbD j = decide (k = j) := by
  rw [← BitVec.twoPow_eq, BitVec.getLsbD_twoPow, ← Bool.decide_and]
  exact decide_eq_decide.mpr (and_iff_right_of_imp fun hkj ↦ hkj ▸ hj)

theorem getLsbD_clearBit : (clearBit b k).getLsbD j = (b.getLsbD j && decide (k ≠ j)) := by
  by_cases hj : j < 8
  · rw [clearBit, BitVec.getLsbD_and, BitVec.getLsbD_not, getLsbD_one_shiftLeft hj]
    simp [hj]
  · rw [BitVec.getLsbD_of_ge _ _ (not_lt.mp hj), BitVec.getLsbD_of_ge _ _ (not_lt.mp hj),
      Bool.false_and]

theorem getLsbD_setBit (hk : k < 8) : (setBit b k).getLsbD j = (b.getLsbD j || decide (k = j)) := by
  by_cases hj : j < 8
  · rw [setBit, BitVec.getLsbD_or, getLsbD_one_shiftLeft hj]
  · have hne : k ≠ j := by omega
    rw [BitVec.getLsbD_of_ge _ _ (not_lt.mp hj), BitVec.getLsbD_of_ge _ _ (not_lt.mp hj),
      decide_eq_false hne, Bool.or_false]

theorem firstLine_eq_some (hk : k < 8) (hset : b.getLsbD k = true)
    (hclear : ∀ j < k, b.getLsbD j = false) : firstLine b = some k := by
  rw [firstLine, List.find?_range_eq_some]
  exact ⟨hset, List.mem_range.mpr hk, fun j hj ↦ by rw [hclear j hj]; rfl⟩

end Registers

/-- The bits of a register that are set are those for which `P` holds. -/
def Marks (b : Byte) (P : ℕ → Prop) : Prop := ∀ j < 8, b.getLsbD j = true ↔ P j

section Marks

variable {b : Byte} {P Q : ℕ → Prop} {k : ℕ}

theorem Marks.congr (h : Marks b P) (hPQ : ∀ j < 8, P j ↔ Q j) : Marks b Q :=
  fun j hj ↦ (h j hj).trans (hPQ j hj)

theorem Marks.clear (h : Marks b P) (k : ℕ) : Marks (clearBit b k) fun j ↦ P j ∧ k ≠ j := by
  intro j hj
  rw [getLsbD_clearBit, Bool.and_eq_true, h j hj, decide_eq_true_eq]

theorem Marks.set (h : Marks b P) (hk : k < 8) : Marks (setBit b k) fun j ↦ P j ∨ k = j := by
  intro j hj
  rw [getLsbD_setBit hk, Bool.or_eq_true, h j hj, decide_eq_true_eq]

theorem Marks.eq_false_iff (h : Marks b P) (hk : k < 8) : b.getLsbD k = false ↔ ¬P k := by
  rw [← h k hk, Bool.not_eq_true]

theorem Marks.firstLine (h : Marks b P) (hk : k < 8) (hP : P k) (hfirst : ∀ j < k, ¬P j) :
    firstLine b = some k :=
  firstLine_eq_some hk ((h k hk).mpr hP) fun j hj ↦
    (h.eq_false_iff (hj.trans hk)).mpr (hfirst j hj)

end Marks

/-- The line of the master that a request comes in on. -/
def masterLine (irq : ℕ) : ℕ := if 8 ≤ irq then 2 else irq

theorem masterLine_lt (irq : ℕ) : masterLine irq < 8 := by
  rw [masterLine]
  split <;> omega

/-! ## The chips in operation -/

/-- The chip has been told all it has to know, and its data port is the mask. -/
structure Chip.Ready (vector cascade : Byte) (c : Chip) : Prop where
  vector : c.vector = vector
  cascade : c.cascade = cascade
  mode8086 : c.mode8086 = true
  single : c.single = false
  input : c.input = .mask

namespace Pics

/-- Both chips are in operation, one behind the other. -/
structure Ready (p : Pics) : Prop where
  master : p.master.Ready 0x20 0b00000100
  slave : p.slave.Ready 0x28 0b00000010

/-- The masks let a request through. -/
def Open (p : Pics) (irq : ℕ) : Prop :=
  p.master.mask.getLsbD (masterLine irq) = false ∧
    (8 ≤ irq → p.slave.mask.getLsbD (irq - 8) = false)

/-- The vector of a request. -/
def vectorOf (p : Pics) (irq : ℕ) : Byte :=
  if 8 ≤ irq then p.slave.vector + BitVec.ofNat 8 (irq - 8)
  else p.master.vector + BitVec.ofNat 8 irq

/-- The CPU is interrupted for a request that the masks let through, when nothing of the same or a
higher priority is in service. -/
structure Interrupts (p : Pics) (irq : ℕ) : Prop where
  isOpen : p.Open irq
  master : ∀ j ≤ masterLine irq, p.master.inService.getLsbD j = false
  slave : 8 ≤ irq → ∀ j ≤ irq - 8, p.slave.inService.getLsbD j = false

/-- The CPU acknowledges a request. -/
def acknowledge (p : Pics) (irq : ℕ) : Pics where
  master := { p.master with inService := setBit p.master.inService (masterLine irq) }
  slave :=
    if 8 ≤ irq then { p.slave with inService := setBit p.slave.inService (irq - 8) } else p.slave

end Pics

section Operation

variable {c : Chip} {p : Pics} {d : Byte} {irq k : ℕ} {P : ℕ → Prop}

theorem Chip.Ready.mask {vector cascade : Byte} (h : c.Ready vector cascade) (m : Byte) :
    Chip.Ready vector cascade { c with mask := m } :=
  ⟨h.vector, h.cascade, h.mode8086, h.single, h.input⟩

theorem Chip.Ready.inService {vector cascade : Byte} (h : c.Ready vector cascade) (b : Byte) :
    Chip.Ready vector cascade { c with inService := b } :=
  ⟨h.vector, h.cascade, h.mode8086, h.single, h.input⟩

theorem Chip.data_of_mask (h : c.input = .mask) : c.data d = { c with mask := d } := by
  rw [Chip.data, h]

/-- An end of interrupt is for the line of highest priority in service. -/
theorem Chip.command_eoi (h : firstLine c.inService = some k) :
    c.command picEndOfInterrupt = { c with inService := clearBit c.inService k } := by
  have hicw1 : picEndOfInterrupt.getLsbD 4 = false := rfl
  have hocw2 : picEndOfInterrupt &&& 0xf8 = 0x20 := rfl
  rw [Chip.command, hicw1, if_neg Bool.false_ne_true, if_pos hocw2, h]

/-- Whatever the chips have been doing before, they are in operation with all lines masked and
nothing in service. -/
theorem initPic_eq (p : Pics) : initPic p =
    ⟨⟨0xff, 0, 0x20, 0b00000100, true, false, true, .mask⟩,
      ⟨0xff, 0, 0x28, 0b00000010, true, false, true, .mask⟩⟩ := by
  obtain ⟨⟨m₁, s₁, v₁, c₁, e₁, g₁, n₁, i₁⟩, ⟨m₂, s₂, v₂, c₂, e₂, g₂, n₂, i₂⟩⟩ := p
  cases i₁ <;> cases i₂ <;> rfl

theorem picUnmaskInterrupt_eq (h : p.Ready) : picUnmaskInterrupt irq p =
    ⟨{ p.master with mask := clearBit p.master.mask (masterLine irq) },
      if 8 ≤ irq then { p.slave with mask := clearBit p.slave.mask (irq - 8) } else p.slave⟩ := by
  rw [picUnmaskInterrupt, masterLine]
  split_ifs
  · simp [Pics.out8, Pics.in8, masterPicCommand, masterPicData, slavePicCommand, slavePicData,
      Chip.data_of_mask h.master.input, Chip.data_of_mask h.slave.input]
  · simp [Pics.out8, Pics.in8, masterPicCommand, masterPicData,
      Chip.data_of_mask h.master.input]

theorem picEoi_eq : picEoi irq p = ⟨p.master.command picEndOfInterrupt,
    if 8 ≤ irq then p.slave.command picEndOfInterrupt else p.slave⟩ := by
  rw [picEoi]
  split_ifs <;> rfl

end Operation

/-! ## Interrupts -/

/-- The chips, the requests that `pic_unmask_interrupt` was called for, and those whose handlers
have not come to their end, the innermost first. -/
structure PicState where
  pics : Pics
  unmasked : List ℕ
  handling : List ℕ

/-- A call of `pic_unmask_interrupt`, an interrupt, or the end of the innermost handler. -/
inductive PicEvent : Type
  | unmask (irq : ℕ)
  | interrupt (irq : ℕ)
  | done

/-- Handlers nest, and each calls `pic_eoi` for its own request at its end. No device is on the line
of the slave. -/
inductive PicStep : PicState → PicEvent → PicState → Prop
  | unmask {s : PicState} {irq : ℕ} (hirq : irq < 16) :
      PicStep s (.unmask irq)
        { s with pics := picUnmaskInterrupt irq s.pics, unmasked := irq :: s.unmasked }
  | interrupt {s : PicState} {irq : ℕ} (hirq : irq < 16) (hcascade : irq ≠ 2)
      (h : s.pics.Interrupts irq) :
      PicStep s (.interrupt irq)
        { s with pics := s.pics.acknowledge irq, handling := irq :: s.handling }
  | done {s : PicState} {irq : ℕ} {rest : List ℕ} (h : s.handling = irq :: rest) :
      PicStep s .done { s with pics := picEoi irq s.pics, handling := rest }

/-- Behind `init_pic`. -/
def PicState.start (p : Pics) : PicState := ⟨initPic p, [], []⟩

/-- The registers that tell which requests were unmasked and which are being handled, those of an
inner handler having the higher priority. -/
structure PicState.Reflected (s : PicState) : Prop where
  ready : s.pics.Ready
  masterMask : Marks s.pics.master.mask fun j ↦ ¬∃ irq ∈ s.unmasked, masterLine irq = j
  slaveMask : Marks s.pics.slave.mask fun j ↦ j + 8 ∉ s.unmasked
  masterService : Marks s.pics.master.inService fun j ↦ ∃ irq ∈ s.handling, masterLine irq = j
  slaveService : Marks s.pics.slave.inService fun j ↦ j + 8 ∈ s.handling
  nested : s.handling.Pairwise fun inner outer ↦ masterLine inner < masterLine outer
  lt : ∀ irq ∈ s.handling, irq < 16

section Runs

variable {s s' : PicState} {e : PicEvent} {irq : ℕ} {p : Pics}

theorem reflected_start (p : Pics) : (PicState.start p).Reflected := by
  have hones : ∀ {P : ℕ → Prop}, (∀ j, P j) → Marks 0xff P := fun hP j hj ↦ by
    have hbit : (0xff : Byte).getLsbD j = true := by
      revert j
      decide
    exact iff_of_true hbit (hP j)
  have hzeros : ∀ {P : ℕ → Prop}, (∀ j, ¬P j) → Marks 0 P := fun hP j _ ↦
    iff_of_false (by simp) (hP j)
  rw [PicState.start, initPic_eq]
  exact {
    ready := ⟨⟨rfl, rfl, rfl, rfl, rfl⟩, ⟨rfl, rfl, rfl, rfl, rfl⟩⟩
    masterMask := hones (by simp)
    slaveMask := hones (by simp)
    masterService := hzeros (by simp)
    slaveService := hzeros (by simp)
    nested := .nil
    lt := by simp }

theorem PicState.Reflected.unmask (h : s.Reflected) (hirq : irq < 16) :
    PicState.Reflected
      { s with pics := picUnmaskInterrupt irq s.pics, unmasked := irq :: s.unmasked } := by
  rw [picUnmaskInterrupt_eq h.ready]
  have hmaster : Marks (clearBit s.pics.master.mask (masterLine irq))
      fun j ↦ ¬∃ i ∈ irq :: s.unmasked, masterLine i = j := by
    refine (h.masterMask.clear (masterLine irq)).congr fun j _ ↦ ?_
    rw [List.exists_mem_cons_iff, not_or, and_comm]
  split
  next hge =>
    refine ⟨⟨h.ready.master.mask _, h.ready.slave.mask _⟩, hmaster,
      (h.slaveMask.clear (irq - 8)).congr fun j _ ↦ ?_, h.masterService, h.slaveService, h.nested,
      h.lt⟩
    rw [List.mem_cons, not_or, and_comm]
    exact and_congr_left fun _ ↦ by omega
  next hlt =>
    refine ⟨⟨h.ready.master.mask _, h.ready.slave⟩, hmaster, h.slaveMask.congr fun j _ ↦ ?_,
      h.masterService, h.slaveService, h.nested, h.lt⟩
    rw [List.mem_cons, not_or]
    exact (and_iff_right (by omega)).symm

/-- The line that comes into service has a higher priority than all that are. -/
theorem PicState.Reflected.lt_of_interrupts (h : s.Reflected) (hirq : s.pics.Interrupts irq) :
    ∀ outer ∈ s.handling, masterLine irq < masterLine outer := by
  intro outer houter
  by_contra hle
  have hclear := hirq.master (masterLine outer) (not_lt.mp hle)
  rw [h.masterService.eq_false_iff (masterLine_lt outer)] at hclear
  exact hclear ⟨outer, houter, rfl⟩

theorem PicState.Reflected.interrupt (h : s.Reflected) (hirq : irq < 16)
    (hint : s.pics.Interrupts irq) :
    PicState.Reflected
      { s with pics := s.pics.acknowledge irq, handling := irq :: s.handling } := by
  have hmaster : Marks (setBit s.pics.master.inService (masterLine irq))
      fun j ↦ ∃ i ∈ irq :: s.handling, masterLine i = j := by
    refine (h.masterService.set (masterLine_lt irq)).congr fun j _ ↦ ?_
    rw [List.exists_mem_cons_iff, or_comm]
  have hnested : (irq :: s.handling).Pairwise fun inner outer ↦
      masterLine inner < masterLine outer :=
    List.pairwise_cons.mpr ⟨h.lt_of_interrupts hint, h.nested⟩
  have hlt : ∀ i ∈ irq :: s.handling, i < 16 := List.forall_mem_cons.mpr ⟨hirq, h.lt⟩
  rw [Pics.acknowledge]
  split
  next hge =>
    refine ⟨⟨h.ready.master.inService _, h.ready.slave.inService _⟩, h.masterMask, h.slaveMask,
      hmaster, (h.slaveService.set (by omega)).congr fun j _ ↦ ?_, hnested, hlt⟩
    rw [List.mem_cons, or_comm]
    exact or_congr_left (by omega)
  next hlow =>
    refine ⟨⟨h.ready.master.inService _, h.ready.slave⟩, h.masterMask, h.slaveMask, hmaster,
      h.slaveService.congr fun j _ ↦ ?_, hnested, hlt⟩
    rw [List.mem_cons, or_iff_right (by omega)]

/-- Of the requests that are being handled, only the innermost is on its line, and the line has the
highest priority. -/
theorem PicState.Reflected.done {rest : List ℕ} (h : s.Reflected) (hs : s.handling = irq :: rest) :
    PicState.Reflected { s with pics := picEoi irq s.pics, handling := rest } := by
  obtain ⟨hready, hmask, hmask', hmaster, hslave, hnested, hlt⟩ := h
  rw [hs] at hmaster hslave hnested hlt
  rw [List.pairwise_cons] at hnested
  rw [List.forall_mem_cons] at hlt
  have hfirst : firstLine s.pics.master.inService = some (masterLine irq) := by
    refine hmaster.firstLine (masterLine_lt irq) ⟨irq, List.mem_cons_self, rfl⟩ fun j hj ↦ ?_
    rintro ⟨i, hi, rfl⟩
    rcases List.mem_cons.mp hi with rfl | hi
    · exact lt_irrefl _ hj
    · exact lt_asymm hj (hnested.1 i hi)
  have hmaster' : Marks (clearBit s.pics.master.inService (masterLine irq))
      fun j ↦ ∃ i ∈ rest, masterLine i = j := by
    refine (hmaster.clear (masterLine irq)).congr fun j _ ↦ ?_
    rw [List.exists_mem_cons_iff, or_and_right, or_iff_right (fun hj ↦ hj.2 hj.1)]
    refine and_iff_left_of_imp ?_
    rintro ⟨i, hi, rfl⟩
    exact (hnested.1 i hi).ne
  rw [picEoi_eq, Chip.command_eoi hfirst]
  split
  next hge =>
    -- no other request of the slave is being handled
    have hothers : ∀ i ∈ rest, i < 8 := by
      intro i hi
      by_contra hle
      have hbelow := hnested.1 i hi
      rw [masterLine, masterLine, if_pos hge, if_pos (not_lt.mp hle)] at hbelow
      exact lt_irrefl _ hbelow
    have honly : ∀ j, j + 8 ∈ irq :: rest ↔ j + 8 = irq := fun j ↦ by
      rw [List.mem_cons, or_iff_left]
      intro hj
      have := hothers _ hj
      omega
    have hsecond : firstLine s.pics.slave.inService = some (irq - 8) := by
      refine hslave.firstLine (by omega) ((honly _).mpr (by omega)) fun j hj hmem ↦ ?_
      have := (honly j).mp hmem
      omega
    rw [Chip.command_eoi hsecond]
    refine ⟨⟨hready.master.inService _, hready.slave.inService _⟩, hmask, hmask', hmaster',
      (hslave.clear (irq - 8)).congr fun j _ ↦ ?_, hnested.2, hlt.2⟩
    rw [honly]
    refine iff_of_false (by omega) fun hj ↦ ?_
    have := hothers _ hj
    omega
  next hlow =>
    refine ⟨⟨hready.master.inService _, hready.slave⟩, hmask, hmask', hmaster',
      hslave.congr fun j _ ↦ ?_, hnested.2, hlt.2⟩
    rw [List.mem_cons, or_iff_right (by omega)]

theorem PicState.Reflected.step (h : s.Reflected) (hstep : PicStep s e s') : s'.Reflected := by
  cases hstep with
  | unmask hirq => exact h.unmask hirq
  | interrupt hirq _ hint => exact h.interrupt hirq hint
  | done hs => exact h.done hs

theorem reflected_of_run (hrun : Run PicStep (fun _ _ ↦ True) (.start p) s) : s.Reflected :=
  hrun.invariant (reflected_start p) fun _ _ _ h _ hstep ↦ h.step hstep

theorem PicState.Reflected.open_iff (h : s.Reflected) (hirq : irq < 16) (hcascade : irq ≠ 2) :
    s.pics.Open irq ↔ irq ∈ s.unmasked := by
  rw [Pics.Open, h.masterMask.eq_false_iff (masterLine_lt irq), not_not]
  by_cases hge : 8 ≤ irq
  · have hslave := h.slaveMask.eq_false_iff (k := irq - 8) (by omega)
    rw [Nat.sub_add_cancel hge, not_not] at hslave
    rw [forall_prop_of_true hge, hslave]
    exact and_iff_right_of_imp fun hmem ↦ ⟨irq, hmem, rfl⟩
  · rw [and_iff_left (fun hle ↦ absurd hle hge)]
    refine ⟨?_, fun hmem ↦ ⟨irq, hmem, rfl⟩⟩
    rintro ⟨i, hi, heq⟩
    have hi2 : i = irq := by
      rw [masterLine, masterLine, if_neg hge] at heq
      split at heq <;> omega
    exact hi2 ▸ hi

theorem PicState.Reflected.vectorOf_eq (h : s.Reflected) (irq : ℕ) :
    s.pics.vectorOf irq = BitVec.ofNat 8 (0x20 + irq) := by
  rw [Pics.vectorOf, h.ready.master.vector, h.ready.slave.vector]
  split
  next hge =>
    have hsum : 0x20 + irq = 0x28 + (irq - 8) := by omega
    rw [hsum, BitVec.ofNat_add]
    rfl
  next => exact (BitVec.ofNat_add ..).symm

end Runs

/-- **The lines that were unmasked are open, and no others**, each at a vector behind those of the
exceptions, after whatever calls and interrupts. -/
theorem lines_open {p : Pics} {s : PicState} (hrun : Run PicStep (fun _ _ ↦ True) (.start p) s)
    {irq : ℕ} (hirq : irq < 16) (hcascade : irq ≠ 2) :
    (s.pics.Open irq ↔ irq ∈ s.unmasked) ∧ s.pics.vectorOf irq = BitVec.ofNat 8 (0x20 + irq) :=
  ⟨(reflected_of_run hrun).open_iff hirq hcascade, (reflected_of_run hrun).vectorOf_eq irq⟩

/-- The chips as they may be found at the start: in the middle of an initialisation. -/
def foundPics : Pics :=
  ⟨⟨0xb8, 0x01, 0x08, 0, false, false, true, .icw3⟩, ⟨0x8f, 0, 0x70, 0, false, true, false, .mask⟩⟩

/-- A request of the slave, interrupted by one of the master. -/
theorem run_nested : ∃ s, Run PicStep (fun _ _ ↦ True) (.start foundPics) s ∧
    s.unmasked = [1, 12] ∧ s.handling = [1, 12] := by
  have hslave : Pics.Interrupts
      (picUnmaskInterrupt 1 (picUnmaskInterrupt 12 (initPic foundPics))) 12 :=
    ⟨⟨by decide, by decide⟩, by decide, by decide⟩
  have hmaster : Pics.Interrupts
      ((picUnmaskInterrupt 1 (picUnmaskInterrupt 12 (initPic foundPics))).acknowledge 12) 1 :=
    ⟨⟨by decide, by decide⟩, by decide, by decide⟩
  have hirq : 12 < 16 ∧ 1 < 16 := by decide
  exact ⟨_, ((((Run.refl _).tail trivial (.unmask hirq.1)).tail trivial
    (.unmask hirq.2)).tail trivial
      (.interrupt (by decide) (by decide) hslave)).tail trivial
        (.interrupt (by decide) (by decide) hmaster), rfl, rfl⟩

theorem lines_open_nested : ∃ s, Run PicStep (fun _ _ ↦ True) (.start foundPics) s ∧
    ((s.pics.Open 12 ↔ 12 ∈ s.unmasked) ∧ s.pics.vectorOf 12 = 0x2c) := by
  obtain ⟨s, hrun, -⟩ := run_nested
  exact ⟨s, hrun, lines_open hrun (by decide) (by decide)⟩

/-- What is in service is what is being handled. -/
structure PicState.ServesExactly (s : PicState) : Prop where
  master : ∀ j < 8, s.pics.master.inService.getLsbD j = true ↔
    ∃ irq ∈ s.handling, masterLine irq = j
  slave : ∀ j < 8, s.pics.slave.inService.getLsbD j = true ↔ j + 8 ∈ s.handling
  idle : s.handling = [] → ∀ irq ∈ s.unmasked, irq < 16 → irq ≠ 2 → s.pics.Interrupts irq

/-- **An end of interrupt is for the handler that sends it**: what is in service is always what is
being handled, and when nothing is, every request that was unmasked interrupts. -/
theorem served_exactly {p : Pics} {s : PicState}
    (hrun : Run PicStep (fun _ _ ↦ True) (.start p) s) : s.ServesExactly := by
  have h := reflected_of_run hrun
  refine ⟨h.masterService, h.slaveService, fun hidle irq hmem hirq hcascade ↦
    ⟨(h.open_iff hirq hcascade).mpr hmem, fun j hj ↦ ?_, fun hge j hj ↦ ?_⟩⟩
  · have hlt := masterLine_lt irq
    rw [h.masterService.eq_false_iff (by omega), hidle]
    simp
  · rw [h.slaveService.eq_false_iff (by omega), hidle]
    simp

theorem served_exactly_nested : ∃ s, Run PicStep (fun _ _ ↦ True) (.start foundPics) s ∧
    s.handling = [1, 12] ∧ s.ServesExactly := by
  obtain ⟨s, hrun, -, hs⟩ := run_nested
  exact ⟨s, hrun, hs, served_exactly hrun⟩

end VimOS
