import VimOS.Interrupt.Gates
import VimOS.Memory.FreeList

/-!
# The segments and the stacks of the exceptions

`init_segments` of `kernel/gdt.c` fills the global descriptor table, takes two stacks from the
allocator and puts their tops into the task state segment. From the task register the CPU finds the
descriptor of that segment, from the descriptor its address, and there the stack that the gate of an
exception asks for: `SegmentState.interruptStack`.
-/

namespace VimOS

/-! ## The table -/

/-- `struct segment_descriptor`. -/
structure SegmentDescriptor where
  limitLow : BitVec 16
  baseLow : BitVec 16
  baseMid : BitVec 8
  type : BitVec 4
  s : BitVec 1
  dpl : BitVec 2
  p : BitVec 1
  limitHigh : BitVec 4
  avl : BitVec 1
  l : BitVec 1
  db : BitVec 1
  g : BitVec 1
  baseHigh : BitVec 8

/-- As it lies in memory, the first field lowest. -/
def SegmentDescriptor.bits (d : SegmentDescriptor) : BitVec 64 :=
  d.baseHigh ++ d.g ++ d.db ++ d.l ++ d.avl ++ d.limitHigh ++ d.p ++ d.dpl ++ d.s ++ d.type ++
    d.baseMid ++ d.baseLow ++ d.limitLow

/-- `gdt[GDT_SIZE]`. -/
abbrev Gdt := Fin 7 → SegmentDescriptor

/-- `memset(&gdt[0], 0, sizeof(gdt))`. -/
def clearedGdt : Gdt := fun _ ↦ ⟨0, 0, 0, 0, 0, 0, 0, 0, 0, 0, 0, 0, 0⟩

def setCodeSegment (num : Fin 7) (type privilegeLevel : BitVec 8) (base limit : BitVec 32)
    (gdt : Gdt) : Gdt :=
  Function.update gdt num { gdt num with
    baseLow := (base &&& 0xffff).setWidth 16
    baseMid := (base >>> 16 &&& 0xff).setWidth 8
    baseHigh := (base >>> 24 &&& 0xff).setWidth 8
    limitLow := (limit &&& 0xffff).setWidth 16
    limitHigh := (limit >>> 16 &&& 0x0f).setWidth 4
    l := 1
    p := 1
    s := 1
    g := 1
    dpl := privilegeLevel.setWidth 2
    type := type.setWidth 4 }

def setDataSegment (num : Fin 7) (type privilegeLevel : BitVec 8) (base limit : BitVec 32)
    (gdt : Gdt) : Gdt :=
  let gdt := setCodeSegment num type privilegeLevel base limit gdt
  Function.update gdt num { gdt num with l := 0, db := 1 }

/-- The granularity stays that of a code segment. -/
def setSystemSegment (num : Fin 7) (type privilegeLevel : BitVec 8) (base limit : BitVec 32)
    (gdt : Gdt) : Gdt :=
  let gdt := setCodeSegment num type privilegeLevel base limit gdt
  Function.update gdt num { gdt num with s := 0, l := 0 }

/-! ## The task state segment -/

/-- `struct tss`. -/
structure Tss where
  rsvd0 : BitVec 32
  rsp0Low : BitVec 32
  rsp0High : BitVec 32
  rsp1Low : BitVec 32
  rsp1High : BitVec 32
  rsp2Low : BitVec 32
  rsp2High : BitVec 32
  rsvd1 : BitVec 32
  rsvd2 : BitVec 32
  ist1Low : BitVec 32
  ist1High : BitVec 32
  ist2Low : BitVec 32
  ist2High : BitVec 32
  ist3Low : BitVec 32
  ist3High : BitVec 32
  ist4Low : BitVec 32
  ist4High : BitVec 32
  ist5Low : BitVec 32
  ist5High : BitVec 32
  ist6Low : BitVec 32
  ist6High : BitVec 32
  ist7Low : BitVec 32
  ist7High : BitVec 32
  rsvd3 : BitVec 32
  rsvd4 : BitVec 32
  rsvd5 : BitVec 16
  iopb : BitVec 16

/-- As it lies in memory, in units of 32 bits. -/
def Tss.dwords (t : Tss) : List (BitVec 32) :=
  [t.rsvd0, t.rsp0Low, t.rsp0High, t.rsp1Low, t.rsp1High, t.rsp2Low, t.rsp2High, t.rsvd1, t.rsvd2,
    t.ist1Low, t.ist1High, t.ist2Low, t.ist2High, t.ist3Low, t.ist3High, t.ist4Low, t.ist4High,
    t.ist5Low, t.ist5High, t.ist6Low, t.ist6High, t.ist7Low, t.ist7High, t.rsvd3, t.rsvd4,
    t.iopb ++ t.rsvd5]

/-- `sizeof(tss)`. -/
def tssSize : ℕ := 104

/-! ## `init_segments` -/

/-- The tables, where they lie, and the registers of the CPU that point to them. -/
structure SegmentState where
  gdtAddr : Addr
  tssAddr : Addr
  gdt : Gdt
  tss : Tss
  gdtrLimit : BitVec 16
  gdtrBase : Addr
  tr : BitVec 16
  cs : BitVec 16
  ss : BitVec 16
  /-- `ds`, `es`, `fs` and `gs`. -/
  dataSegments : BitVec 16

/-- Why `init_segments` does not return. -/
inductive SegmentsStop where
  | memory (s : Stop)
  | panic (text : String)
  deriving DecidableEq

/-- The table that `init_segments` loads. -/
def initGdt (tssAddr : Addr) : Gdt :=
  let gdt := setCodeSegment 1 0b1010 0 0 0xfffff clearedGdt
  let gdt := setDataSegment 2 0b0010 0 0 0xfffff gdt
  let gdt := setDataSegment 3 0b0010 3 0 0xfffff gdt
  let gdt := setCodeSegment 4 0b1010 3 0 0xfffff gdt
  let gdt := setSystemSegment 5 0b1001 0 ((tssAddr &&& 0xffffffff).setWidth 32)
    (BitVec.ofNat 32 (tssSize - 1)) gdt
  -- the upper half of the address, as if it were limit and base
  Function.update gdt 6 { gdt 6 with
    limitLow := (tssAddr >>> 32 &&& 0xffff).setWidth 16
    baseLow := (tssAddr >>> 48 &&& 0xffff).setWidth 16 }

/-- The four fields of the task state segment that are stored. -/
def Tss.withStacks (t : Tss) (rsp0 ist1 : Addr) : Tss :=
  { t with
    rsp0Low := (rsp0 >>> 0 &&& 0xffffffff).setWidth 32
    rsp0High := (rsp0 >>> 32 &&& 0xffffffff).setWidth 32
    ist1Low := (ist1 >>> 0 &&& 0xffffffff).setWidth 32
    ist1High := (ist1 >>> 32 &&& 0xffffffff).setWidth 32 }

/-- `5 << 3`. -/
def taskSelector : BitVec 16 := 0x28

/-- The instruction `ltr` also marks the segment as busy. -/
def loadTaskRegister (selector : BitVec 16) (s : SegmentState) : SegmentState :=
  { s with
    tr := selector
    gdt := Function.update s.gdt 5 { s.gdt 5 with type := (s.gdt 5).type ||| 0b0010 } }

def initSegments (fuel : ℕ) (s : SegmentState) (mem : Memory) :
    Except SegmentsStop (Memory × SegmentState) := do
  let (mem, rsp0Stack) ← (allocMem fuel mem 2).mapError .memory
  if rsp0Stack = 0 then throw (.panic "rsp0_stack is NULL!")
  let rsp0StackAddr := BitVec.ofNat 64 rsp0Stack + 8192 - 8
  let (mem, ist1Stack) ← (allocMem fuel mem 2).mapError .memory
  if ist1Stack = 0 then throw (.panic "ist1_stack is NULL!")
  let ist1StackAddr := BitVec.ofNat 64 ist1Stack + 8192 - 8
  let s := { s with
    gdt := initGdt s.tssAddr
    tss := s.tss.withStacks rsp0StackAddr ist1StackAddr
    -- `sizeof(gdt) - 1`
    gdtrLimit := 7 * 8 - 1
    gdtrBase := s.gdtAddr
    dataSegments := 0
    cs := 0x08
    ss := 0x10 }
  return (mem, loadTaskRegister taskSelector s)

/-! ## The CPU -/

/-- What the CPU makes of a descriptor. -/
structure Segment where
  base : BitVec 32
  /-- The last offset of the segment. -/
  limit : ℕ
  type : BitVec 4
  system : Bool
  dpl : BitVec 2
  present : Bool
  long : Bool
  db : Bool
  deriving DecidableEq

def decodeSegment (b : BitVec 64) : Segment where
  base := b.extractLsb' 56 8 ++ b.extractLsb' 32 8 ++ b.extractLsb' 16 16
  limit :=
    let limit := (b.extractLsb' 48 4 ++ b.extractLsb' 0 16).toNat
    if b.extractLsb' 55 1 = 1 then 4096 * limit + 4095 else limit
  type := b.extractLsb' 40 4
  system := b.extractLsb' 44 1 = 0
  dpl := b.extractLsb' 45 2
  present := b.extractLsb' 47 1 = 1
  long := b.extractLsb' 53 1 = 1
  db := b.extractLsb' 54 1 = 1

/-- The bits of the descriptor that a selector selects, if it is within the table at `gdt`. -/
def SegmentState.descriptorBits (s : SegmentState) (selector : BitVec 16) : Option (BitVec 64) :=
  let i := (selector >>> 3).toNat
  if h : i < 7 then
    if s.gdtrBase = s.gdtAddr ∧ 8 * i + 7 ≤ s.gdtrLimit.toNat then some (s.gdt ⟨i, h⟩).bits
    else none
  else none

/-- The segment that a selector selects; the null selector selects none. -/
def SegmentState.segment (s : SegmentState) (selector : BitVec 16) : Option Segment :=
  if selector >>> 3 = 0 then none else (s.descriptorBits selector).map decodeSegment

/-- The address and the limit of the task state segment, from a descriptor of 16 bytes. -/
def SegmentState.task (s : SegmentState) : Option (Addr × ℕ) := do
  let low ← s.descriptorBits s.tr
  let high ← s.descriptorBits (s.tr + 8)
  let segment := decodeSegment low
  -- a busy 64-bit segment; the second half has no type
  if segment.present ∧ segment.system ∧ segment.type = 0b1011 ∧ high.extractLsb' 40 5 = 0 then
    some (high.extractLsb' 0 32 ++ segment.base, segment.limit)
  else none

/-- The word at an offset of the task state segment, the structure `tss` being all that is known of
memory. -/
def SegmentState.taskWord (s : SegmentState) (offset : ℕ) : Option Addr := do
  let (base, limit) ← s.task
  let low ← s.tss.dwords[offset / 4]?
  let high ← s.tss.dwords[offset / 4 + 1]?
  if base = s.tssAddr ∧ offset + 7 ≤ limit then some (high ++ low) else none

/-- The stack for an exception in user mode. -/
def SegmentState.privilegedStack (s : SegmentState) : Option Addr := s.taskWord 4

/-- The stack with a number from 1 to 7 in the interrupt stack table. -/
def SegmentState.interruptStack (s : SegmentState) (n : ℕ) : Option Addr :=
  s.taskWord (36 + 8 * (n - 1))

section Decode

variable {s : SegmentState} {a : Addr} {num : Fin 7} {type dpl : BitVec 8} {base limit : BitVec 32}
  {gdt : Gdt}

/-- The fields come back from where they lie. -/
theorem decodeSegment_bits (d : SegmentDescriptor) : decodeSegment d.bits =
    ⟨d.baseHigh ++ d.baseMid ++ d.baseLow,
      if d.g = 1 then 4096 * (d.limitHigh ++ d.limitLow).toNat + 4095
      else (d.limitHigh ++ d.limitLow).toNat,
      d.type, d.s = 0, d.dpl, d.p = 1, d.l = 1, d.db = 1⟩ := by
  simp (disch := decide) only [decodeSegment, SegmentDescriptor.bits,
    BitVec.extractLsb'_append_eq_of_le, BitVec.extractLsb'_append_eq_of_add_le]
  simp

/-- The three parts of a base. -/
theorem append_baseParts (base : BitVec 32) : (base >>> 24 &&& 0xff).setWidth 8 ++
    (base >>> 16 &&& 0xff).setWidth 8 ++ (base &&& 0xffff).setWidth 16 = base := by
  have hlow : (base &&& 0xffff).setWidth 16 = base.extractLsb' 0 16 := by
    have h : (base >>> 0 &&& 0xffff).setWidth 16 = base.extractLsb' 0 16 := maskedBits_eq base rfl
    rwa [BitVec.ushiftRight_zero] at h
  have hhigh : base.extractLsb' 24 8 ++ base.extractLsb' 16 8 = base.extractLsb' 16 16 :=
    BitVec.extractLsb'_append_extractLsb'_eq_extractLsb' (by decide)
  have hwhole : base.extractLsb' 16 16 ++ base.extractLsb' 0 16 = base.extractLsb' 0 32 :=
    BitVec.extractLsb'_append_extractLsb'_eq_extractLsb' (by decide)
  rw [maskedBits_eq base rfl, maskedBits_eq base rfl, hlow, hhigh, hwhole]
  exact BitVec.extractLsb'_eq_self

/-- The two parts of a limit, which has 20 bits. -/
theorem append_limitParts (limit : BitVec 32) : (limit >>> 16 &&& 0x0f).setWidth 4 ++
    (limit &&& 0xffff).setWidth 16 = limit.extractLsb' 0 20 := by
  have hlow : (limit &&& 0xffff).setWidth 16 = limit.extractLsb' 0 16 := by
    have h : (limit >>> 0 &&& 0xffff).setWidth 16 = limit.extractLsb' 0 16 :=
      maskedBits_eq limit rfl
    rwa [BitVec.ushiftRight_zero] at h
  rw [maskedBits_eq limit rfl, hlow]
  exact BitVec.extractLsb'_append_extractLsb'_eq_extractLsb' (by decide)

theorem segment_setCodeSegment :
    decodeSegment (setCodeSegment num type dpl base limit gdt num).bits =
      ⟨base, 4096 * (limit.extractLsb' 0 20).toNat + 4095, type.setWidth 4, false, dpl.setWidth 2,
        true, true, (gdt num).db = 1⟩ := by
  rw [setCodeSegment, Function.update_self, decodeSegment_bits]
  dsimp only
  rw [append_baseParts, append_limitParts]
  rfl

theorem segment_setDataSegment :
    decodeSegment (setDataSegment num type dpl base limit gdt num).bits =
      ⟨base, 4096 * (limit.extractLsb' 0 20).toNat + 4095, type.setWidth 4, false, dpl.setWidth 2,
        true, false, true⟩ := by
  rw [setDataSegment, Function.update_self, setCodeSegment, Function.update_self,
    decodeSegment_bits]
  dsimp only
  rw [append_baseParts, append_limitParts]
  rfl

theorem segment_setSystemSegment :
    decodeSegment (setSystemSegment num type dpl base limit gdt num).bits =
      ⟨base, 4096 * (limit.extractLsb' 0 20).toNat + 4095, type.setWidth 4, true, dpl.setWidth 2,
        true, false, (gdt num).db = 1⟩ := by
  rw [setSystemSegment, Function.update_self, setCodeSegment, Function.update_self,
    decodeSegment_bits]
  dsimp only
  rw [append_baseParts, append_limitParts]
  rfl

theorem setCodeSegment_of_ne {i : Fin 7} (h : i ≠ num) :
    setCodeSegment num type dpl base limit gdt i = gdt i := Function.update_of_ne h _ _

theorem setDataSegment_of_ne {i : Fin 7} (h : i ≠ num) :
    setDataSegment num type dpl base limit gdt i = gdt i :=
  (Function.update_of_ne h _ _).trans (setCodeSegment_of_ne h)

theorem setSystemSegment_of_ne {i : Fin 7} (h : i ≠ num) :
    setSystemSegment num type dpl base limit gdt i = gdt i :=
  (Function.update_of_ne h _ _).trans (setCodeSegment_of_ne h)

end Decode

/-! ## What is loaded -/

/-- `USER_SS`. -/
def userSs : BitVec 16 := 0x18 ||| 0x03

/-- `USER_CS`. -/
def userCs : BitVec 16 := 0x20 ||| 0x03

/-- The segments behind `init_segments`, which has taken the stacks `rsp0` and `ist1`. -/
def SegmentState.loaded (s : SegmentState) (rsp0 ist1 : Addr) : SegmentState :=
  loadTaskRegister taskSelector { s with
    gdt := initGdt s.tssAddr
    tss := s.tss.withStacks rsp0 ist1
    gdtrLimit := 7 * 8 - 1
    gdtrBase := s.gdtAddr
    dataSegments := 0
    cs := 0x08
    ss := 0x10 }

section Loaded

variable {s : SegmentState} {rsp0 ist1 tssAddr : Addr}

theorem gdt_loaded {i : Fin 7} (h : i ≠ 5) :
    (s.loaded rsp0 ist1).gdt i = initGdt s.tssAddr i := Function.update_of_ne h _ _

/-- A flat segment of four gigabytes. -/
def flatSegment (type : BitVec 4) (dpl : BitVec 2) (long : Bool) : Segment :=
  ⟨0, 2 ^ 32 - 1, type, false, dpl, true, long, !long⟩

theorem segment_kernelCode :
    decodeSegment (initGdt tssAddr 1).bits = flatSegment 0b1010 0 true := by
  rw [initGdt, Function.update_of_ne (by decide), setSystemSegment_of_ne (by decide),
    setCodeSegment_of_ne (by decide), setDataSegment_of_ne (by decide),
    setDataSegment_of_ne (by decide), segment_setCodeSegment]
  rfl

theorem segment_kernelData :
    decodeSegment (initGdt tssAddr 2).bits = flatSegment 0b0010 0 false := by
  rw [initGdt, Function.update_of_ne (by decide), setSystemSegment_of_ne (by decide),
    setCodeSegment_of_ne (by decide), setDataSegment_of_ne (by decide), segment_setDataSegment]
  rfl

theorem segment_userData :
    decodeSegment (initGdt tssAddr 3).bits = flatSegment 0b0010 3 false := by
  rw [initGdt, Function.update_of_ne (by decide), setSystemSegment_of_ne (by decide),
    setCodeSegment_of_ne (by decide), segment_setDataSegment]
  rfl

theorem segment_userCode :
    decodeSegment (initGdt tssAddr 4).bits = flatSegment 0b1010 3 true := by
  rw [initGdt, Function.update_of_ne (by decide), setSystemSegment_of_ne (by decide),
    segment_setCodeSegment, setDataSegment_of_ne (by decide), setDataSegment_of_ne (by decide),
    setCodeSegment_of_ne (by decide)]
  rfl

theorem decodeSegment_withType (d : SegmentDescriptor) (type : BitVec 4) :
    decodeSegment { d with type := type }.bits =
      { decodeSegment d.bits with type := type } := by
  rw [decodeSegment_bits, decodeSegment_bits]

theorem gdt_loaded_task : (s.loaded rsp0 ist1).gdt 5 =
    { initGdt s.tssAddr 5 with type := (initGdt s.tssAddr 5).type ||| 0b0010 } := by
  rw [SegmentState.loaded, loadTaskRegister]
  dsimp only
  exact Function.update_self ..

/-- The descriptor of the task state segment: its limit is counted in pages. -/
theorem segment_task : decodeSegment ((s.loaded rsp0 ist1).gdt 5).bits =
    ⟨s.tssAddr.extractLsb' 0 32, 4096 * tssSize - 1, 0b1011, true, 0, true, false, false⟩ := by
  have hlow : (s.tssAddr &&& 0xffffffff).setWidth 32 = s.tssAddr.extractLsb' 0 32 := by
    have h : (s.tssAddr >>> 0 &&& 0xffffffff).setWidth 32 = s.tssAddr.extractLsb' 0 32 :=
      maskedBits_eq s.tssAddr rfl
    rwa [BitVec.ushiftRight_zero] at h
  rw [gdt_loaded_task, decodeSegment_withType, initGdt]
  dsimp only
  rw [Function.update_of_ne (by decide), segment_setSystemSegment, hlow,
    setCodeSegment_of_ne (by decide), setDataSegment_of_ne (by decide),
    setDataSegment_of_ne (by decide), setCodeSegment_of_ne (by decide), Segment.mk.injEq]
  have hlimit : (BitVec.ofNat 32 (tssSize - 1)).extractLsb' 0 20 = 103 := by decide
  refine ⟨rfl, ?_, ?_, rfl, rfl, rfl, rfl, rfl⟩
  · dsimp only
    rw [hlimit]
    rfl
  · rw [setSystemSegment, Function.update_self, setCodeSegment, Function.update_self]
    change (0b1001 : BitVec 8).setWidth 4 ||| 0b0010 = (0b1011 : BitVec 4)
    decide

/-- The lowest fields of a descriptor, and those that say what kind of segment it is. -/
theorem extractLsb'_bits (d : SegmentDescriptor) :
    d.bits.extractLsb' 0 32 = d.baseLow ++ d.limitLow ∧
      d.bits.extractLsb' 40 5 = d.s ++ d.type := by
  have hlow : d.bits.extractLsb' 16 16 ++ d.bits.extractLsb' 0 16 = d.bits.extractLsb' 0 32 :=
    BitVec.extractLsb'_append_extractLsb'_eq_extractLsb' (by decide)
  have hkind : d.bits.extractLsb' 44 1 ++ d.bits.extractLsb' 40 4 = d.bits.extractLsb' 40 5 :=
    BitVec.extractLsb'_append_extractLsb'_eq_extractLsb' (by decide)
  rw [← hlow, ← hkind]
  simp (disch := decide) only [SegmentDescriptor.bits, BitVec.extractLsb'_append_eq_of_le,
    BitVec.extractLsb'_append_eq_of_add_le]
  simp

/-- The second half of the descriptor holds the upper half of the address and no type. -/
theorem bits_taskHigh : (initGdt tssAddr 6).bits.extractLsb' 0 32 = tssAddr.extractLsb' 32 32 ∧
    (initGdt tssAddr 6).bits.extractLsb' 40 5 = 0 := by
  have hparts : tssAddr.extractLsb' 48 16 ++ tssAddr.extractLsb' 32 16 =
      tssAddr.extractLsb' 32 32 :=
    BitVec.extractLsb'_append_extractLsb'_eq_extractLsb' (by decide)
  have hgdt : initGdt tssAddr 6 = { clearedGdt 6 with
      limitLow := tssAddr.extractLsb' 32 16, baseLow := tssAddr.extractLsb' 48 16 } := by
    rw [initGdt]
    dsimp only
    rw [Function.update_self, setSystemSegment_of_ne (by decide),
      setCodeSegment_of_ne (by decide), setDataSegment_of_ne (by decide),
      setDataSegment_of_ne (by decide), setCodeSegment_of_ne (by decide), maskedBits_eq _ rfl,
      maskedBits_eq _ rfl]
  obtain ⟨hlow, hkind⟩ := extractLsb'_bits (initGdt tssAddr 6)
  rw [hlow, hkind, hgdt]
  refine ⟨hparts, ?_⟩
  change (0 : BitVec 1) ++ (0 : BitVec 4) = 0
  decide

/-- An entry of the table, found by its selector. -/
theorem descriptorBits_loaded {selector : BitVec 16} {i : Fin 7}
    (h : (selector >>> 3).toNat = i) : (s.loaded rsp0 ist1).descriptorBits selector =
      some ((s.loaded rsp0 ist1).gdt i).bits := by
  have hlimit : 8 * (i : ℕ) + 7 ≤ ((s.loaded rsp0 ist1).gdtrLimit).toNat := by
    have hi := i.isLt
    have h55 : ((s.loaded rsp0 ist1).gdtrLimit).toNat = 55 := rfl
    omega
  rw [SegmentState.descriptorBits]
  simp only [h]
  rw [dif_pos i.isLt, if_pos ⟨rfl, hlimit⟩]

theorem segment_loaded {selector : BitVec 16} {i : Fin 7} (h : (selector >>> 3).toNat = i)
    (hi : i ≠ 0 ∧ i ≠ 5) : (s.loaded rsp0 ist1).segment selector =
      some (decodeSegment (initGdt s.tssAddr i).bits) := by
  have hne : selector >>> 3 ≠ 0 := by
    intro hzero
    rw [hzero] at h
    exact hi.1 (Fin.ext h.symm)
  rw [SegmentState.segment, if_neg hne, descriptorBits_loaded h, gdt_loaded hi.2]
  rfl

/-- The task register leads to the task state segment, wherever it lies. -/
theorem task_loaded : (s.loaded rsp0 ist1).task = some (s.tssAddr, 4096 * tssSize - 1) := by
  have hlow : (s.loaded rsp0 ist1).descriptorBits (s.loaded rsp0 ist1).tr =
      some ((s.loaded rsp0 ist1).gdt 5).bits :=
    descriptorBits_loaded (show (taskSelector >>> 3).toNat = (5 : Fin 7) by decide)
  have hhigh : (s.loaded rsp0 ist1).descriptorBits ((s.loaded rsp0 ist1).tr + 8) =
      some ((s.loaded rsp0 ist1).gdt 6).bits :=
    descriptorBits_loaded (show ((taskSelector + 8) >>> 3).toNat = (6 : Fin 7) by decide)
  have hwhole : s.tssAddr.extractLsb' 32 32 ++ s.tssAddr.extractLsb' 0 32 = s.tssAddr := by
    rw [BitVec.extractLsb'_append_extractLsb'_eq_extractLsb' (by decide)]
    exact BitVec.extractLsb'_eq_self
  rw [gdt_loaded (by decide)] at hhigh
  rw [SegmentState.task, hlow, hhigh]
  simp only [Option.bind_eq_bind, Option.bind_some, segment_task, bits_taskHigh]
  rw [hwhole]
  rfl

theorem append_halves (a : Addr) : (a >>> 32 &&& 0xffffffff).setWidth 32 ++
    (a >>> 0 &&& 0xffffffff).setWidth 32 = a := by
  rw [maskedBits_eq a rfl, maskedBits_eq a rfl,
    BitVec.extractLsb'_append_extractLsb'_eq_extractLsb' (by decide)]
  exact BitVec.extractLsb'_eq_self

/-- A word of the task state segment. -/
theorem taskWord_loaded {offset : ℕ} {low high : BitVec 32} (h : offset + 7 ≤ 4096 * tssSize - 1)
    (hlow : (s.tss.withStacks rsp0 ist1).dwords[offset / 4]? = some low)
    (hhigh : (s.tss.withStacks rsp0 ist1).dwords[offset / 4 + 1]? = some high) :
    (s.loaded rsp0 ist1).taskWord offset = some (high ++ low) := by
  have htss : (s.loaded rsp0 ist1).tss = s.tss.withStacks rsp0 ist1 := rfl
  rw [SegmentState.taskWord, task_loaded, htss, hlow, hhigh]
  exact if_pos ⟨rfl, h⟩

/-- Both stacks are found again where the CPU looks for them. -/
theorem stacks_loaded : (s.loaded rsp0 ist1).privilegedStack = some rsp0 ∧
    (s.loaded rsp0 ist1).interruptStack 1 = some ist1 := by
  rw [SegmentState.privilegedStack, SegmentState.interruptStack]
  constructor
  · rw [taskWord_loaded (by decide) rfl rfl]
    exact congrArg some (append_halves rsp0)
  · rw [taskWord_loaded (by decide) rfl rfl]
    exact congrArg some (append_halves ist1)

end Loaded

end VimOS
