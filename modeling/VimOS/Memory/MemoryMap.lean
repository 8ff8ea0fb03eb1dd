import VimOS.Library.ByteMemory
import VimOS.Memory.MemList
import VimOS.Paging.Address

/-!
# The memory map and `init_mem`

`init_mem` of `kernel/mem.c` reads the memory map of the firmware and writes the first free list, a
node at the start of each run of usable descriptors. Here memory is bytes, since the map lies in it
as well: a descriptor is read when the loop comes to it, after the nodes of the runs before it have
been written. `initMemFrom` is the same loop over the descriptors as they were read.

Pages the tables do not map are not told apart; every address can be read and written.
-/

namespace VimOS

open ByteMemory

/-! ## Descriptors -/

/-- `EFI_MEMORY_TYPE`. -/
inductive EfiMemoryType : Type
  | reservedMemoryType
  | loaderCode
  | loaderData
  | bootServicesCode
  | bootServicesData
  | runtimeServicesCode
  | runtimeServicesData
  | conventionalMemory
  | unusableMemory
  | acpiReclaimMemory
  | acpiMemoryNvs
  | memoryMappedIo
  | memoryMappedIoPortSpace
  | palCode
  | persistentMemory
  | maxMemoryType
  deriving DecidableEq

/-- The value of the enumerator. -/
def EfiMemoryType.value (t : EfiMemoryType) : ℕ := t.ctorIdx

/-- `EFI_MEMORY_DESCRIPTOR`, as far as it is read. -/
structure EfiMemoryDescriptor where
  type : BitVec 32
  physicalStart : Addr
  numberOfPage : BitVec 64
  deriving DecidableEq

/-- `struct UEFI_MemoryMap`. -/
structure UefiMemoryMap where
  buffer : Addr
  mapsize : BitVec 64
  descsize : BitVec 64

/-- `static int isUsableMemType(uint16_t type)`. -/
def isUsableMemType (type : BitVec 16) : Bool :=
  type = .ofNat 16 EfiMemoryType.loaderCode.value ||
    type = .ofNat 16 EfiMemoryType.loaderData.value ||
    type = .ofNat 16 EfiMemoryType.bootServicesCode.value ||
    type = .ofNat 16 EfiMemoryType.bootServicesData.value ||
    type = .ofNat 16 EfiMemoryType.conventionalMemory.value

/-- The descriptor at an address: `Type` lies at offset 0, `PhysicalStart` at 8, `NumberOfPage` at
24. -/
def readDescriptor (bytes : Bytes) (m : Addr) : EfiMemoryDescriptor where
  type := .ofNat 32 (load bytes m 4)
  physicalStart := .ofNat 64 (load bytes (m + 8) 8)
  numberOfPage := .ofNat 64 (load bytes (m + 24) 8)

/-! ## Memory -/

/-- The static header `memlist` and all other memory. -/
structure RawMemory where
  memlist : MemList
  bytes : Bytes

namespace RawMemory

/-- Zeros everywhere. -/
def blank : RawMemory := ⟨⟨0, 0⟩, fun _ ↦ 0⟩

/-- The `struct memlist` at an address. -/
def readNode (bytes : Bytes) (a : Addr) : MemList := ⟨load bytes a 8, load bytes (a + 8) 4⟩

/-- Memory as the allocator sees it. -/
def nodes (mem : RawMemory) : Memory := ⟨mem.memlist, fun a ↦ readNode mem.bytes (.ofNat 64 a)⟩

/-- The assignment `p->next = v`. -/
def setNext (mem : RawMemory) (p : Option Addr) (v : Addr) : RawMemory :=
  match p with
  | none => { mem with memlist := { mem.memlist with next := v.toNat } }
  | some a => { mem with bytes := store mem.bytes a 8 v.toNat }

/-- The assignment `ml->pages = v`. -/
def setPages (mem : RawMemory) (ml : Addr) (v : BitVec 32) : RawMemory :=
  { mem with bytes := store mem.bytes (ml + 8) 4 v.toNat }

/-- The assignment `memlist.pages += pages`. -/
def addPages (mem : RawMemory) (pages : BitVec 64) : RawMemory :=
  { mem with memlist := { mem.memlist with
      pages := (mem.memlist.pages + pages.toNat) % 2 ^ 32 } }

/-- The places are the same, or their nodes have no byte in common. -/
def Separate (p q : Option Addr) : Prop :=
  ∀ a ∈ p, ∀ b ∈ q, a = b ∨ Apart a 16 b 16

/-- `p->next`, as a function of the place. -/
def nextAt (mem : RawMemory) (p : Option Addr) : ℕ := mem.nodes.next (p.map BitVec.toNat)

/-- `p->pages`, as a function of the place. -/
def pagesAt (mem : RawMemory) (p : Option Addr) : ℕ := (mem.nodes.node (p.map BitVec.toNat)).pages

variable {mem : RawMemory} {p q : Option Addr} {a b : Addr}

theorem nextAt_none (mem : RawMemory) : mem.nextAt none = mem.memlist.next := rfl

theorem pagesAt_none (mem : RawMemory) : mem.pagesAt none = mem.memlist.pages := rfl

theorem ofNat_toNat (a : Addr) : BitVec.ofNat 64 a.toNat = a := by
  rw [BitVec.ofNat_toNat, BitVec.setWidth_eq]

theorem nextAt_some (mem : RawMemory) (a : Addr) : mem.nextAt (some a) = load mem.bytes a 8 := by
  rw [nextAt, Option.map_some, Memory.next, Memory.node, nodes]
  show (readNode mem.bytes (.ofNat 64 a.toNat)).next = _
  rw [ofNat_toNat, readNode]

theorem pagesAt_some (mem : RawMemory) (a : Addr) :
    mem.pagesAt (some a) = load mem.bytes (a + 8) 4 := by
  rw [pagesAt, Option.map_some, Memory.node, nodes]
  show (readNode mem.bytes (.ofNat 64 a.toNat)).pages = _
  rw [ofNat_toNat, readNode]

theorem memlist_setPages (mem : RawMemory) (a : Addr) (v : BitVec 32) :
    (mem.setPages a v).memlist = mem.memlist := rfl

theorem memlist_setNext_some (mem : RawMemory) (a v : Addr) :
    (mem.setNext (some a) v).memlist = mem.memlist := rfl

/-- The fields of a node have no byte in common. -/
theorem fields_apart (a : Addr) : Apart a 8 (a + 8) 4 ∧ Apart (a + 8) 4 a 8 := by
  refine ⟨fun k hk ↦ ?_, fun k hk ↦ ?_⟩
  · have hk64 : (BitVec.ofNat 64 k).toNat = k := by
      rw [BitVec.toNat_ofNat]
      omega
    bv_omega
  · have hk64 : (BitVec.ofNat 64 k).toNat = k := by
      rw [BitVec.toNat_ofNat]
      omega
    bv_omega

theorem separate_some : Separate (some a) (some b) ↔ a = b ∨ Apart a 16 b 16 := by
  simp [Separate]

theorem separate_none : Separate none q ∧ Separate q none := by
  simp [Separate]

/-- Of two nodes without a common byte, no field meets a field of the other. -/
theorem Separate.fields (h : Separate (some b) (some a)) (hab : b ≠ a) :
    Apart b 8 a 8 ∧ Apart b 8 (a + 8) 4 ∧ Apart (b + 8) 4 a 8 ∧ Apart (b + 8) 4 (a + 8) 4 := by
  have hfar : Apart b 16 a 16 := (separate_some.mp h).resolve_left hab
  have h0 : ∀ c : Addr, c = c + BitVec.ofNat 64 0 := fun c ↦ (BitVec.add_zero c).symm
  refine ⟨?_, ?_, ?_, ?_⟩
  · rw [h0 a, h0 b]
    exact hfar.part (by decide) (by decide)
  · rw [h0 b]
    exact hfar.part (by decide) (by decide)
  · rw [h0 a]
    exact hfar.part (by decide) (by decide)
  · exact hfar.part (by decide) (by decide)

theorem nextAt_setNext (h : Separate q p) (v : Addr) :
    (mem.setNext p v).nextAt q = if q = p then v.toNat else mem.nextAt q := by
  cases p with
  | none =>
    cases q with
    | none => rw [if_pos rfl, nextAt_none, setNext]
    | some b => rw [if_neg (by simp), nextAt_some, nextAt_some, setNext]
  | some a =>
    cases q with
    | none => rw [if_neg (by simp), nextAt_none, nextAt_none, memlist_setNext_some]
    | some b =>
      rw [nextAt_some, nextAt_some, setNext]
      by_cases hab : b = a
      · rw [hab, if_pos rfl, load_store (by decide)]
        exact Nat.mod_eq_of_lt v.isLt
      · rw [if_neg fun heq ↦ hab (Option.some.inj heq), load_store_of_apart (h.fields hab).1]

theorem nextAt_setPages (h : Separate q (some a)) (v : BitVec 32) :
    (mem.setPages a v).nextAt q = mem.nextAt q := by
  cases q with
  | none => rw [nextAt_none, nextAt_none, memlist_setPages]
  | some b =>
    rw [nextAt_some, nextAt_some, setPages]
    by_cases hab : b = a
    · rw [hab, load_store_of_apart (fields_apart a).1]
    · rw [load_store_of_apart (h.fields hab).2.1]

theorem pagesAt_setNext (h : Separate q p) (v : Addr) :
    (mem.setNext p v).pagesAt q = mem.pagesAt q := by
  cases p with
  | none =>
    cases q with
    | none => rw [pagesAt_none, pagesAt_none, setNext]
    | some b => rw [pagesAt_some, pagesAt_some, setNext]
  | some a =>
    cases q with
    | none => rw [pagesAt_none, pagesAt_none, memlist_setNext_some]
    | some b =>
      rw [pagesAt_some, pagesAt_some, setNext]
      by_cases hab : b = a
      · rw [hab, load_store_of_apart (fields_apart a).2]
      · rw [load_store_of_apart (h.fields hab).2.2.1]

theorem pagesAt_setPages (h : Separate q (some a)) (v : BitVec 32) :
    (mem.setPages a v).pagesAt q = if q = some a then v.toNat else mem.pagesAt q := by
  cases q with
  | none => rw [if_neg (by simp), pagesAt_none, pagesAt_none, memlist_setPages]
  | some b =>
    rw [pagesAt_some, pagesAt_some, setPages]
    by_cases hab : b = a
    · rw [hab, if_pos rfl, load_store (by decide)]
      exact Nat.mod_eq_of_lt v.isLt
    · rw [if_neg fun heq ↦ hab (Option.some.inj heq), load_store_of_apart (h.fields hab).2.2.2]

end RawMemory

/-! ## `init_mem` -/

/-- The variables of `init_mem`, and memory; `curMemlist` is `none` at the header. -/
structure InitMem where
  mem : RawMemory
  start : Addr
  pages : BitVec 64
  curMemlist : Option Addr

/-- The state before the loop. -/
def InitMem.begin (mem : RawMemory) : InitMem := ⟨mem, 0, 0, none⟩

/-- "write desc": make a node of the pending run and link it in. -/
def writeRun (s : InitMem) : InitMem :=
  let ml := p2v s.start
  let mem := s.mem.setNext (some ml) 0
  let mem := mem.setPages ml (s.pages.setWidth 32)
  let mem := mem.addPages s.pages
  let mem := mem.setNext s.curMemlist ml
  { s with mem := mem, start := 0, curMemlist := some ml }

/-- The body of the loop. -/
def initMemBody (s : InitMem) (desc : EfiMemoryDescriptor) : InitMem :=
  if isUsableMemType (desc.type.setWidth 16) then
    let s := if s.start = 0 then
      { s with start := desc.physicalStart, pages := desc.numberOfPage } else s
    if s.start + s.pages * 4096 = desc.physicalStart then
      { s with pages := s.pages + desc.numberOfPage }
    else s
  else if s.start ≠ 0 then writeRun s
  else s

/-- The loop, standing at `m`. -/
def initMemLoop (memmap : UefiMemoryMap) : ℕ → InitMem → Addr → Option InitMem
  | 0, _, _ => none
  | fuel + 1, s, m =>
    if m < p2v memmap.buffer + memmap.mapsize then
      initMemLoop memmap fuel (initMemBody s (readDescriptor s.mem.bytes m)) (m + memmap.descsize)
    else some s

/-- `void init_mem(struct UEFI_MemoryMap *memmap)`. -/
def initMem (fuel : ℕ) (mem : RawMemory) (memmap : UefiMemoryMap) : Option RawMemory :=
  (initMemLoop memmap fuel (.begin mem) (p2v memmap.buffer)).map InitMem.mem

/-- The loop over descriptors that have been read. -/
def initMemFrom (mem : RawMemory) (descs : List EfiMemoryDescriptor) : RawMemory :=
  (descs.foldl initMemBody (.begin mem)).mem

/-- The descriptors that the loop reads from `m` on, each from memory as the nodes written before
have left it. -/
def readLoop (memmap : UefiMemoryMap) : ℕ → InitMem → Addr → List EfiMemoryDescriptor
  | 0, _, _ => []
  | fuel + 1, s, m =>
    if m < p2v memmap.buffer + memmap.mapsize then
      let desc := readDescriptor s.mem.bytes m
      desc :: readLoop memmap fuel (initMemBody s desc) (m + memmap.descsize)
    else []

/-- The memory map as `init_mem` reads it. -/
def mapRead (fuel : ℕ) (mem : RawMemory) (memmap : UefiMemoryMap) : List EfiMemoryDescriptor :=
  readLoop memmap fuel (.begin mem) (p2v memmap.buffer)

theorem initMemLoop_eq_foldl {fuel : ℕ} {memmap : UefiMemoryMap} {s s' : InitMem} {m : Addr}
    (h : initMemLoop memmap fuel s m = some s') :
    s' = (readLoop memmap fuel s m).foldl initMemBody s := by
  induction fuel generalizing s m with
  | zero => exact absurd h (by simp [initMemLoop])
  | succ fuel ih =>
    rw [initMemLoop] at h
    rw [readLoop]
    split_ifs at h ⊢ with hm
    · exact ih h
    · exact (Option.some.inj h).symm

/-- Whatever the loop reads, it is the loop over what it has read. -/
theorem eq_initMemFrom {fuel : ℕ} {mem mem' : RawMemory} {memmap : UefiMemoryMap}
    (h : initMem fuel mem memmap = some mem') :
    mem' = initMemFrom mem (mapRead fuel mem memmap) := by
  obtain ⟨s', hs', rfl⟩ := Option.map_eq_some_iff.mp h
  rw [initMemLoop_eq_foldl hs']
  rfl

end VimOS
