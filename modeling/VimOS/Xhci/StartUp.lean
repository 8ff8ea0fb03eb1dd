import VimOS.Xhci.EventRing
import VimOS.Xhci.Scratchpad

/-!
# Starting the host controller

`init_xhci` of `kernel/xhci.c`, behind the discovery of the extended capabilities, as a program over
the registers of the controller, next to a controller that resets, becomes ready, starts and stops
in its own time. The tables that the controller is given lie in pages that `alloc_mem` has handed
out, and these hold the nodes of the free list as well, so that the allocator is part of the state.

The controller may not be written to while it resets (`HCRST`) or before it is ready (`CNR`), and it
looks at its tables from the moment that `R/S` is set.
-/

namespace VimOS

open Block Machine

/-! ## The driver's side -/

/-- What the driver does. -/
inductive StartOp : Type
  | readXhci (reg : BitVec 16)
  | readOperation (reg : BitVec 16)
  | writeOperation (reg : BitVec 16) (val : Word)
  | writeRuntime (reg : BitVec 16) (val : Word)
  | allocMem (pages : ℕ)
  /-- `memset(p, 0, 4096)`. -/
  | clearPage (p : Addr)
  /-- A store of a pointer at a virtual address. -/
  | storePointer (p val : Addr)
  /-- The assignments to the fields of `erst`. -/
  | setErst (erst : EventRingSegmentTable)
  | panic

/-- What an operation answers. -/
def StartOp.Answer : StartOp → Type
  | .readXhci _ => Word
  | .readOperation _ => Word
  | .allocMem _ => Addr
  | .panic => Empty
  | _ => Unit

abbrev StartProg := Prog StartOp StartOp.Answer

def readXhci (reg : BitVec 16) : StartProg Word := Prog.perform (StartOp.readXhci reg)

def writeXhciOperation (reg : BitVec 16) (val : Word) : StartProg Unit :=
  Prog.perform (StartOp.writeOperation reg val)

/-- `panic`, which does not return. -/
def callPanic {α : Type} : StartProg α := .op .panic Empty.elim

def performAllocMem (pages : ℕ) : StartProg Addr := Prog.perform (StartOp.allocMem pages)

/-- `alloc_mem`, and a panic if it returns `NULL`. -/
def allocOrPanic (pages : ℕ) : StartProg Addr := do
  let p ← performAllocMem pages
  if p = 0 then callPanic else pure p

def callStorePointer (p val : Addr) : StartProg Unit := Prog.perform (StartOp.storePointer p val)

/-- `HCSPARAMS1`. -/
def hcsparams1Reg : BitVec 16 := 0x04

/-- `HCSPARAMS2`. -/
def hcsparams2Reg : BitVec 16 := 0x08

/-- `USBCMD`. -/
def usbcmdReg : BitVec 16 := 0x00

/-- `USBSTS`. -/
def usbstsReg : BitVec 16 := 0x04

/-- PAGESIZE. -/
def pagesizeReg : BitVec 16 := 0x08

/-- `CRCR`. -/
def crcrReg : BitVec 16 := 0x18

/-- `DCBAAP`. -/
def dcbaapReg : BitVec 16 := 0x30

/-- `CONFIG`. -/
def configReg : BitVec 16 := 0x38

/-- `ERSTSZ(0)`. -/
def erstszReg : BitVec 16 := 0x20 + 0x08

/-- `ERSTBA(0)`. -/
def erstbaReg : BitVec 16 := 0x20 + 0x10

/-- `ERDP(0)`. -/
def erdpReg : BitVec 16 := 0x20 + 0x18

/-! ### The code -/

/-- The loop over the scratchpad pages, from the `i`-th on. -/
def fillScratchpadArray (pagesize : Word) (array : Addr) : ℕ → ℕ → StartProg Unit
  | 0, _ => pure ()
  | count + 1, i =>
    if pagesize = 0x01#32 then do
      let buf ← allocOrPanic 1
      callStorePointer (array + BitVec.ofNat 64 (8 * i)) (v2p buf)
      fillScratchpadArray pagesize array count (i + 1)
    else callPanic

/-- `device_contexts[0]` and the register DCBAAP. -/
def giveContexts (contexts array : Addr) : StartProg Unit := do
  callStorePointer contexts (v2p array)
  writeXhciOperation (dcbaapReg + 0) (v2p contexts >>> 0 &&& 0xffffffff#64 |>.setWidth 32)
  writeXhciOperation (dcbaapReg + 4) (v2p contexts >>> 32 &&& 0xffffffff#64 |>.setWidth 32)

/-- What the driver reads of the controller and the controller does not change. -/
structure XhciUnit where
  capability : BitVec 16 → Word
  pagesize : Word

/-- The controller and the memory. `notReady` and `halted` are the bits CNR and HCH of USBSTS,
`held` are the blocks that `alloc_mem` has handed out, and `pool` is where it finds its nodes. -/
structure StartState where
  usbcmd : Word
  halted : Bool
  notReady : Bool
  operation : BitVec 16 → Word
  runtime : BitVec 16 → Word
  mem : PhysMem
  erst : EventRingSegmentTable
  pool : Memory
  held : List Block

/-- A page at an address. -/
def page (p : Addr) : Block := ⟨p.toNat, 1⟩

/-- The page that an address lies in. -/
def pageOf (p : Addr) : Block := ⟨p.toNat / 4096 * 4096, 1⟩

/-- A store of a pointer at a physical address. -/
def storePointer (mem : PhysMem) (a val : Addr) : PhysMem :=
  Function.update (Function.update mem a (val.setWidth 32)) (a + 4) ((val >>> 32).setWidth 32)

/-- The pointer at a physical address. -/
def readPointer (mem : PhysMem) (a : Addr) : Addr := mem (a + 4) ++ mem a

/-- `memset` of a page to zero. -/
def clearPage (p : Addr) (mem : PhysMem) : PhysMem := fun a ↦
  if (a - v2p p).toNat < 4096 then 0 else mem a

namespace StartState

/-- What a read of an operational register may answer. -/
def Answers (u : XhciUnit) (s : StartState) (reg : BitVec 16) (v : Word) : Prop :=
  if reg = usbcmdReg then v = s.usbcmd
  else if reg = usbstsReg then v.getLsbD 0 = s.halted ∧ v.getLsbD 11 = s.notReady
  else if reg = pagesizeReg then v = u.pagesize
  else v = s.operation reg

/-- The bits R/S and HCRST of USBCMD. -/
def running (s : StartState) : Bool := s.usbcmd.getLsbD 0

def resetting (s : StartState) : Bool := s.usbcmd.getLsbD 1

/-- The driver may write to the registers. -/
def Writable (s : StartState) : Prop := s.resetting = false ∧ s.notReady = false

end StartState

/-- The effect of an operation. A reset may begin with CNR, and no allocation ends if the free list
is broken. -/
def StartOp.exec (u : XhciUnit) : (e : StartOp) → StartState → e.Answer → StartState → Prop
  | .readXhci reg, s, v, s' => v = u.capability reg ∧ s' = s
  | .readOperation reg, s, v, s' => s.Answers u reg v ∧ s' = s
  | .writeOperation reg v, s, _, s' =>
    if reg = usbcmdReg then
      ∃ cnr, s' = { s with usbcmd := v, notReady := s.notReady || v.getLsbD 1 && cnr }
    else s' = { s with operation := Function.update s.operation reg v }
  | .writeRuntime reg v, s, _, s' => s' = { s with runtime := Function.update s.runtime reg v }
  | .allocMem pages, s, (p : Addr), s' => ∃ fuel pool,
    VimOS.allocMem fuel s.pool pages = .ok (pool, p.toNat) ∧
      s' = { s with
        pool := pool
        held := if p = 0 ∨ pages = 0 then s.held else ⟨p.toNat, pages⟩ :: s.held }
  | .clearPage p, s, _, s' => ∃ junk,
    s' = { s with mem := VimOS.clearPage p s.mem, pool := s.pool.clobber (pageOf p) junk }
  | .storePointer p val, s, _, s' => ∃ junk, s' = { s with
      mem := VimOS.storePointer s.mem (v2p p) val, pool := s.pool.clobber (pageOf p) junk }
  | .setErst erst, s, _, s' => s' = { s with erst := erst }
  | .panic, _, _, _ => False

/-- The controller's steps. -/
inductive ControllerStep : Type
  | reset
  | ready
  | start
  | stop
  | transfer

/-- A reset leaves the registers with values of its own. The controller stops when R/S is clear;
while it runs it may access what it has been given, of which no more is said here than that it was
allocated. -/
def ControllerStep.Rel : StartState → ControllerStep → StartState → Prop
  | s, .reset, s' => s.resetting = true ∧ ∃ cnr operation runtime, s' = { s with
      usbcmd := 0, halted := true, notReady := cnr, operation := operation, runtime := runtime }
  | s, .ready, s' => s' = { s with notReady := false }
  | s, .start, s' => s.running = true ∧ s.resetting = false ∧ s' = { s with halted := false }
  | s, .stop, s' => s.running = false ∧ s' = { s with halted := true }
  | s, .transfer, s' => s.halted = false ∧ ∃ b ∈ s.held, ∃ mem junk,
    (∀ a, (p2v a).toNat ∉ b.bytes → mem a = s.mem a) ∧
      s' = { s with mem := mem, pool := s.pool.clobber b junk }

/-- The driver and the controller. -/
def startMachine (u : XhciUnit) : Machine StartOp StartOp.Answer StartState ControllerStep where
  exec := StartOp.exec u
  env := ControllerStep.Rel

/-! ## What is promised -/

/-- The driver's blocks are apart from each other and from the free list `L`, and all of this lies
where physical memory is mapped. -/
structure StartState.Sound (L : List Block) (s : StartState) : Prop where
  pool : Pool s.pool L
  aligned : ∀ b ∈ L, b.addr % 4096 = 0
  held_aligned : ∀ b ∈ s.held, b.addr % 4096 = 0
  held_valid : ∀ b ∈ s.held, b.Valid
  held_direct : ∀ b ∈ s.held, pageOffset.toNat ≤ b.addr
  apart : s.held.Pairwise fun b c ↦ Disjoint b.bytes c.bytes
  free : ∀ b ∈ s.held, Disjoint b.bytes (cover L)

/-- The addresses of what the controller is given: the device contexts, the scratchpad array with
its pages, and the two rings. -/
structure StartTables where
  contexts : Addr
  array : Addr
  pages : List Addr
  cmdRing : Addr
  eventRing : Addr

namespace StartTables

/-- The block of the scratchpad array, if there is one. -/
def arrayBlocks (array : Addr) (count : ℕ) : List Block :=
  if count = 0 then [] else [⟨array.toNat, (count * 8 + 4095) / 4096⟩]

/-- All blocks, the one allocated last at the front. -/
def blocks (t : StartTables) : List Block :=
  page t.eventRing :: page t.cmdRing ::
    ((t.pages.map page).reverse ++ (arrayBlocks t.array t.pages.length ++ [page t.contexts]))

end StartTables

/-- A register of 64 bits. -/
def pointerRegister (regs : BitVec 16 → Word) (reg : BitVec 16) : Addr := regs (reg + 4) ++ regs reg

/-- The registers say where the tables are. -/
structure RegistersSet (u : XhciUnit) (erst : Addr) (t : StartTables) (s : StartState) : Prop where
  maxSlots : s.operation configReg &&& 0xff#32 = u.capability hcsparams1Reg &&& 0xff#32
  dcbaap : pointerRegister s.operation dcbaapReg = v2p t.contexts
  crcr : pointerRegister s.operation crcrReg = v2p t.cmdRing ||| 1#64
  erstsz : s.runtime erstszReg = 1
  erdp : pointerRegister s.runtime erdpReg = v2p t.eventRing
  erstba : pointerRegister s.runtime erstbaReg = v2p erst
  segment : s.erst = ⟨v2p t.eventRing, 256⟩

/-- Entry 0 of the device contexts is the scratchpad array, which lists the pages, and no device has
a context yet. -/
structure ContextsSet (t : StartTables) (mem : PhysMem) : Prop where
  array : readPointer mem (v2p t.contexts) = v2p t.array
  others : ∀ i, 0 < i → i < 512 → readPointer mem (v2p t.contexts + BitVec.ofNat 64 (8 * i)) = 0
  pages : ∀ i (h : i < t.pages.length),
    readPointer mem (v2p t.array + BitVec.ofNat 64 (8 * i)) = v2p t.pages[i]

/-- The tables are what the controller has to find in them: the rings are clear. -/
structure TablesSet (u : XhciUnit) (t : StartTables) (s : StartState) : Prop where
  held : s.held = t.blocks
  count : t.pages.length = scratchpads (u.capability hcsparams2Reg)
  contexts : ContextsSet t s.mem
  cmdRing : clearPage t.cmdRing s.mem = s.mem
  eventRing : clearPage t.eventRing s.mem = s.mem

namespace StartState

/-- The event ring as a controller that is started takes it from its registers. -/
def eventState (s : StartState) : EventState where
  mem := s.mem
  erst := s.erst
  erdpLo := s.runtime (erdpReg + 0)
  erdpHi := s.runtime (erdpReg + 4)
  enqueue := 0
  stored := 0
  pcs := true
  free := s.erst.ringSegmSize.toNat
  written := 0
  waiting := false
  returned := []

/-- The command ring likewise, with the pointer and the cycle state from CRCR. -/
def commandState (s : StartState) : RingState where
  mem := s.mem
  passed := []
  returned := 0
  deq := pointerRegister s.operation crcrReg &&& ~~~0x3f#64
  ccs := (pointerRegister s.operation crcrReg).getLsbD 0
  consumed := []
  followed := 0

/-- What has to hold when R/S is set. The rings are as their protocols begin. -/
structure SetUp (u : XhciUnit) (erst : Addr) (t : StartTables) (s : StartState) : Prop where
  registers : RegistersSet u erst t s
  tables : TablesSet u t s
  events : s.eventState = .start t.eventRing s.mem
  commands : s.commandState = .start t.cmdRing s.mem

end StartState

/-- What is asked of the driver: memory stays sound, only allocated pages are written, registers are
written while the controller is ready and halted, and it is started on tables that are set. -/
def startContract (u : XhciUnit) (erst : Addr) : Contract StartOp ControllerStep StartState where
  guard := fun _ _ ↦ True
  inv s := ∃ L, s.Sound L
  pre
    | .writeOperation reg v, s => s.Writable ∧ s.halted = true ∧
      (reg = usbcmdReg → v.getLsbD 0 = true → ∃ t, s.SetUp u erst t)
    | .writeRuntime _ _, s => s.Writable ∧ s.halted = true
    | .clearPage p, s => page p ∈ s.held
    | .storePointer p _, s => ∃ b ∈ s.held, b.addr ≤ p.toNat ∧ p.toNat + 8 ≤ b.stop
    | _, _ => True

end VimOS
