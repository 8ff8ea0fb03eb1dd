import VimOS.Xhci.Ring

/-!
# The event ring

The ring from which the driver takes what the controller reports: `getTRB`, `write_event_ring`,
`er_isQueued` and `get_eventring` of `kernel/xhci.c` as programs over the register ERDP, which is
read and written in two halves, next to a controller that writes a stream of events into the segment
set up by `init_xhci`. The controller stores one word at a time, the one with the cycle bit last,
and knows how far the driver is from what it finds in ERDP.
-/

namespace VimOS

open Machine

/-! ## The driver's side -/

/-- What the driver does. `answered` and `returned` are not in the source: they mark where a call of
`er_isQueued` and one of `get_eventring` ends. -/
inductive EventOp : Type
  | readErdpLo
  | readErdpHi
  | writeErdpLo (v : Word)
  | writeErdpHi (v : Word)
  /-- A read of the cycle bit of the TRB at a virtual address. -/
  | loadCycle (a : Addr)
  | answered (queued : Bool)
  | returned (trb : Addr)

/-- What an operation answers. -/
def EventOp.Answer : EventOp → Type
  | .readErdpLo => Word
  | .readErdpHi => Word
  | .loadCycle _ => Bool
  | _ => Unit

abbrev EventProg := Prog EventOp EventOp.Answer

/-- `read_xhci_runtime(ERDP(0) + 0)`. -/
def readErdpLo : EventProg Word := Prog.perform EventOp.readErdpLo

/-- `read_xhci_runtime(ERDP(0) + 4)`. -/
def readErdpHi : EventProg Word := Prog.perform EventOp.readErdpHi

/-- `write_xhci_runtime(ERDP(0) + 0, val)`, with a value that is cut to 32 bits. -/
def writeErdpLo (val : Addr) : EventProg Unit :=
  Prog.perform (EventOp.writeErdpLo (val.setWidth 32))

/-- `write_xhci_runtime(ERDP(0) + 4, val)`. -/
def writeErdpHi (val : Addr) : EventProg Unit :=
  Prog.perform (EventOp.writeErdpHi (val.setWidth 32))

def loadCycle (a : Addr) : EventProg Bool := Prog.perform (EventOp.loadCycle a)

/-- `getTRB`. -/
def getTRB : EventProg Addr := do
  let lo ← readErdpLo
  let hi ← readErdpHi
  pure (p2v ((lo.setWidth 64 ||| hi.setWidth 64 <<< 32) &&& ~~~0x0f#64))

/-- `write_event_ring`, with the new contents of `event_ring`. -/
def writeEventRing (ring : Ring) : EventProg Ring := do
  let trb ← getTRB
  let trb := trb + 16
  -- behind the last TRB of the segment the other cycle bit is due
  if trb = ring.buf + 4096 then
    let ring := { ring with cycleBit := !ring.cycleBit }
    writeErdpLo (v2p ring.buf >>> 0 ||| 0x08#64)
    writeErdpHi (v2p ring.buf >>> 32)
    pure ring
  else
    writeErdpLo (v2p trb >>> 0 ||| 0x08#64)
    writeErdpHi (v2p trb >>> 32)
    pure ring

/-- `er_isQueued`. -/
def erIsQueued (ring : Ring) : EventProg Bool := do
  let trb ← getTRB
  let c ← loadCycle trb
  pure (c == ring.cycleBit)

/-- `while(!er_isQueued())`, gone through at most `rounds` times; `false` if that was not enough. -/
def waitQueued : ℕ → Ring → EventProg Bool
  | 0, _ => pure false
  | rounds + 1, ring => do
    let queued ← erIsQueued ring
    if queued then pure true else waitQueued rounds ring

/-- `get_eventring`, with the new contents of `event_ring`; nothing if its loop was cut off. -/
def getEventring (rounds : ℕ) (ring : Ring) : EventProg (Option (Ring × Addr)) := do
  let trb ← getTRB
  let queued ← waitQueued rounds ring
  if queued then
    let ring ← writeEventRing ring
    let _ ← Prog.perform (EventOp.returned trb)
    pure (some (ring, trb))
  else pure none

/-- A call of one of the two. -/
inductive EventCall : Type
  | erIsQueued
  | getEventring (rounds : ℕ)

/-- Calls one after another, up to one that does not return. -/
def callAll : List EventCall → Ring → EventProg Unit
  | [], _ => pure ()
  | .erIsQueued :: calls, ring => do
    let queued ← erIsQueued ring
    let _ ← Prog.perform (EventOp.answered queued)
    callAll calls ring
  | .getEventring rounds :: calls, ring => do
    match ← getEventring rounds ring with
    | some (ring, _) => callAll calls ring
    | none => pure ()

/-! ## The controller's side -/

/-- `struct event_ring_segment_table`. -/
structure EventRingSegmentTable where
  ringSegmAddr : Addr
  ringSegmSize : BitVec 16

/-- The event ring in use. `enqueue`, `stored`, `pcs` and `free` are the controller's: the slot it
writes next, the number of words it has stored there, its producer cycle state and the number of
slots it may still fill, as far as it knows from ERDP. The rest keeps account: the number of events
`written`, whether one of them was not returned when the driver looked last (`waiting`), and what
stood at the pointers that `get_eventring` has returned when it did so (`returned`). -/
structure EventState where
  mem : PhysMem
  erst : EventRingSegmentTable
  erdpLo : Word
  erdpHi : Word
  enqueue : ℕ
  stored : ℕ
  pcs : Bool
  free : ℕ
  written : ℕ
  waiting : Bool
  returned : List Trb

namespace EventState

/-- The pointer in ERDP, its flag bits masked. -/
def erdp (s : EventState) : Addr := (s.erdpHi ++ s.erdpLo) &&& ~~~0x0f#64

/-- The slot ERDP points to. -/
def dequeue (s : EventState) : ℕ := (s.erdp - s.erst.ringSegmAddr).toNat / 16

/-- `event_ring`, its segment and ERDP as `init_xhci` sets them up, `buf` being the page that
`new_ring` has got. -/
def start (buf : Addr) (mem : PhysMem) : EventState where
  mem := (newRing buf mem).1
  erst := ⟨v2p buf, BitVec.ofNat 16 (newRing buf mem).2.ringSize⟩
  erdpLo := (v2p buf >>> 0).setWidth 32
  erdpHi := (v2p buf >>> 32).setWidth 32
  enqueue := 0
  stored := 0
  pcs := true
  free := (newRing buf mem).2.ringSize
  written := 0
  waiting := false
  returned := []

/-- A write to ERDP. The controller may fill the slots the pointer has moved over. -/
def setErdp (s : EventState) (lo hi : Word) : EventState :=
  let s' := { s with erdpLo := lo, erdpHi := hi }
  let size := s.erst.ringSegmSize.toNat
  { s' with free := s.free + (s'.dequeue + size - s.dequeue) % size }

/-- The controller stores the next word of an event. -/
def post (stream : ℕ → Trb) (s : EventState) : EventState :=
  let slot := s.erst.ringSegmAddr + BitVec.ofNat 64 (16 * s.enqueue)
  let event := (stream s.written).clearCycle.withCycle s.pcs
  match s.stored with
  | 0 => { s with mem := Function.update s.mem slot event.w0, stored := 1 }
  | 1 => { s with mem := Function.update s.mem (slot + 4) event.w1, stored := 2 }
  | 2 => { s with mem := Function.update s.mem (slot + 8) event.w2, stored := 3 }
  | _ =>
    let wrap := s.enqueue + 1 = s.erst.ringSegmSize.toNat
    { s with
      mem := Function.update s.mem (slot + 12) event.w3
      stored := 0
      written := s.written + 1
      free := s.free - 1
      enqueue := if wrap then 0 else s.enqueue + 1
      pcs := if wrap then !s.pcs else s.pcs }

end EventState

/-- The flag bits of ERDP. -/
def maskFlags (erdpLo : Word) : Word := erdpLo &&& ~~~0x0f#32

/-- The effect of an operation. ERDP reads back the pointer last written to it, and anything in the
flag bits. -/
def EventOp.exec : (e : EventOp) → EventState → e.Answer → EventState → Prop
  | .readErdpLo, s, lo, s' => maskFlags lo = maskFlags s.erdpLo ∧ s' = s
  | .readErdpHi, s, hi, s' => hi = s.erdpHi ∧ s' = s
  | .writeErdpLo lo, s, _, s' => s' = s.setErdp lo s.erdpHi
  | .writeErdpHi hi, s, _, s' => s' = s.setErdp s.erdpLo hi
  | .loadCycle a, s, c, s' => c = (readTrb s.mem (v2p a)).c ∧
    s' = { s with waiting := s.returned.length < s.written }
  | .answered _, s, _, s' => s' = s
  | .returned trb, s, _, s' =>
    s' = { s with returned := s.returned ++ [readTrb s.mem (v2p trb)] }

/-- The driver and the controller, which stores no event where one is left to be read. -/
def eventMachine (stream : ℕ → Trb) : Machine EventOp EventOp.Answer EventState Unit where
  exec := EventOp.exec
  env s _ s' := 0 < s.free ∧ s' = s.post stream

end VimOS
