import VimOS.Library.PhaseRing
import VimOS.Library.Prog
import VimOS.Xhci.Slots

/-!
# The producer of a TRB ring and its consumer

`new_ring`, `write_ring_static` and `write_ring` of `kernel/xhci.c` as programs that store one word
at a time, next to a consumer that follows the rule of the xHCI specification. The consumer may look
at the ring between any two stores.

The ring is one page, 255 slots for TRBs and a last one for the Link TRB that leads back to the
first. Nothing in it tells the producer how far the consumer is.
-/

namespace VimOS

open Machine

/-! ## The driver's side -/

/-- `struct ring`. -/
structure Ring where
  buf : Addr
  cycleBit : Bool
  ringSize : ℕ
  ringIndex : ℕ
  deriving DecidableEq

/-- `new_ring`, `buf` being the page `alloc_mem` has returned: the page is cleared. -/
def newRing (buf : Addr) (mem : PhysMem) : PhysMem × Ring :=
  (fun a ↦ if (a - v2p buf).toNat < 4096 then 0 else mem a, ⟨buf, true, 4096 / 16, 0⟩)

theorem slotTrb_newRing {buf : Addr} {mem : PhysMem} {j : ℕ} (hj : j < 256) :
    slotTrb (v2p buf) (newRing buf mem).1 j = ⟨0, 0, 0, 0⟩ := by
  have hzero : ∀ o : Addr, o.toNat < 16 →
      (newRing buf mem).1 (v2p buf + BitVec.ofNat 64 (16 * j) + o) = 0 := by
    intro o ho
    refine if_pos ?_
    generalize v2p buf = base
    bv_omega
  rw [slotTrb, readTrb, hzero 4 (by decide), hzero 8 (by decide), hzero 12 (by decide)]
  have h0 := hzero 0 (by decide)
  rw [show v2p buf + BitVec.ofNat 64 (16 * j) + 0 =
    v2p buf + BitVec.ofNat 64 (16 * j) by simp] at h0
  rw [h0]

/-- What a producer of TRBs does to the world. `call` and `returned` are not in the source: they
mark where a call of `write_ring` begins and ends. -/
inductive RingOp : Type
  | call (t : Trb)
  | returned
  | store (a : Addr) (v : Word)
  | doorbell (reg : Byte) (v : Word)
  /-- A call of `er_isQueued`. -/
  | isQueued
  /-- A call of `get_eventring`, answered with the pointer it returns. -/
  | getEvent
  /-- A read of the TRB at a virtual address. -/
  | loadTrb (a : Addr)
  /-- A read of a byte at a virtual address. -/
  | loadByte (a : Addr)
  /-- `printk` of a string of one character. -/
  | print (c : Byte)

/-- What an operation answers. -/
def RingOp.Answer : RingOp → Type
  | .isQueued => Bool
  | .getEvent => Addr
  | .loadTrb _ => Trb
  | .loadByte _ => Byte
  | _ => Unit

/-- A program of the driver. -/
abbrev RingProg := Prog RingOp RingOp.Answer

/-- `write_xhci_doorbell(reg, val)`. -/
def writeXhciDoorbell (reg : Byte) (val : Word) : RingProg Unit :=
  Prog.perform (RingOp.doorbell reg val)

def callErIsQueued : RingProg Bool := Prog.perform RingOp.isQueued

def callGetEventring : RingProg Addr := Prog.perform RingOp.getEvent

def loadTrb (a : Addr) : RingProg Trb := Prog.perform (RingOp.loadTrb a)

def loadByte (a : Addr) : RingProg Byte := Prog.perform (RingOp.loadByte a)

def printChar (c : Byte) : RingProg Unit := Prog.perform (RingOp.print c)

/-- `write_ring_static(ring, index, data, cycle_bit)`: the word with the cycle bit is the last. -/
def writeRingStatic (ring : Addr) (index : ℕ) (data : Trb) (cycleBit : Bool) : RingProg Unit :=
  let trb := ring + BitVec.ofNat 64 (16 * index)
  do
    let _ ← Prog.perform (.store trb data.w0)
    let _ ← Prog.perform (.store (trb + 4) data.w1)
    let _ ← Prog.perform (.store (trb + 8) data.w2)
    let _ ← Prog.perform (.store (trb + 12) (data.withCycle cycleBit).w3)

/-- `write_ring(ring, data)`, with the new contents of `*ring`. -/
def writeRing (ring : Ring) (data : Trb) : RingProg Ring := do
  let _ ← Prog.perform (.call data)
  writeRingStatic ring.buf ring.ringIndex data ring.cycleBit
  let ring := { ring with ringIndex := ring.ringIndex + 1 }
  if ring.ringIndex = ring.ringSize - 1 then
    writeRingStatic ring.buf ring.ringIndex (linkTrb (v2p ring.buf)) ring.cycleBit
    let _ ← Prog.perform .returned
    pure { ring with ringIndex := 0, cycleBit := !ring.cycleBit }
  else
    let _ ← Prog.perform .returned
    pure ring

/-- The operations of `write_ring`. -/
def RingOp.Writes : RingOp → Prop
  | .call _ | .store _ _ | .returned => True
  | _ => False

theorem writeRing_only (ring : Ring) (data : Trb) : (writeRing ring data).Only RingOp.Writes := by
  have hstatic : ∀ (buf : Addr) (index : ℕ) (data : Trb) (c : Bool),
      (writeRingStatic buf index data c).Only RingOp.Writes := fun _ _ _ _ ↦
    ⟨trivial, fun _ ↦ ⟨trivial, fun _ ↦ ⟨trivial, fun _ ↦ ⟨trivial, fun _ ↦ trivial⟩⟩⟩⟩
  refine ⟨trivial, fun _ ↦ (hstatic _ _ _ _).bind fun _ ↦ Prog.Only.ite ?_ ?_⟩
  · exact (hstatic _ _ _ _).bind fun _ ↦ ⟨trivial, fun _ ↦ trivial⟩
  · exact ⟨trivial, fun _ ↦ trivial⟩

/-- Calls of `write_ring`, one after another. -/
def writeAll : Ring → List Trb → RingProg Ring
  | ring, [] => pure ring
  | ring, t :: ts => do
    let ring ← writeRing ring t
    writeAll ring ts

theorem writeAll_only (ring : Ring) (ts : List Trb) : (writeAll ring ts).Only RingOp.Writes := by
  induction ts generalizing ring with
  | nil => trivial
  | cons t ts ih => exact (writeRing_only ring t).bind ih

/-! ## The consumer's side -/

/-- A ring in use. `passed` are the TRBs of the calls begun so far, `returned` the number of calls
that have ended; the rest is the consumer's: its dequeue pointer, a physical address, its cycle
state, the TRBs it has taken and the number of Link TRBs it has followed. -/
structure RingState where
  mem : PhysMem
  passed : List Trb
  returned : ℕ
  deq : Addr
  ccs : Bool
  consumed : List Trb
  followed : ℕ

namespace RingState

/-- The ring as set up by `new_ring`, and the consumer told of it. -/
def start (buf : Addr) (mem : PhysMem) : RingState where
  mem := (newRing buf mem).1
  passed := []
  returned := 0
  deq := v2p buf
  ccs := (newRing buf mem).2.cycleBit
  consumed := []
  followed := 0

/-- The TRB the consumer stands at is ready for it. -/
def Ready (s : RingState) : Prop := (readTrb s.mem s.deq).c = s.ccs

instance (s : RingState) : Decidable s.Ready := by
  unfold Ready
  infer_instance

/-- Taking a TRB that is not a Link TRB. -/
def take (s : RingState) : RingState :=
  { s with consumed := s.consumed ++ [readTrb s.mem s.deq], deq := s.deq + 16 }

/-- Following a Link TRB. -/
def follow (s : RingState) : RingState :=
  let link := readTrb s.mem s.deq
  { s with deq := link.ptr, ccs := if link.tc then !s.ccs else s.ccs, followed := s.followed + 1 }

/-- What the consumer sees when it looks for a TRB: it follows a Link TRB that is ready, and finds
nothing when the TRB it comes to is not. -/
def peek (s : RingState) : Option Trb :=
  if s.Ready then
    if (readTrb s.mem s.deq).type = 6 then
      if s.follow.Ready then some (readTrb s.mem s.follow.deq) else none
    else some (readTrb s.mem s.deq)
  else none

/-- The TRBs passed to `write_ring` and not yet consumed. -/
def outstanding (s : RingState) : ℕ := s.passed.length - s.consumed.length

/-- The consumer has taken the last TRB of a lap and not yet followed the Link TRB behind it. -/
def AtLink (s : RingState) : Prop := s.followed < s.consumed.length / 255

/-- The slot holds a TRB of a call that has ended, and the consumer is not through with it. -/
def Pending (s : RingState) (slot : ℕ) : Prop :=
  if slot = 255 then s.followed < s.returned / 255
  else ∃ i, s.consumed.length ≤ i ∧ i < s.returned ∧ i % 255 = slot

end RingState

/-- The effect of an operation. -/
def RingOp.effect (s : RingState) : RingOp → RingState
  | .call t => { s with passed := s.passed ++ [t] }
  | .returned => { s with returned := s.returned + 1 }
  | .store a v => { s with mem := Function.update s.mem (v2p a) v }
  | _ => s

/-- The consumer's steps. -/
inductive Consume : Type
  | take
  | follow

/-- The driver and the consumer of one ring. What the driver reads elsewhere may be anything. -/
def ringMachine : Machine RingOp RingOp.Answer RingState Consume where
  exec e s _ s' := s' = e.effect s
  env
    | s, .take, s' => s.Ready ∧ (readTrb s.mem s.deq).type ≠ 6 ∧ s' = s.take
    | s, .follow, s' => s.Ready ∧ (readTrb s.mem s.deq).type = 6 ∧ s' = s.follow

end VimOS
