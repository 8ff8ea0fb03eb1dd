import VimOS.Interrupt.ExceptionStubs
import VimOS.Paging.Address

/-!
# The interrupt descriptor table

`init_interrupt` of `kernel/interrupt.c` fills the table with the stubs of the exceptions. The CPU
reads a descriptor as one number of 128 bits, so the bit-fields are put together as they lie in
memory and taken apart again as the CPU does it.

A handler gets a pointer to what lies on the stack. `struct interrupt_frame` names the words there
up to the flags, but leaves out the code segment: its field `rsp` is that segment
(`exception_dispatched`).
-/

namespace VimOS

open StackMachine

/-! ## The table -/

/-- `struct interrupt_descriptor`. -/
structure InterruptDescriptor where
  offsetLow : BitVec 16
  segment : BitVec 16
  ist : BitVec 3
  reserve : BitVec 5
  type : BitVec 4
  reserve2 : BitVec 1
  dpl : BitVec 2
  p : BitVec 1
  offsetMid : BitVec 16
  offsetHigh : BitVec 32
  reserve3 : BitVec 32

/-- As it lies in memory, the first field lowest. -/
def InterruptDescriptor.bits (d : InterruptDescriptor) : BitVec 128 :=
  d.reserve3 ++ d.offsetHigh ++ d.offsetMid ++ d.p ++ d.dpl ++ d.reserve2 ++ d.type ++ d.reserve ++
    d.ist ++ d.segment ++ d.offsetLow

abbrev Idt := Byte → InterruptDescriptor

/-- `KERNEL_CS`. -/
def kernelCs : BitVec 16 := 0x08

/-- The fields that `add_interrupt_handler` stores. -/
def InterruptDescriptor.withHandler (d : InterruptDescriptor) (handler : Addr) :
    InterruptDescriptor :=
  { d with
    offsetLow := (handler &&& 0xffff).setWidth 16
    segment := kernelCs
    -- an interrupt gate
    type := 0b1110
    p := 1
    offsetMid := (handler >>> 16 &&& 0xffff).setWidth 16
    offsetHigh := (handler >>> 32 &&& 0xffffffff).setWidth 32 }

def addInterruptHandler (num : Byte) (handler : Addr) (idt : Idt) : Idt :=
  Function.update idt num ((idt num).withHandler handler)

/-- `memset(idt, 0, sizeof(idt))`. -/
def clearedIdt : Idt := fun _ ↦ ⟨0, 0, 0, 0, 0, 0, 0, 0, 0, 0, 0⟩

/-- The vectors of the exceptions. -/
def ExceptionName.vector : ExceptionName → Byte
  | .zeroDiv => 0x00
  | .breakpoint => 0x03
  | .invalidOpcode => 0x06
  | .deviceNotAvailable => 0x07
  | .doubleFault => 0x08
  | .generalProtection => 0x0d
  | .pageFault => 0x0e
  | .floatingPoint => 0x10
  | .simdFloatingPoint => 0x13

/-- In the order in which `init_interrupt` registers them. -/
def registered : List ExceptionName :=
  [.zeroDiv, .breakpoint, .invalidOpcode, .deviceNotAvailable, .doubleFault, .generalProtection,
    .pageFault, .floatingPoint, .simdFloatingPoint]

/-- The registration of some exceptions, one after another. -/
def registerAll (handlers : ExceptionName → Addr) (es : List ExceptionName) (idt : Idt) : Idt :=
  es.foldl (fun idt e ↦ addInterruptHandler e.vector (handlers e) idt) idt

/-- The table that `init_interrupt` loads, `handlers` being the addresses of the stubs. Whatever was
in the table before is cleared. -/
def initIdt (handlers : ExceptionName → Addr) : Idt :=
  let idt := registerAll handlers registered clearedIdt
  Function.update idt 0x0e { idt 0x0e with ist := 1 }

/-! ## The CPU -/

/-- What the CPU makes of a descriptor. -/
structure Gate where
  offset : BitVec 64
  selector : BitVec 16
  ist : BitVec 3
  type : BitVec 4
  dpl : BitVec 2
  present : Bool
  deriving DecidableEq

def decodeGate (b : BitVec 128) : Gate where
  offset := b.extractLsb' 64 32 ++ b.extractLsb' 48 16 ++ b.extractLsb' 0 16
  selector := b.extractLsb' 16 16
  ist := b.extractLsb' 32 3
  type := b.extractLsb' 40 4
  dpl := b.extractLsb' 45 2
  present := b.extractLsb' 47 1 = 1

section Gates

variable {idt : Idt} {num v : Byte} {handler : Addr} {handlers : ExceptionName → Addr}

/-- The fields come back from where they lie. -/
theorem decodeGate_bits (d : InterruptDescriptor) : decodeGate d.bits =
    ⟨d.offsetHigh ++ d.offsetMid ++ d.offsetLow, d.segment, d.ist, d.type, d.dpl, d.p = 1⟩ := by
  simp (disch := decide) only [decodeGate, InterruptDescriptor.bits,
    BitVec.extractLsb'_append_eq_of_le, BitVec.extractLsb'_append_eq_of_add_le]
  simp

/-- Some bits of a number, cut out by a mask. -/
theorem maskedBits_eq {v w n : ℕ} {mask : BitVec v} (a : BitVec v)
    (hmask : mask.setWidth w = BitVec.allOnes w) :
    (a >>> n &&& mask).setWidth w = a.extractLsb' n w := by
  rw [BitVec.setWidth_and, hmask, BitVec.and_allOnes]
  ext i hi
  rw [BitVec.getElem_setWidth, BitVec.getLsbD_ushiftRight, BitVec.getElem_extractLsb']

/-- The three parts of an address. -/
theorem append_parts (a : Addr) : (a >>> 32 &&& 0xffffffff).setWidth 32 ++
    (a >>> 16 &&& 0xffff).setWidth 16 ++ (a &&& 0xffff).setWidth 16 = a := by
  have hlow : (a &&& 0xffff).setWidth 16 = a.extractLsb' 0 16 := by
    have h : (a >>> 0 &&& 0xffff).setWidth 16 = a.extractLsb' 0 16 := maskedBits_eq a rfl
    rwa [BitVec.ushiftRight_zero] at h
  have hhigh : a.extractLsb' 32 32 ++ a.extractLsb' 16 16 = a.extractLsb' 16 48 :=
    BitVec.extractLsb'_append_extractLsb'_eq_extractLsb' (by decide)
  have hwhole : a.extractLsb' 16 48 ++ a.extractLsb' 0 16 = a.extractLsb' 0 64 :=
    BitVec.extractLsb'_append_extractLsb'_eq_extractLsb' (by decide)
  rw [maskedBits_eq a rfl, maskedBits_eq a rfl, hlow, hhigh, hwhole]
  exact BitVec.extractLsb'_eq_self

theorem gate_withHandler (d : InterruptDescriptor) :
    decodeGate (d.withHandler handler).bits = ⟨handler, kernelCs, d.ist, 0b1110, d.dpl, true⟩ := by
  rw [decodeGate_bits]
  exact congrArg (Gate.mk · _ _ _ _ _) (append_parts handler)

theorem addInterruptHandler_of_ne (h : v ≠ num) :
    addInterruptHandler num handler idt v = idt v :=
  Function.update_of_ne h _ _

/-- A descriptor that was cleared is not present. -/
theorem gate_clearedIdt : (decodeGate (clearedIdt v).bits).present = false := by
  rw [decodeGate_bits]
  rfl

theorem vector_injective : Function.Injective ExceptionName.vector := by
  intro e e'
  cases e <;> cases e' <;> decide

theorem mem_registered (e : ExceptionName) : e ∈ registered := by
  cases e <;> decide

variable {e : ExceptionName} {es : List ExceptionName}

theorem registerAll_of_ne (h : ∀ e ∈ es, v ≠ e.vector) : registerAll handlers es idt v = idt v := by
  induction es generalizing idt with
  | nil => rfl
  | cons e es ih =>
    rw [List.forall_mem_cons] at h
    exact (ih h.2).trans (addInterruptHandler_of_ne h.1)

/-- Later registrations are for other vectors. -/
theorem registerAll_of_mem (hes : es.Nodup) (he : e ∈ es) :
    registerAll handlers es idt e.vector = (idt e.vector).withHandler (handlers e) := by
  induction es generalizing idt with
  | nil => exact absurd he List.not_mem_nil
  | cons e' es ih =>
    rw [List.nodup_cons] at hes
    rcases List.mem_cons.mp he with rfl | he
    · have hrest :
          registerAll handlers es (addInterruptHandler e.vector (handlers e) idt) e.vector =
            addInterruptHandler e.vector (handlers e) idt e.vector :=
        registerAll_of_ne fun e' he' heq ↦ hes.1 ((vector_injective heq).symm ▸ he')
      exact hrest.trans (Function.update_self _ _ _)
    · have hne : e.vector ≠ e'.vector := fun heq ↦ hes.1 (vector_injective heq ▸ he)
      refine (ih hes.2 he).trans ?_
      exact congrArg (InterruptDescriptor.withHandler · _) (addInterruptHandler_of_ne hne)

/-- Each exception has its gate, and the page fault a stack of its own. -/
theorem gate_initIdt (handlers : ExceptionName → Addr) (e : ExceptionName) :
    decodeGate (initIdt handlers e.vector).bits =
      ⟨handlers e, kernelCs, if e = .pageFault then 1 else 0, 0b1110, 0, true⟩ := by
  have hall : registerAll handlers registered clearedIdt e.vector =
      (clearedIdt e.vector).withHandler (handlers e) :=
    registerAll_of_mem (by decide) (mem_registered e)
  have hpage : (0x0e : Byte) = ExceptionName.pageFault.vector := rfl
  rw [initIdt, hpage]
  dsimp only
  by_cases he : e = .pageFault
  · subst he
    rw [Function.update_self, hall, if_pos rfl, decodeGate_bits]
    exact congrArg (Gate.mk · _ _ _ _ _) (append_parts (handlers .pageFault))
  · rw [Function.update_of_ne (fun heq ↦ he (vector_injective heq)), hall, if_neg he]
    exact gate_withHandler _

/-- Nothing else has one. -/
theorem gate_initIdt_of_ne (handlers : ExceptionName → Addr)
    (h : ∀ e : ExceptionName, v ≠ e.vector) :
    (decodeGate (initIdt handlers v).bits).present = false := by
  have hidt : initIdt handlers v = clearedIdt v :=
    (Function.update_of_ne (h .pageFault) _ _).trans (registerAll_of_ne fun e _ ↦ h e)
  rw [hidt]
  exact gate_clearedIdt

end Gates

/-! ## From the exception to the C function -/

/-- `struct interrupt_frame`. -/
structure InterruptFrame where
  rbp : BitVec 64
  rsi : BitVec 64
  rdi : BitVec 64
  rdx : BitVec 64
  rcx : BitVec 64
  rbx : BitVec 64
  rax : BitVec 64
  error : BitVec 64
  rip : BitVec 64
  rsp : BitVec 64
  rflags : BitVec 64
  deriving DecidableEq

/-- The structure at an address. -/
def readFrame (s : Machine) (regs : Addr) : InterruptFrame :=
  let word (k : ℕ) := s.mem (regs + BitVec.ofNat 64 (8 * k))
  ⟨word 0, word 1, word 2, word 3, word 4, word 5, word 6, word 7, word 8, word 9, word 10⟩

/-- The stack that a gate selects: the one in use, or the first of the interrupt stack table, from
an address that is a multiple of 16. -/
def gateStack (ist1 : Addr) (g : Gate) (s : Machine) : Addr :=
  (if g.ist = 0 then s.regs .rsp else ist1) &&& ~~~15

/-- The CPU takes an exception in the kernel: where it goes on, and the machine then. -/
def dispatch (idt : Idt) (ist1 : Addr) (e : ExceptionName) (f : ReturnFrame) (error : BitVec 64)
    (s : Machine) : Option (Addr × Machine) :=
  let g := decodeGate (idt e.vector).bits
  if g.present then some (g.offset, raise e (gateStack ist1 g s) f error s) else none

section Dispatch

variable {s : Machine} {ret : BitVec 64}

/-- The structure that begins with the first of some words on the stack. -/
theorem readFrame_of_hasStack {regs : Addr} (ws : List (BitVec 64)) {v : InterruptFrame}
    (h : HasStack s (ret :: ([v.rbp, v.rsi, v.rdi, v.rdx, v.rcx, v.rbx, v.rax, v.error, v.rip,
      v.rsp, v.rflags] ++ ws))) (hregs : regs = s.regs .rsp + 8) : readFrame s regs = v := by
  have hword : ∀ k : ℕ, s.mem (regs + BitVec.ofNat 64 (8 * k)) = s.word (k + 1) := by
    intro k
    rw [Machine.word, hregs, Nat.mul_succ, BitVec.ofNat_add, BitVec.add_assoc,
      BitVec.add_comm (BitVec.ofNat 64 (8 * k))]
    rfl
  have hk : ∀ k (hk : k < _), s.word (k + 1) = _ := fun k hk ↦ h.2 (k + 1) (Nat.succ_lt_succ hk)
  rw [readFrame]
  simp only [hword]
  have hlen : ∀ k < 11, k < ([v.rbp, v.rsi, v.rdi, v.rdx, v.rcx, v.rbx, v.rax, v.error, v.rip,
      v.rsp, v.rflags] ++ ws).length := fun k hk ↦ by
    rw [List.length_append]
    exact Nat.lt_add_right _ hk
  rw [hk 0 (hlen 0 (by decide)), hk 1 (hlen 1 (by decide)), hk 2 (hlen 2 (by decide)),
    hk 3 (hlen 3 (by decide)), hk 4 (hlen 4 (by decide)), hk 5 (hlen 5 (by decide)),
    hk 6 (hlen 6 (by decide)), hk 7 (hlen 7 (by decide)), hk 8 (hlen 8 (by decide)),
    hk 9 (hlen 9 (by decide)), hk 10 (hlen 10 (by decide))]
  rfl

/-- Where a stub calls its C function, `rdi` points behind the return address, to the registers it
has saved, the error code and the return frame. -/
theorem hasStack_runToCall (e : ExceptionName) (body : ExceptionName → Machine → Machine)
    (ret error : BitVec 64) (top : Addr) (f : ReturnFrame) (s : Machine) :
    let s' := runToCall body ret (stub e) (raise e top f error s)
    HasStack s' (ret :: (restoredRegisters.map s.regs ++
      ((if e.hasError then error else 0) :: f.words))) ∧ s'.regs .rdi = s'.regs .rsp + 8 := by
  intro s'
  obtain ⟨s₁, hs₁, hcall⟩ : ∃ s₁, s₁ = (pushFrame top f s).push (if e.hasError then error else 0) ∧
      s' = runToCall body ret (stubTail e) s₁ := by
    cases e <;> exact ⟨_, rfl, rfl⟩
  have hregs : restoredRegisters.map s₁.regs = restoredRegisters.map s.regs := by
    refine List.map_congr_left fun r hr ↦ ?_
    have hne : r ≠ .rsp := fun heq ↦ absurd (heq ▸ hr) (by decide)
    rw [hs₁, Machine.regs_push, if_neg hne, regs_pushFrame hne]
  have hentry : HasStack s₁ ((if e.hasError then error else 0) :: f.words) := by
    rw [hs₁]
    exact hasStack_pushFrame.push (by simp) _
  have hsaved : HasStack (pushRegs savedRegisters s₁) (restoredRegisters.map s₁.regs ++
      ((if e.hasError then error else 0) :: f.words)) :=
    hentry.pushRegs (by decide) (by simp [savedRegisters])
  rw [hcall, runToCall_stubTail, ← hregs]
  refine ⟨(hsaved.set (by decide)).push (by simp [restoredRegisters]) ret, ?_⟩
  rw [Machine.regs_push, if_neg (by decide), Machine.regs_set, if_pos rfl, Machine.regs_push,
    if_pos rfl, Machine.regs_set, if_neg (by decide), BitVec.sub_add_cancel]

/-- The CPU finds the gate of the exception. -/
theorem dispatch_initIdt (handlers : ExceptionName → Addr) (ist1 : Addr) (e : ExceptionName)
    (error : BitVec 64) (f : ReturnFrame) (s : Machine) :
    dispatch (initIdt handlers) ist1 e f error s = some (handlers e,
      raise e ((if e = .pageFault then ist1 else s.regs .rsp) &&& ~~~15) f error s) := by
  rw [dispatch, gate_initIdt, if_pos rfl, gateStack]
  cases e <;> rfl

end Dispatch

/-- **An exception reaches its handler** with the table of `init_interrupt`, whatever the machine is
doing: the CPU goes on at the stub of the exception, a page fault on the stack of its own, and the C
function finds the interrupted registers and `rip` in the structure, and the error code or 0. The
field `rsp` is the code segment. -/
theorem exception_dispatched (handlers : ExceptionName → Addr) (ist1 : Addr) (e : ExceptionName)
    (body : ExceptionName → Machine → Machine) (ret error : BitVec 64) (f : ReturnFrame)
    (s : Machine) : ∃ s₁, dispatch (initIdt handlers) ist1 e f error s = some (handlers e, s₁) ∧
      s₁ = raise e ((if e = .pageFault then ist1 else s.regs .rsp) &&& ~~~15) f error s ∧
      let s' := runToCall body ret (stub e) s₁
      readFrame s' (s'.regs .rdi) =
        { rbp := s.regs .rbp, rsi := s.regs .rsi, rdi := s.regs .rdi, rdx := s.regs .rdx
          rcx := s.regs .rcx, rbx := s.regs .rbx, rax := s.regs .rax
          error := if e.hasError then error else 0, rip := f.rip, rsp := f.cs
          rflags := f.rflags } := by
  refine ⟨_, dispatch_initIdt handlers ist1 e error f s, rfl, ?_⟩
  obtain ⟨hstack, hrdi⟩ := hasStack_runToCall e body ret error
    ((if e = .pageFault then ist1 else s.regs .rsp) &&& ~~~15) f s
  exact readFrame_of_hasStack [f.rsp, f.ss] hstack hrdi

end VimOS
