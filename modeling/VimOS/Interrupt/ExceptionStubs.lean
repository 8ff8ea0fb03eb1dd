import VimOS.Library.StackMachine

/-!
# The entry stubs of the exceptions

An exception handler is entered through a stub of `kernel/asm.S`, which saves registers, calls the C
function `do_…` and restores them. The two macros that make the stubs differ in the error code:
where the CPU pushes none, the stub pushes a dummy.

The stubs save seven registers. The callee-saved ones among the others are kept by the C function;
`r8` to `r11` are neither saved nor kept, so the interrupted code gets them back exactly if the
function happens to leave them alone (`exception_transparent`).
-/

namespace VimOS

open StackMachine

/-! ## The stubs -/

/-- The exceptions that have a stub. -/
inductive ExceptionName : Type
  | zeroDiv
  | breakpoint
  | invalidOpcode
  | deviceNotAvailable
  | doubleFault
  | generalProtection
  | pageFault
  | floatingPoint
  | simdFloatingPoint
  deriving DecidableEq

abbrev StubCode := List (Instr ExceptionName)

/-- The registers of `SAVE_ALL_REGISTERS`, in its order. -/
def savedRegisters : List Reg := [.rax, .rbx, .rcx, .rdx, .rdi, .rsi, .rbp]

/-- The macro `SAVE_ALL_REGISTERS`. -/
def saveAllRegisters : StubCode := savedRegisters.map .push

/-- The registers of `RESTORE_ALL_REGISTERS`, in its order. -/
def restoredRegisters : List Reg := [.rbp, .rsi, .rdi, .rdx, .rcx, .rbx, .rax]

/-- The macro `RESTORE_ALL_REGISTERS`. -/
def restoreAllRegisters : StubCode := restoredRegisters.map .pop

/-- The macro `exception_handler_noerr`. -/
def exceptionHandlerNoerr (handler : ExceptionName) : StubCode :=
  [.pushImm 0] ++ (saveAllRegisters ++ ([.mov .rsp .rdi, .call handler] ++
    (restoreAllRegisters ++ [.addImm 8 .rsp, .iretq])))

/-- The macro `exception_handler`. -/
def exceptionHandler (handler : ExceptionName) : StubCode :=
  saveAllRegisters ++ ([.mov .rsp .rdi, .call handler] ++
    (restoreAllRegisters ++ [.addImm 8 .rsp, .iretq]))

/-- The stubs at the end of `asm.S`. -/
def stub : ExceptionName → StubCode
  | .zeroDiv => exceptionHandlerNoerr .zeroDiv
  | .breakpoint => exceptionHandlerNoerr .breakpoint
  | .invalidOpcode => exceptionHandlerNoerr .invalidOpcode
  | .deviceNotAvailable => exceptionHandlerNoerr .deviceNotAvailable
  | .doubleFault => exceptionHandler .doubleFault
  | .generalProtection => exceptionHandler .generalProtection
  | .pageFault => exceptionHandler .pageFault
  | .floatingPoint => exceptionHandlerNoerr .floatingPoint
  | .simdFloatingPoint => exceptionHandlerNoerr .simdFloatingPoint

/-! ## The CPU -/

/-- Whether the CPU pushes an error code. -/
def ExceptionName.hasError : ExceptionName → Bool
  | .doubleFault | .generalProtection | .pageFault => true
  | _ => false

/-- What the CPU pushes and `iretq` takes back. -/
structure ReturnFrame where
  rip : BitVec 64
  cs : BitVec 64
  rflags : BitVec 64
  rsp : BitVec 64
  ss : BitVec 64

/-- Its words, from the lowest address on. -/
def ReturnFrame.words (f : ReturnFrame) : List (BitVec 64) := [f.rip, f.cs, f.rflags, f.rsp, f.ss]

@[simp] theorem ReturnFrame.length_words (f : ReturnFrame) : f.words.length = 5 := rfl

/-- The return frame, pushed from `top` down. -/
def pushFrame (top : BitVec 64) (f : ReturnFrame) (s : Machine) : Machine :=
  (((((s.set .rsp top).push f.ss).push f.rsp).push f.rflags).push f.cs).push f.rip

/-- The machine at the entry of the stub. -/
def raise (e : ExceptionName) (top : BitVec 64) (f : ReturnFrame) (error : BitVec 64)
    (s : Machine) : Machine :=
  if e.hasError then (pushFrame top f s).push error else pushFrame top f s

/-! ## The way through a stub -/

section Stub

variable {e : ExceptionName} {body : ExceptionName → Machine → Machine} {ret top error : BitVec 64}
  {f : ReturnFrame} {s : Machine} {r : Reg}

/-- The part of the stubs behind the error code. -/
def stubTail (handler : ExceptionName) : StubCode :=
  savedRegisters.map .push ++ ([.mov .rsp .rdi, .call handler] ++
    (restoredRegisters.map .pop ++ [.addImm 8 .rsp, .iretq]))

theorem regs_pushFrame (hr : r ≠ .rsp) : (pushFrame top f s).regs r = s.regs r := by
  simp [pushFrame, hr]

theorem rsp_pushFrame : (pushFrame top f s).regs .rsp = top - 40 := by
  simp only [pushFrame, Machine.regs_push, Machine.regs_set, if_true]
  bv_omega

theorem hasStack_pushFrame : HasStack (pushFrame top f s) f.words :=
  ((((hasStack_nil.push (by simp) f.ss).push (by simp) f.rsp).push (by simp) f.rflags).push
    (by simp) f.cs).push (by simp) f.rip

/-- Behind the error code, pushed by the CPU or by the stub, both kinds of stubs are alike. -/
theorem stub_entry : ∃ s₁ w, s₁ = (pushFrame top f s).push w ∧
    run body ret (stub e) (raise e top f error s) = run body ret (stubTail e) s₁ ∧
    runToCall body ret (stub e) (raise e top f error s) = runToCall body ret (stubTail e) s₁ := by
  cases e
  case doubleFault => exact ⟨_, error, rfl, rfl, rfl⟩
  case generalProtection => exact ⟨_, error, rfl, rfl, rfl⟩
  case pageFault => exact ⟨_, error, rfl, rfl, rfl⟩
  all_goals exact ⟨_, 0, rfl, rfl, rfl⟩

/-- The machine at the entry of the C function. -/
theorem runToCall_stubTail : runToCall body ret (stubTail e) s =
    ((pushRegs savedRegisters s).set .rdi ((pushRegs savedRegisters s).regs .rsp)).push ret :=
  runToCall_push

/-- The machine when `iretq` is reached. -/
theorem run_stubTail : run body ret (stubTail e) s =
    let s' := popRegs restoredRegisters (body e (runToCall body ret (stubTail e) s))
    s'.set .rsp (s'.regs .rsp + 8) := by
  rw [runToCall_stubTail, stubTail, run_push]
  exact run_pop

/-- A stub that calls a function under the ABI comes to `iretq` with the return frame on the stack
and all registers restored, but for those that neither it nor the function saves. -/
theorem stubTail_spec (habi : ObeysAbi 13 (body e))
    {w : BitVec 64} (h : HasStack s (w :: f.words)) :
    let s' := run body ret (stubTail e) s
    HasStack s' f.words ∧ s'.regs .rsp = s.regs .rsp + 8 ∧
      (∀ r ∈ savedRegisters ++ calleeSaved, s'.regs r = s.regs r) ∧
      ∀ r ∈ [Reg.r8, .r9, .r10, .r11],
        s'.regs r = (body e (runToCall body ret (stubTail e) s)).regs r := by
  have hsaved : HasStack (pushRegs savedRegisters s)
      (restoredRegisters.map s.regs ++ (w :: f.words)) :=
    h.pushRegs (by decide) (by simp [savedRegisters])
  -- on top of what the stub has pushed lies the return address
  have hentry : HasStack (runToCall body ret (stubTail e) s)
      (ret :: (restoredRegisters.map s.regs ++ (w :: f.words))) := by
    rw [runToCall_stubTail]
    exact (hsaved.set (by decide)).push (by simp [restoredRegisters]) ret
  have hkept : ∀ r, r ≠ .rsp → r ≠ .rdi →
      (runToCall body ret (stubTail e) s).regs r = s.regs r := by
    intro r hr hrdi
    rw [runToCall_stubTail, Machine.regs_push, if_neg hr, Machine.regs_set, if_neg hrdi,
      regs_pushRegs hr]
  have hbody := habi.hasStack hentry (by simp [restoredRegisters])
  have hpopped : HasStack (popRegs restoredRegisters (body e (runToCall body ret (stubTail e) s)))
      (w :: f.words) := hbody.popRegs (by decide) (by simp)
  have hrestored : ∀ r ∈ restoredRegisters,
      (popRegs restoredRegisters (body e (runToCall body ret (stubTail e) s))).regs r = s.regs r :=
    fun r hr ↦ hbody.regs_popRegs (by decide) (by decide) hr
  rw [run_stubTail]
  refine ⟨hpopped.skip, ?_, fun r hr ↦ ?_, fun r hr ↦ ?_⟩
  · have hpush := @rsp_pushRegs s savedRegisters
    have hlen : restoredRegisters.length = savedRegisters.length := rfl
    rw [Machine.regs_set, if_pos rfl, rsp_popRegs (by decide), habi.rsp, runToCall_stubTail,
      Machine.regs_push, if_pos rfl, Machine.regs_set, if_neg (by decide), ← hpush,
      BitVec.sub_add_cancel, hlen]
  · by_cases hrest : r ∈ restoredRegisters
    · have hr : r ≠ .rsp := fun heq ↦ absurd (heq ▸ hrest) (by decide)
      rw [Machine.regs_set, if_neg hr]
      exact hrestored r hrest
    · -- not popped: the function restores it itself
      have hcallee : r ∈ calleeSaved := by
        revert r
        decide
      have hr : r ≠ .rsp := fun heq ↦ absurd (heq ▸ hcallee) (by decide)
      have hrdi : r ≠ .rdi := fun heq ↦ hrest (heq ▸ by decide)
      rw [Machine.regs_set, if_neg hr, regs_popRegs_of_notMem hrest hr, habi.saved _ r hcallee,
        hkept r hr hrdi]
  · have hr' : r ∉ restoredRegisters ∧ r ≠ .rsp := by
      revert r
      decide
    rw [Machine.regs_set, if_neg hr'.2, regs_popRegs_of_notMem hr'.1 hr'.2]

/-- The C function leaves the registers alone that the stub does not save and the ABI lets it
change. -/
def KeepsScratch (body : Machine → Machine) (s : Machine) : Prop :=
  ∀ r ∈ [Reg.r8, .r9, .r10, .r11], (body s).regs r = s.regs r

/-- An exception raised at `s` has passed unnoticed: all registers are as they were, and `rsp` is at
the return frame. -/
def Transparent (top : BitVec 64) (f : ReturnFrame) (s s' : Machine) : Prop :=
  (∀ r, r ≠ .rsp → s'.regs r = s.regs r) ∧ HasStack s' f.words ∧ s'.regs .rsp = top - 40

/-- For every function under the ABI, the stub of an exception comes to `iretq` with all registers
as they were before the exception and `rsp` at the return frame if and only if the function, where
the stub calls it, leaves `r8` to `r11` alone. -/
theorem exception_transparent (e : ExceptionName) (body : ExceptionName → Machine → Machine)
    (habi : ObeysAbi 13 (body e)) (ret top error : BitVec 64) (f : ReturnFrame) (s : Machine) :
    Transparent top f s (run body ret (stub e) (raise e top f error s)) ↔
    KeepsScratch (body e) (runToCall body ret (stub e) (raise e top f error s)) := by
  obtain ⟨s₁, w, hs₁, hrun, hcall⟩ := @stub_entry e body ret top error f s
  have hentry : HasStack s₁ (w :: f.words) := by
    rw [hs₁]
    exact hasStack_pushFrame.push (by simp) w
  have hregs : ∀ r, r ≠ .rsp → s₁.regs r = s.regs r := by
    intro r hr
    rw [hs₁, Machine.regs_push, if_neg hr, regs_pushFrame hr]
  obtain ⟨hstack, hrsp, hkept, hscratch⟩ := @stubTail_spec e body ret f s₁ habi w hentry
  have htop : s₁.regs .rsp + 8 = top - 40 := by
    rw [hs₁, Machine.regs_push, if_pos rfl, rsp_pushFrame, BitVec.sub_add_cancel]
  have hcalled : ∀ r ∈ [Reg.r8, .r9, .r10, .r11],
      (runToCall body ret (stubTail e) s₁).regs r = s.regs r := by
    intro r hr
    have hr' : r ≠ .rdi ∧ r ≠ .rsp := by
      revert r
      decide
    rw [runToCall_stubTail, Machine.regs_push, if_neg hr'.2, Machine.regs_set, if_neg hr'.1,
      regs_pushRegs hr'.2, hregs r hr'.2]
  rw [hrun, hcall, Transparent]
  constructor
  · rintro ⟨hall, -, -⟩ r hr
    have hr' : r ≠ .rsp := by
      revert r
      decide
    rw [← hscratch r hr, hall r hr', hcalled r hr]
  · refine fun h ↦ ⟨fun r hr ↦ ?_, hstack, hrsp.trans htop⟩
    by_cases hscr : r ∈ [Reg.r8, .r9, .r10, .r11]
    · rw [hscratch r hscr, h r hscr, hcalled r hscr]
    · have hsaved : r ∈ savedRegisters ++ calleeSaved := by
        revert r
        decide
      rw [hkept r hsaved, hregs r hr]

/-- A function that puts `v` into `r8` and returns. -/
def setR8 (v : BitVec 64) (s : Machine) : Machine := (s.set .rsp (s.regs .rsp + 8)).set .r8 v

theorem setR8_obeysAbi (v : BitVec 64) : ObeysAbi 13 (setR8 v) where
  saved s r hr := by
    have hne : r ≠ .r8 ∧ r ≠ .rsp := by
      revert r
      decide
    rw [setR8, Machine.regs_set, if_neg hne.1, Machine.regs_set, if_neg hne.2]
  rsp s := by
    rw [setR8, Machine.regs_set, if_neg (by decide), Machine.regs_set, if_pos rfl]
  stack s k _ := by
    rw [Machine.word, Machine.word, setR8, Machine.regs_set, if_neg (by decide), Machine.regs_set,
      if_pos rfl, Nat.mul_succ, BitVec.ofNat_add, BitVec.add_assoc,
      BitVec.add_comm (BitVec.ofNat 64 (8 * k))]
    rfl

/-- A machine that is all zeros. -/
def zeroMachine : Machine := ⟨fun _ ↦ 0, fun _ ↦ 0⟩

/-- A return frame of the kernel. -/
def kernelFrame : ReturnFrame := ⟨0x100000, 0x8, 0x202, 0x600000, 0x10⟩

theorem exception_transparent_breakpoint :
    ObeysAbi 13 (setR8 0) ∧ (Transparent 0x600000 kernelFrame zeroMachine
        (run (fun _ ↦ setR8 0) 0x100100 (stub .breakpoint)
          (raise .breakpoint 0x600000 kernelFrame 0 zeroMachine)) ↔
      KeepsScratch (setR8 0) (runToCall (fun _ ↦ setR8 0) 0x100100 (stub .breakpoint)
        (raise .breakpoint 0x600000 kernelFrame 0 zeroMachine))) :=
  ⟨setR8_obeysAbi 0, exception_transparent .breakpoint (fun _ ↦ setR8 0) (setR8_obeysAbi 0) 0x100100
    0x600000 0 kernelFrame zeroMachine⟩

/-- A breakpoint whose function puts 1 into `r8` is not transparent, and no page fault is either. -/
theorem not_exceptions_transparent : ¬ ∀ e ∈ [ExceptionName.breakpoint, .pageFault],
    ∀ body : ExceptionName → Machine → Machine, ObeysAbi 13 (body e) → ∀ ret top error f s,
      Transparent top f s (run body ret (stub e) (raise e top f error s)) := by
  intro h
  have hr8 := (h .breakpoint (by decide) (fun _ ↦ setR8 1) (setR8_obeysAbi 1) 0x100100 0x600000 0
    kernelFrame zeroMachine).1 .r8 (by decide)
  exact absurd hr8 (by decide)


end Stub

end VimOS
