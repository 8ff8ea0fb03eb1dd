import Mathlib.Logic.Function.Basic
import Mathlib.Tactic

/-!
# A stack in x86-64 registers and memory

The general-purpose registers, and memory seen as 64-bit words; `push` and `pop` move `rsp` by one
word. What matters of the stack is the list of words from `rsp` on (`HasStack`): a push puts a word
in front of it, a pop takes one off, and code that keeps those words keeps the stack.

A called function is a function on machines, from the entry of the function to its return.
-/

namespace StackMachine

/-- The general-purpose registers. -/
inductive Reg : Type
  | rax | rbx | rcx | rdx | rsi | rdi | rbp | rsp
  | r8 | r9 | r10 | r11 | r12 | r13 | r14 | r15
  deriving DecidableEq

instance : Fintype Reg where
  elems := {.rax, .rbx, .rcx, .rdx, .rsi, .rdi, .rbp, .rsp,
    .r8, .r9, .r10, .r11, .r12, .r13, .r14, .r15}
  complete r := by cases r <;> decide

structure Machine where
  regs : Reg → BitVec 64
  /-- The word at an address. -/
  mem : BitVec 64 → BitVec 64

namespace Machine

def set (s : Machine) (r : Reg) (v : BitVec 64) : Machine :=
  { s with regs := Function.update s.regs r v }

def push (s : Machine) (v : BitVec 64) : Machine where
  regs := Function.update s.regs .rsp (s.regs .rsp - 8)
  mem := Function.update s.mem (s.regs .rsp - 8) v

def pop (s : Machine) (r : Reg) : Machine :=
  (s.set .rsp (s.regs .rsp + 8)).set r (s.mem (s.regs .rsp))

variable (s : Machine) {r r' : Reg} {v : BitVec 64}

@[simp] theorem regs_set : (s.set r v).regs r' = if r' = r then v else s.regs r' :=
  Function.update_apply ..

@[simp] theorem regs_push :
    (s.push v).regs r' = if r' = .rsp then s.regs .rsp - 8 else s.regs r' :=
  Function.update_apply ..

theorem mem_push (a : BitVec 64) :
    (s.push v).mem a = if a = s.regs .rsp - 8 then v else s.mem a := Function.update_apply ..

@[simp] theorem regs_pop : (s.pop r).regs r' =
    if r' = r then s.mem (s.regs .rsp) else if r' = .rsp then s.regs .rsp + 8 else s.regs r' := by
  rw [pop, regs_set, regs_set]

end Machine

/-! ## The words on the stack -/

/-- The word `k` words above `rsp`. -/
def Machine.word (s : Machine) (k : ℕ) : BitVec 64 := s.mem (s.regs .rsp + BitVec.ofNat 64 (8 * k))

/-- The words from `rsp` on begin with those of a list. -/
def HasStack (s : Machine) (ws : List (BitVec 64)) : Prop :=
  ws.length < 2 ^ 32 ∧ ∀ k (hk : k < ws.length), s.word k = ws.get ⟨k, hk⟩

section HasStack

variable {s s' : Machine} {v w : BitVec 64} {ws : List (BitVec 64)} {r : Reg}

theorem hasStack_nil : HasStack s [] := ⟨by decide, fun k hk ↦ absurd hk (Nat.not_lt_zero k)⟩

theorem HasStack.push (h : HasStack s ws) (hlen : ws.length + 1 < 2 ^ 32) (v : BitVec 64) :
    HasStack (s.push v) (v :: ws) := by
  refine ⟨hlen, fun k hk ↦ ?_⟩
  rw [List.length_cons] at hk
  rw [Machine.word, Machine.regs_push, if_pos rfl, Machine.mem_push]
  cases k with
  | zero =>
    rw [Nat.mul_zero, BitVec.add_zero, if_pos rfl]
    rfl
  | succ k =>
    have hne : s.regs .rsp - 8 + BitVec.ofNat 64 (8 * (k + 1)) ≠ s.regs .rsp - 8 := by
      bv_omega
    have haddr : s.regs .rsp - 8 + BitVec.ofNat 64 (8 * (k + 1)) =
        s.regs .rsp + BitVec.ofNat 64 (8 * k) := by
      bv_omega
    rw [if_neg hne, haddr]
    exact h.2 k (Nat.lt_of_succ_lt_succ hk)

theorem HasStack.head (h : HasStack s (w :: ws)) : s.mem (s.regs .rsp) = w := by
  have hzero := h.2 0 (Nat.zero_lt_succ _)
  rw [Machine.word, Nat.mul_zero, BitVec.add_zero] at hzero
  exact hzero

/-- A stack is known by the words above the one it starts with. -/
theorem HasStack.tail_of (h : HasStack s (w :: ws))
    (hmem : ∀ k < ws.length, s'.word k = s.word (k + 1)) : HasStack s' ws := by
  have hlen := h.1
  rw [List.length_cons] at hlen
  refine ⟨by omega, fun k hk ↦ ?_⟩
  rw [hmem k hk]
  exact h.2 (k + 1) (Nat.succ_lt_succ hk)

theorem HasStack.pop (h : HasStack s (w :: ws)) (hr : r ≠ .rsp) : HasStack (s.pop r) ws := by
  have hrsp : (s.pop r).regs .rsp = s.regs .rsp + 8 := by
    rw [Machine.regs_pop, if_neg hr.symm, if_pos rfl]
  refine h.tail_of fun k _ ↦ ?_
  rw [Machine.word, Machine.word, hrsp, Nat.mul_succ, BitVec.ofNat_add, BitVec.add_assoc,
    BitVec.add_comm (BitVec.ofNat 64 (8 * k))]
  rfl

/-- The stack does not depend on the other registers. -/
theorem HasStack.set (h : HasStack s ws) (hr : r ≠ .rsp) : HasStack (s.set r v) ws := by
  refine ⟨h.1, fun k hk ↦ ?_⟩
  rw [Machine.word, Machine.regs_set, if_neg hr.symm]
  exact h.2 k hk

/-- A word is skipped. -/
theorem HasStack.skip (h : HasStack s (w :: ws)) :
    HasStack (s.set .rsp (s.regs .rsp + 8)) ws := by
  refine h.tail_of fun k _ ↦ ?_
  rw [Machine.word, Machine.word, Machine.regs_set, if_pos rfl, Nat.mul_succ, BitVec.ofNat_add,
    BitVec.add_assoc, BitVec.add_comm (BitVec.ofNat 64 (8 * k))]
  rfl

end HasStack

/-! ## Saving and restoring registers -/

def pushRegs (rs : List Reg) (s : Machine) : Machine := rs.foldl (fun s r ↦ s.push (s.regs r)) s

def popRegs (rs : List Reg) (s : Machine) : Machine := rs.foldl Machine.pop s

section Regs

variable {s : Machine} {rs : List Reg} {ws : List (BitVec 64)} {r : Reg}

theorem regs_pushRegs (hr : r ≠ .rsp) : (pushRegs rs s).regs r = s.regs r := by
  induction rs generalizing s with
  | nil => rfl
  | cons r' rs ih =>
    refine (ih (s := s.push (s.regs r'))).trans ?_
    rw [Machine.regs_push, if_neg hr]

theorem rsp_pushRegs :
    (pushRegs rs s).regs .rsp + BitVec.ofNat 64 (8 * rs.length) = s.regs .rsp := by
  induction rs generalizing s with
  | nil => exact BitVec.add_zero _
  | cons r' rs ih =>
    have hpush := ih (s := s.push (s.regs r'))
    rw [Machine.regs_push, if_pos rfl] at hpush
    rw [List.length_cons, Nat.mul_succ, BitVec.ofNat_add, ← BitVec.add_assoc]
    refine (congrArg (· + BitVec.ofNat 64 8) hpush).trans ?_
    bv_omega

theorem HasStack.pushRegs (h : HasStack s ws) (hrs : .rsp ∉ rs)
    (hlen : rs.length + ws.length < 2 ^ 32) :
    HasStack (pushRegs rs s) ((rs.map s.regs).reverse ++ ws) := by
  induction rs generalizing s ws with
  | nil => exact h
  | cons r' rs ih =>
    rw [List.mem_cons, not_or] at hrs
    rw [List.length_cons] at hlen
    have hsame : rs.map (s.push (s.regs r')).regs = rs.map s.regs := by
      refine List.map_congr_left fun r hr ↦ ?_
      rw [Machine.regs_push, if_neg (ne_of_mem_of_not_mem hr hrs.2)]
    have hstack := ih (h.push (by omega) (s.regs r')) hrs.2 (by rw [List.length_cons]; omega)
    rw [hsame] at hstack
    rw [List.map_cons, List.reverse_cons, List.append_assoc]
    exact hstack

theorem regs_popRegs_of_notMem (hrs : r ∉ rs) (hr : r ≠ .rsp) :
    (popRegs rs s).regs r = s.regs r := by
  induction rs generalizing s with
  | nil => rfl
  | cons r' rs ih =>
    rw [List.mem_cons, not_or] at hrs
    refine (ih (s := s.pop r') hrs.2).trans ?_
    rw [Machine.regs_pop, if_neg hrs.1, if_neg hr]

theorem rsp_popRegs (hrs : .rsp ∉ rs) :
    (popRegs rs s).regs .rsp = s.regs .rsp + BitVec.ofNat 64 (8 * rs.length) := by
  induction rs generalizing s with
  | nil => exact (BitVec.add_zero _).symm
  | cons r' rs ih =>
    rw [List.mem_cons, not_or] at hrs
    refine (ih (s := s.pop r') hrs.2).trans ?_
    rw [Machine.regs_pop, if_neg hrs.1, if_pos rfl, List.length_cons, Nat.mul_succ,
      BitVec.ofNat_add,
      BitVec.add_assoc, BitVec.add_comm 8]
    rfl

theorem HasStack.popRegs {vs : List (BitVec 64)} (h : HasStack s (vs ++ ws)) (hrs : .rsp ∉ rs)
    (hlen : vs.length = rs.length) : HasStack (popRegs rs s) ws := by
  induction rs generalizing s vs with
  | nil =>
    rw [List.length_eq_zero_iff.mp hlen] at h
    exact h
  | cons r' rs ih =>
    rw [List.mem_cons, not_or] at hrs
    cases vs with
    | nil => cases hlen
    | cons v vs => exact ih (h.pop (Ne.symm hrs.1)) hrs.2 (Nat.succ.inj hlen)

/-- Each register gets the word that stands in its place. -/
theorem HasStack.regs_popRegs {f : Reg → BitVec 64} (h : HasStack s (rs.map f ++ ws))
    (hrs : .rsp ∉ rs) (hnd : rs.Nodup) (hr : r ∈ rs) :
    (StackMachine.popRegs rs s).regs r = f r := by
  induction rs generalizing s with
  | nil => exact absurd hr List.not_mem_nil
  | cons r' rs ih =>
    rw [List.mem_cons, not_or] at hrs
    rw [List.nodup_cons] at hnd
    rcases List.mem_cons.mp hr with rfl | hr
    · refine (regs_popRegs_of_notMem hnd.1 (Ne.symm hrs.1)).trans ?_
      rw [Machine.regs_pop, if_pos rfl]
      exact h.head
    · exact ih (h.pop (Ne.symm hrs.1)) hrs.2 hnd.2 hr

end Regs

/-! ## What is written -/

/-- `s'` comes from `s` by pushing `n` words from `top` down; nothing else is written. -/
structure Pushed (top : BitVec 64) (n : ℕ) (s s' : Machine) : Prop where
  rsp : s'.regs .rsp = top - BitVec.ofNat 64 (8 * n)
  mem : ∀ a, (∀ k < n, a ≠ top - BitVec.ofNat 64 (8 * (k + 1))) → s'.mem a = s.mem a

namespace Pushed

variable {s s' : Machine} {top : BitVec 64} {n : ℕ}

/-- The stack is switched to `top`. -/
theorem start : Pushed top 0 s (s.set .rsp top) where
  rsp := by rw [Machine.regs_set, if_pos rfl, Nat.mul_zero, BitVec.sub_zero]
  mem _ _ := rfl

theorem push (h : Pushed top n s s') (v : BitVec 64) : Pushed top (n + 1) s (s'.push v) := by
  have hslot : s'.regs .rsp - 8 = top - BitVec.ofNat 64 (8 * (n + 1)) := by
    rw [h.rsp, Nat.mul_succ, BitVec.ofNat_add, BitVec.sub_sub]
    rfl
  refine ⟨?_, fun a ha ↦ ?_⟩
  · rw [Machine.regs_push, if_pos rfl, hslot]
  · rw [Machine.mem_push, if_neg (hslot ▸ ha n (Nat.lt_succ_self n))]
    exact h.mem a fun k hk ↦ ha k (hk.trans (Nat.lt_succ_self n))

theorem set (h : Pushed top n s s') {r : Reg} (hr : r ≠ .rsp) (v : BitVec 64) :
    Pushed top n s (s'.set r v) := by
  refine ⟨?_, h.mem⟩
  rw [Machine.regs_set, if_neg hr.symm]
  exact h.rsp

theorem pushRegs (h : Pushed top n s s') (rs : List Reg) :
    Pushed top (n + rs.length) s (pushRegs rs s') := by
  induction rs generalizing n s' with
  | nil => exact h
  | cons r rs ih =>
    rw [List.length_cons, Nat.add_comm rs.length, ← Nat.add_assoc]
    exact ih (h.push _)

/-- Where the words lie in a piece of memory, so does all that is written. -/
theorem written_mem (h : Pushed top n s s') {lo hi : ℕ} (hlo : lo + 8 * n ≤ top.toNat)
    (hhi : top.toNat ≤ hi) {a : BitVec 64} (ha : s'.mem a ≠ s.mem a) {i : ℕ} (hi8 : i < 8) :
    a.toNat + i ∈ Set.Ico lo hi := by
  obtain ⟨k, hk, rfl⟩ : ∃ k < n, a = top - BitVec.ofNat 64 (8 * (k + 1)) := by
    by_contra hnone
    push Not at hnone
    exact ha (h.mem a hnone)
  have hlt := top.isLt
  have haddr : (top - BitVec.ofNat 64 (8 * (k + 1))).toNat = top.toNat - 8 * (k + 1) := by
    rw [BitVec.toNat_sub_of_le, BitVec.toNat_ofNat, Nat.mod_eq_of_lt (by omega)]
    rw [BitVec.le_def, BitVec.toNat_ofNat, Nat.mod_eq_of_lt (by omega)]
    omega
  rw [haddr, Set.mem_Ico]
  omega

end Pushed

/-! ## Instructions -/

/-- Straight-line code with calls of the functions `F`. -/
inductive Instr (F : Type) : Type
  | pushImm (v : BitVec 64)
  | push (r : Reg)
  | pop (r : Reg)
  | mov (src dst : Reg)
  | addImm (v : BitVec 64) (dst : Reg)
  | call (f : F)
  | iretq

section Exec

variable {F : Type} (body : F → Machine → Machine) (ret : BitVec 64)

/-- One instruction; `ret` is the return address that a call pushes. -/
def exec (i : Instr F) (s : Machine) : Machine :=
  match i with
  | .pushImm v => s.push v
  | .push r => s.push (s.regs r)
  | .pop r => s.pop r
  | .mov src dst => s.set dst (s.regs src)
  | .addImm v dst => s.set dst (s.regs dst + v)
  | .call f => body f (s.push ret)
  | .iretq => s

/-- The machine when `iretq` is reached. -/
def run : List (Instr F) → Machine → Machine
  | [], s => s
  | .iretq :: _, s => s
  | i :: is, s => run is (exec body ret i s)

/-- The machine at the entry of the first function that is called. -/
def runToCall : List (Instr F) → Machine → Machine
  | [], s => s
  | .call _ :: _, s => s.push ret
  | i :: is, s => runToCall is (exec body ret i s)

variable {body ret} {rs : List Reg} {is : List (Instr F)} {s : Machine}

theorem run_push : run body ret (rs.map .push ++ is) s = run body ret is (pushRegs rs s) := by
  induction rs generalizing s with
  | nil => rfl
  | cons r rs ih => exact ih

theorem run_pop : run body ret (rs.map .pop ++ is) s = run body ret is (popRegs rs s) := by
  induction rs generalizing s with
  | nil => rfl
  | cons r rs ih => exact ih

theorem runToCall_push :
    runToCall body ret (rs.map .push ++ is) s = runToCall body ret is (pushRegs rs s) := by
  induction rs generalizing s with
  | nil => rfl
  | cons r rs ih => exact ih

end Exec

/-! ## The calling convention -/

/-- The registers that a function keeps under the System V ABI. -/
def calleeSaved : List Reg := [.rbx, .rbp, .r12, .r13, .r14, .r15]

/-- A function that obeys the ABI: it returns with `rsp` behind the return address, and keeps the
callee-saved registers and the `words` words of its callers above the return address. -/
structure ObeysAbi (words : ℕ) (body : Machine → Machine) : Prop where
  saved : ∀ s, ∀ r ∈ calleeSaved, (body s).regs r = s.regs r
  rsp : ∀ s, (body s).regs .rsp = s.regs .rsp + 8
  stack : ∀ s, ∀ k < words, (body s).word k = s.word (k + 1)

theorem ObeysAbi.hasStack {words : ℕ} {body : Machine → Machine} (h : ObeysAbi words body)
    {s : Machine} {ret : BitVec 64} {ws : List (BitVec 64)} (hs : HasStack s (ret :: ws))
    (hlen : ws.length ≤ words) : HasStack (body s) ws :=
  hs.tail_of fun k hk ↦ h.stack s k (hk.trans_le hlen)

end StackMachine
