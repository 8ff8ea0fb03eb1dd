import VimOS.Library.ByteMemory
import VimOS.Library.Signed32
import VimOS.Library.StackMachine
import VimOS.Paging.Address

/-!
# `memcmp`

`stdlib/memcmp.s` compares quadwords as long as there are any, and what is left byte by byte. The
result is the difference of the two quadwords (or bytes) before the pointers, of which a caller
takes the lower 32 bits as an `int`.

The exit `.Lerr08` is shared by a mismatch and by buffers without a tail. In the second case one
word too many is popped, which the epilogue hides by restoring the stack pointer; and with empty
buffers nothing has been compared when the quadwords before the pointers are subtracted.
-/

namespace VimOS

open ByteMemory Signed32
open StackMachine (Reg)

/-! ## The code -/

/-- Registers, the zero flag and memory. -/
structure Cpu where
  regs : Reg → BitVec 64
  zf : Bool
  mem : Bytes

namespace Cpu

def set (s : Cpu) (r : Reg) (v : BitVec 64) : Cpu :=
  { s with regs := Function.update s.regs r v }

/-- `pushq`. -/
def push (s : Cpu) (r : Reg) : Cpu where
  regs := Function.update s.regs .rsp (s.regs .rsp - 8)
  zf := s.zf
  mem := store s.mem (s.regs .rsp - 8) 8 (s.regs r).toNat

/-- The quadword at an address. -/
def quad (s : Cpu) (a : BitVec 64) : BitVec 64 := BitVec.ofNat 64 (load s.mem a 8)

/-- `popq`. -/
def pop (s : Cpu) (r : Reg) : Cpu :=
  (s.set .rsp (s.regs .rsp + 8)).set r (s.quad (s.regs .rsp))

/-- `cmpsq` and `cmpsb`, upwards, for numbers of `size` bytes, with the count in `rcx`. -/
def cmps (size : ℕ) (s : Cpu) : Cpu :=
  let equal := load s.mem (s.regs .rsi) size == load s.mem (s.regs .rdi) size
  let s := s.set .rdi (s.regs .rdi + BitVec.ofNat 64 size)
  let s := s.set .rsi (s.regs .rsi + BitVec.ofNat 64 size)
  let s := s.set .rcx (s.regs .rcx - 1)
  { s with zf := equal }

/-- `repe`, `k` the value of `rcx`: with a count of zero the flags stay as they are. -/
def repeCmps (size : ℕ) : ℕ → Cpu → Cpu
  | 0, s => s
  | k + 1, s => if (s.cmps size).zf then repeCmps size k (s.cmps size) else s.cmps size

/-- Up to `pushq %rcx`: `shrq` sets the zero flag if there is no quadword. -/
def prologue (s : Cpu) : Cpu :=
  let s := s.push .rbp
  let s := s.set .rbp (s.regs .rsp)
  let s := s.push .rdi
  let s := s.push .rsi
  let s := s.set .rcx (s.regs .rdx >>> 3)
  let s := { s with zf := s.regs .rcx == 0 }
  s.push .rcx

/-- `.Lend`. -/
def epilogue (s : Cpu) : Cpu :=
  let s := s.pop .rsi
  let s := s.pop .rdi
  let s := s.set .rsp (s.regs .rbp)
  s.pop .rbp

/-- `.Lerr08`. -/
def err08 (s : Cpu) : Cpu :=
  let s := s.pop .rcx
  let s := s.set .rax (s.quad (s.regs .rdi - 8))
  let s := s.set .rax (s.regs .rax - s.quad (s.regs .rsi - 8))
  s.epilogue

/-- From the second `popq %rcx` on: what is left of the buffers. -/
def remainder (s : Cpu) : Cpu :=
  let s := s.pop .rcx
  let s := s.set .rcx (s.regs .rcx <<< 3)
  let s := s.set .rdx (s.regs .rdx - s.regs .rcx)
  { s with zf := s.regs .rdx == 0 }

/-- `.Lend1`: `movq $0` clears all of `rax`, the subtraction is one of bytes. -/
def end1 (s : Cpu) : Cpu :=
  let s := s.set .rax
    ((s.mem (s.regs .rdi - 1) - s.mem (s.regs .rsi - 1)).setWidth 64)
  s.epilogue

/-- `memcmp`. -/
def memcmp (s : Cpu) : Cpu :=
  let s := s.prologue
  let s := s.repeCmps 8 (s.regs .rcx).toNat
  if s.zf = false then s.err08
  else
    let s := s.remainder
    if s.zf then s.err08
    else
      let s := s.set .rcx (s.regs .rdx)
      (s.repeCmps 1 (s.regs .rcx).toNat).end1

/-- The result: an `int` is returned in `eax`. -/
def result (s : Cpu) : ℤ := wrap (s.regs .rax).toNat

/-! ## Registers and memory -/

section Lemmas

variable {s : Cpu} {r r' : Reg} {v a : BitVec 64} {size k j n : ℕ}

@[simp] theorem regs_set : (s.set r v).regs r' = if r' = r then v else s.regs r' :=
  Function.update_apply ..

@[simp] theorem mem_set : (s.set r v).mem = s.mem := rfl

@[simp] theorem regs_push :
    (s.push r).regs r' = if r' = .rsp then s.regs .rsp - 8 else s.regs r' :=
  Function.update_apply ..

@[simp] theorem mem_push :
    (s.push r).mem = store s.mem (s.regs .rsp - 8) 8 (s.regs r).toNat := rfl

@[simp] theorem regs_pop : (s.pop r).regs r' =
    if r' = r then s.quad (s.regs .rsp) else if r' = .rsp then s.regs .rsp + 8 else s.regs r' := by
  rw [pop, regs_set, regs_set]

@[simp] theorem mem_pop : (s.pop r).mem = s.mem := rfl

@[simp] theorem rax_epilogue (s : Cpu) : s.epilogue.regs .rax = s.regs .rax := by
  simp [epilogue]

theorem rax_err08 (s : Cpu) : s.err08.regs .rax =
    s.quad (s.regs .rdi - 8) - s.quad (s.regs .rsi - 8) := by
  simp [err08, quad]

theorem rax_end1 (s : Cpu) : s.end1.regs .rax =
    (s.mem (s.regs .rdi - 1) - s.mem (s.regs .rsi - 1)).setWidth 64 := by
  simp [end1]

/-! ### The prologue -/

theorem regs_prologue (s : Cpu) (h : r = .rdi ∨ r = .rsi ∨ r = .rdx) :
    s.prologue.regs r = s.regs r := by
  rcases h with rfl | rfl | rfl <;> simp [prologue]

theorem rcx_prologue (s : Cpu) : s.prologue.regs .rcx = s.regs .rdx >>> 3 := by
  simp [prologue]

theorem zf_prologue (s : Cpu) : s.prologue.zf = (s.regs .rdx >>> 3 == 0) := by
  simp [prologue, push]

theorem quad_push (s : Cpu) (r : Reg) : (s.push r).quad ((s.push r).regs .rsp) = s.regs r := by
  have hlt : (s.regs r).toNat < 256 ^ 8 := (s.regs r).isLt
  rw [quad, regs_push, if_pos rfl, mem_push, load_store (by norm_num), Nat.mod_eq_of_lt hlt,
    BitVec.ofNat_toNat, BitVec.setWidth_eq]

/-- The last word pushed is the number of quadwords. -/
theorem quad_prologue (s : Cpu) : s.prologue.quad (s.prologue.regs .rsp) = s.regs .rdx >>> 3 := by
  rw [prologue, quad_push]
  simp

/-- The four words below the stack pointer are all that is written. -/
theorem mem_prologue {x : BitVec 64} (h : 32 ≤ (x - (s.regs .rsp - 32)).toNat) :
    s.prologue.mem x = s.mem x := by
  have hone : 8 ≤ (x - (s.regs .rsp - 8)).toNat := by bv_omega
  have htwo : 8 ≤ (x - (s.regs .rsp - 8 - 8)).toNat := by bv_omega
  have hthree : 8 ≤ (x - (s.regs .rsp - 8 - 8 - 8)).toNat := by bv_omega
  have hfour : 8 ≤ (x - (s.regs .rsp - 8 - 8 - 8 - 8)).toNat := by bv_omega
  simp only [prologue, mem_push, mem_set, regs_push, regs_set, if_true, reduceCtorEq, if_false]
  rw [store_apply_of_le hfour, store_apply_of_le hthree, store_apply_of_le htwo,
    store_apply_of_le hone]

/-! ### The comparing instructions -/

@[simp] theorem mem_cmps (size : ℕ) (s : Cpu) : (s.cmps size).mem = s.mem := rfl

theorem regs_cmps : (s.cmps size).regs r =
    if r = .rcx then s.regs .rcx - 1 else if r = .rsi then s.regs .rsi + BitVec.ofNat 64 size
    else if r = .rdi then s.regs .rdi + BitVec.ofNat 64 size else s.regs r := by
  simp [cmps]

theorem zf_cmps : (s.cmps size).zf =
    (load s.mem (s.regs .rsi) size == load s.mem (s.regs .rdi) size) := rfl

@[simp] theorem mem_repeCmps (size k : ℕ) (s : Cpu) : (s.repeCmps size k).mem = s.mem := by
  induction k generalizing s with
  | zero => rfl
  | succ k ih =>
    rw [repeCmps]
    split
    · rw [ih, mem_cmps]
    · rfl

theorem regs_repeCmps (hrdi : r ≠ .rdi) (hrsi : r ≠ .rsi) (hrcx : r ≠ .rcx) (size k : ℕ)
    (s : Cpu) : (s.repeCmps size k).regs r = s.regs r := by
  have hstep : ∀ s : Cpu, (s.cmps size).regs r = s.regs r := by
    intro s
    rw [regs_cmps, if_neg hrcx, if_neg hrsi, if_neg hrdi]
  induction k generalizing s with
  | zero => rfl
  | succ k ih =>
    rw [repeCmps]
    split
    · rw [ih, hstep]
    · exact hstep s

/-- The numbers with index `j` are the same. -/
def Same (s : Cpu) (size j : ℕ) : Prop :=
  load s.mem (s.regs .rdi + BitVec.ofNat 64 (size * j)) size =
    load s.mem (s.regs .rsi + BitVec.ofNat 64 (size * j)) size

theorem add_ofNat_mul_succ (a : BitVec 64) (size j : ℕ) :
    a + BitVec.ofNat 64 size + BitVec.ofNat 64 (size * j) =
      a + BitVec.ofNat 64 (size * (j + 1)) := by
  rw [BitVec.add_assoc, ← BitVec.ofNat_add, Nat.mul_succ, Nat.add_comm size]

theorem same_cmps : (s.cmps size).Same size j ↔ s.Same size (j + 1) := by
  rw [Same, Same, regs_cmps, regs_cmps, mem_cmps]
  simp only [reduceCtorEq, if_false, if_true, add_ofNat_mul_succ]

theorem zf_cmps_iff : (s.cmps size).zf = true ↔ s.Same size 0 := by
  rw [zf_cmps, beq_iff_eq, Same, Nat.mul_zero, BitVec.add_zero, BitVec.add_zero, eq_comm]

/-- The pointers have passed `m` numbers. -/
structure Passed (s s' : Cpu) (size m : ℕ) : Prop where
  rdi : s'.regs .rdi = s.regs .rdi + BitVec.ofNat 64 (size * m)
  rsi : s'.regs .rsi = s.regs .rsi + BitVec.ofNat 64 (size * m)

theorem passed_zero (s : Cpu) (size : ℕ) : Passed s s size 0 := by
  constructor <;> rw [Nat.mul_zero, BitVec.add_zero]

theorem Passed.of_cmps {s' : Cpu} {m : ℕ} (h : Passed (s.cmps size) s' size m) :
    Passed s s' size (m + 1) := by
  constructor
  · rw [h.rdi, regs_cmps, if_neg (by decide), if_neg (by decide), if_pos rfl, add_ofNat_mul_succ]
  · rw [h.rsi, regs_cmps, if_neg (by decide), if_pos rfl, add_ofNat_mul_succ]

/-- No difference: all numbers are passed. -/
theorem repeCmps_of_forall (h : ∀ j < k, s.Same size j) (hzf : k = 0 → s.zf = true) :
    (s.repeCmps size k).zf = true ∧ Passed s (s.repeCmps size k) size k := by
  induction k generalizing s with
  | zero => exact ⟨hzf rfl, passed_zero s size⟩
  | succ k ih =>
    have hfirst := zf_cmps_iff.mpr (h 0 (Nat.succ_pos k))
    have hrest := ih (fun j hj ↦ same_cmps.mpr (h (j + 1) (Nat.succ_lt_succ hj)))
      fun _ ↦ hfirst
    rw [repeCmps, if_pos hfirst]
    exact ⟨hrest.1, hrest.2.of_cmps⟩

/-- The first difference is the last number that is passed. -/
theorem repeCmps_of_first (hj : j < k) (h : ∀ i < j, s.Same size i) (hne : ¬s.Same size j) :
    (s.repeCmps size k).zf = false ∧ Passed s (s.repeCmps size k) size (j + 1) := by
  induction j generalizing s k with
  | zero =>
    obtain ⟨k, rfl⟩ := Nat.exists_eq_add_one_of_ne_zero (Nat.ne_zero_of_lt hj)
    have hfirst : ¬(s.cmps size).zf = true := fun hzf ↦ hne (zf_cmps_iff.mp hzf)
    rw [repeCmps, if_neg hfirst]
    exact ⟨Bool.eq_false_iff.mpr hfirst, (passed_zero (s.cmps size) size).of_cmps⟩
  | succ j ih =>
    obtain ⟨k, rfl⟩ := Nat.exists_eq_add_one_of_ne_zero (Nat.ne_zero_of_lt hj)
    have hfirst := zf_cmps_iff.mpr (h 0 (Nat.succ_pos j))
    have hrest := ih (s := s.cmps size) (Nat.lt_of_succ_lt_succ hj)
      (fun i hi ↦ same_cmps.mpr (h (i + 1) (Nat.succ_lt_succ hi))) (same_cmps.not.mpr hne)
    rw [repeCmps, if_pos hfirst]
    exact ⟨hrest.1, hrest.2.of_cmps⟩

end Lemmas

end Cpu

/-! ## Buffers -/

/-- The number of `m` bytes at index `k`, the lowest byte first. -/
def leValue (a : ℕ → Byte) (k : ℕ) : ℕ → ℕ
  | 0 => 0
  | m + 1 => (a k).toNat + 256 * leValue a (k + 1) m

/-- The pointers stand at buffers of `n` bytes. -/
structure HoldsBuffers (s : Cpu) (a b : ℕ → Byte) (n : ℕ) : Prop where
  left : ∀ i < n, s.mem (s.regs .rdi + BitVec.ofNat 64 i) = a i
  right : ∀ i < n, s.mem (s.regs .rsi + BitVec.ofNat 64 i) = b i

/-- The machine at the entry of `memcmp(a, b, n)`, with no byte of the buffers below the stack
pointer. -/
structure Placed (s : Cpu) (a b : ℕ → Byte) (n : ℕ) : Prop extends HoldsBuffers s a b n where
  rdx : s.regs .rdx = BitVec.ofNat 64 n
  leftApart : Apart (s.regs .rdi) n (s.regs .rsp - 32) 32
  rightApart : Apart (s.regs .rsi) n (s.regs .rsp - 32) 32

section Buffers

variable {s s' : Cpu} {a b : ℕ → Byte} {n k m p j : ℕ}

theorem leValue_lt (a : ℕ → Byte) (k m : ℕ) : leValue a k m < 256 ^ m := by
  induction m generalizing k with
  | zero => exact Nat.one_pos
  | succ m ih =>
    have hrest := ih (k + 1)
    have hbyte := (a k).isLt
    rw [leValue, Nat.pow_succ]
    omega

theorem leValue_eq_iff : leValue a k m = leValue b k m ↔ ∀ i < m, a (k + i) = b (k + i) := by
  induction m generalizing k with
  | zero => exact iff_of_true rfl fun i hi ↦ absurd hi (Nat.not_lt_zero i)
  | succ m ih =>
    have ha := (a k).isLt
    have hb := (b k).isLt
    have hsplit : leValue a k (m + 1) = leValue b k (m + 1) ↔
        (a k).toNat = (b k).toNat ∧ leValue a (k + 1) m = leValue b (k + 1) m := by
      rw [leValue, leValue]
      omega
    rw [hsplit, BitVec.toNat_inj, ih, Nat.forall_lt_succ_left]
    simp only [Nat.add_zero, Nat.add_assoc, Nat.add_comm 1]

/-- Of a quadword, `eax` takes the lower half. -/
theorem leValue_mod (a : ℕ → Byte) (k : ℕ) : leValue a k 8 % 2 ^ 32 = leValue a k 4 := by
  have hlow := leValue_lt a k 4
  simp only [leValue] at hlow ⊢
  omega

theorem load_eq_leValue {mem : Bytes} {x : BitVec 64}
    (h : ∀ i < n, mem (x + BitVec.ofNat 64 i) = a i) (hk : k + m ≤ n) :
    load mem (x + BitVec.ofNat 64 k) m = leValue a k m := by
  induction m generalizing k with
  | zero => rfl
  | succ m ih =>
    have hnext : x + BitVec.ofNat 64 k + 1 = x + BitVec.ofNat 64 (k + 1) := by
      rw [BitVec.add_assoc, BitVec.ofNat_add]
      rfl
    rw [load, leValue, h k (by omega), hnext, ih (by omega)]

theorem HoldsBuffers.same_iff (h : HoldsBuffers s a b n) {size : ℕ} (hj : size * (j + 1) ≤ n) :
    s.Same size j ↔ ∀ i < size, a (size * j + i) = b (size * j + i) := by
  rw [Nat.mul_succ] at hj
  rw [Cpu.Same, load_eq_leValue h.left hj, load_eq_leValue h.right hj, leValue_eq_iff]

/-- The quadword before the pointers, when one has been passed. -/
theorem quad_sub_eight {x : BitVec 64} (hmem : ∀ i < n, s.mem (x + BitVec.ofNat 64 i) = a i)
    (hj : 8 * (j + 1) ≤ n) :
    s.quad (x + BitVec.ofNat 64 (8 * (j + 1)) - 8) = BitVec.ofNat 64 (leValue a (8 * j) 8) := by
  have haddr : x + BitVec.ofNat 64 (8 * (j + 1)) - 8 = x + BitVec.ofNat 64 (8 * j) := by
    rw [Nat.mul_succ, BitVec.ofNat_add, ← BitVec.add_assoc]
    exact BitVec.add_sub_cancel _ _
  rw [haddr, Cpu.quad, load_eq_leValue hmem (by omega)]

theorem Placed.holds_prologue (h : Placed s a b n) : HoldsBuffers s.prologue a b n := by
  have hfar : ∀ x : BitVec 64, Apart x n (s.regs .rsp - 32) 32 → ∀ i < n,
      s.prologue.mem (x + BitVec.ofNat 64 i) = s.mem (x + BitVec.ofNat 64 i) :=
    fun x hx i hi ↦ Cpu.mem_prologue (hx i hi)
  constructor
  · intro i hi
    rw [Cpu.regs_prologue s (.inl rfl), hfar _ h.leftApart i hi, h.left i hi]
  · intro i hi
    rw [Cpu.regs_prologue s (.inr (.inl rfl)), hfar _ h.rightApart i hi, h.right i hi]

theorem Placed.rcx_prologue (h : Placed s a b n) (hn : n < 2 ^ 32) :
    (s.prologue.regs .rcx).toNat = n / 8 := by
  rw [Cpu.rcx_prologue, h.rdx, BitVec.toNat_ushiftRight, BitVec.toNat_ofNat,
    Nat.mod_eq_of_lt (by omega), Nat.shiftRight_eq_div_pow]

/-- The machine behind the comparison of the quadwords. -/
def Cpu.afterQuads (s : Cpu) (n : ℕ) : Cpu := s.prologue.repeCmps 8 (n / 8)

theorem Placed.memcmp_eq (h : Placed s a b n) (hn : n < 2 ^ 32) : s.memcmp =
    if (s.afterQuads n).zf = false then (s.afterQuads n).err08
    else if (s.afterQuads n).remainder.zf then (s.afterQuads n).remainder.err08
    else ((((s.afterQuads n).remainder).set .rcx ((s.afterQuads n).remainder.regs .rdx)).repeCmps 1
      ((s.afterQuads n).remainder.regs .rdx).toNat).end1 := by
  rw [Cpu.memcmp, h.rcx_prologue hn]
  rfl

theorem Cpu.zf_remainder (s : Cpu) : s.remainder.zf = (s.remainder.regs .rdx == 0) := rfl

/-- The tail has `n % 8` bytes. -/
theorem Placed.rdx_remainder (h : Placed s a b n) (hn : n < 2 ^ 32) :
    (s.afterQuads n).remainder.regs .rdx = BitVec.ofNat 64 (n % 8) := by
  have hquad : (s.afterQuads n).quad ((s.afterQuads n).regs .rsp) = s.regs .rdx >>> 3 := by
    rw [Cpu.quad, Cpu.afterQuads, Cpu.mem_repeCmps,
      Cpu.regs_repeCmps (by decide) (by decide) (by decide)]
    exact Cpu.quad_prologue s
  have hrdx : (s.afterQuads n).regs .rdx = BitVec.ofNat 64 n := by
    rw [Cpu.afterQuads, Cpu.regs_repeCmps (by decide) (by decide) (by decide),
      Cpu.regs_prologue s (.inr (.inr rfl)), h.rdx]
  have hsub : (s.afterQuads n).remainder.regs .rdx =
      (s.afterQuads n).regs .rdx - (s.afterQuads n).quad ((s.afterQuads n).regs .rsp) <<< 3 := by
    simp [Cpu.remainder]
  rw [hsub, hquad, hrdx, h.rdx]
  apply BitVec.eq_of_toNat_eq
  rw [BitVec.toNat_sub, BitVec.toNat_shiftLeft, BitVec.toNat_ushiftRight, BitVec.toNat_ofNat,
    BitVec.toNat_ofNat, Nat.mod_eq_of_lt (by omega : n < 2 ^ 64), Nat.shiftRight_eq_div_pow,
    Nat.shiftLeft_eq]
  omega

/-- The quadwords before the pointers, at the exit `.Lerr08`. -/
theorem Placed.quads_before (h : Placed s a b n)
    (hpassed : Cpu.Passed s.prologue (s.afterQuads n) 8 (j + 1)) (hj : 8 * (j + 1) ≤ n) :
    (s.afterQuads n).quad ((s.afterQuads n).regs .rdi - 8) =
        BitVec.ofNat 64 (leValue a (8 * j) 8) ∧
      (s.afterQuads n).quad ((s.afterQuads n).regs .rsi - 8) =
        BitVec.ofNat 64 (leValue b (8 * j) 8) := by
  have hmem : (s.afterQuads n).mem = s.prologue.mem := Cpu.mem_repeCmps _ _ _
  have hleft := h.holds_prologue.left
  have hright := h.holds_prologue.right
  rw [← hmem] at hleft hright
  rw [hpassed.rdi, hpassed.rsi]
  exact ⟨quad_sub_eight hleft hj, quad_sub_eight hright hj⟩

theorem result_of_rax {x y : ℕ} (h : s.regs .rax = BitVec.ofNat 64 x - BitVec.ofNat 64 y) :
    s.result = wrap ((x % 2 ^ 32 : ℕ) - (y % 2 ^ 32 : ℕ)) := by
  rw [Cpu.result, h]
  refine wrap_congr ?_
  rw [Int.ModEq, BitVec.toNat_sub, BitVec.toNat_ofNat, BitVec.toNat_ofNat]
  omega

/-- **A difference in a quadword.** -/
theorem Placed.result_quad (h : Placed s a b n) (hn : n < 2 ^ 32) (hp : p < 8 * (n / 8))
    (hfirst : ∀ i < p, a i = b i) (hne : a p ≠ b p) :
    s.memcmp.result = wrap (leValue a (8 * (p / 8)) 4 - leValue b (8 * (p / 8)) 4) := by
  have hholds := h.holds_prologue
  have hsame : ∀ i < p / 8, s.prologue.Same 8 i := fun i hi ↦
    (hholds.same_iff (by omega)).mpr fun k hk ↦ hfirst (8 * i + k) (by omega)
  have hdiff : ¬s.prologue.Same 8 (p / 8) := by
    intro heq
    refine hne ?_
    have hbyte := (hholds.same_iff (by omega)).mp heq (p % 8) (by omega)
    rwa [Nat.div_add_mod] at hbyte
  have hstop : (s.afterQuads n).zf = false ∧
      Cpu.Passed s.prologue (s.afterQuads n) 8 (p / 8 + 1) :=
    Cpu.repeCmps_of_first (by omega : p / 8 < n / 8) hsame hdiff
  obtain ⟨hleft, hright⟩ := h.quads_before hstop.2 (by omega)
  have hrax : s.memcmp.regs .rax = BitVec.ofNat 64 (leValue a (8 * (p / 8)) 8) -
      BitVec.ofNat 64 (leValue b (8 * (p / 8)) 8) := by
    rw [h.memcmp_eq hn, if_pos hstop.1, Cpu.rax_err08, hleft, hright]
  rw [result_of_rax hrax, leValue_mod, leValue_mod]

/-- Without a difference in a quadword the comparison goes on behind the last one. -/
theorem Placed.passed_quads (h : Placed s a b n) (hn : n < 2 ^ 32)
    (hsame : ∀ i < 8 * (n / 8), a i = b i) :
    (s.afterQuads n).zf = true ∧ Cpu.Passed s.prologue (s.afterQuads n) 8 (n / 8) := by
  refine Cpu.repeCmps_of_forall (fun j hj ↦ ?_) fun hzero ↦ ?_
  · exact (h.holds_prologue.same_iff (by omega)).mpr fun i hi ↦ hsame (8 * j + i) (by omega)
  · rw [Cpu.zf_prologue, beq_iff_eq, ← BitVec.toNat_inj, ← Cpu.rcx_prologue, h.rcx_prologue hn,
      hzero]
    rfl

theorem HoldsBuffers.passed (h : HoldsBuffers s a b n) {size : ℕ} (hpassed : Cpu.Passed s s' size m)
    (hmem : s'.mem = s.mem) (hm : size * m + k ≤ n) :
    HoldsBuffers s' (fun i ↦ a (size * m + i)) (fun i ↦ b (size * m + i)) k := by
  constructor
  · intro i hi
    rw [hmem, hpassed.rdi, BitVec.add_assoc, ← BitVec.ofNat_add, h.left _ (by omega)]
  · intro i hi
    rw [hmem, hpassed.rsi, BitVec.add_assoc, ← BitVec.ofNat_add, h.right _ (by omega)]

/-- The machine at the comparison of the tail. -/
def Cpu.atTail (s : Cpu) (n : ℕ) : Cpu :=
  (s.afterQuads n).remainder.set .rcx ((s.afterQuads n).remainder.regs .rdx)

theorem Placed.holds_tail (h : Placed s a b n) (hn : n < 2 ^ 32)
    (hsame : ∀ i < 8 * (n / 8), a i = b i) :
    HoldsBuffers (s.atTail n) (fun i ↦ a (8 * (n / 8) + i)) (fun i ↦ b (8 * (n / 8) + i))
      (n % 8) := by
  obtain ⟨-, hpassed⟩ := h.passed_quads hn hsame
  have htail : Cpu.Passed s.prologue (s.atTail n) 8 (n / 8) := by
    constructor
    · rw [← hpassed.rdi]
      simp [Cpu.atTail, Cpu.remainder]
    · rw [← hpassed.rsi]
      simp [Cpu.atTail, Cpu.remainder]
  have hmem : (s.atTail n).mem = s.prologue.mem := by
    simp [Cpu.atTail, Cpu.remainder, Cpu.afterQuads]
  exact h.holds_prologue.passed htail hmem (by omega)

theorem Placed.memcmp_tail (h : Placed s a b n) (hn : n < 2 ^ 32)
    (hsame : ∀ i < 8 * (n / 8), a i = b i) (htail : n % 8 ≠ 0) :
    s.memcmp = ((s.atTail n).repeCmps 1 (n % 8)).end1 := by
  have hrdx := h.rdx_remainder hn
  have hzf : ¬(s.afterQuads n).remainder.zf = true := by
    rw [Cpu.zf_remainder, hrdx, beq_iff_eq, ← BitVec.toNat_inj, BitVec.toNat_ofNat,
      Nat.mod_eq_of_lt (by omega)]
    exact htail
  have htoNat : (BitVec.ofNat 64 (n % 8)).toNat = n % 8 := by
    rw [BitVec.toNat_ofNat, Nat.mod_eq_of_lt (by omega)]
  rw [h.memcmp_eq hn, (h.passed_quads hn hsame).1, if_neg (by decide), if_neg hzf, Cpu.atTail, hrdx,
    htoNat]

/-- The bytes before the pointers, when some have been passed. -/
theorem HoldsBuffers.rax_end1 (h : HoldsBuffers s a b n) (hpassed : Cpu.Passed s s' 1 (j + 1))
    (hmem : s'.mem = s.mem) (hj : j < n) : s'.end1.regs .rax = (a j - b j).setWidth 64 := by
  have haddr : ∀ x : BitVec 64, x + BitVec.ofNat 64 (1 * (j + 1)) - 1 = x + BitVec.ofNat 64 j := by
    intro x
    rw [Nat.one_mul, BitVec.ofNat_add, ← BitVec.add_assoc]
    exact BitVec.add_sub_cancel _ _
  rw [Cpu.rax_end1, hpassed.rdi, hpassed.rsi, hmem, haddr, haddr, h.left j hj, h.right j hj]

theorem result_of_byte {v : Byte} (h : s.regs .rax = v.setWidth 64) : s.result = v.toNat := by
  have hlt := v.isLt
  rw [Cpu.result, h, BitVec.toNat_setWidth, Nat.mod_eq_of_lt (by omega),
    wrap_eq_self (by omega) (by omega)]

/-- **A difference in the tail.** -/
theorem Placed.result_tail (h : Placed s a b n) (hn : n < 2 ^ 32) (hp : 8 * (n / 8) ≤ p)
    (hpn : p < n) (hfirst : ∀ i < p, a i = b i) (hne : a p ≠ b p) :
    s.memcmp.result = (a p - b p).toNat := by
  obtain ⟨t, rfl⟩ := Nat.exists_eq_add_of_le hp
  have hsame : ∀ i < 8 * (n / 8), a i = b i := fun i hi ↦ hfirst i (by omega)
  have hholds := h.holds_tail hn hsame
  have hequal : ∀ i < t, (s.atTail n).Same 1 i := fun i hi ↦
    (hholds.same_iff (by omega)).mpr fun k hk ↦ hfirst (8 * (n / 8) + (1 * i + k)) (by omega)
  have hdiff : ¬(s.atTail n).Same 1 t := by
    intro heq
    have hbyte := (hholds.same_iff (by omega)).mp heq 0 Nat.one_pos
    rw [Nat.one_mul, Nat.add_zero] at hbyte
    exact hne hbyte
  obtain ⟨-, hpassed⟩ := Cpu.repeCmps_of_first (by omega : t < n % 8) hequal hdiff
  refine result_of_byte ?_
  rw [h.memcmp_tail hn hsame (by omega)]
  exact hholds.rax_end1 hpassed (Cpu.mem_repeCmps _ _ _) (by omega)

/-- Without a tail, the last quadwords are subtracted. -/
theorem Placed.rax_of_no_tail (h : Placed s a b n) (hn : n < 2 ^ 32)
    (hsame : ∀ i < 8 * (n / 8), a i = b i) (htail : n % 8 = 0) : s.memcmp.regs .rax =
      (s.afterQuads n).quad ((s.afterQuads n).regs .rdi - 8) -
        (s.afterQuads n).quad ((s.afterQuads n).regs .rsi - 8) := by
  have hzf : (s.afterQuads n).remainder.zf = true := by
    rw [Cpu.zf_remainder, h.rdx_remainder hn, htail]
    rfl
  rw [h.memcmp_eq hn, (h.passed_quads hn hsame).1, if_neg (by decide), if_pos hzf, Cpu.rax_err08]
  simp [Cpu.remainder, Cpu.quad]

/-- **No difference.** -/
theorem Placed.result_same (h : Placed s a b n) (hn : n < 2 ^ 32) (hpos : n ≠ 0)
    (hsame : ∀ i < n, a i = b i) : s.memcmp.result = 0 := by
  have hquads : ∀ i < 8 * (n / 8), a i = b i := fun i hi ↦ hsame i (by omega)
  by_cases htail : n % 8 = 0
  · -- `n` is not 0, so there is a last quadword that is subtracted
    obtain ⟨j, hj⟩ := Nat.exists_eq_add_one_of_ne_zero (by omega : n / 8 ≠ 0)
    have hpassed := (h.passed_quads hn hquads).2
    have heq : leValue a (8 * j) 8 = leValue b (8 * j) 8 :=
      leValue_eq_iff.mpr fun i hi ↦ hsame (8 * j + i) (by omega)
    rw [hj] at hpassed
    obtain ⟨hleft, hright⟩ := h.quads_before hpassed (by omega)
    have hrax : s.memcmp.regs .rax = BitVec.ofNat 64 (leValue a (8 * j) 8) -
        BitVec.ofNat 64 (leValue a (8 * j) 8) := by
      rw [h.rax_of_no_tail hn hquads htail, hleft, hright, heq]
    rw [result_of_rax hrax, sub_self]
    rfl
  · have hholds := h.holds_tail hn hquads
    have hequal : ∀ i < n % 8, (s.atTail n).Same 1 i := fun i hi ↦
      (hholds.same_iff (by omega)).mpr fun k hk ↦ hsame (8 * (n / 8) + (1 * i + k)) (by omega)
    obtain ⟨-, hpassed⟩ := Cpu.repeCmps_of_forall hequal fun h ↦ absurd h htail
    obtain ⟨j, hj⟩ := Nat.exists_eq_add_one_of_ne_zero htail
    rw [hj] at hpassed hholds
    have hrax : s.memcmp.regs .rax = (0 : Byte).setWidth 64 := by
      rw [h.memcmp_tail hn hquads htail, hj,
        hholds.rax_end1 hpassed (Cpu.mem_repeCmps _ _ _) (Nat.lt_succ_self j),
        hsame _ (by omega), BitVec.sub_self]
      rfl
    exact result_of_byte hrax

/-! ## The order of buffers -/

/-- Zero for equal buffers, and else with the sign of the first difference, of which the bytes are
unsigned. -/
structure Orders (r : ℤ) (a b : ℕ → Byte) (n : ℕ) : Prop where
  zero : r = 0 ↔ ∀ i < n, a i = b i
  pos : ∀ p < n, (∀ i < p, a i = b i) → b p < a p → 0 < r
  neg : ∀ p < n, (∀ i < p, a i = b i) → a p < b p → r < 0

/-- The result depends on the two buffers only, and is their order. -/
def MemcmpOrders (a b : ℕ → Byte) (n : ℕ) : Prop :=
  ∃ r, (∀ s, Placed s a b n → s.memcmp.result = r) ∧ Orders r a b n

/-- At the first difference: within a quadword, the dwords at its beginning have a difference that,
as an `int`, is not on the wrong side of zero; in the tail the byte of `a` is the greater one. -/
def OrderedAt (a b : ℕ → Byte) (n p : ℕ) : Prop :=
  let x := leValue a (8 * (p / 8)) 4
  let y := leValue b (8 * (p / 8)) 4
  if 8 * (n / 8) ≤ p then b p < a p
  else if b p < a p then y < x ∧ x < y + 2 ^ 31 ∨ x + 2 ^ 31 < y
  else x < y ∧ y ≤ x + 2 ^ 31 ∨ y + 2 ^ 31 ≤ x

theorem wrap_sub_pos_iff {x y : ℕ} (hx : x < 2 ^ 32) (hy : y < 2 ^ 32) :
    0 < wrap ((x : ℤ) - y) ↔ y < x ∧ x < y + 2 ^ 31 ∨ x + 2 ^ 31 < y := by
  rw [wrap]
  omega

theorem wrap_sub_neg_iff {x y : ℕ} (hx : x < 2 ^ 32) (hy : y < 2 ^ 32) :
    wrap ((x : ℤ) - y) < 0 ↔ x < y ∧ y ≤ x + 2 ^ 31 ∨ y + 2 ^ 31 ≤ x := by
  rw [wrap]
  omega

/-- The result at the first difference. -/
def resultAt (a b : ℕ → Byte) (n p : ℕ) : ℤ :=
  if 8 * (n / 8) ≤ p then (a p - b p).toNat
  else wrap (leValue a (8 * (p / 8)) 4 - leValue b (8 * (p / 8)) 4)

theorem Placed.result_eq (h : Placed s a b n) (hn : n < 2 ^ 32) (hpn : p < n)
    (hfirst : ∀ i < p, a i = b i) (hne : a p ≠ b p) : s.memcmp.result = resultAt a b n p := by
  rw [resultAt]
  split
  next htail => exact h.result_tail hn htail hpn hfirst hne
  next hquad => exact h.result_quad hn (not_le.mp hquad) hfirst hne

theorem orderedAt_iff (hne : a p ≠ b p) : OrderedAt a b n p ↔
    (b p < a p → 0 < resultAt a b n p) ∧ (a p < b p → resultAt a b n p < 0) := by
  have hx := leValue_lt a (8 * (p / 8)) 4
  have hy := leValue_lt b (8 * (p / 8)) 4
  have hbytes : b p < a p ↔ ¬a p < b p := by bv_omega
  rw [OrderedAt, resultAt]
  split
  · -- the difference of two bytes is never negative
    have hpos : 0 < (a p - b p).toNat := by bv_omega
    constructor
    · exact fun hgt ↦ ⟨fun _ ↦ by omega, fun hlt ↦ absurd hlt (hbytes.mp hgt)⟩
    · rintro ⟨-, hneg⟩
      refine hbytes.mpr fun hlt ↦ ?_
      have hresult := hneg hlt
      omega
  · rw [wrap_sub_pos_iff hx hy, wrap_sub_neg_iff hx hy]
    by_cases hgt : b p < a p
    · rw [if_pos hgt, and_iff_left fun hlt ↦ absurd hlt (hbytes.mp hgt)]
      exact ⟨fun h _ ↦ h, fun h ↦ h hgt⟩
    · have hlt : a p < b p := not_not.mp (hbytes.not.mp hgt)
      rw [if_neg hgt, and_iff_right fun h ↦ absurd h hgt]
      exact ⟨fun h _ ↦ h, fun h ↦ h hlt⟩

/-- Only the first difference counts. -/
theorem orders_iff {r : ℤ} (hpn : p < n) (hfirst : ∀ i < p, a i = b i) (hne : a p ≠ b p) :
    Orders r a b n ↔ (b p < a p → 0 < r) ∧ (a p < b p → r < 0) := by
  constructor
  · exact fun h ↦ ⟨h.pos p hpn hfirst, h.neg p hpn hfirst⟩
  · rintro ⟨hpos, hneg⟩
    have hdiff : ∀ q < n, (∀ i < q, a i = b i) → a q ≠ b q → q = p := by
      intro q _ hq hqne
      rcases lt_trichotomy q p with hlt | heq | hgt
      · exact absurd (hfirst q hlt) hqne
      · exact heq
      · exact absurd (hq p hgt) hne
    refine ⟨?_, fun q hq hsame hlt ↦ ?_, fun q hq hsame hlt ↦ ?_⟩
    · refine iff_of_false ?_ fun h ↦ hne (h p hpn)
      by_cases hlt : a p < b p
      · exact (hneg hlt).ne
      · exact (hpos (by bv_omega)).ne'
    · obtain rfl := hdiff q hq hsame (BitVec.ne_of_lt hlt).symm
      exact hpos hlt
    · obtain rfl := hdiff q hq hsame (BitVec.ne_of_lt hlt)
      exact hneg hlt

theorem same_or_first (a b : ℕ → Byte) (n : ℕ) :
    (∀ i < n, a i = b i) ∨ ∃ p < n, (∀ i < p, a i = b i) ∧ a p ≠ b p := by
  induction n with
  | zero => exact .inl fun i hi ↦ absurd hi (Nat.not_lt_zero i)
  | succ n ih =>
    rcases ih with hsame | ⟨p, hp, hfirst, hne⟩
    · by_cases heq : a n = b n
      · exact .inl (Nat.forall_lt_succ_right.mpr ⟨hsame, heq⟩)
      · exact .inr ⟨n, Nat.lt_succ_self n, hsame, heq⟩
    · exact .inr ⟨p, Nat.lt_succ_of_lt hp, hfirst, hne⟩

/-! ### Machines -/

/-- The buffers at `2 ^ 33` and `2 ^ 34`, and the stack far above. -/
def cpuAt (a b : ℕ → Byte) (n : ℕ) : Cpu where
  regs
    | .rdi => BitVec.ofNat 64 (2 ^ 33)
    | .rsi => BitVec.ofNat 64 (2 ^ 34)
    | .rsp => BitVec.ofNat 64 (2 ^ 35)
    | .rdx => BitVec.ofNat 64 n
    | _ => 0
  zf := false
  mem x := if x.toNat < 2 ^ 34 then a (x.toNat - 2 ^ 33) else b (x.toNat - 2 ^ 34)

theorem placed_cpuAt (a b : ℕ → Byte) (hn : n < 2 ^ 32) : Placed (cpuAt a b n) a b n := by
  have haddr : ∀ x : BitVec 64, x.toNat ≤ 2 ^ 34 → ∀ i < n,
      (x + BitVec.ofNat 64 i).toNat = x.toNat + i := by
    intro x hx i hi
    rw [BitVec.toNat_add, BitVec.toNat_ofNat]
    omega
  refine { left := fun i hi ↦ ?_, right := fun i hi ↦ ?_, rdx := rfl, leftApart := ?_,
           rightApart := ?_ }
  · have hleft : ((cpuAt a b n).regs .rdi + BitVec.ofNat 64 i).toNat = 2 ^ 33 + i :=
      haddr (BitVec.ofNat 64 (2 ^ 33)) (by decide) i hi
    rw [cpuAt] at hleft ⊢
    simp only [hleft]
    rw [if_pos (by omega), Nat.add_sub_cancel_left]
  · have hright : ((cpuAt a b n).regs .rsi + BitVec.ofNat 64 i).toNat = 2 ^ 34 + i :=
      haddr (BitVec.ofNat 64 (2 ^ 34)) (by decide) i hi
    rw [cpuAt] at hright ⊢
    simp only [hright]
    rw [if_neg (by omega), Nat.add_sub_cancel_left]
  · have hstack : ((cpuAt a b n).regs .rsp - 32).toNat = 2 ^ 35 - 32 :=
      (by decide : (BitVec.ofNat 64 (2 ^ 35) - 32).toNat = 2 ^ 35 - 32)
    have hrdi : ((cpuAt a b n).regs .rdi).toNat = 2 ^ 33 := rfl
    exact apart_of_le (by omega) (by omega) (.inl (by omega))
  · have hstack : ((cpuAt a b n).regs .rsp - 32).toNat = 2 ^ 35 - 32 :=
      (by decide : (BitVec.ofNat 64 (2 ^ 35) - 32).toNat = 2 ^ 35 - 32)
    have hrsi : ((cpuAt a b n).regs .rsi).toNat = 2 ^ 34 := rfl
    exact apart_of_le (by omega) (by omega) (.inl (by omega))

/-- The byte `v` before the first buffer, and zeros. -/
def byteBefore (v : Byte) : Cpu :=
  { cpuAt (fun _ ↦ 0) (fun _ ↦ 0) 0 with
    mem := fun x ↦ if x = BitVec.ofNat 64 (2 ^ 33 - 8) then v else 0 }

theorem placed_byteBefore (a b : ℕ → Byte) (v : Byte) : Placed (byteBefore v) a b 0 where
  left := fun i hi ↦ absurd hi (Nat.not_lt_zero i)
  right := fun i hi ↦ absurd hi (Nat.not_lt_zero i)
  rdx := rfl
  leftApart := fun i hi ↦ absurd hi (Nat.not_lt_zero i)
  rightApart := fun i hi ↦ absurd hi (Nat.not_lt_zero i)

theorem result_byteBefore_zero : (byteBefore 0).memcmp.result = 0 := by decide +kernel

/-- A byte outside the empty buffers is compared. -/
theorem result_byteBefore_one : (byteBefore 1).memcmp.result = 1 := by decide +kernel

/-- **`memcmp` is the order of buffers** exactly if they are not empty and the first difference, if
there is one, is one that the subtraction gets right. -/
theorem memcmpOrders_iff (hn : n < 2 ^ 32) : MemcmpOrders a b n ↔
    n ≠ 0 ∧ ∀ p < n, (∀ i < p, a i = b i) → a p ≠ b p → OrderedAt a b n p := by
  constructor
  · rintro ⟨r, hresult, horders⟩
    refine ⟨?_, fun p hp hfirst hne ↦ ?_⟩
    · -- two machines that hold the empty buffers have different results
      rintro rfl
      have hzero := hresult _ (placed_byteBefore a b 0)
      have hone := hresult _ (placed_byteBefore a b 1)
      rw [result_byteBefore_zero] at hzero
      rw [result_byteBefore_one, ← hzero] at hone
      exact absurd hone one_ne_zero
    · have hplaced := placed_cpuAt a b hn
      rw [orderedAt_iff hne, ← orders_iff hp hfirst hne, ← hplaced.result_eq hn hp hfirst hne,
        hresult _ hplaced]
      exact horders
  · rintro ⟨hpos, hordered⟩
    rcases same_or_first a b n with hsame | ⟨p, hp, hfirst, hne⟩
    · refine ⟨0, fun s hs ↦ hs.result_same hn hpos hsame, iff_of_true rfl hsame,
        fun p hp _ hlt ↦ ?_, fun p hp _ hlt ↦ ?_⟩
      · exact absurd (hsame p hp).symm (BitVec.ne_of_lt hlt)
      · exact absurd (hsame p hp) (BitVec.ne_of_lt hlt)
    · refine ⟨resultAt a b n p, fun s hs ↦ hs.result_eq hn hp hfirst hne, ?_⟩
      rw [orders_iff hp hfirst hne, ← orderedAt_iff hne]
      exact hordered p hp hfirst hne

/-- The bytes `2` and `1`. -/
theorem memcmpOrders_iff_byte : MemcmpOrders (fun _ ↦ 2) (fun _ ↦ 1) 1 := by
  refine (memcmpOrders_iff (by decide)).mpr ⟨by decide, fun p hp _ _ ↦ ?_⟩
  rw [OrderedAt, if_pos (by omega)]
  decide

/-- The bytes `1` and `2` are compared as if the first one were the greater. -/
theorem not_memcmpOrders_byte : ¬MemcmpOrders (fun _ ↦ 1) (fun _ ↦ 2) 1 := by
  rintro ⟨r, hresult, horders⟩
  have hneg : r < 0 := horders.neg 0 (by decide) (fun i hi ↦ absurd hi (Nat.not_lt_zero i))
    (by decide)
  have hplaced : Placed (cpuAt (fun _ ↦ 1) (fun _ ↦ 2) 1) _ _ 1 := placed_cpuAt _ _ (by decide)
  have heq : (cpuAt (fun _ ↦ 1) (fun _ ↦ 2) 1).memcmp.result
      = resultAt (fun _ ↦ 1) (fun _ ↦ 2) 1 0 :=
    hplaced.result_eq (by decide) Nat.one_pos (fun i hi ↦ absurd hi (Nat.not_lt_zero i)) (by decide)
  have hvalue : resultAt (fun _ ↦ 1) (fun _ ↦ 2) 1 0 = 255 := by decide
  rw [hresult _ hplaced, hvalue] at heq
  omega

end Buffers

end VimOS
