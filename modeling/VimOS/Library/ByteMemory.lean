import Mathlib.Tactic

/-!
# Memory by bytes

Memory with 64-bit addresses and a byte at each of them. A number of `n` bytes is stored with its
lowest byte first; addresses wrap at the end of the address space, so ranges are compared on the
circle.
-/

namespace ByteMemory

abbrev Bytes := BitVec 64 → BitVec 8

/-- The number whose `n` bytes lie at `a`. -/
def load (mem : Bytes) (a : BitVec 64) : ℕ → ℕ
  | 0 => 0
  | n + 1 => (mem a).toNat + 256 * load mem (a + 1) n

/-- Memory with the lowest `n` bytes of `v` stored at `a`. -/
def store (mem : Bytes) (a : BitVec 64) (n v : ℕ) : Bytes := fun x ↦
  if (x - a).toNat < n then BitVec.ofNat 8 (v / 256 ^ (x - a).toNat) else mem x

/-- `memcpy`: one byte after the other, in ascending order. -/
def memcpy (mem : Bytes) (dst src : BitVec 64) : ℕ → Bytes
  | 0 => mem
  | n + 1 => memcpy (Function.update mem dst (mem src)) (dst + 1) (src + 1) n

/-- `memset`. -/
def memset (mem : Bytes) (dst : BitVec 64) (v : BitVec 8) : ℕ → Bytes
  | 0 => mem
  | n + 1 => memset (Function.update mem dst v) (dst + 1) v n

/-- The `n` bytes at `a` and the `m` bytes at `b` have no byte in common. -/
def Apart (a : BitVec 64) (n : ℕ) (b : BitVec 64) (m : ℕ) : Prop :=
  ∀ k < n, m ≤ (a + BitVec.ofNat 64 k - b).toNat

variable {mem mem' : Bytes} {a b : BitVec 64} {n m v : ℕ}

/-- Ranges that do not wrap are apart when one ends below the other. -/
theorem apart_of_le (ha : a.toNat + n ≤ 2 ^ 64) (hb : b.toNat + m ≤ 2 ^ 64)
    (h : a.toNat + n ≤ b.toNat ∨ b.toNat + m ≤ a.toNat) : Apart a n b m := by
  intro k hk
  have hk64 : (BitVec.ofNat 64 k).toNat = k := by
    rw [BitVec.toNat_ofNat]
    omega
  have hsum : (a + BitVec.ofNat 64 k).toNat = a.toNat + k := by
    rw [BitVec.toNat_add, hk64]
    omega
  rw [BitVec.toNat_sub, hsum]
  omega

theorem Apart.symm (h : Apart a n b m) : Apart b m a n := by
  intro j hj
  by_contra hlt
  have hfar := h (b + BitVec.ofNat 64 j - a).toNat (by omega)
  have heq : a + BitVec.ofNat 64 (b + BitVec.ofNat 64 j - a).toNat - b = BitVec.ofNat 64 j := by
    rw [BitVec.ofNat_toNat, BitVec.setWidth_eq]
    bv_omega
  rw [heq, BitVec.toNat_ofNat] at hfar
  have hle := Nat.mod_le j (2 ^ 64)
  omega

theorem Apart.ne (h : Apart a n b m) (hn : 0 < n) (hm : 0 < m) : a ≠ b := by
  rintro rfl
  have hfar := h 0 hn
  rw [BitVec.add_zero, BitVec.sub_self] at hfar
  exact absurd hfar (Nat.not_le.mpr hm)

/-- Parts of ranges that are apart are apart. -/
theorem Apart.part {i j u v : ℕ} (h : Apart a n b m) (hi : i + u ≤ n) (hj : j + v ≤ m) :
    Apart (a + BitVec.ofNat 64 i) u (b + BitVec.ofNat 64 j) v := by
  intro k hk
  have hfar := h (i + k) (by omega)
  have hlt := (a + BitVec.ofNat 64 (i + k) - b).isLt
  have hj64 : (BitVec.ofNat 64 j).toNat = j := by
    rw [BitVec.toNat_ofNat]
    omega
  have heq : a + BitVec.ofNat 64 i + BitVec.ofNat 64 k - (b + BitVec.ofNat 64 j) =
      a + BitVec.ofNat 64 (i + k) - b - BitVec.ofNat 64 j := by
    rw [BitVec.ofNat_add]
    bv_omega
  rw [heq, BitVec.toNat_sub, hj64]
  omega

/-- Apartness does not see a translation of both ranges. -/
theorem Apart.add_left (h : Apart a n b m) (c : BitVec 64) : Apart (c + a) n (c + b) m := by
  intro k hk
  have heq : c + a + BitVec.ofNat 64 k - (c + b) = a + BitVec.ofNat 64 k - b := by
    bv_omega
  rw [heq]
  exact h k hk

theorem add_one_add (a : BitVec 64) (k : ℕ) :
    a + 1 + BitVec.ofNat 64 k = a + BitVec.ofNat 64 (k + 1) := by
  rw [BitVec.add_assoc, BitVec.add_comm 1, BitVec.ofNat_add]
  rfl

/-- A number is known by its bytes. -/
theorem load_ext (h : ∀ k < n, mem (a + BitVec.ofNat 64 k) = mem' (b + BitVec.ofNat 64 k)) :
    load mem a n = load mem' b n := by
  induction n generalizing a b with
  | zero => rfl
  | succ n ih =>
    have hfirst := h 0 (Nat.succ_pos n)
    rw [BitVec.add_zero, BitVec.add_zero] at hfirst
    rw [load, load, hfirst, ih fun k hk ↦ ?_]
    rw [add_one_add, add_one_add]
    exact h (k + 1) (Nat.succ_lt_succ hk)

theorem load_congr (h : ∀ k < n, mem (a + BitVec.ofNat 64 k) = mem' (a + BitVec.ofNat 64 k)) :
    load mem a n = load mem' a n := load_ext h

/-- A number within bytes that are the same is the same. -/
theorem load_eq_of_same {o : ℕ}
    (h : ∀ k < n, mem (a + BitVec.ofNat 64 k) = mem' (a + BitVec.ofNat 64 k)) (ho : o + m ≤ n) :
    load mem (a + BitVec.ofNat 64 o) m = load mem' (a + BitVec.ofNat 64 o) m := by
  refine load_congr fun k hk ↦ ?_
  rw [BitVec.add_assoc, ← BitVec.ofNat_add]
  exact h (o + k) (by omega)

theorem store_apply_of_le {x : BitVec 64} (h : n ≤ (x - a).toNat) : store mem a n v x = mem x :=
  if_neg (Nat.not_lt.mpr h)

/-- **Frame.** A store leaves alone what lies apart from it. -/
theorem load_store_of_apart (h : Apart a n b m) : load (store mem b m v) a n = load mem a n :=
  load_congr fun k hk ↦ store_apply_of_le (h k hk)

theorem load_lt (mem : Bytes) (a : BitVec 64) (n : ℕ) : load mem a n < 256 ^ n := by
  induction n generalizing a with
  | zero => exact Nat.one_pos
  | succ n ih =>
    have hrest := ih (a + 1)
    have hbyte := (mem a).isLt
    rw [load, Nat.pow_succ]
    omega

theorem load_store_from {j : ℕ} (hn : n ≤ 2 ^ 64) (h : j + m ≤ n) :
    load (store mem a n v) (a + BitVec.ofNat 64 j) m = v / 256 ^ j % 256 ^ m := by
  induction m generalizing j with
  | zero => rw [load, Nat.pow_zero, Nat.mod_one]
  | succ m ih =>
    have hoff : (a + BitVec.ofNat 64 j - a).toNat = j := by
      rw [BitVec.add_comm, BitVec.add_sub_cancel, BitVec.toNat_ofNat, Nat.mod_eq_of_lt (by omega)]
    have hnext : a + BitVec.ofNat 64 j + 1 = a + BitVec.ofNat 64 (j + 1) := by
      rw [BitVec.add_assoc, BitVec.ofNat_add]
      rfl
    have hbyte : (store mem a n v (a + BitVec.ofNat 64 j)).toNat = v / 256 ^ j % 256 := by
      rw [store, hoff, if_pos (by omega), BitVec.toNat_ofNat]
    rw [load, hbyte, hnext, ih (by omega), Nat.pow_succ, ← Nat.div_div_eq_div_mul,
      Nat.pow_succ, Nat.mul_comm (256 ^ m), Nat.mod_mul]

/-- What was stored is loaded. -/
theorem load_store (hn : n ≤ 2 ^ 64) : load (store mem a n v) a n = v % 256 ^ n := by
  have h : load (store mem a n v) (a + BitVec.ofNat 64 0) n = v / 256 ^ 0 % 256 ^ n :=
    load_store_from hn (Nat.zero_add n).le
  rwa [BitVec.add_zero, Nat.pow_zero, Nat.div_one] at h

/-! ## Copying and filling -/

theorem toNat_sub_succ {x : BitVec 64} (hx : x ≠ a) :
    (x - a).toNat = (x - (a + 1)).toNat + 1 := by
  bv_omega

theorem toNat_self_sub_succ (a : BitVec 64) : (a - (a + 1)).toNat = 2 ^ 64 - 1 := by
  bv_omega

theorem memset_apply {v : BitVec 8} (hn : n < 2 ^ 64) (x : BitVec 64) :
    memset mem a v n x = if (x - a).toNat < n then v else mem x := by
  induction n generalizing mem a with
  | zero => rw [memset, if_neg (Nat.not_lt_zero _)]
  | succ n ih =>
    rw [memset, ih (by omega)]
    by_cases hx : x = a
    · have hfirst : (x - a).toNat < n + 1 := by
        rw [hx, BitVec.sub_self]
        exact Nat.succ_pos n
      rw [if_pos hfirst, hx, toNat_self_sub_succ, if_neg (by omega), Function.update_self]
    · rw [toNat_sub_succ hx, Function.update_of_ne hx]
      simp only [Nat.add_lt_add_iff_right]

/-- A copy to a range apart from its source copies what the source was. -/
theorem memcpy_apply (hn : n < 2 ^ 64) (h : Apart b n a n) (x : BitVec 64) :
    memcpy mem a b n x = if (x - a).toNat < n then mem (b + (x - a)) else mem x := by
  induction n generalizing mem a b with
  | zero => rw [memcpy, if_neg (Nat.not_lt_zero _)]
  | succ n ih =>
    have hrest : Apart (b + 1) n (a + 1) n := h.part (Nat.add_comm 1 n).le (Nat.add_comm 1 n).le
    rw [memcpy, ih (by omega) hrest]
    by_cases hx : x = a
    · have hfirst : (x - a).toNat < n + 1 := by
        rw [hx, BitVec.sub_self]
        exact Nat.succ_pos n
      rw [if_pos hfirst, hx, toNat_self_sub_succ, if_neg (by omega), Function.update_self,
        BitVec.sub_self, BitVec.add_zero]
    · by_cases hlt : (x - (a + 1)).toNat < n
      · have hsrc : b + 1 + (x - (a + 1)) = b + (x - a) := by
          bv_omega
        have hoff : (x - a).toNat < n + 1 := by
          rw [toNat_sub_succ hx]
          omega
        have hne : b + (x - a) ≠ a := by
          have hfar := h _ hoff
          rw [BitVec.ofNat_toNat, BitVec.setWidth_eq] at hfar
          intro heq
          rw [heq, BitVec.sub_self] at hfar
          exact absurd hfar (Nat.not_succ_le_zero n)
        rw [if_pos hlt, if_pos hoff, hsrc, Function.update_of_ne hne]
      · have hoff : ¬ (x - a).toNat < n + 1 := by
          rw [toNat_sub_succ hx]
          omega
        rw [if_neg hlt, if_neg hoff, Function.update_of_ne hx]

/-! ## Lists of bytes -/

/-- Memory with a list of bytes stored at `a`. -/
def storeList (mem : Bytes) (a : BitVec 64) (l : List (BitVec 8)) : Bytes := fun x ↦
  l.getD (x - a).toNat (mem x)

@[simp] theorem storeList_nil (mem : Bytes) (a : BitVec 64) : storeList mem a [] = mem := rfl

variable {l : List (BitVec 8)} {k : ℕ}

theorem storeList_getElem (hk : k < l.length) (h64 : k < 2 ^ 64) :
    storeList mem a l (a + BitVec.ofNat 64 k) = l[k] := by
  have hoff : (a + BitVec.ofNat 64 k - a).toNat = k := by
    rw [BitVec.add_comm, BitVec.add_sub_cancel, BitVec.toNat_ofNat, Nat.mod_eq_of_lt h64]
  rw [storeList, hoff, List.getD_eq_getElem?_getD, List.getElem?_eq_getElem hk, Option.getD_some]

/-- One more byte behind those stored. -/
theorem storeList_take_succ (hk : k < l.length) (h64 : k < 2 ^ 64) :
    Function.update (storeList mem a (l.take k)) (a + BitVec.ofNat 64 k) l[k] =
      storeList mem a (l.take (k + 1)) := by
  funext x
  rw [Function.update_apply, storeList, storeList, List.getD_eq_getElem?_getD,
    List.getD_eq_getElem?_getD, List.getElem?_take, List.getElem?_take]
  by_cases hx : x = a + BitVec.ofNat 64 k
  · have hoff : (x - a).toNat = k := by
      rw [hx, BitVec.add_comm, BitVec.add_sub_cancel, BitVec.toNat_ofNat, Nat.mod_eq_of_lt h64]
    rw [if_pos hx, hoff, if_pos (Nat.lt_succ_self k), List.getElem?_eq_getElem hk, Option.getD_some]
  · have hoff : (x - a).toNat ≠ k := by
      rintro rfl
      refine hx ?_
      rw [BitVec.ofNat_toNat, BitVec.setWidth_eq]
      bv_omega
    rw [if_neg hx]
    by_cases hlt : (x - a).toNat < k
    · rw [if_pos hlt, if_pos (Nat.lt_succ_of_lt hlt)]
    · rw [if_neg hlt, if_neg (by omega)]

end ByteMemory
