import VimOS.Stdlib.Vsprintf

/-!
# Strings

`strcmp`, `strlen` and `strncpy` of `stdlib/`. A `size_t` has 32 bits (`include/stdlib/stddef.h`),
so an index comes round behind `2 ^ 32` characters, and a `char` is signed.

`strcmp` is compared with the lexicographic order of lists of bytes. `strncpy` is compared with the
two loops that it replaced, in what it stores and in what it reads of the source; for the reads
the source is memory that goes on behind the NUL.
-/

namespace VimOS

/-! ## The code -/

/-- `i + 1` for a `size_t`. -/
def sizeSucc (i : ℕ) : ℕ := (i + 1) % 2 ^ 32

/-- `strcmp`, from index `i` on. -/
def strcmpFrom (s1 s2 : List Byte) : ℕ → ℕ → Except Fault ℤ
  | 0, _ => .error .fuel
  | fuel + 1, i => do
    let a ← fetch s1 i
    let b ← fetch s2 i
    if a = b ∧ a ≠ 0 then strcmpFrom s1 s2 fuel (sizeSucc i) else pure (a.toInt - b.toInt)

def strcmp (fuel : ℕ) (s1 s2 : List Byte) : Except Fault ℤ := strcmpFrom s1 s2 fuel 0

/-- The destination, and the indices of the source that have been read. -/
structure Copying where
  dst : ℕ → Byte
  reads : List ℕ

/-- The source is read at index `i`. -/
def Copying.read (c : Copying) (i : ℕ) : Copying := { c with reads := c.reads ++ [i] }

/-- `s1[i] = v`. -/
def Copying.write (c : Copying) (i : ℕ) (v : Byte) : Copying :=
  { c with dst := Function.update c.dst i v }

/-- `s1[i] = '\0'` for `n` indices from `i` on. -/
def Copying.fill (c : Copying) (i : ℕ) : ℕ → Copying
  | 0 => c
  | n + 1 => (c.write i 0).fill (i + 1) n

/-- `memcpy` of the first `n` bytes. -/
def Copying.memcpy (c : Copying) (src : ℕ → Byte) : ℕ → Copying
  | 0 => c
  | n + 1 => ((Copying.memcpy c src n).read n).write n (src n)

/-- `strlen`, from index `i` on, with the indices that are read. -/
def strlenFrom (s : ℕ → Byte) : ℕ → ℕ → Except Fault (ℕ × List ℕ)
  | 0, _ => .error .fuel
  | fuel + 1, i =>
    if s i ≠ 0 then do
      let (len, reads) ← strlenFrom s fuel (sizeSucc i)
      pure (len, i :: reads)
    else pure ((sizeSucc i + 2 ^ 32 - 1) % 2 ^ 32, [i])

/-- `strncpy`. -/
def strncpy (fuel : ℕ) (dst src : ℕ → Byte) (n : ℕ) : Except Fault Copying := do
  let c := Copying.memcpy ⟨dst, []⟩ src n
  let (len, reads) ← strlenFrom src fuel 0
  pure (Copying.fill { c with reads := c.reads ++ reads } len (n - len))

/-- The first of the loops that were replaced, with `n` indices left from `i` on: where it stops,
and what it leaves. -/
def firstLoop (src : ℕ → Byte) : ℕ → ℕ → Copying → ℕ × Copying
  | 0, i, c => (i, c)
  | n + 1, i, c =>
    let c := c.read i
    if src i ≠ 0 then firstLoop src n (i + 1) ((c.read i).write i (src i)) else (i, c)

/-- `strncpy` as it was. -/
def strncpyLoops (dst src : ℕ → Byte) (n : ℕ) : Copying :=
  let (i, c) := firstLoop src n 0 ⟨dst, []⟩
  c.fill i (n - i)

/-! ## Where two strings part -/

/-- The number of characters that two strings begin with in common. -/
def agree : List Byte → List Byte → ℕ
  | a :: s, b :: t => if a = b then agree s t + 1 else 0
  | _, _ => 0

/-- The character behind them, of the first string. -/
def parting (s t : List Byte) : Byte := peek (s.drop (agree s t))

section Order

variable {s t u v : List Byte} {fuel i : ℕ}

theorem agree_comm (s t : List Byte) : agree s t = agree t s := by
  induction s generalizing t with
  | nil => cases t <;> rfl
  | cons a s ih =>
    cases t with
    | nil => rfl
    | cons b t =>
      rw [agree, agree, ih]
      simp only [eq_comm]

@[simp] theorem parting_cons_self (a : Byte) (s t : List Byte) :
    parting (a :: s) (a :: t) = parting s t := by
  rw [parting, agree, if_pos rfl, List.drop_succ_cons, parting]

theorem parting_of_ne {a b : Byte} (h : a ≠ b) : parting (a :: s) (b :: t) = a := by
  rw [parting, agree, if_neg h, List.drop_zero, peek_cons]

@[simp] theorem parting_nil (t : List Byte) : parting [] t = 0 := by
  rw [parting, List.drop_nil]
  rfl

@[simp] theorem parting_cons_nil (a : Byte) (s : List Byte) : parting (a :: s) [] = a := rfl

/-- The order of two strings is that of the characters at which they part. -/
theorem lt_iff_parting (hs : 0 ∉ s) (ht : 0 ∉ t) : s < t ↔ parting s t < parting t s := by
  induction s generalizing t with
  | nil =>
    cases t with
    | nil => simp
    | cons b t =>
      have hb : (0 : Byte) < b := by
        have hne : b ≠ 0 := fun h ↦ ht (h ▸ List.mem_cons_self)
        bv_omega
      simpa using hb
  | cons a s ih =>
    cases t with
    | nil => simp
    | cons b t =>
      rw [List.cons_lt_cons_iff]
      by_cases hab : a = b
      · subst hab
        simp only [parting_cons_self, BitVec.lt_irrefl, true_and, false_or]
        exact ih (List.not_mem_of_not_mem_cons hs) (List.not_mem_of_not_mem_cons ht)
      · rw [parting_of_ne hab, parting_of_ne (Ne.symm hab)]
        simp only [hab, false_and, or_false]

theorem eq_iff_parting (hs : 0 ∉ s) (ht : 0 ∉ t) : s = t ↔ parting s t = parting t s := by
  induction s generalizing t with
  | nil =>
    cases t with
    | nil => simp
    | cons b t =>
      have hb : b ≠ 0 := fun h ↦ ht (h ▸ List.mem_cons_self)
      simpa using hb.symm
  | cons a s ih =>
    have ha : a ≠ 0 := fun h ↦ hs (h ▸ List.mem_cons_self)
    cases t with
    | nil => simpa using ha
    | cons b t =>
      rw [List.cons_eq_cons]
      by_cases hab : a = b
      · subst hab
        simp only [parting_cons_self, true_and]
        exact ih (List.not_mem_of_not_mem_cons hs) (List.not_mem_of_not_mem_cons ht)
      · rw [parting_of_ne hab, parting_of_ne (Ne.symm hab)]
        simp only [hab, false_and]

/-- Up to where they part, both strings go on. -/
theorem fetch_of_lt_agree (hs : 0 ∉ s) (hi : i < agree s t) :
    ∃ c, c ≠ 0 ∧ fetch s i = .ok c ∧ fetch t i = .ok c := by
  induction s generalizing t i with
  | nil => exact absurd hi (Nat.not_lt_zero i)
  | cons a s ih =>
    cases t with
    | nil => exact absurd hi (Nat.not_lt_zero i)
    | cons b t =>
      rw [agree] at hi
      split at hi
      next hab =>
        subst hab
        cases i with
        | zero => exact ⟨a, fun h ↦ hs (h ▸ List.mem_cons_self), rfl, rfl⟩
        | succ i => exact ih (List.not_mem_of_not_mem_cons hs) (Nat.lt_of_succ_lt_succ hi)
      next => exact absurd hi (Nat.not_lt_zero i)

theorem agree_le_length (s t : List Byte) : agree s t ≤ s.length := by
  induction s generalizing t with
  | nil => exact Nat.zero_le _
  | cons a s ih =>
    cases t with
    | nil => exact Nat.zero_le _
    | cons b t =>
      rw [agree]
      split
      · exact Nat.succ_le_succ (ih t)
      · exact Nat.zero_le _

theorem fetch_agree (s t : List Byte) : fetch s (agree s t) = .ok (parting s t) :=
  At.fetch ⟨agree_le_length s t, rfl⟩

/-- There the loop ends. -/
theorem parting_ne_or (ht : 0 ∉ t) : ¬(parting s t = parting t s ∧ parting s t ≠ 0) := by
  induction s generalizing t with
  | nil => simp
  | cons a s ih =>
    cases t with
    | nil => simp
    | cons b t =>
      by_cases hab : a = b
      · subst hab
        simp only [parting_cons_self]
        exact ih (List.not_mem_of_not_mem_cons ht)
      · rw [parting_of_ne hab, parting_of_ne (Ne.symm hab)]
        exact fun h ↦ hab h.1

/-! ### The comparison -/

theorem strcmpFrom_of_agree (hs : 0 ∉ s) (ht : 0 ∉ t) (hagree : agree s t < 2 ^ 32) {k : ℕ}
    (hi : i + k = agree s t) (hfuel : k < fuel) :
    strcmpFrom s t fuel i = .ok ((parting s t).toInt - (parting t s).toInt) := by
  induction k generalizing i fuel with
  | zero =>
    obtain ⟨fuel, rfl⟩ := Nat.exists_eq_add_one_of_ne_zero hfuel.ne'
    have hpart := fetch_agree t s
    rw [agree_comm] at hpart
    rw [Nat.add_zero] at hi
    rw [strcmpFrom, hi, fetch_agree, ok_bind, hpart, ok_bind, if_neg (parting_ne_or ht)]
    rfl
  | succ k ih =>
    obtain ⟨fuel, rfl⟩ := Nat.exists_eq_add_one_of_ne_zero (Nat.ne_zero_of_lt hfuel)
    obtain ⟨c, hc, hleft, hright⟩ := fetch_of_lt_agree hs (by omega : i < agree s t)
    have hsucc : sizeSucc i = i + 1 := Nat.mod_eq_of_lt (by omega)
    rw [strcmpFrom, hleft, ok_bind, hright, ok_bind, if_pos ⟨rfl, hc⟩, hsucc]
    exact ih (by omega) (by omega)

/-- The index comes round before the strings part. -/
theorem strcmpFrom_of_le (hs : 0 ∉ s) (hagree : 2 ^ 32 ≤ agree s t) (hi : i < 2 ^ 32) (fuel : ℕ) :
    strcmpFrom s t fuel i = .error .fuel := by
  induction fuel generalizing i with
  | zero => rfl
  | succ fuel ih =>
    obtain ⟨c, hc, hleft, hright⟩ := fetch_of_lt_agree hs (by omega : i < agree s t)
    rw [strcmpFrom, hleft, ok_bind, hright, ok_bind, if_pos ⟨rfl, hc⟩]
    exact ih (Nat.mod_lt _ (by norm_num))

/-- Zero for equal strings, and else with the sign of their lexicographic order, of which the
bytes are unsigned. -/
structure Compares (r : ℤ) (s t : List Byte) : Prop where
  zero : r = 0 ↔ s = t
  neg : r < 0 ↔ s < t
  pos : 0 < r ↔ t < s

/-- `strcmp` returns, and the result is the order of the strings. -/
def StrcmpCompares (s t : List Byte) : Prop :=
  ∃ n r, (∀ fuel, n ≤ fuel → strcmp fuel s t = .ok r) ∧ Compares r s t

theorem toInt_sub_neg_iff {a b : Byte} (h : a ≠ b) :
    (a.toInt - b.toInt < 0 ↔ a < b) ↔ a.msb = b.msb := by
  have ha := a.isLt
  have hb := b.isLt
  have hne : a.toNat ≠ b.toNat := fun heq ↦ h (BitVec.eq_of_toNat_eq heq)
  rw [BitVec.toInt_eq_msb_cond, BitVec.toInt_eq_msb_cond, BitVec.lt_def, BitVec.msb_eq_decide,
    BitVec.msb_eq_decide]
  by_cases hma : 2 ^ (8 - 1) ≤ a.toNat <;> by_cases hmb : 2 ^ (8 - 1) ≤ b.toNat <;>
  · simp only [hma, hmb, decide_true, decide_false, if_true, if_false, Bool.false_eq_true,
      reduceCtorEq, iff_true, iff_false]
    omega

/-- The difference of two characters as signed numbers has the sign of their order exactly if
both have the highest bit, or neither. -/
theorem compares_iff (hs : 0 ∉ s) (ht : 0 ∉ t) :
    Compares ((parting s t).toInt - (parting t s).toInt) s t ↔
      (parting s t).msb = (parting t s).msb := by
  by_cases heq : parting s t = parting t s
  · rw [heq]
    refine iff_of_true ⟨?_, ?_, ?_⟩ rfl
    · rw [eq_iff_parting hs ht, heq, sub_self]
      exact iff_of_true rfl rfl
    · rw [lt_iff_parting hs ht, heq, sub_self]
      exact iff_of_false (lt_irrefl 0) (BitVec.lt_irrefl _)
    · rw [lt_iff_parting ht hs, heq, sub_self]
      exact iff_of_false (lt_irrefl 0) (BitVec.lt_irrefl _)
  · have hne : (parting s t).toInt ≠ (parting t s).toInt := fun h ↦ heq (BitVec.toInt_inj.mp h)
    constructor
    · intro h
      rw [← toInt_sub_neg_iff heq, h.neg, lt_iff_parting hs ht]
    · intro hmsb
      have hneg := (toInt_sub_neg_iff heq).mpr hmsb
      have hpos := (toInt_sub_neg_iff (Ne.symm heq)).mpr hmsb.symm
      refine ⟨?_, ?_, ?_⟩
      · rw [eq_iff_parting hs ht]
        exact iff_of_false (sub_ne_zero.mpr hne) heq
      · rw [lt_iff_parting hs ht]
        exact hneg
      · rw [lt_iff_parting ht hs, ← hpos]
        omega

/-- **`strcmp` is the order of strings** exactly if they part before index `2 ^ 32`, at characters
that are both ASCII or both not. -/
theorem strcmpCompares_iff (hs : 0 ∉ s) (ht : 0 ∉ t) : StrcmpCompares s t ↔
    agree s t < 2 ^ 32 ∧ (parting s t).msb = (parting t s).msb := by
  constructor
  · rintro ⟨n, r, hrun, hcompares⟩
    rcases lt_or_ge (agree s t) (2 ^ 32) with hagree | hagree
    · have hres := strcmpFrom_of_agree hs ht hagree (Nat.zero_add _)
        (by omega : agree s t < n + agree s t + 1)
      cases (hrun _ (by omega)).symm.trans hres
      exact ⟨hagree, (compares_iff hs ht).mp hcompares⟩
    · exact absurd ((hrun n le_rfl).symm.trans (strcmpFrom_of_le hs hagree (by norm_num) n))
        (by simp)
  · rintro ⟨hagree, hmsb⟩
    exact ⟨agree s t + 1, _, fun fuel hfuel ↦ strcmpFrom_of_agree hs ht hagree (Nat.zero_add _)
      hfuel, (compares_iff hs ht).mpr hmsb⟩

/-- `"ab"` before `"abc"`. -/
theorem strcmpCompares_iff_proper : StrcmpCompares [0x61, 0x62] [0x61, 0x62, 0x63] :=
  (strcmpCompares_iff (by decide) (by decide)).mpr (by decide)

/-- The empty string is compared as greater than a string that begins with the byte `0x80`. -/
theorem not_strcmpCompares : ¬StrcmpCompares [] [0x80] := by
  rintro ⟨n, r, hrun, hcompares⟩
  cases (hrun (n + 1) (Nat.le_succ n)).symm.trans (rfl : strcmp (n + 1) [] [0x80] = .ok 128)
  exact absurd (hcompares.neg.mpr (by decide)) (by decide)

end Order

/-! ## The copy -/

/-- The characters in memory end at index `len`. -/
structure IsString (src : ℕ → Byte) (len : ℕ) : Prop where
  nul : src len = 0
  ne_nul : ∀ i < len, src i ≠ 0

section Copy

variable {src dst : ℕ → Byte} {c : Copying} {n len i x fuel : ℕ}

@[simp] theorem dst_write (v : Byte) :
    (c.write i v).dst x = if x = i then v else c.dst x := Function.update_apply ..

@[simp] theorem reads_write (v : Byte) : (c.write i v).reads = c.reads := rfl

@[simp] theorem dst_read : (c.read i).dst = c.dst := rfl

@[simp] theorem reads_read : (c.read i).reads = c.reads ++ [i] := rfl

theorem dst_memcpy (c : Copying) (src : ℕ → Byte) (n x : ℕ) :
    (c.memcpy src n).dst x = if x < n then src x else c.dst x := by
  induction n with
  | zero => rfl
  | succ n ih =>
    rw [Copying.memcpy, dst_write, dst_read, ih]
    rcases lt_trichotomy x n with h | rfl | h
    · rw [if_neg h.ne, if_pos h, if_pos (Nat.lt_succ_of_lt h)]
    · rw [if_pos rfl, if_pos (Nat.lt_succ_self x)]
    · rw [if_neg h.ne', if_neg (Nat.not_lt_of_gt h), if_neg (Nat.not_lt_of_ge h)]

theorem reads_memcpy (c : Copying) (src : ℕ → Byte) (n : ℕ) :
    (c.memcpy src n).reads = c.reads ++ List.range n := by
  induction n with
  | zero => rw [Copying.memcpy, List.range_zero, List.append_nil]
  | succ n ih =>
    rw [Copying.memcpy, reads_write, reads_read, ih, List.append_assoc, List.range_succ]

theorem dst_fill (c : Copying) (i n x : ℕ) :
    (c.fill i n).dst x = if i ≤ x ∧ x < i + n then 0 else c.dst x := by
  induction n generalizing c i with
  | zero =>
    rw [Copying.fill, if_neg]
    omega
  | succ n ih =>
    rw [Copying.fill, ih, dst_write]
    rcases lt_trichotomy x i with h | rfl | h
    · rw [if_neg (by omega), if_neg h.ne, if_neg (by omega)]
    · rw [if_neg (by omega), if_pos rfl, if_pos (by omega)]
    · rw [if_neg h.ne']
      exact if_congr (by omega) rfl rfl

@[simp] theorem reads_fill (c : Copying) (i n : ℕ) : (c.fill i n).reads = c.reads := by
  induction n generalizing c i with
  | zero => rfl
  | succ n ih => rw [Copying.fill, ih, reads_write]

/-- `strlen` reads up to the NUL. -/
theorem strlenFrom_of_lt (h : IsString src len) (hlen : len < 2 ^ 32) {k : ℕ} (hi : i + k = len)
    (hfuel : k < fuel) : strlenFrom src fuel i = .ok (len, List.range' i (k + 1)) := by
  induction k generalizing i fuel with
  | zero =>
    obtain ⟨fuel, rfl⟩ := Nat.exists_eq_add_one_of_ne_zero hfuel.ne'
    have hnul : ¬src i ≠ 0 := by
      rw [← Nat.add_zero i, hi, not_not]
      exact h.nul
    -- the index has gone one further than the NUL
    have hback : (sizeSucc i + 2 ^ 32 - 1) % 2 ^ 32 = len := by
      rw [sizeSucc]
      omega
    rw [strlenFrom, if_neg hnul, hback]
    rfl
  | succ k ih =>
    obtain ⟨fuel, rfl⟩ := Nat.exists_eq_add_one_of_ne_zero (Nat.ne_zero_of_lt hfuel)
    have hsucc : sizeSucc i = i + 1 := Nat.mod_eq_of_lt (by omega)
    rw [strlenFrom, if_pos (h.ne_nul i (by omega)), hsucc, ih (by omega) (by omega), ok_bind]
    rfl

theorem strlenFrom_of_le (h : IsString src len) (hlen : 2 ^ 32 ≤ len) (hi : i < 2 ^ 32)
    (fuel : ℕ) : strlenFrom src fuel i = .error .fuel := by
  induction fuel generalizing i with
  | zero => rfl
  | succ fuel ih =>
    have hnext : sizeSucc i < 2 ^ 32 := Nat.mod_lt _ (by norm_num)
    rw [strlenFrom, if_pos (h.ne_nul i (by omega)), ih hnext]
    rfl

/-- The first loop that was replaced copies up to the NUL, and reads that too if it gets there. -/
theorem firstLoop_spec (h : IsString src len) (hi : i ≤ len) (n : ℕ) (c : Copying) :
    (firstLoop src n i c).1 = min (i + n) len ∧
      (∀ x, (firstLoop src n i c).2.dst x =
        if i ≤ x ∧ x < min (i + n) len then src x else c.dst x) ∧
      ∀ x ∈ (firstLoop src n i c).2.reads, x ∈ c.reads ∨ x < i + n ∧ x ≤ len := by
  induction n generalizing i c with
  | zero =>
    refine ⟨by rw [firstLoop, Nat.add_zero, min_eq_left hi], fun x ↦ ?_, fun x hx ↦ .inl hx⟩
    rw [firstLoop, if_neg]
    omega
  | succ n ih =>
    rw [firstLoop]
    split
    next hne =>
      have hlt : i < len := lt_of_le_of_ne hi fun heq ↦ hne (heq ▸ h.nul)
      obtain ⟨hstop, hdst, hreads⟩ := ih (Nat.succ_le_of_lt hlt)
        (((c.read i).read i).write i (src i))
      have hsum : i + 1 + n = i + (n + 1) := by omega
      rw [hsum] at hstop hdst hreads
      refine ⟨hstop, fun x ↦ ?_, fun x hx ↦ ?_⟩
      · rw [hdst, dst_write, dst_read, dst_read]
        rcases lt_trichotomy x i with hx | rfl | hx
        · rw [if_neg (by omega), if_neg hx.ne, if_neg (by omega)]
        · rw [if_neg (by omega), if_pos rfl, if_pos (by omega)]
        · rw [if_neg hx.ne']
          exact if_congr (by omega) rfl rfl
      · rcases hreads x hx with hold | hnew
        · rw [reads_write, reads_read, reads_read, List.append_assoc, List.mem_append,
            List.mem_append, List.mem_singleton, or_self] at hold
          exact hold.imp_right fun heq ↦ by omega
        · exact .inr hnew
    next heq =>
      obtain rfl : i = len := by
        by_contra hne
        exact heq (h.ne_nul i (lt_of_le_of_ne hi hne))
      refine ⟨(min_eq_right (Nat.le_add_right _ _)).symm, fun x ↦ (if_neg (by omega)).symm,
        fun x hx ↦ ?_⟩
      have hmem : x ∈ c.reads ++ [i] := hx
      rw [List.mem_append, List.mem_singleton] at hmem
      exact hmem.imp_right fun heq ↦ by omega

/-- What `strncpy` is to store: the source before its NUL, at most `n` bytes, then NULs. -/
def padded (dst src : ℕ → Byte) (n len : ℕ) : ℕ → Byte := fun x ↦
  if x < n then if x < len then src x else 0 else dst x

theorem dst_strncpyLoops (h : IsString src len) (dst : ℕ → Byte) (n : ℕ) :
    (strncpyLoops dst src n).dst = padded dst src n len := by
  obtain ⟨hstop, hdst, -⟩ := firstLoop_spec h (Nat.zero_le len) n ⟨dst, []⟩
  funext x
  have hloops : strncpyLoops dst src n = (firstLoop src n 0 ⟨dst, []⟩).2.fill
    (firstLoop src n 0 ⟨dst, []⟩).1 (n - (firstLoop src n 0 ⟨dst, []⟩).1) := rfl
  rw [hloops, dst_fill, hdst, hstop, padded]
  split_ifs <;> first | rfl | omega

theorem reads_strncpyLoops (h : IsString src len) (dst : ℕ → Byte) (n : ℕ) :
    ∀ x ∈ (strncpyLoops dst src n).reads, x < n ∧ x ≤ len := by
  obtain ⟨-, -, hreads⟩ := firstLoop_spec h (Nat.zero_le len) n ⟨dst, []⟩
  have hloops : (strncpyLoops dst src n).reads = (firstLoop src n 0 ⟨dst, []⟩).2.reads :=
    reads_fill _ _ _
  rw [hloops]
  intro x hx
  have hbounds := (hreads x hx).resolve_left List.not_mem_nil
  rwa [Nat.zero_add] at hbounds

/-- The destination after the bulk copy and the NULs behind it is that of the loops, but `memcpy`
has read `n` bytes and `strlen` has gone to the NUL. -/
theorem strncpy_spec (h : IsString src len) (hlen : len < 2 ^ 32) (dst : ℕ → Byte) (n : ℕ) :
    ∃ c, (∀ fuel, len < fuel → strncpy fuel dst src n = .ok c) ∧ c.dst = padded dst src n len ∧
      ∀ x, x ∈ c.reads ↔ x < n ∨ x ≤ len := by
  refine ⟨Copying.fill ⟨(Copying.memcpy ⟨dst, []⟩ src n).dst,
    (Copying.memcpy ⟨dst, []⟩ src n).reads ++ List.range' 0 (len + 1)⟩ len (n - len),
    fun fuel hfuel ↦ ?_, ?_, fun x ↦ ?_⟩
  · rw [strncpy, strlenFrom_of_lt h hlen (Nat.zero_add len) hfuel, ok_bind]
    rfl
  · funext x
    rw [dst_fill, dst_memcpy, padded]
    split_ifs <;> first | rfl | omega
  · rw [reads_fill, reads_memcpy, List.nil_append, List.mem_append, List.mem_range,
      List.mem_range'_1]
    omega

/-- `strncpy` returns, and the destination is as the loops would leave it. -/
def StrncpyStores (dst src : ℕ → Byte) (n : ℕ) : Prop :=
  ∃ m c, (∀ fuel, m ≤ fuel → strncpy fuel dst src n = .ok c) ∧
    c.dst = (strncpyLoops dst src n).dst

/-- Besides, it reads the source only as they do, below index `n` and up to the NUL. -/
def StrncpyAgrees (dst src : ℕ → Byte) (n len : ℕ) : Prop :=
  ∃ m c, (∀ fuel, m ≤ fuel → strncpy fuel dst src n = .ok c) ∧
    c.dst = (strncpyLoops dst src n).dst ∧ ∀ x ∈ c.reads, x < n ∧ x ≤ len

theorem strncpy_of_le (h : IsString src len) (hlen : 2 ^ 32 ≤ len) (dst : ℕ → Byte)
    (n fuel : ℕ) : strncpy fuel dst src n = .error .fuel := by
  rw [strncpy, strlenFrom_of_le h hlen (by norm_num)]
  rfl

theorem strncpyStores_iff (h : IsString src len) (dst : ℕ → Byte) (n : ℕ) :
    StrncpyStores dst src n ↔ len < 2 ^ 32 := by
  constructor
  · rintro ⟨m, c, hrun, -⟩
    by_contra hlen
    exact absurd ((hrun m le_rfl).symm.trans (strncpy_of_le h (not_lt.mp hlen) dst n m)) (by simp)
  · intro hlen
    obtain ⟨c, hrun, hdst, -⟩ := strncpy_spec h hlen dst n
    exact ⟨len + 1, c, hrun, hdst.trans (dst_strncpyLoops h dst n).symm⟩

theorem strncpyAgrees_iff (h : IsString src len) (hn : n < 2 ^ 32) (dst : ℕ → Byte) :
    StrncpyAgrees dst src n len ↔ n = len + 1 := by
  constructor
  · rintro ⟨m, c, hrun, hdst, hreads⟩
    have hlen := (strncpyStores_iff h dst n).mp ⟨m, c, hrun, hdst⟩
    obtain ⟨c', hrun', -, hreads'⟩ := strncpy_spec h hlen dst n
    cases (hrun (m + len + 1) (by omega)).symm.trans (hrun' (m + len + 1) (by omega))
    -- `strlen` reads the NUL, and `memcpy` the last of the `n` bytes
    have hnul := hreads len ((hreads' len).mpr (.inr le_rfl))
    have hlast := hreads (n - 1) ((hreads' (n - 1)).mpr (.inl (by omega)))
    omega
  · rintro rfl
    obtain ⟨c, hrun, hdst, hreads⟩ := strncpy_spec h (by omega) dst (len + 1)
    refine ⟨len + 1, c, hrun, hdst.trans (dst_strncpyLoops h dst _).symm, fun x hx ↦ ?_⟩
    have hbounds := (hreads x).mp hx
    omega

/-- **The two versions of `strncpy`** store the same, and the loops read below `n` and up to the
NUL; `strncpy` does exactly if `n` is the size of the source with its NUL. -/
theorem strncpy_agrees_iff (h : IsString src len) (hn : n < 2 ^ 32) (dst : ℕ → Byte) :
    (StrncpyStores dst src n ↔ len < 2 ^ 32) ∧ (StrncpyAgrees dst src n len ↔ n = len + 1) ∧
      ∀ x ∈ (strncpyLoops dst src n).reads, x < n ∧ x ≤ len :=
  ⟨strncpyStores_iff h dst n, strncpyAgrees_iff h hn dst, reads_strncpyLoops h dst n⟩

/-- The string `"a"`. -/
def stringA : ℕ → Byte := fun i ↦ if i = 0 then 0x61 else 0

theorem isString_stringA : IsString stringA 1 where
  nul := rfl
  ne_nul := by decide

theorem strncpy_agrees_iff_stringA : StrncpyAgrees (fun _ ↦ 0) stringA 2 1 :=
  (strncpy_agrees_iff isString_stringA (by decide) _).2.1.mpr rfl

/-- Copied with `n = 3`, the byte behind the NUL of `"a"` is read. -/
theorem not_strncpyAgrees_stringA : ¬StrncpyAgrees (fun _ ↦ 0) stringA 3 1 := by
  rw [strncpyAgrees_iff isString_stringA (by decide)]
  decide

end Copy

end VimOS
