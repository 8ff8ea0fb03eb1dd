import VimOS.Library.Signed32
import VimOS.Paging.Address

/-!
# Integer conversions

`number` of `stdlib/vsprintf.c`: the text of an `unsigned long` with sign, prefix and padding. The
counters `size` and `precision` are `int`s that the loops decrement after each test, the last time
when the test has failed, so a later loop starts below the value an earlier one stopped at. The
layout is read off the loops once, in `number_eq`; the laws about lengths follow from it.
-/

namespace VimOS

open Signed32

/-! ## The code -/

/-- The flags `ZEROPAD` to `SMALL`, one field for each bit. -/
structure Flags where
  zeropad : Bool
  sign : Bool
  plus : Bool
  space : Bool
  left : Bool
  special : Bool
  small : Bool
  deriving DecidableEq

/-- `flags = 0`. -/
def Flags.none : Flags := ⟨false, false, false, false, false, false, false⟩

/-- `digits[i]`: the digits `0` to `9`, then the letters, lower case with `SMALL`. -/
def digitAt (small : Bool) (i : ℕ) : Byte :=
  if i < 10 then BitVec.ofNat 8 (48 + i) else BitVec.ofNat 8 ((if small then 97 else 65) + (i - 10))

/-- The loop that divides `num` and fills `tmp`, lowest digit first. -/
def fillTmp (small : Bool) (base num : ℕ) : List Byte :=
  if num = 0 ∨ base < 2 then [] else
    digitAt small (num % base) :: fillTmp small base (num / base)
termination_by num
decreasing_by exact Nat.div_lt_self (by omega) (by omega)

/-- The digits in `tmp` when the loop is left. -/
def tmpBytes (num : BitVec 64) (base : ℤ) (type : Flags) : List Byte :=
  if num = 0 then [0x30] else fillTmp type.small base.toNat num.toNat

/-- `while(lo < x--) *str++ = c;`: the bytes stored, and `x` when the loop is left. -/
def countdown (c : Byte) (lo x : ℤ) : List Byte × ℤ :=
  if lo < x then (c :: (countdown c lo (x - 1)).1, (countdown c lo (x - 1)).2)
  else ([], wrap (x - 1))
termination_by (x - lo).toNat

/-- The test for a negative number, made on an `unsigned long`. -/
def isNegative (num : BitVec 64) (type : Flags) : Bool := type.sign && decide (num < 0)

/-- The variable `sign`, `0` for none. -/
def signByte (num : BitVec 64) (type : Flags) : Byte :=
  if isNegative num type then 0x2d else if type.plus then 0x2b else if type.space then 0x20 else 0

/-- The characters that `SPECIAL` puts before the digits. -/
def specialBytes (base : ℤ) (type : Flags) : List Byte :=
  if type.special then
    if base = 8 then [0x30] else if base = 16 then [0x30, digitAt type.small 33] else []
  else []

/-- `static char *number(...)`: the bytes stored from `str` on, `none` for the null pointer. -/
def number (num : BitVec 64) (base size precision : ℤ) (type : Flags) : Option (List Byte) :=
  let zeropad := type.zeropad && !type.left
  if base < 2 ∨ 36 < base then none else
  let c : Byte := if zeropad then 0x30 else 0x20
  let sign := signByte num type
  let num := if isNegative num type then -num else num
  -- the sign takes a place of the field
  let size := if sign ≠ 0 then wrap (size - 1) else size
  let tmp := tmpBytes num base type
  let i : ℤ := tmp.length
  -- the precision is at least the number of digits
  let precision := if precision < i then i else precision
  let size := wrap (size - precision)
  let before := if !(zeropad || type.left) then countdown 0x20 0 size else ([], size)
  let between := if !type.left then countdown c 0 before.2 else ([], before.2)
  some (before.1 ++ (if sign ≠ 0 then [sign] else []) ++ specialBytes base type ++ between.1 ++
    (countdown 0x30 i precision).1 ++ tmp.reverse ++ (countdown 0x20 0 between.2).1)

/-! ## Loops in closed form -/

theorem countdown_eq (c : Byte) (lo x : ℤ) :
    countdown c lo x = (List.replicate (x - lo).toNat c, wrap (min x lo - 1)) := by
  induction x using countdown.induct lo with
  | case1 x hlt ih =>
    have hcount : (x - lo).toNat = (x - 1 - lo).toNat + 1 := by omega
    have hmin : min (x - 1) lo = min x lo := by omega
    rw [countdown, if_pos hlt, ih, hcount, hmin, List.replicate_succ]
  | case2 x hge =>
    have hcount : (x - lo).toNat = 0 := by omega
    rw [countdown, if_neg hge, hcount, min_eq_left (not_lt.mp hge), List.replicate_zero]

theorem fillTmp_eq (small : Bool) {base : ℕ} (hbase : 2 ≤ base) (num : ℕ) :
    fillTmp small base num = (Nat.digits base num).map (digitAt small) := by
  induction num using Nat.strong_induction_on with
  | _ num ih =>
    rw [fillTmp]
    split
    next h =>
      have hnum : num = 0 := by omega
      rw [hnum, Nat.digits_zero, List.map_nil]
    next h =>
      have hpos : 0 < num := by omega
      rw [ih _ (Nat.div_lt_self hpos hbase), Nat.digits_def' hbase hpos, List.map_cons]

/-! ## The layout -/

/-- The number of digits in a base, one for `0`. -/
def digitCount (base num : ℕ) : ℕ := max 1 (Nat.digits base num).length

/-- The sign character that the flags ask for. -/
def signText (type : Flags) : List Byte :=
  if type.plus then [0x2b] else if type.space then [0x20] else []

/-- What is left of the field width for padding. -/
def restOf (num : BitVec 64) (base size precision : ℤ) (type : Flags) : ℤ :=
  wrap (size - (signText type).length - max (digitCount base.toNat num.toNat : ℤ) precision)

/-- The counter after the first padding loop, if the flags let it run. -/
def sizeAfterFirst (type : Flags) (rest : ℤ) : ℤ :=
  if type.zeropad || type.left then rest else wrap (min rest 0 - 1)

/-- The counter after the second padding loop, if the flags let it run. -/
def sizeAfterSecond (type : Flags) (rest : ℤ) : ℤ :=
  if type.left then sizeAfterFirst type rest else wrap (min (sizeAfterFirst type rest) 0 - 1)

section Layout

variable {num : BitVec 64} {base size precision : ℤ} {type : Flags}

/-- `num` is unsigned, so it is never negative. -/
theorem isNegative_eq_false (num : BitVec 64) (type : Flags) : isNegative num type = false := by
  have hnot : ¬num < 0 := BitVec.not_lt_zero
  rw [isNegative, decide_eq_false hnot, Bool.and_false]

theorem signByte_cases (num : BitVec 64) (type : Flags) :
    (signByte num type = 0 ∧ signText type = []) ∨
      signByte num type ≠ 0 ∧ signText type = [signByte num type] := by
  rw [signByte, signText, isNegative_eq_false, if_neg Bool.false_ne_true]
  split
  · exact .inr ⟨by decide, rfl⟩
  · split
    · exact .inr ⟨by decide, rfl⟩
    · exact .inl ⟨rfl, rfl⟩

theorem length_signText_le (type : Flags) : (signText type).length ≤ 1 := by
  rw [signText]
  split_ifs <;> decide

theorem length_tmpBytes (hbase : 2 ≤ base) :
    (tmpBytes num base type).length = digitCount base.toNat num.toNat := by
  have hbase' : 2 ≤ base.toNat := by omega
  rw [tmpBytes, digitCount]
  split
  next h => simp [h]
  next h =>
    have hpos : num.toNat ≠ 0 := fun h' ↦ h (BitVec.eq_of_toNat_eq h')
    have hne : (Nat.digits base.toNat num.toNat).length ≠ 0 := fun h' ↦
      hpos (Nat.digits_eq_nil_iff_eq_zero.mp (List.length_eq_zero_iff.mp h'))
    rw [fillTmp_eq _ hbase', List.length_map]
    omega

/-- The callers' bases leave the array `tmp` of 36 characters large enough. -/
theorem digitCount_le {base : ℕ} (hbase : 10 ≤ base) (num : BitVec 64) :
    digitCount base num.toNat ≤ 20 := by
  have hlt : num.toNat < base ^ 20 :=
    calc num.toNat < 2 ^ 64 := num.isLt
      _ ≤ 10 ^ 20 := by norm_num
      _ ≤ base ^ 20 := Nat.pow_le_pow_left hbase 20
  have hlen := (Nat.digits_length_le_iff (by omega) num.toNat).mpr hlt
  rw [digitCount]
  omega

/-- **The layout of a number.** -/
theorem number_eq (hbase : 2 ≤ base) (hbase' : base ≤ 36) :
    number num base size precision type = some (
      List.replicate (if type.zeropad || type.left then 0
        else (restOf num base size precision type).toNat) 0x20 ++ signText type ++
      specialBytes base type ++
      List.replicate (if type.left then 0
        else (sizeAfterFirst type (restOf num base size precision type)).toNat)
          (if type.zeropad && !type.left then 0x30 else 0x20) ++
      List.replicate (precision - digitCount base.toNat num.toNat).toNat 0x30 ++
      (tmpBytes num base type).reverse ++
      List.replicate (sizeAfterSecond type (restOf num base size precision type)).toNat 0x20) := by
  have hbounds : ¬(base < 2 ∨ 36 < base) := by omega
  have hmax : (if precision < digitCount base.toNat num.toNat then
      (digitCount base.toNat num.toNat : ℤ) else precision)
        = max (digitCount base.toNat num.toNat : ℤ) precision := by
    rw [max_def]
    split_ifs <;> omega
  have hzeros : (max (digitCount base.toNat num.toNat : ℤ) precision
      - digitCount base.toNat num.toNat).toNat
        = (precision - digitCount base.toNat num.toNat).toNat := by omega
  have hsize : wrap ((if signByte num type ≠ 0 then wrap (size - 1) else size)
      - max (digitCount base.toNat num.toNat : ℤ) precision)
        = restOf num base size precision type := by
    rw [restOf]
    rcases signByte_cases num type with ⟨hsign, htext⟩ | ⟨hsign, htext⟩
    · rw [if_neg (not_not.mpr hsign), htext, List.length_nil, Nat.cast_zero, sub_zero]
    · rw [if_pos hsign, wrap_wrap_sub, htext, List.length_singleton, Nat.cast_one]
  have hsign : (if signByte num type ≠ 0 then [signByte num type] else []) = signText type := by
    rcases signByte_cases num type with ⟨hsign, htext⟩ | ⟨hsign, htext⟩
    · rw [if_neg (not_not.mpr hsign), htext]
    · rw [if_pos hsign, htext]
  simp only [number, if_neg hbounds, isNegative_eq_false, Bool.false_eq_true, if_false,
    length_tmpBytes hbase, hmax, hsize, hsign, countdown_eq, hzeros, sub_zero, sizeAfterFirst,
    sizeAfterSecond]
  cases type.zeropad <;> cases type.left <;> simp

theorem restOf_bounds (num : BitVec 64) (base size precision : ℤ) (type : Flags) :
    -2 ^ 31 ≤ restOf num base size precision type ∧
      restOf num base size precision type < 2 ^ 31 :=
  ⟨le_wrap _, wrap_lt _⟩

/-! ## Widths -/

/-- The padding loops that run before the last one. -/
def Flags.earlierLoops (type : Flags) : ℕ :=
  if type.left then 0 else if type.zeropad then 1 else 2

theorem Flags.earlierLoops_le (type : Flags) : type.earlierLoops ≤ 2 := by
  rw [earlierLoops]
  split_ifs <;> decide

/-- The padding characters of all three loops. A counter that is decremented below the smallest
`int` comes back as the largest. -/
def fillCount (type : Flags) (rest : ℤ) : ℕ :=
  if -2 ^ 31 + (type.earlierLoops : ℤ) ≤ rest then rest.toNat else 2 ^ 31 - 1

variable {rest : ℤ}

/-- As long as no counter wraps, one of the loops pads. -/
theorem sizeAfterFirst_regular (h : -2 ^ 31 + (type.earlierLoops : ℤ) ≤ rest) :
    (if type.left then 0 else (sizeAfterFirst type rest).toNat)
      = if type.zeropad && !type.left then rest.toNat else 0 := by
  rw [Flags.earlierLoops] at h
  rw [sizeAfterFirst]
  cases hleft : type.left <;> cases hzero : type.zeropad <;>
    simp only [hleft, hzero, wrap, Bool.or_false, Bool.false_or, Bool.not_false, Bool.and_true,
      Bool.and_false, Bool.not_true, Bool.false_eq_true, if_true, if_false] at h ⊢
  omega

theorem sizeAfterSecond_regular (h : -2 ^ 31 + (type.earlierLoops : ℤ) ≤ rest) :
    (sizeAfterSecond type rest).toNat = if type.left then rest.toNat else 0 := by
  rw [Flags.earlierLoops] at h
  rw [sizeAfterSecond, sizeAfterFirst]
  cases hleft : type.left <;> cases hzero : type.zeropad <;>
    simp only [hleft, hzero, wrap, Bool.or_false, Bool.or_true, Bool.false_eq_true, if_true,
      if_false] at h ⊢ <;>
    omega

theorem fill_sum (type : Flags) (h : -2 ^ 31 ≤ rest) (h' : rest < 2 ^ 31) :
    (if type.zeropad || type.left then 0 else rest.toNat) +
      (if type.left then 0 else (sizeAfterFirst type rest).toNat) +
        (sizeAfterSecond type rest).toNat = fillCount type rest := by
  rw [fillCount, sizeAfterSecond, sizeAfterFirst, Flags.earlierLoops]
  cases type.left <;> cases type.zeropad <;>
    simp only [wrap, Bool.or_false, Bool.or_true, Bool.false_eq_true, if_true, if_false] <;>
    split_ifs <;>
    omega

theorem fillCount_regular (h : -2 ^ 31 + (type.earlierLoops : ℤ) ≤ rest) :
    fillCount type rest = rest.toNat := if_pos h

theorem fillCount_eq_zero_iff :
    fillCount type rest = 0 ↔ -2 ^ 31 + (type.earlierLoops : ℤ) ≤ rest ∧ rest ≤ 0 := by
  rw [fillCount]
  split
  · omega
  · constructor <;> omega

/-- **The length of a number's text**, padding included. -/
theorem number_length (num : BitVec 64) (size precision : ℤ) (type : Flags) (hbase : 2 ≤ base)
    (hbase' : base ≤ 36) :
    ∃ out, number num base size precision type = some out ∧
      (out.length : ℤ) = (signText type).length + (specialBytes base type).length +
        max (digitCount base.toNat num.toNat : ℤ) precision +
          fillCount type (restOf num base size precision type) := by
  have hfill := fill_sum type (restOf_bounds num base size precision type).1
    (restOf_bounds num base size precision type).2
  refine ⟨_, number_eq hbase hbase', ?_⟩
  simp only [List.length_append, List.length_replicate, List.length_reverse, length_tmpBytes hbase]
  omega

end Layout

/-! ## Reading digits back -/

/-- The value of a digit, in either case. -/
def digitValue (b : Byte) : Option ℕ :=
  if 48 ≤ b.toNat ∧ b.toNat ≤ 57 then some (b.toNat - 48)
  else if 65 ≤ b.toNat ∧ b.toNat ≤ 90 then some (b.toNat - 55)
  else if 97 ≤ b.toNat ∧ b.toNat ≤ 122 then some (b.toNat - 87)
  else none

/-- One more digit behind a number. -/
def appendDigit (base v : ℕ) (b : Byte) : Option ℕ :=
  (digitValue b).bind fun d ↦ if d < base then some (v * base + d) else none

/-- The value of a text of digits, the most significant first. -/
def readDigits (base : ℕ) (text : List Byte) : Option ℕ := text.foldlM (appendDigit base) 0

section Reading

variable {base num : ℕ} {small : Bool}

theorem digitValue_digitAt (small : Bool) {i : ℕ} (h : i < 36) :
    digitValue (digitAt small i) = some i := by
  revert i
  cases small <;> decide

theorem foldrM_digitAt (hbase : base ≤ 36) {ds : List ℕ} (hds : ∀ d ∈ ds, d < base) :
    (ds.map (digitAt small)).foldrM (fun b v ↦ appendDigit base v b) 0
      = some (Nat.ofDigits base ds) := by
  induction ds with
  | nil => rfl
  | cons d ds ih =>
    have hd : d < base := hds d List.mem_cons_self
    have hrest := ih fun e he ↦ hds e (List.mem_cons_of_mem _ he)
    rw [List.map_cons, List.foldrM_cons, hrest, Nat.ofDigits_cons]
    simp [appendDigit, digitValue_digitAt small (hd.trans_le hbase), hd]
    ring

theorem readDigits_tmpBytes {num : BitVec 64} {base : ℤ} {type : Flags} (hbase : 2 ≤ base)
    (hbase' : base ≤ 36) :
    readDigits base.toNat (tmpBytes num base type).reverse = some num.toNat := by
  have hlow : 2 ≤ base.toNat := by omega
  have hhigh : base.toNat ≤ 36 := by omega
  rw [readDigits, List.foldlM_reverse, tmpBytes]
  split
  next h =>
    have hdigit : digitValue 48#8 = some 0 := rfl
    simp [h, appendDigit, hdigit]
    omega
  next h =>
    rw [fillTmp_eq _ hlow, foldrM_digitAt hhigh fun d hd ↦ Nat.digits_lt_base hlow hd,
      Nat.ofDigits_digits]

end Reading

/-! ## The length law -/

section LengthLaw

variable {num : BitVec 64} {base width precision : ℤ} {type : Flags}

/-- A number with `fill` characters of padding where the flags ask for them. -/
def fieldText (type : Flags) (fill zeros : ℕ) (digits : List Byte) : List Byte :=
  (if type.zeropad || type.left then [] else List.replicate fill 0x20) ++ signText type ++
    (if type.zeropad && !type.left then List.replicate fill 0x30 else []) ++
    List.replicate zeros 0x30 ++ digits ++ if type.left then List.replicate fill 0x20 else []

/-- What a conversion without prefix appends: a field of the asked width, its digits those of
the number. -/
structure Faithful (num : BitVec 64) (base : ℕ) (width precision : ℤ) (type : Flags)
    (out : List Byte) : Prop where
  length_eq : (out.length : ℤ) =
    max width ((signText type).length + max (digitCount base num.toNat : ℤ) precision)
  layout : ∃ fill zeros digits, out = fieldText type fill zeros digits ∧
    (zeros : ℤ) = max 0 (precision - digitCount base num.toNat) ∧
    digits.length = digitCount base num.toNat ∧ readDigits base digits = some num.toNat

theorem replicate_ite (c : Prop) [Decidable c] (n : ℕ) (b : Byte) :
    List.replicate (if c then n else 0) b = if c then List.replicate n b else [] := by
  split_ifs <;> rfl

/-- The layout as long as no counter wraps. -/
theorem number_regular (hbase : 2 ≤ base) (hbase' : base ≤ 36)
    (hspecial : specialBytes base type = [])
    (h : -2 ^ 31 + (type.earlierLoops : ℤ) ≤ restOf num base width precision type) :
    number num base width precision type = some
      (fieldText type (restOf num base width precision type).toNat
        (precision - digitCount base.toNat num.toNat).toNat (tmpBytes num base type).reverse) := by
  rw [number_eq hbase hbase', sizeAfterFirst_regular h, sizeAfterSecond_regular h, hspecial,
    fieldText, replicate_ite, replicate_ite]
  cases type.zeropad <;> cases type.left <;> simp

theorem Faithful.fillCount_eq {out : List Byte} (hbase : 2 ≤ base) (hbase' : base ≤ 36)
    (hspecialBytes : specialBytes base type = [])
    (hout : number num base width precision type = some out)
    (h : Faithful num base.toNat width precision type out) :
    (fillCount type (restOf num base width precision type) : ℤ) = max 0
      (width - (signText type).length - max (digitCount base.toNat num.toNat : ℤ) precision) := by
  obtain ⟨out', hout', hlen⟩ := number_length num width precision type hbase hbase'
  cases hout.symm.trans hout'
  have hfull := h.length_eq
  rw [hspecialBytes, List.length_nil] at hlen
  omega

/-- **Integer formatting is faithful** unless the width left for padding is so far below zero that
a counter wraps. -/
theorem number_faithful_iff (num : BitVec 64) (hbase : base = 10 ∨ base = 16)
    (hwidth : -1 ≤ width) (hwidth' : width < 2 ^ 31) (hprecision : -1 ≤ precision)
    (hprecision' : precision < 2 ^ 31) (hspecial : type.special = false) :
    (∃ out, number num base width precision type = some out ∧
        Faithful num base.toNat width precision type out) ↔
      -2 ^ 31 + (type.earlierLoops : ℤ) ≤ width - (signText type).length -
        max (digitCount base.toNat num.toNat : ℤ) precision := by
  have hlow : 2 ≤ base := by omega
  have hhigh : base ≤ 36 := by omega
  have hten : 10 ≤ base.toNat := by omega
  have hspecialBytes : specialBytes base type = [] := by rw [specialBytes, hspecial]; rfl
  have hsign := length_signText_le type
  have hcount := digitCount_le hten num
  have hloops := type.earlierLoops_le
  constructor
  · rintro ⟨out, hout, hfaithful⟩
    by_contra hlt
    have hfill := hfaithful.fillCount_eq hlow hhigh hspecialBytes hout
    have hzero : fillCount type (restOf num base width precision type) = 0 := by omega
    have hrest := fillCount_eq_zero_iff.mp hzero
    rw [restOf, wrap] at hrest
    omega
  · intro h
    have hwrap : restOf num base width precision type = width - (signText type).length -
        max (digitCount base.toNat num.toNat : ℤ) precision :=
      wrap_eq_self (by omega) (by omega)
    rw [← hwrap] at h
    obtain ⟨out, hout, hlen⟩ := number_length num width precision type hlow hhigh
    have hregular := number_regular hlow hhigh hspecialBytes h
    rw [hspecialBytes, List.length_nil, fillCount_regular h] at hlen
    refine ⟨out, hout, ?_, _, _, _, Option.some.inj (hout.symm.trans hregular), ?_, ?_,
      readDigits_tmpBytes hlow hhigh⟩
    · omega
    · omega
    · rw [List.length_reverse, length_tmpBytes hlow]

theorem number_faithful_iff_hex :
    ∃ out, number 255 16 6 (-1) Flags.none = some out ∧
      Faithful 255 16 6 (-1) Flags.none out :=
  (number_faithful_iff 255 (.inr rfl) (by norm_num) (by norm_num) (by norm_num) (by norm_num)
    rfl).mpr (by simp [digitCount, signText, Flags.none, Flags.earlierLoops])

/-- With no width and the largest precision the counter wraps, and two billion spaces are
appended. -/
theorem not_number_faithful :
    ¬∃ out, number 0 10 (-1) (2 ^ 31 - 1) Flags.none = some out ∧
      Faithful 0 10 (-1) (2 ^ 31 - 1) Flags.none out := by
  rintro ⟨out, hout, hfaithful⟩
  have hfill := Faithful.fillCount_eq (by norm_num) (by norm_num) rfl hout hfaithful
  simp [fillCount, restOf, digitCount, signText, Flags.none, Flags.earlierLoops, wrap] at hfill

end LengthLaw

/-! ## Prefixes -/

section Prefixes

variable {num : BitVec 64} {width precision : ℤ} {type : Flags}

/-- The two characters of `SPECIAL` in base 16. -/
def hexPrefix (type : Flags) : List Byte := [0x30, if type.small then 0x78 else 0x58]

theorem specialBytes_hex (h : type.special = true) : specialBytes 16 type = hexPrefix type := by
  rw [specialBytes, if_pos h, hexPrefix]
  cases type.small <;> rfl

/-- A hexadecimal number whose prefix counts towards the field width and stands before the zeros. -/
structure Aligned (num : BitVec 64) (width precision : ℤ) (type : Flags) (out : List Byte) :
    Prop where
  length_eq : (out.length : ℤ) =
    max width ((signText type).length + 2 + max (digitCount 16 num.toNat : ℤ) precision)
  layout : ∃ before zeros after digits,
    out = List.replicate before 0x20 ++ signText type ++ hexPrefix type ++
      List.replicate zeros 0x30 ++ digits ++ List.replicate after 0x20 ∧
    digits.length = digitCount 16 num.toNat ∧ readDigits 16 digits = some num.toNat

theorem Aligned.fillCount_eq {out : List Byte} (hspecial : type.special = true)
    (hout : number num 16 width precision type = some out)
    (h : Aligned num width precision type out) :
    (fillCount type (restOf num 16 width precision type) : ℤ) = max 0
      (width - (signText type).length - 2 - max (digitCount 16 num.toNat : ℤ) precision) := by
  obtain ⟨out', hout', hlen⟩ :=
    number_length num width precision type (by norm_num : (2 : ℤ) ≤ 16) (by norm_num)
  cases hout.symm.trans hout'
  have hfull := h.length_eq
  have hbase : (16 : ℤ).toNat = 16 := rfl
  rw [specialBytes_hex hspecial, hexPrefix, List.length_cons, List.length_singleton, hbase] at hlen
  omega

/-- **The prefix counts towards the width** only where there is no width left to pad: `size` is
lowered for the sign but not for the prefix. -/
theorem number_aligned_iff (num : BitVec 64) (hwidth : -2 ^ 31 ≤ width) (hwidth' : width < 2 ^ 31)
    (hprecision : -2 ^ 31 ≤ precision) (hprecision' : precision < 2 ^ 31)
    (hspecial : type.special = true) :
    (∃ out, number num 16 width precision type = some out ∧
        Aligned num width precision type out) ↔
      (-2 ^ 31 + (type.earlierLoops : ℤ) ≤ width - (signText type).length -
            max (digitCount 16 num.toNat : ℤ) precision ∧
          width ≤ (signText type).length + max (digitCount 16 num.toNat : ℤ) precision) ∨
        width - (signText type).length - max (digitCount 16 num.toNat : ℤ) precision = -2 ^ 32 := by
  have hsign := length_signText_le type
  have hcount := digitCount_le (by norm_num : 10 ≤ 16) num
  have hloops := type.earlierLoops_le
  have hbase : (16 : ℤ).toNat = 16 := rfl
  constructor
  · rintro ⟨out, hout, haligned⟩
    -- an aligned text has no room left to fill
    have hfill := haligned.fillCount_eq hspecial hout
    have hzero : fillCount type (restOf num 16 width precision type) = 0 := by
      by_contra hne
      rw [fillCount] at hfill hne
      simp only [restOf, wrap, hbase] at hfill hne
      split_ifs at hfill hne <;> omega
    have hrest := fillCount_eq_zero_iff.mp hzero
    simp only [restOf, wrap, hbase] at hrest
    omega
  · intro h
    have hzero : fillCount type (restOf num 16 width precision type) = 0 := by
      rw [fillCount_eq_zero_iff]
      simp only [restOf, wrap, hbase]
      omega
    have hsum := fill_sum type (restOf_bounds num 16 width precision type).1
      (restOf_bounds num 16 width precision type).2
    rw [hzero, Nat.add_eq_zero_iff, Nat.add_eq_zero_iff] at hsum
    obtain ⟨out, hout, hlen⟩ :=
      number_length num width precision type (by norm_num : (2 : ℤ) ≤ 16) (by norm_num)
    rw [specialBytes_hex hspecial, hzero, hexPrefix, List.length_cons, List.length_singleton,
      hbase] at hlen
    have hlayout := hout.symm.trans (number_eq (by norm_num) (by norm_num))
    rw [hsum.1.1, hsum.1.2, hsum.2, specialBytes_hex hspecial] at hlayout
    refine ⟨out, hout, by omega, 0, (precision - digitCount 16 num.toNat).toNat, 0,
      (tmpBytes num 16 type).reverse, (Option.some.inj hlayout).trans ?_, ?_,
      @readDigits_tmpBytes num 16 type (by norm_num) (by norm_num)⟩
    · simp only [hbase, List.replicate_zero, List.append_nil]
    · rw [List.length_reverse, length_tmpBytes (by norm_num), hbase]

theorem number_aligned_iff_full :
    ∃ out, number 255 16 2 (-1) { Flags.none with special := true } = some out ∧
      Aligned 255 2 (-1) { Flags.none with special := true } out :=
  (number_aligned_iff 255 (by norm_num) (by norm_num) (by norm_num) (by norm_num) rfl).mpr
    (by simp [digitCount, signText, Flags.none, Flags.earlierLoops])

/-- With a width of eight, ten characters are appended. -/
theorem not_number_aligned :
    ¬∃ out, number 255 16 8 (-1) { Flags.none with special := true } = some out ∧
      Aligned 255 8 (-1) { Flags.none with special := true } out := by
  rintro ⟨out, hout, haligned⟩
  have hfill := haligned.fillCount_eq rfl hout
  simp [fillCount, restOf, digitCount, signText, Flags.none, Flags.earlierLoops, wrap] at hfill

end Prefixes

end VimOS
