import VimOS.Stdlib.Vsprintf

/-!
# The buffer of `printk`

`printk` lets `vsprintf` write into a static buffer, without telling it the size. What is stored is
the sum of the texts of the format's characters and conversions, and that sum can be read off the
format and its arguments without running `vsprintf`: each conversion has a length law.
-/

namespace VimOS

open Signed32

/-! ## The code -/

/-- `PRINTK_BUF_SIZE` of `include/flags.h`. -/
def printkBufSize : ℕ := 4096

/-- The stores of the call of `vsprintf`, with their indices: `str` starts at the buffer and moves
on by one with each byte, the NUL is the last. -/
def printk (fuel : ℕ) (fmt : List Byte) (str : Addr → List Byte) (args : Args) :
    Except Fault (List (Byte × ℕ)) := do
  let out ← vsprintf fuel fmt str args
  pure (out ++ [0]).zipIdx

/-! ## Lengths -/

/-- The length of the text of a number. -/
def numberLength (num : BitVec 64) (base width precision : ℤ) (type : Flags) : ℕ :=
  (signText type).length + (specialBytes base type).length +
    (max (digitCount base.toNat num.toNat : ℤ) precision).toNat +
      fillCount type (restOf num base width precision type)

/-- The characters that a string conversion takes from a string of `n` characters. -/
def takenCount (n : ℕ) (precision : ℤ) : ℤ :=
  if precision < 0 then wrap n else if precision < wrap n then precision else wrap n

/-- The length of the text of a string of `n` characters: those that are taken, the padding, and
the padding once more if the first loop counts down below the smallest `int`. -/
def stringLength (n : ℕ) (width precision : ℤ) (flags : Flags) : ℕ :=
  min (takenCount n precision).toNat n + (width - takenCount n precision).toNat +
    if flags.left = false ∧ min width (takenCount n precision) = -2 ^ 31 then
      (2 ^ 31 - 1 - takenCount n precision).toNat
    else 0

/-- A conversion with the character `c` takes an argument. -/
def readsArg (c : Byte) : Prop :=
  c = 0x73 ∨ c = 0x78 ∨ c = 0x58 ∨ (c = 0x64 ∨ c = 0x69) ∨ c = 0x75

instance (c : Byte) : Decidable (readsArg c) := inferInstanceAs (Decidable (_ ∨ _))

/-- The slots behind a conversion. -/
def Directive.left (d : Directive) : Args := if readsArg (peek d.rest) then d.args.tail else d.args

/-- The length of the text of a conversion. -/
def Directive.length (d : Directive) (str : Addr → List Byte) : ℕ :=
  let num := d.args.head
  if peek d.rest = 0x73 then stringLength (str num).length d.width d.precision d.flags
  else if peek d.rest = 0x78 then
    numberLength num 16 d.width d.precision { d.flags with small := true }
  else if peek d.rest = 0x58 then numberLength num 16 d.width d.precision d.flags
  else if peek d.rest = 0x64 ∨ peek d.rest = 0x69 then
    numberLength num 10 d.width d.precision { d.flags with sign := true }
  else if peek d.rest = 0x75 then numberLength num 10 d.width d.precision d.flags
  else (unknownBytes (peek d.rest)).length

/-- The length of what is left of a format, each conversion by its law. -/
def formatLength (str : Addr → List Byte) (u : List Byte) (args : Args) : ℕ :=
  match u with
  | [] => 0
  | c :: u =>
    if c = 0x25 then
      (directive u args).length str +
        formatLength str (directive u args).rest.tail (directive u args).left
    else 1 + formatLength str u args
termination_by u.length
decreasing_by
  · have h := length_directive_le u args
    rw [List.length_tail, List.length_cons]
    omega
  · exact Nat.lt_succ_self _

section Lengths

variable {str : Addr → List Byte} {fmt : List Byte} {args : Args}

theorem length_number (num : BitVec 64) {base : ℤ} (width precision : ℤ) (type : Flags)
    (hbase : 2 ≤ base) (hbase' : base ≤ 36) :
    ∃ out, number num base width precision type = some out ∧
      out.length = numberLength num base width precision type := by
  obtain ⟨out, hout, hlen⟩ := number_length num width precision type hbase hbase'
  refine ⟨out, hout, ?_⟩
  rw [numberLength]
  omega

theorem le_atoi (u : List Byte) {i : ℤ} (h : -2 ^ 31 ≤ i) : -2 ^ 31 ≤ (atoi u i).1 := by
  induction u generalizing i with
  | nil => exact h
  | cons c u ih =>
    rw [atoi]
    split
    · exact ih (le_wrap _)
    · exact h

/-- Every width is an `int`. -/
theorem le_width (u : List Byte) (args : Args) : -2 ^ 31 ≤ (directive u args).width := by
  have hint : -2 ^ 31 ≤ vaInt args := by
    unfold vaInt
    exact le_wrap _
  have hwidth : (directive u args).width
      = (widthOf (flagsOf u Flags.none).2 (flagsOf u Flags.none).1 args).1 := rfl
  rw [hwidth, widthOf]
  split_ifs
  · exact le_atoi _ (by norm_num)
  · exact le_wrap _
  · exact hint
  · norm_num

theorem takenCount_bounds (n : ℕ) (precision : ℤ) :
    -2 ^ 31 ≤ takenCount n precision ∧ takenCount n precision < 2 ^ 31 := by
  have hle := le_wrap n
  have hlt := wrap_lt n
  rw [takenCount]
  split_ifs <;> constructor <;> omega

theorem length_stringBytes (text : List Byte) {width : ℤ} (precision : ℤ) (flags : Flags)
    (hwidth : -2 ^ 31 ≤ width) :
    (stringBytes text width precision flags).length
      = stringLength text.length width precision flags := by
  have hbounds := takenCount_bounds text.length precision
  have hbytes : stringBytes text width precision flags =
      (if !flags.left then countdown 0x20 (takenCount text.length precision) width
        else ([], width)).1 ++ text.take (takenCount text.length precision).toNat ++
      (countdown 0x20 (takenCount text.length precision)
        (if !flags.left then countdown 0x20 (takenCount text.length precision) width
          else ([], width)).2).1 := rfl
  rw [hbytes, stringLength]
  generalize takenCount text.length precision = len at hbounds
  simp only [countdown_eq, wrap]
  cases flags.left
  · simp only [Bool.not_false, if_true, List.length_append, List.length_replicate,
      List.length_take, true_and]
    split_ifs <;> omega
  · simp only [Bool.not_true, Bool.false_eq_true, if_false, List.length_append,
      List.length_replicate, List.length_take, List.length_nil, Bool.true_eq_false, false_and]
    omega

/-- **The length law** of a conversion. -/
theorem convert_length {d : Directive} (hwidth : -2 ^ 31 ≤ d.width) (str : Addr → List Byte) :
    (d.convert str).1.length = d.length str ∧ (d.convert str).2 = d.left := by
  have hnumber : ∀ {base : ℤ} {type : Flags}, 2 ≤ base → base ≤ 36 →
      ((((number d.args.head base d.width d.precision type).map (·, d.args.tail)).getD
          ([], d.args)).1.length = numberLength d.args.head base d.width d.precision type) ∧
        (((number d.args.head base d.width d.precision type).map (·, d.args.tail)).getD
          ([], d.args)).2 = d.args.tail := by
    intro base type hbase hbase'
    obtain ⟨out, hout, hlen⟩ := length_number d.args.head d.width d.precision type hbase hbase'
    rw [hout]
    exact ⟨hlen, rfl⟩
  rw [Directive.convert, Directive.length, Directive.left, VimOS.convert]
  by_cases hs : peek d.rest = 0x73
  · rw [if_pos hs, if_pos hs, if_pos (.inl hs)]
    exact ⟨length_stringBytes _ _ _ hwidth, rfl⟩
  rw [if_neg hs, if_neg hs]
  by_cases hx : peek d.rest = 0x78
  · rw [if_pos hx, if_pos hx, if_pos (.inr (.inl hx))]
    exact hnumber (by norm_num) (by norm_num)
  rw [if_neg hx, if_neg hx]
  by_cases hX : peek d.rest = 0x58
  · rw [if_pos hX, if_pos hX, if_pos (.inr (.inr (.inl hX)))]
    exact hnumber (by norm_num) (by norm_num)
  rw [if_neg hX, if_neg hX]
  by_cases hd : peek d.rest = 0x64 ∨ peek d.rest = 0x69
  · rw [if_pos hd, if_pos hd, if_pos (.inr (.inr (.inr (.inl hd))))]
    exact hnumber (by norm_num) (by norm_num)
  rw [if_neg hd, if_neg hd]
  by_cases hu : peek d.rest = 0x75
  · rw [if_pos hu, if_pos hu, if_pos (.inr (.inr (.inr (.inr hu))))]
    exact hnumber (by norm_num) (by norm_num)
  have hreads : ¬readsArg (peek d.rest) := by
    rintro (h | h | h | h | h)
    · exact hs h
    · exact hx h
    · exact hX h
    · exact hd h
    · exact hu h
  rw [if_neg hu, if_neg hu, if_neg hreads]
  exact ⟨rfl, rfl⟩

theorem length_format (str : Addr → List Byte) (u : List Byte) (args : Args) :
    (format str u args).length = formatLength str u args := by
  induction u, args using format.induct str with
  | case1 args => rw [format, formatLength, List.length_nil]
  | case2 args u ih =>
    have hconvert := convert_length (le_width u args) str
    rw [hconvert.2] at ih
    rw [format, formatLength, if_pos rfl, if_pos rfl, List.length_append, hconvert.1, hconvert.2,
      ih]
  | case3 args c u hc ih =>
    rw [format, formatLength, if_neg hc, if_neg hc, List.length_cons, ih, Nat.add_comm]

/-! ## The buffer -/

/-- All stores of the call hit the buffer. -/
def StaysInside (fmt : List Byte) (str : Addr → List Byte) (args : Args) : Prop :=
  ∃ stores, (∀ fuel, fmt.length < fuel → printk fuel fmt str args = .ok stores) ∧
    ∀ store ∈ stores, store.2 < printkBufSize

theorem printk_eq (hnul : 0 ∉ fmt) {fuel : ℕ} (hfuel : fmt.length < fuel)
    (str : Addr → List Byte) (args : Args) :
    printk fuel fmt str args = .ok (format str fmt args ++ [0]).zipIdx := by
  rw [printk, vsprintf_eq hnul hfuel]
  rfl

/-- The NUL is stored behind everything else. -/
theorem forall_stores_iff (out : List Byte) (n : ℕ) :
    (∀ store ∈ (out ++ [0]).zipIdx, store.2 < n) ↔ out.length < n := by
  constructor
  · intro h
    refine h (0, out.length) ?_
    rw [List.mem_zipIdx_iff_getElem?]
    simp
  · intro h store hmem
    have hlt := (List.mem_zipIdx hmem).2.1
    rw [List.length_append, List.length_singleton] at hlt
    omega

theorem staysInside_iff_length (hnul : 0 ∉ fmt) (str : Addr → List Byte) (args : Args) :
    StaysInside fmt str args ↔ (format str fmt args).length < printkBufSize := by
  rw [← forall_stores_iff]
  constructor
  · rintro ⟨stores, hstores, hinside⟩
    cases (printk_eq hnul (Nat.lt_succ_self _) str args).symm.trans
      (hstores _ (Nat.lt_succ_self _))
    exact hinside
  · exact fun h ↦ ⟨_, fun _ hfuel ↦ printk_eq hnul hfuel str args, h⟩

/-- **`printk` stays inside its buffer** exactly for the formats and arguments whose texts leave
room for the NUL. -/
theorem staysInside_iff (hnul : 0 ∉ fmt) (str : Addr → List Byte) (args : Args) :
    StaysInside fmt str args ↔ formatLength str fmt args < printkBufSize := by
  rw [staysInside_iff_length hnul, length_format]

theorem formatLength_directive (str : Addr → List Byte) (u : List Byte) (args : Args) :
    formatLength str (0x25 :: u) args = (directive u args).length str +
      formatLength str (directive u args).rest.tail (directive u args).left := by
  rw [formatLength, if_pos rfl]

/-- The format `%s`. -/
theorem formatLength_string (str : Addr → List Byte) (args : Args) :
    formatLength str [0x25, 0x73] args
      = stringLength (str args.head).length (-1) (-1) Flags.none := by
  have hdirective : directive [0x73] args = ⟨Flags.none, -1, -1, [0x73], args⟩ := rfl
  rw [formatLength_directive, hdirective, Directive.length, peek_cons, if_pos rfl, List.tail_cons,
    formatLength, Nat.add_zero]

/-- The format `%d %s`, with a number of two digits and a string of six characters. -/
theorem staysInside_iff_number : StaysInside [0x25, 0x64, 0x20, 0x25, 0x73]
    (fun _ ↦ [0x6b, 0x65, 0x72, 0x6e, 0x65, 0x6c]) (Stream'.const 42) := by
  refine (staysInside_iff (by decide) _ _).mpr ?_
  have hnumber : directive [0x64, 0x20, 0x25, 0x73] (Stream'.const 42) =
      ⟨Flags.none, -1, -1, [0x64, 0x20, 0x25, 0x73], Stream'.const 42⟩ := rfl
  have hlength : (⟨Flags.none, -1, -1, [0x64, 0x20, 0x25, 0x73], Stream'.const 42⟩ :
      Directive).length (fun _ ↦ [0x6b, 0x65, 0x72, 0x6e, 0x65, 0x6c]) = 2 := by
    decide +kernel
  rw [formatLength_directive, hnumber, hlength, List.tail_cons, formatLength, if_neg (by decide),
    formatLength_string]
  simp [stringLength, takenCount, wrap, printkBufSize]

/-- A string of 4096 characters leaves no room for the NUL. -/
theorem not_staysInside :
    ¬StaysInside [0x25, 0x73] (fun _ ↦ List.replicate 4096 0x61) (Stream'.const 0) := by
  rw [staysInside_iff_length (by decide), length_format, formatLength_string,
    List.length_replicate]
  simp [stringLength, takenCount, wrap, printkBufSize]

end Lengths

end VimOS
