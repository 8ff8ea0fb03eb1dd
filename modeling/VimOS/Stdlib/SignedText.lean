import VimOS.Stdlib.Format

/-!
# Signed conversions

`%d` and `%i` with every combination of flags, width, precision and qualifier. The argument is
fetched as an `unsigned long` and handed to `number` as one, whose test for a negative number then
never holds; so the text is that of the unsigned number.
-/

namespace VimOS

open Signed32

/-! ## What the grammar allows -/

/-- A flag other than `SPECIAL`. -/
def isPlainFlag (c : Byte) : Bool := decide (c = 0x2d ∨ c = 0x2b ∨ c = 0x20 ∨ c = 0x30)

/-- A text of digits only, possibly empty. -/
def AllDigits (ds : List Byte) : Prop := ∀ c ∈ ds, isDigit c = true

/-- A conversion `d` or `i` with numbers for width and precision. A zero in front of the width
would be a flag. -/
structure SignedConv where
  flags : List Byte
  width : List Byte
  precision : Option (List Byte)
  qualifier : List Byte
  letter : Byte
  flags_plain : ∀ c ∈ flags, isPlainFlag c = true
  width_digits : AllDigits width
  width_head : peek width ≠ 0x30
  precision_digits : ∀ ds, precision = some ds → AllDigits ds
  qualifier_ok : qualifier = [] ∨ ∃ c, qualifier = [c] ∧ isQualifier c = true
  letter_ok : letter = 0x64 ∨ letter = 0x69

/-- The text of a precision, with its point. -/
def precisionText (precision : Option (List Byte)) : List Byte :=
  (precision.map (0x2e :: ·)).getD []

/-- The format that consists of the conversion. -/
def SignedConv.text (k : SignedConv) : List Byte :=
  0x25 :: (k.flags ++ (k.width ++ (precisionText k.precision ++ (k.qualifier ++ [k.letter]))))

/-! ## Reading numbers back -/

/-- The number that a text of digits shows. -/
def readUnsigned (text : List Byte) : Option ℕ := if text = [] then none else readDigits 10 text

/-- The number that a text shows: a sign or none, then digits, blanks ignored. -/
def readSigned (text : List Byte) : Option ℤ :=
  match text.filter (· ≠ 0x20) with
  | [] => none
  | c :: ds =>
    if c = 0x2d then (readUnsigned ds).map fun n ↦ -(n : ℤ)
    else if c = 0x2b then (readUnsigned ds).map (↑)
    else (readUnsigned (c :: ds)).map (↑)

section Reading

variable {text ds u : List Byte} {n : ℕ} {i : ℤ} {flags : Flags} {args : Args} {c : Byte}

theorem ne_of_isDigit {d : Byte} (hc : isDigit c = true) (hd : isDigit d = false) : c ≠ d := by
  rintro rfl
  exact Bool.false_ne_true (hd.symm.trans hc)

theorem filter_digits (h : AllDigits ds) : ds.filter (· ≠ 0x20) = ds := by
  rw [List.filter_eq_self]
  exact fun c hc ↦ decide_eq_true (ne_of_isDigit (h c hc) (by decide))

theorem filter_blanks (k : ℕ) : (List.replicate k (0x20 : Byte)).filter (· ≠ 0x20) = [] := by
  rw [List.filter_replicate, if_neg (by decide)]

/-- A text that is a plus sign or none and digits, apart from blanks. -/
theorem readSigned_of_filter (sign : List Byte) (hsign : sign = [] ∨ sign = [0x2b])
    (hds : AllDigits ds) (hne : ds ≠ []) (htext : text.filter (· ≠ 0x20) = sign ++ ds) :
    readSigned text = (readDigits 10 ds).map (↑) := by
  rw [readSigned, htext]
  rcases hsign with rfl | rfl
  · obtain ⟨c, rest, rfl⟩ := List.exists_cons_of_ne_nil hne
    have hc := hds c List.mem_cons_self
    rw [List.nil_append]
    dsimp only
    rw [if_neg (ne_of_isDigit hc (by decide)), if_neg (ne_of_isDigit hc (by decide)),
      readUnsigned, if_neg hne]
  · rw [List.singleton_append]
    dsimp only
    rw [if_neg (by decide), if_pos rfl, readUnsigned, if_neg hne]

/-- Zeros in front do not count. -/
theorem readDigits_zeros (k : ℕ) (ds : List Byte) :
    readDigits 10 (List.replicate k 0x30 ++ ds) = readDigits 10 ds := by
  induction k with
  | zero => rfl
  | succ k ih =>
    have hzero : appendDigit 10 0 0x30 = some 0 := rfl
    rw [List.replicate_succ, List.cons_append, readDigits, List.foldlM_cons, hzero]
    exact ih

theorem allDigits_append {ds' : List Byte} (h : AllDigits ds) (h' : AllDigits ds') :
    AllDigits (ds ++ ds') := by
  intro c hc
  exact (List.mem_append.mp hc).elim (h c) (h' c)

theorem allDigits_zeros (k : ℕ) : AllDigits (List.replicate k 0x30) := by
  intro c hc
  rw [List.eq_of_mem_replicate hc]
  rfl

theorem allDigits_tmpBytes (num : BitVec 64) (type : Flags) :
    AllDigits (tmpBytes num 10 type).reverse := by
  intro c hc
  rw [List.mem_reverse, tmpBytes] at hc
  split at hc
  · rw [List.mem_singleton.mp hc]
    rfl
  · rw [fillTmp_eq _ (by decide), List.mem_map] at hc
    obtain ⟨d, hd, rfl⟩ := hc
    exact isDigit_digitAt _ (Nat.digits_lt_base (by decide) hd)

end Reading

/-! ## The scan of a signed conversion -/

section Scanning

variable {ds u q : List Byte} {flags : Flags} {args : Args} {c : Byte}

/-- A character that ends a width: no flag, no digit, no star. -/
def Ends (c : Byte) : Prop := isFlag c = false ∧ isDigit c = false ∧ c ≠ 0x2a

theorem setFlag_eq_none (h : isFlag c = false) (flags : Flags) : setFlag c flags = none := by
  rw [isFlag, setFlag] at h
  rw [setFlag]
  split_ifs at h ⊢ <;> first | rfl | exact absurd h nofun

theorem setFlag_plain (h : isPlainFlag c = true) (flags : Flags) :
    ∃ flags', setFlag c flags = some flags' ∧ flags'.special = flags.special := by
  rcases of_decide_eq_true h with rfl | rfl | rfl | rfl <;> exact ⟨_, rfl, rfl⟩

theorem flagsOf_append {fs : List Byte} (hfs : ∀ c ∈ fs, isPlainFlag c = true)
    (hu : isFlag (peek u) = false) (flags : Flags) :
    ∃ flags', flagsOf (fs ++ u) flags = (flags', u) ∧ flags'.special = flags.special := by
  induction fs generalizing flags with
  | nil =>
    refine ⟨flags, ?_, rfl⟩
    cases u with
    | nil => rfl
    | cons c u =>
      rw [peek_cons] at hu
      rw [List.nil_append, flagsOf, setFlag_eq_none hu]
  | cons c fs ih =>
    obtain ⟨flags₁, hset, hspecial⟩ := setFlag_plain (hfs c List.mem_cons_self) flags
    obtain ⟨flags', hflags, hspecial'⟩ := ih (fun d hd ↦ hfs d (List.mem_cons_of_mem _ hd)) flags₁
    rw [List.cons_append, flagsOf, hset]
    exact ⟨flags', hflags, hspecial'.trans hspecial⟩

theorem atoi_append (hds : AllDigits ds) (hu : isDigit (peek u) = false) (i : ℤ) :
    ∃ n, atoi (ds ++ u) i = (n, u) := by
  induction ds generalizing i with
  | nil =>
    refine ⟨i, ?_⟩
    cases u with
    | nil => rfl
    | cons c u =>
      rw [peek_cons] at hu
      rw [List.nil_append, atoi, if_neg (ne_true_of_eq_false hu)]
  | cons c ds ih =>
    rw [List.cons_append, atoi, if_pos (hds c List.mem_cons_self)]
    exact ih (fun d hd ↦ hds d (List.mem_cons_of_mem _ hd)) _

theorem widthOf_append (hds : AllDigits ds) (hu : Ends (peek u)) (flags : Flags) (args : Args) :
    ∃ w, widthOf (ds ++ u) flags args = (w, flags, u, args) := by
  cases ds with
  | nil => exact ⟨-1, by rw [List.nil_append, widthOf, hu.2.1, if_neg hu.2.2]; rfl⟩
  | cons c ds =>
    obtain ⟨n, hn⟩ := atoi_append hds hu.2.1 0
    refine ⟨n, ?_⟩
    rw [widthOf, List.cons_append, peek_cons, if_pos (hds c List.mem_cons_self),
      ← List.cons_append, hn]

theorem pointOf_append (hds : AllDigits ds) (hu : Ends (peek u)) (args : Args) :
    ∃ n, pointOf (ds ++ u) args = (n, u, args) := by
  cases ds with
  | nil => exact ⟨-1, by rw [List.nil_append, pointOf, hu.2.1, if_neg hu.2.2]; rfl⟩
  | cons c ds =>
    obtain ⟨n, hn⟩ := atoi_append hds hu.2.1 0
    refine ⟨n, ?_⟩
    rw [pointOf, List.cons_append, peek_cons, if_pos (hds c List.mem_cons_self),
      ← List.cons_append, hn]

theorem precisionOf_append {precision : Option (List Byte)}
    (hprecision : ∀ ds, precision = some ds → AllDigits ds) (hu : Ends (peek u))
    (hpoint : peek u ≠ 0x2e) (args : Args) :
    ∃ n, precisionOf (precisionText precision ++ u) args = (n, u, args) := by
  cases precision with
  | none => exact ⟨-1, by rw [precisionOf]; exact if_neg hpoint⟩
  | some ds =>
    obtain ⟨n, hn⟩ := pointOf_append (hprecision ds rfl) hu args
    refine ⟨if n < 0 then 0 else n, ?_⟩
    have htail : (precisionText (some ds) ++ u).tail = ds ++ u := rfl
    have hpeek : peek (precisionText (some ds) ++ u) = 0x2e := rfl
    rw [precisionOf, htail, hn, if_pos hpeek]

theorem skipQualifier_append (hq : q = [] ∨ ∃ c, q = [c] ∧ isQualifier c = true)
    (hu : isQualifier (peek u) = false) : skipQualifier (q ++ u) = u := by
  rcases hq with rfl | ⟨c, rfl, hc⟩
  · rw [List.nil_append, skipQualifier, if_neg (of_decide_eq_false hu)]
  · rw [List.singleton_append, skipQualifier, peek_cons, if_pos (of_decide_eq_true hc),
      List.tail_cons]

theorem isFlag_of_digit (hc : isDigit c = true) (hzero : c ≠ 0x30) : isFlag c = false := by
  rw [isFlag, setFlag]
  split_ifs with h₁ h₂ h₃ h₄
  · exact absurd hc (by rw [h₁]; decide)
  · exact absurd hc (by rw [h₂]; decide)
  · exact absurd hc (by rw [h₃]; decide)
  · exact absurd hc (by rw [h₄]; decide)
  · rfl

theorem Ends.of_test (h : (!isFlag c && !isDigit c && decide (c ≠ 0x2a)) = true) : Ends c := by
  rw [Bool.and_eq_true, Bool.and_eq_true, Bool.not_eq_true', Bool.not_eq_true',
    decide_eq_true_eq] at h
  exact ⟨h.1.1, h.1.2, h.2⟩

variable {k : SignedConv}

theorem SignedConv.letter_ends (k : SignedConv) :
    Ends k.letter ∧ k.letter ≠ 0x2e ∧ isQualifier k.letter = false := by
  rcases k.letter_ok with h | h <;> rw [h] <;> exact ⟨Ends.of_test rfl, by decide, rfl⟩

theorem SignedConv.qualifier_ends (k : SignedConv) :
    Ends (peek (k.qualifier ++ [k.letter])) ∧ peek (k.qualifier ++ [k.letter]) ≠ 0x2e := by
  rcases k.qualifier_ok with h | ⟨c, h, hc⟩
  · rw [h]
    exact ⟨k.letter_ends.1, k.letter_ends.2.1⟩
  · rw [h, List.singleton_append, peek_cons]
    rcases of_decide_eq_true hc with rfl | rfl | rfl <;> exact ⟨Ends.of_test rfl, by decide⟩

theorem SignedConv.precision_ends (k : SignedConv) :
    Ends (peek (precisionText k.precision ++ (k.qualifier ++ [k.letter]))) := by
  cases h : k.precision with
  | none => exact k.qualifier_ends.1
  | some ds => exact Ends.of_test rfl

theorem SignedConv.width_ends (k : SignedConv) :
    isFlag (peek (k.width ++ (precisionText k.precision ++ (k.qualifier ++ [k.letter]))))
      = false := by
  cases h : k.width with
  | nil => exact k.precision_ends.1
  | cons c ds =>
    have hhead : c ≠ 0x30 := by
      have hne := k.width_head
      rwa [h] at hne
    exact isFlag_of_digit (k.width_digits c (h ▸ List.mem_cons_self)) hhead

/-- What the scan makes of a signed conversion: no prefix, and no argument taken. -/
theorem SignedConv.directive_eq (k : SignedConv) (args : Args) :
    ∃ flags width precision, flags.special = false ∧
      directive (k.flags ++ (k.width ++ (precisionText k.precision ++ (k.qualifier ++ [k.letter]))))
        args = ⟨flags, width, precision, [k.letter], args⟩ := by
  obtain ⟨flags, hflags, hspecial⟩ := flagsOf_append k.flags_plain k.width_ends Flags.none
  obtain ⟨width, hwidth⟩ := widthOf_append k.width_digits k.precision_ends flags args
  obtain ⟨precision, hprecision⟩ := precisionOf_append k.precision_digits k.qualifier_ends.1
    k.qualifier_ends.2 args
  have hqualifier := skipQualifier_append (u := [k.letter]) k.qualifier_ok k.letter_ends.2.2
  refine ⟨flags, width, precision, hspecial, ?_⟩
  simp only [directive, hflags, hwidth, hprecision, hqualifier]

/-- The text of a signed conversion is that of `number`. -/
theorem SignedConv.format_eq (k : SignedConv) (str : Addr → List Byte) (args : Args) :
    ∃ type width precision, type.special = false ∧
      number args.head 10 width precision type = some (format str k.text args) := by
  obtain ⟨flags, width, precision, hspecial, hdirective⟩ := k.directive_eq args
  obtain ⟨out, hout, -⟩ := number_length args.head width precision { flags with sign := true }
    (by norm_num : (2 : ℤ) ≤ 10) (by norm_num)
  refine ⟨{ flags with sign := true }, width, precision, hspecial, hout.trans ?_⟩
  have hconvert : Directive.convert ⟨flags, width, precision, [k.letter], args⟩ str
      = (out, args.tail) := by
    have hletter : k.letter ≠ 0x73 ∧ k.letter ≠ 0x78 ∧ k.letter ≠ 0x58 := by
      rcases k.letter_ok with h | h <;> rw [h] <;> decide
    rw [Directive.convert, peek_cons, VimOS.convert, if_neg hletter.1, if_neg hletter.2.1,
      if_neg hletter.2.2, if_pos k.letter_ok]
    dsimp only
    rw [hout]
    rfl
  rw [SignedConv.text, format, if_pos rfl, hdirective, hconvert, List.tail_cons, format,
    List.append_nil]

/-- The format has no NUL in it. -/
theorem SignedConv.nul_notMem (k : SignedConv) : 0 ∉ k.text := by
  have hdigit : ∀ {ds}, AllDigits ds → 0 ∉ ds := fun h hmem ↦ absurd (h 0 hmem) (by decide)
  have hprecision : 0 ∉ precisionText k.precision := by
    cases h : k.precision with
    | none => exact List.not_mem_nil
    | some ds =>
      exact fun hmem ↦ hdigit (k.precision_digits ds h)
        ((List.mem_cons.mp hmem).resolve_left (by decide))
  have hqualifier : 0 ∉ k.qualifier := by
    rcases k.qualifier_ok with h | ⟨c, h, hc⟩
    · rw [h]
      exact List.not_mem_nil
    · rw [h, List.mem_singleton]
      rintro rfl
      exact absurd hc (by decide)
  have hletter : 0 ≠ k.letter := by
    rcases k.letter_ok with h | h <;> rw [h] <;> decide
  simp only [SignedConv.text, List.mem_cons, List.mem_append, List.not_mem_nil, or_false, not_or]
  exact ⟨by decide, fun h ↦ absurd (k.flags_plain 0 h) (by decide), hdigit k.width_digits,
    hprecision, hqualifier, hletter⟩

end Scanning

/-! ## The sign -/

section Sign

variable {num : BitVec 64} {width precision : ℤ} {type : Flags} {out : List Byte}

theorem filter_signText (type : Flags) :
    ∃ sign, (sign = [] ∨ sign = [0x2b]) ∧ (signText type).filter (· ≠ 0x20) = sign := by
  rw [signText]
  split_ifs
  · exact ⟨_, .inr rfl, rfl⟩
  · exact ⟨_, .inl rfl, rfl⟩
  · exact ⟨_, .inl rfl, rfl⟩

/-- The second padding loop adds zeros or blanks. -/
theorem filter_between (n : ℕ) (p : Prop) [Decidable p] :
    ∃ m, (List.replicate n (if p then 0x30 else 0x20 : Byte)).filter (· ≠ 0x20)
      = List.replicate m 0x30 := by
  split_ifs
  · exact ⟨n, filter_digits (allDigits_zeros n)⟩
  · exact ⟨0, filter_blanks n⟩

/-- Whatever the flags, a number in base 10 reads as the unsigned argument. -/
theorem readSigned_number (hspecial : type.special = false)
    (hout : number num 10 width precision type = some out) :
    readSigned out = some (num.toNat : ℤ) := by
  have hspecialBytes : specialBytes 10 type = [] := by rw [specialBytes, hspecial]; rfl
  obtain ⟨sign, hsign, hfilter⟩ := filter_signText type
  obtain ⟨m, hbetween⟩ := filter_between
    (if type.left then 0 else (sizeAfterFirst type (restOf num 10 width precision type)).toNat)
    (type.zeropad && !type.left)
  have hdigits : AllDigits (List.replicate m 0x30 ++
      (List.replicate (precision - digitCount (10 : ℤ).toNat num.toNat).toNat 0x30 ++
        (tmpBytes num 10 type).reverse)) :=
    allDigits_append (allDigits_zeros _)
      (allDigits_append (allDigits_zeros _) (allDigits_tmpBytes num type))
  have hlen : (tmpBytes num 10 type).reverse.length ≠ 0 := by
    rw [List.length_reverse, length_tmpBytes (by norm_num), digitCount]
    omega
  rw [Option.some.inj (hout.symm.trans (number_eq (by norm_num) (by norm_num))), hspecialBytes,
    readSigned_of_filter sign hsign hdigits, readDigits_zeros, readDigits_zeros]
  · exact congrArg (Option.map _) (@readDigits_tmpBytes num 10 type (by norm_num) (by norm_num))
  · exact fun h ↦ hlen (by rw [(List.append_eq_nil_iff.mp (List.append_eq_nil_iff.mp h).2).2]; rfl)
  · simp only [List.filter_append, hfilter, hbetween, filter_blanks, List.nil_append,
      List.append_nil, List.append_assoc, filter_digits (allDigits_zeros _),
      filter_digits (allDigits_tmpBytes num type)]

/-- The text of the format for the argument `v` reads as `v`. -/
def PrintsSigned (k : SignedConv) (str : Addr → List Byte) (v : BitVec 64) (args : Args) : Prop :=
  ∃ out, (∀ fuel, k.text.length < fuel →
      vsprintf fuel k.text str (Stream'.cons v args) = .ok out) ∧
    readSigned out = some v.toInt

theorem readSigned_format (k : SignedConv) (str : Addr → List Byte) (v : BitVec 64) (args : Args) :
    readSigned (format str k.text (Stream'.cons v args)) = some (v.toNat : ℤ) := by
  obtain ⟨type, width, precision, hspecial, hnumber⟩ := k.format_eq str (Stream'.cons v args)
  exact readSigned_number hspecial hnumber

/-- **Signed conversions print signed values** for the numbers that are not negative. -/
theorem printsSigned_iff (k : SignedConv) (str : Addr → List Byte) (v : BitVec 64) (args : Args) :
    PrintsSigned k str v args ↔ 0 ≤ v.toInt := by
  have hrun : ∀ fuel, k.text.length < fuel → vsprintf fuel k.text str (Stream'.cons v args)
      = .ok (format str k.text (Stream'.cons v args)) := fun _ hfuel ↦
    vsprintf_eq k.nul_notMem hfuel str _
  have hread := readSigned_format k str v args
  have htoInt := v.toInt_eq_toNat_cond
  constructor
  · rintro ⟨out, hout, hvalue⟩
    cases (hrun _ (Nat.lt_succ_self _)).symm.trans (hout _ (Nat.lt_succ_self _))
    have heq := Option.some.inj (hread.symm.trans hvalue)
    omega
  · intro h
    refine ⟨_, hrun, hread.trans (congrArg some ?_)⟩
    split_ifs at htoInt <;> omega

/-- The format `%d`. -/
def plainSigned : SignedConv where
  flags := []
  width := []
  precision := none
  qualifier := []
  letter := 0x64
  flags_plain := nofun
  width_digits := nofun
  width_head := by decide
  precision_digits := nofun
  qualifier_ok := .inl rfl
  letter_ok := .inl rfl

/-- `%d` prints `-1` as the largest unsigned number. -/
theorem not_printsSigned : ¬PrintsSigned plainSigned (fun _ ↦ []) (-1) (Stream'.const 0) := by
  rintro ⟨out, hout, hvalue⟩
  have hrun := vsprintf_eq plainSigned.nul_notMem (Nat.lt_succ_self _) (fun _ ↦ [])
    (Stream'.cons (-1) (Stream'.const 0))
  cases hrun.symm.trans (hout _ (Nat.lt_succ_self _))
  rw [readSigned_format] at hvalue
  exact absurd hvalue (by decide)

end Sign

end VimOS
