import VimOS.Stdlib.Vsprintf

/-!
# The grammar of formats

What a format says, apart from how `vsprintf` scans it: characters and conversions, a conversion
with its flags, a width and a precision that are digits or a star, a qualifier and a letter. Two
promises of this grammar are compared with the code: signed conversions print signed values, and
a star stands for the number in the argument list.
-/

namespace VimOS

open Signed32

/-! ## Formats as data -/

/-- A character that sets a flag. -/
def isFlag (c : Byte) : Bool := (setFlag c Flags.none).isSome

/-- A character that qualifies the size of an argument. -/
def isQualifier (c : Byte) : Bool := decide (c = 0x68 ∨ c = 0x6c ∨ c = 0x4c)

/-- A width or a precision as it is written. -/
inductive Field
  | digits (ds : List Byte)
  | star
  deriving DecidableEq

/-- A conversion as it is written. The letter is missing where the format ends before it. -/
structure Conv where
  flags : List Byte
  width : Field
  precision : Option Field
  qualifier : List Byte
  letter : Option Byte
  deriving DecidableEq

/-- A format is a list of these. -/
inductive Piece
  | char (c : Byte)
  | conv (k : Conv)
  deriving DecidableEq

def Field.text : Field → List Byte
  | digits ds => ds
  | star => [0x2a]

def Conv.text (k : Conv) : List Byte :=
  0x25 :: (k.flags ++ k.width.text ++ (k.precision.map fun p ↦ 0x2e :: p.text).getD [] ++
    k.qualifier ++ k.letter.toList)

def Piece.text : Piece → List Byte
  | char c => [c]
  | conv k => k.text

/-- The text of a format. -/
def textOf (ps : List Piece) : List Byte := ps.flatMap Piece.text

/-- The field at the front of `u`, and what stands behind it. -/
def parseField (u : List Byte) : Field × List Byte :=
  if peek u = 0x2a then (.star, u.tail) else (.digits (u.takeWhile isDigit), u.dropWhile isDigit)

/-- The precision at the front of `u`. -/
def parsePrecision (u : List Byte) : Option Field × List Byte :=
  if peek u = 0x2e then (some (parseField u.tail).1, (parseField u.tail).2) else (none, u)

/-- The conversion whose text behind the percent sign starts with `u`. -/
def parseConv (u : List Byte) : Conv × List Byte :=
  let w := parseField (u.dropWhile isFlag)
  let p := parsePrecision w.2
  let rest := if isQualifier (peek p.2) then p.2.tail else p.2
  (⟨u.takeWhile isFlag, w.1, p.1, if isQualifier (peek p.2) then p.2.take 1 else [], rest.head?⟩,
    rest.tail)

section Parsing

variable {u : List Byte} {c : Byte}

theorem text_parseField (u : List Byte) : (parseField u).1.text ++ (parseField u).2 = u := by
  rw [parseField]
  split
  next h =>
    obtain ⟨v, rfl⟩ := exists_cons_of_peek h (by decide)
    rfl
  next => exact List.takeWhile_append_dropWhile

theorem text_parsePrecision (u : List Byte) :
    ((parsePrecision u).1.map fun p ↦ 0x2e :: p.text).getD [] ++ (parsePrecision u).2 = u := by
  rw [parsePrecision]
  split
  next h =>
    obtain ⟨v, rfl⟩ := exists_cons_of_peek h (by decide)
    exact congrArg (0x2e :: ·) (text_parseField v)
  next => rfl

theorem qualifier_append_rest (u : List Byte) :
    (if isQualifier (peek u) then u.take 1 else []) ++
      (if isQualifier (peek u) then u.tail else u) = u := by
  split
  · cases u <;> rfl
  · rfl

theorem head?_append_tail (u : List Byte) : u.head?.toList ++ u.tail = u := by
  cases u <;> rfl

/-- A conversion is written where it was read. -/
theorem text_parseConv (u : List Byte) :
    (parseConv u).1.text ++ (parseConv u).2 = 0x25 :: u := by
  simp only [parseConv, Conv.text, List.cons_append, List.append_assoc, head?_append_tail,
    qualifier_append_rest, text_parsePrecision, text_parseField,
    List.takeWhile_append_dropWhile]

theorem length_parseConv_lt (u : List Byte) : (parseConv u).2.length < (0x25 :: u).length := by
  rw [← text_parseConv u, List.length_append, Conv.text, List.length_cons]
  omega

end Parsing

/-- A format read as the grammar says. -/
def parse (u : List Byte) : List Piece :=
  match u with
  | [] => []
  | c :: u =>
    if c = 0x25 then .conv (parseConv u).1 :: parse (parseConv u).2 else .char c :: parse u
termination_by u.length
decreasing_by
  · exact length_parseConv_lt u
  · exact Nat.lt_succ_self _

/-- Parsing loses nothing. -/
theorem textOf_parse (u : List Byte) : textOf (parse u) = u := by
  induction u using parse.induct with
  | case1 => rw [parse]; rfl
  | case2 u ih =>
    rw [parse, if_pos rfl]
    exact (congrArg (_ ++ ·) ih).trans (text_parseConv u)
  | case3 c u hc ih =>
    rw [parse, if_neg hc]
    exact congrArg (c :: ·) ih

/-! ## Stars replaced by their numbers -/

/-- The letters of the conversions that take an argument. -/
def takesArg (c : Byte) : Bool :=
  decide (c = 0x73 ∨ c = 0x78 ∨ c = 0x58 ∨ c = 0x64 ∨ c = 0x69 ∨ c = 0x75)

/-- The decimal text of a number. -/
def decimal (n : ℕ) : List Byte :=
  if n = 0 then [0x30] else ((Nat.digits 10 n).map (digitAt false)).reverse

/-- The width `w` as a number; a negative width is the flag `-` and its absolute value. -/
def Conv.withWidth (k : Conv) (w : ℤ) : Conv :=
  { k with
    flags := if w < 0 then k.flags ++ [0x2d] else k.flags
    width := .digits (decimal w.natAbs) }

/-- The precision `p` as a number, `0` for a negative one. -/
def Conv.withPrecision (k : Conv) (p : ℤ) : Conv :=
  { k with precision := some (.digits (decimal p.toNat)) }

/-- A star for the width is replaced by its argument. -/
def Conv.fillWidth (k : Conv) (args : Args) : Conv × Args :=
  match k.width with
  | .star => (k.withWidth (vaInt args), args.tail)
  | .digits _ => (k, args)

/-- A star for the precision is replaced by its argument. -/
def Conv.fillPrecision (k : Conv) (args : Args) : Conv × Args :=
  match k.precision with
  | some .star => (k.withPrecision (vaInt args), args.tail)
  | _ => (k, args)

/-- A conversion without its stars, and the slots behind their arguments. -/
def Conv.fill (k : Conv) (args : Args) : Conv × Args :=
  (k.fillWidth args).1.fillPrecision (k.fillWidth args).2

/-- A format without its stars, and the arguments without those of the stars. -/
def fillStars : List Piece → Args → List Piece × Args
  | [], args => ([], args)
  | .char c :: ps, args => (.char c :: (fillStars ps args).1, (fillStars ps args).2)
  | .conv k :: ps, args =>
    let filled := k.fill args
    if k.letter.any takesArg then
      (.conv filled.1 :: (fillStars ps filled.2.tail).1,
        Stream'.cons filled.2.head (fillStars ps filled.2.tail).2)
    else (.conv filled.1 :: (fillStars ps filled.2).1, (fillStars ps filled.2).2)

/-- A star stands for the width or the precision. -/
def Conv.Starred (k : Conv) : Prop := k.width = .star ∨ k.precision = some .star

section Stars

variable {k : Conv} {ps : List Piece} {args : Args} {c : Byte}

theorem isDigit_digitAt (small : Bool) {d : ℕ} (h : d < 10) : isDigit (digitAt small d) = true := by
  revert d
  cases small <;> decide

/-- Characters that are not digits do not come from a number. -/
theorem count_decimal (hc : isDigit c = false) (n : ℕ) : (decimal n).count c = 0 := by
  rw [List.count_eq_zero, decimal]
  split
  next =>
    rw [List.mem_singleton]
    rintro rfl
    exact absurd hc (by decide)
  next =>
    rw [List.mem_reverse, List.mem_map]
    rintro ⟨d, hd, rfl⟩
    have hlt : d < 10 := Nat.digits_lt_base (by norm_num) hd
    exact Bool.false_ne_true (hc.symm.trans (isDigit_digitAt false hlt))

theorem count_point (p : Field) (c : Byte) :
    (0x2e :: p.text).count c = [(0x2e : Byte)].count c + p.text.count c :=
  @List.count_append _ _ c [0x2e] p.text

theorem count_conv (k : Conv) (c : Byte) :
    k.text.count c = [(0x25 : Byte)].count c + k.flags.count c + k.width.text.count c +
      ((k.precision.map fun p ↦ 0x2e :: p.text).getD []).count c + k.qualifier.count c +
        k.letter.toList.count c := by
  rw [Conv.text, List.count_cons, List.count_singleton]
  simp only [List.count_append]
  omega

theorem count_flags_ite (hminus : c ≠ 0x2d) (p : Prop) [Decidable p] (flags : List Byte) :
    (if p then flags ++ [0x2d] else flags).count c = flags.count c := by
  split
  · have hzero : [(0x2d : Byte)].count c = 0 :=
      List.count_eq_zero.mpr fun h ↦ hminus (List.mem_singleton.mp h)
    rw [List.count_append, hzero, add_zero]
  · rfl

/-- A character that is neither a digit nor a minus sign is only lost with the star. -/
theorem count_withWidth (hc : isDigit c = false) (hminus : c ≠ 0x2d) (h : k.width = .star)
    (w : ℤ) : (k.withWidth w).text.count c + [(0x2a : Byte)].count c = k.text.count c := by
  have hflags : (k.withWidth w).flags.count c = k.flags.count c :=
    count_flags_ite hminus (w < 0) k.flags
  have hdigits : (k.withWidth w).width.text.count c = 0 := count_decimal hc w.natAbs
  have hrest : (k.withWidth w).precision = k.precision ∧
      (k.withWidth w).qualifier = k.qualifier ∧ (k.withWidth w).letter = k.letter :=
    ⟨rfl, rfl, rfl⟩
  rw [count_conv, count_conv k, hflags, hdigits, hrest.1, hrest.2.1, hrest.2.2, h, Field.text]
  omega

theorem count_withPrecision (hc : isDigit c = false) (h : k.precision = some .star) (p : ℤ) :
    (k.withPrecision p).text.count c + [(0x2a : Byte)].count c = k.text.count c := by
  have hprecision : (k.withPrecision p).precision = some (.digits (decimal p.toNat)) := rfl
  have hdigits : (Field.digits (decimal p.toNat)).text.count c = 0 := count_decimal hc p.toNat
  have hrest : (k.withPrecision p).flags = k.flags ∧ (k.withPrecision p).width = k.width ∧
      (k.withPrecision p).qualifier = k.qualifier ∧ (k.withPrecision p).letter = k.letter :=
    ⟨rfl, rfl, rfl, rfl⟩
  rw [count_conv, count_conv k, hprecision, h, hrest.1, hrest.2.1, hrest.2.2.1, hrest.2.2.2,
    Option.map_some, Option.getD_some, Option.map_some, Option.getD_some, count_point, hdigits,
    count_point, Field.text]
  omega

theorem count_fillWidth (hc : isDigit c = false) (hminus : c ≠ 0x2d) (k : Conv) (args : Args) :
    (k.fillWidth args).1.text.count c + (if k.width = .star then [(0x2a : Byte)].count c else 0)
      = k.text.count c := by
  rw [Conv.fillWidth]
  split
  next h =>
    rw [if_pos h]
    exact count_withWidth hc hminus h _
  next ds h =>
    have hne : k.width ≠ .star := by rw [h]; exact nofun
    rw [if_neg hne, add_zero]

theorem count_fillPrecision (hc : isDigit c = false) (k : Conv) (args : Args) :
    (k.fillPrecision args).1.text.count c +
      (if k.precision = some .star then [(0x2a : Byte)].count c else 0) = k.text.count c := by
  rw [Conv.fillPrecision]
  split
  next h =>
    rw [if_pos h]
    exact count_withPrecision hc h _
  next h => rw [if_neg h, add_zero]

theorem withWidth_precision (k : Conv) (w : ℤ) : (k.withWidth w).precision = k.precision := rfl

theorem fillWidth_precision (k : Conv) (args : Args) :
    (k.fillWidth args).1.precision = k.precision := by
  rw [Conv.fillWidth]
  split
  · exact withWidth_precision k _
  · rfl

theorem count_fill (hc : isDigit c = false) (hminus : c ≠ 0x2d) (k : Conv) (args : Args) :
    (k.fill args).1.text.count c + (if k.width = .star then [(0x2a : Byte)].count c else 0) +
      (if k.precision = some .star then [(0x2a : Byte)].count c else 0) = k.text.count c := by
  have hwidth := count_fillWidth hc hminus k args
  have hprecision := count_fillPrecision hc (k.fillWidth args).1 (k.fillWidth args).2
  rw [fillWidth_precision] at hprecision
  rw [Conv.fill]
  omega

theorem count_fill_le (hc : isDigit c = false) (hminus : c ≠ 0x2d) (k : Conv) (args : Args) :
    (k.fill args).1.text.count c ≤ k.text.count c := by
  rw [← count_fill hc hminus k args]
  omega

/-- A star that is replaced is gone. -/
theorem count_fill_lt (h : k.Starred) (args : Args) :
    (k.fill args).1.text.count 0x2a < k.text.count 0x2a := by
  have hstar : [(0x2a : Byte)].count 0x2a = 1 := by decide
  rw [← count_fill (c := 0x2a) (by decide) (by decide) k args, hstar]
  rcases h with h | h <;> rw [if_pos h] <;> omega

theorem fill_of_not_starred (h : ¬k.Starred) (args : Args) : k.fill args = (k, args) := by
  obtain ⟨hwidth, hprecision⟩ := not_or.mp h
  have hfill : k.fillWidth args = (k, args) := by
    rw [Conv.fillWidth]
    split
    next h => exact absurd h hwidth
    next => rfl
  rw [Conv.fill, hfill, Conv.fillPrecision]
  split
  next h => exact absurd h hprecision
  next => rfl

theorem count_textOf_cons (q : Piece) (ps : List Piece) (c : Byte) :
    (textOf (q :: ps)).count c = q.text.count c + (textOf ps).count c := by
  rw [textOf, List.flatMap_cons, List.count_append, textOf]

theorem count_fillStars_le (hc : isDigit c = false) (hminus : c ≠ 0x2d) (ps : List Piece)
    (args : Args) : (textOf (fillStars ps args).1).count c ≤ (textOf ps).count c := by
  induction ps generalizing args with
  | nil => rfl
  | cons q ps ih =>
    cases q with
    | char d =>
      rw [fillStars, count_textOf_cons, count_textOf_cons]
      exact Nat.add_le_add_left (ih args) _
    | conv k =>
      have hk := count_fill_le hc hminus k args
      rw [fillStars, count_textOf_cons (.conv k)]
      split <;> rw [count_textOf_cons] <;> exact Nat.add_le_add hk (ih _)

theorem count_fillStars_lt (h : ∃ k, .conv k ∈ ps ∧ k.Starred) (args : Args) :
    (textOf (fillStars ps args).1).count 0x2a < (textOf ps).count 0x2a := by
  induction ps generalizing args with
  | nil => exact absurd h (by simp)
  | cons q ps ih =>
    obtain ⟨k, hmem, hstarred⟩ := h
    cases q with
    | char d =>
      rw [fillStars, count_textOf_cons, count_textOf_cons]
      have hrest : .conv k ∈ ps := (List.mem_cons.mp hmem).resolve_left nofun
      exact Nat.add_lt_add_left (ih ⟨k, hrest, hstarred⟩ args) _
    | conv k' =>
      have hle := fun args ↦ count_fillStars_le (c := 0x2a) (by decide) (by decide) ps args
      have hk' := count_fill_le (c := 0x2a) (by decide) (by decide) k' args
      rw [fillStars, count_textOf_cons (.conv k')]
      rcases List.mem_cons.mp hmem with heq | hmem'
      · cases heq
        have hlt := count_fill_lt hstarred args
        split <;> rw [count_textOf_cons] <;> exact Nat.add_lt_add_of_lt_of_le hlt (hle _)
      · have hlt := fun args ↦ ih ⟨k, hmem', hstarred⟩ args
        split <;> rw [count_textOf_cons] <;> exact Nat.add_lt_add_of_le_of_lt hk' (hlt _)

theorem fillStars_of_not_starred (h : ∀ k, .conv k ∈ ps → ¬k.Starred) (args : Args) :
    fillStars ps args = (ps, args) := by
  induction ps generalizing args with
  | nil => rfl
  | cons q ps ih =>
    have hrest := fun args ↦ ih (fun k hk ↦ h k (List.mem_cons_of_mem _ hk)) args
    cases q with
    | char d => rw [fillStars, hrest]
    | conv k =>
      rw [fillStars, fill_of_not_starred (h k List.mem_cons_self)]
      dsimp only
      rw [hrest, hrest]
      split
      · exact congrArg (_, ·) (Stream'.eta args)
      · rfl

end Stars

/-! ## What becomes of a star -/

section Emitted

variable {u : List Byte} {args : Args} {flags : Flags} {str : Addr → List Byte}

theorem count_star_cons {c : Byte} (hc : c ≠ 0x2a) (u : List Byte) :
    (c :: u).count 0x2a = u.count 0x2a := List.count_cons_of_ne hc

theorem count_star_tail (h : peek u ≠ 0x2a) : u.tail.count 0x2a = u.count 0x2a := by
  cases u with
  | nil => rfl
  | cons c u => exact (count_star_cons h u).symm

theorem atoi_star (u : List Byte) (i : ℤ) : (atoi u i).2.count 0x2a = u.count 0x2a := by
  induction u generalizing i with
  | nil => rfl
  | cons c u ih =>
    rw [atoi]
    split
    next hc =>
      have hne : c ≠ 0x2a := fun h ↦ absurd (h ▸ hc) (by decide)
      rw [count_star_cons hne]
      exact ih _
    next => rfl

theorem flagsOf_star (u : List Byte) (flags : Flags) :
    (flagsOf u flags).2.count 0x2a = u.count 0x2a := by
  induction u generalizing flags with
  | nil => rfl
  | cons c u ih =>
    rw [flagsOf]
    split
    next flags' hc =>
      have hne : c ≠ 0x2a := by
        rintro rfl
        have hnone : setFlag 0x2a flags = none := rfl
        exact Option.some_ne_none _ (hc.symm.trans hnone)
      rw [count_star_cons hne]
      exact ih _
    next => rfl

theorem widthOf_star (u : List Byte) (flags : Flags) (args : Args) :
    (widthOf u flags args).2.2.1.count 0x2a = u.count 0x2a := by
  rw [widthOf]
  split_ifs
  · exact atoi_star u 0
  all_goals rfl

theorem pointOf_star (u : List Byte) (args : Args) :
    (pointOf u args).2.1.count 0x2a = u.count 0x2a := by
  rw [pointOf]
  split_ifs
  · exact atoi_star u 0
  all_goals rfl

theorem precisionOf_star (u : List Byte) (args : Args) :
    (precisionOf u args).2.1.count 0x2a = u.count 0x2a := by
  rw [precisionOf]
  split
  next h => exact (pointOf_star u.tail args).trans (count_star_tail (by rw [h]; decide))
  next => rfl

theorem skipQualifier_star (u : List Byte) : (skipQualifier u).count 0x2a = u.count 0x2a := by
  rw [skipQualifier]
  split
  next h => exact count_star_tail (by rcases h with h | h | h <;> rw [h] <;> decide)
  next => rfl

theorem directive_star (u : List Byte) (args : Args) :
    (directive u args).rest.count 0x2a = u.count 0x2a :=
  (skipQualifier_star _).trans ((precisionOf_star _ _).trans
    ((widthOf_star _ _ _).trans (flagsOf_star _ _)))

theorem digitAt_ne_star (small : Bool) {d : ℕ} (h : d < 36) : digitAt small d ≠ 0x2a := by
  revert d
  cases small <;> decide

theorem star_notMem_tmpBytes {num : BitVec 64} {base : ℤ} {type : Flags} (hbase : 2 ≤ base)
    (hbase' : base ≤ 36) : 0x2a ∉ tmpBytes num base type := by
  have hlow : 2 ≤ base.toNat := by omega
  rw [tmpBytes]
  split
  · decide
  · rw [fillTmp_eq _ hlow, List.mem_map]
    rintro ⟨d, hd, heq⟩
    have hlt : d < 36 := (Nat.digits_lt_base hlow hd).trans_le (by omega)
    exact digitAt_ne_star type.small hlt heq

theorem star_notMem_specialBytes (base : ℤ) (type : Flags) : 0x2a ∉ specialBytes base type := by
  rw [specialBytes]
  cases type.small <;> split_ifs <;> decide

theorem star_notMem_signText (type : Flags) : 0x2a ∉ signText type := by
  rw [signText]
  split_ifs <;> decide

/-- No number has a star in its text. -/
theorem number_star {num : BitVec 64} {base size precision : ℤ} {type : Flags} {out : List Byte}
    (hbase : 2 ≤ base) (hbase' : base ≤ 36)
    (hout : number num base size precision type = some out) : 0x2a ∉ out := by
  have hpad : ∀ (p : Prop) [Decidable p], (if p then 0x30 else 0x20 : Byte) ≠ 0x2a := by
    intro p hp
    split_ifs <;> decide
  cases (number_eq hbase hbase').symm.trans hout
  simp only [List.mem_append, List.mem_reverse, not_or]
  refine ⟨⟨⟨⟨⟨⟨?_, star_notMem_signText type⟩, star_notMem_specialBytes base type⟩, ?_⟩, ?_⟩,
    star_notMem_tmpBytes hbase hbase'⟩, ?_⟩
  · exact fun h ↦ absurd (List.eq_of_mem_replicate h) (by decide)
  · exact fun h ↦ hpad _ (List.eq_of_mem_replicate h).symm
  · exact fun h ↦ absurd (List.eq_of_mem_replicate h) (by decide)
  · exact fun h ↦ absurd (List.eq_of_mem_replicate h) (by decide)

theorem stringBytes_star {text : List Byte} (h : 0x2a ∉ text) (width precision : ℤ)
    (flags : Flags) : 0x2a ∉ stringBytes text width precision flags := by
  have htake : ∀ n, 0x2a ∉ text.take n := fun n hmem ↦ h (List.mem_of_mem_take hmem)
  simp only [stringBytes, countdown_eq]
  cases flags.left <;> simp [List.mem_replicate] <;> exact htake _

theorem getD_number_star {num : BitVec 64} {base size precision : ℤ} {type : Flags}
    {args' : Args} (hbase : 2 ≤ base) (hbase' : base ≤ 36) :
    (((number num base size precision type).map (·, args)).getD ([], args')).1.count 0x2a = 0 := by
  cases h : number num base size precision type with
  | none => rfl
  | some out => exact List.count_eq_zero.mpr (number_star hbase hbase' h)

/-- The character of a conversion that takes no argument is stored as it is. -/
theorem unknown_star (u : List Byte) :
    (unknownBytes (peek u)).count 0x2a + u.tail.count 0x2a = u.count 0x2a := by
  have hpercent : (if peek u ≠ 0x25 then [(0x25 : Byte)] else []).count 0x2a = 0 := by
    split_ifs <;> decide
  rw [unknownBytes, List.count_append, hpercent, Nat.zero_add]
  cases u with
  | nil => rfl
  | cons c u =>
    rw [peek_cons, List.tail_cons]
    split
    next => exact (@List.count_append _ _ 0x2a [c] u).symm
    next h =>
      rw [not_not.mp h, count_star_cons (by decide), List.count_nil, Nat.zero_add]

/-- A conversion that reads an argument stores no star, and any other stores its character. -/
theorem convert_star (hstr : ∀ p, 0x2a ∉ str p) (d : Directive) :
    (d.convert str).1.count 0x2a + d.rest.tail.count 0x2a = d.rest.count 0x2a := by
  have hletter : ∀ c : Byte, peek d.rest = c → c ≠ 0x2a →
      d.rest.tail.count 0x2a = d.rest.count 0x2a := by
    rintro c rfl hc
    exact count_star_tail hc
  have htext := stringBytes_star (hstr d.args.head) d.width d.precision d.flags
  rw [Directive.convert, VimOS.convert]
  split_ifs with hs hx hX hd hu
  · rw [hletter _ hs (by decide)]
    exact (congrArg (· + _) (List.count_eq_zero.mpr htext)).trans (Nat.zero_add _)
  · rw [getD_number_star (by norm_num) (by norm_num), hletter _ hx (by decide), Nat.zero_add]
  · rw [getD_number_star (by norm_num) (by norm_num), hletter _ hX (by decide), Nat.zero_add]
  · rw [getD_number_star (by norm_num) (by norm_num), Nat.zero_add]
    rcases hd with hd | hd <;> exact hletter _ hd (by decide)
  · rw [getD_number_star (by norm_num) (by norm_num), hletter _ hu (by decide), Nat.zero_add]
  · exact unknown_star d.rest

/-- **Each star of a format is printed**, once, if the strings have none. -/
theorem count_format (hstr : ∀ p, 0x2a ∉ str p) (u : List Byte) (args : Args) :
    (format str u args).count 0x2a = u.count 0x2a := by
  induction u, args using format.induct str with
  | case1 args => rw [format]
  | case2 args u ih =>
    have hconvert := convert_star hstr (directive u args)
    rw [format, if_pos rfl, List.count_append, ih, hconvert, directive_star,
      count_star_cons (by decide)]
  | case3 args c u hc ih => rw [format, if_neg hc, List.count_cons, List.count_cons, ih]

end Emitted

/-! ## Stars against numbers -/

/-- The format and the arguments without the stars. -/
def literal (fmt : List Byte) (args : Args) : List Byte × Args :=
  (textOf (fillStars (parse fmt) args).1, (fillStars (parse fmt) args).2)

/-- A star stands for a width or a precision somewhere in the format. -/
def HasStar (fmt : List Byte) : Prop := ∃ k, .conv k ∈ parse fmt ∧ k.Starred

/-- `vsprintf` stores the same for the format and for the one with numbers for its stars. -/
def SameAsLiteral (fmt : List Byte) (str : Addr → List Byte) (args : Args) : Prop :=
  ∃ out, (∀ fuel, fmt.length < fuel → vsprintf fuel fmt str args = .ok out) ∧
    ∀ fuel, (literal fmt args).1.length < fuel →
      vsprintf fuel (literal fmt args).1 str (literal fmt args).2 = .ok out

section Literal

variable {fmt : List Byte} {str : Addr → List Byte} {args : Args}

theorem nul_notMem_literal (hnul : 0 ∉ fmt) (args : Args) : 0 ∉ (literal fmt args).1 := by
  have hle := count_fillStars_le (c := 0) (by decide) (by decide) (parse fmt) args
  rw [textOf_parse, List.count_eq_zero.mpr hnul] at hle
  exact List.count_eq_zero.mp (Nat.le_zero.mp hle)

theorem literal_of_not_hasStar (h : ¬HasStar fmt) (args : Args) :
    literal fmt args = (fmt, args) := by
  rw [literal, fillStars_of_not_starred (fun k hk hstarred ↦ h ⟨k, hk, hstarred⟩), textOf_parse]

/-- The code prints a star that should have been replaced, so the two texts differ in the number
of their stars. -/
theorem not_sameAsLiteral (hnul : 0 ∉ fmt) (hstar : HasStar fmt) (hstr : ∀ p, 0x2a ∉ str p)
    (args : Args) : ¬SameAsLiteral fmt str args := by
  rintro ⟨out, hout, hliteral⟩
  have hfmt := (vsprintf_eq hnul (Nat.lt_succ_self _) str args).symm.trans
    (hout _ (Nat.lt_succ_self _))
  have hlit := (vsprintf_eq (nul_notMem_literal hnul args) (Nat.lt_succ_self _) str
    (literal fmt args).2).symm.trans (hliteral _ (Nat.lt_succ_self _))
  have hcount : fmt.count 0x2a = (literal fmt args).1.count 0x2a :=
    calc fmt.count 0x2a = (format str fmt args).count 0x2a := (count_format hstr fmt args).symm
      _ = out.count 0x2a := congrArg _ (Except.ok.inj hfmt)
      _ = (format str _ (literal fmt args).2).count 0x2a :=
        congrArg _ (Except.ok.inj hlit).symm
      _ = _ := count_format hstr _ _
  have hlt := count_fillStars_lt hstar args
  rw [textOf_parse, hcount] at hlt
  exact absurd hlt (lt_irrefl _)

/-- **Stars equal their numbers** on the formats without a star only. The code never steps over a
star, so a format with one differs from its literal form for all arguments, unless a string
brings a star of its own. -/
theorem sameAsLiteral_iff (fmt : List Byte) (hnul : 0 ∉ fmt) :
    ((∀ str args, SameAsLiteral fmt str args) ↔ ¬HasStar fmt) ∧
      (HasStar fmt → ∀ str args, (∀ p, 0x2a ∉ str p) → ¬SameAsLiteral fmt str args) := by
  refine ⟨⟨fun h hstar ↦ ?_, fun h str args ↦ ?_⟩,
    fun hstar _ args hstr ↦ not_sameAsLiteral hnul hstar hstr args⟩
  · exact not_sameAsLiteral hnul hstar (fun _ ↦ List.not_mem_nil) (fun _ ↦ 0)
      (h (fun _ ↦ []) fun _ ↦ 0)
  · have hsame : ∀ fuel, fmt.length < fuel →
        vsprintf fuel fmt str args = .ok (format str fmt args) := fun _ hfuel ↦
      vsprintf_eq hnul hfuel str args
    rw [SameAsLiteral, literal_of_not_hasStar h]
    exact ⟨_, hsame, hsame⟩

/-- The format `%*d`. -/
theorem hasStar_width : HasStar [0x25, 0x2a, 0x64] := by
  refine ⟨(parseConv [0x2a, 0x64]).1, ?_, .inl rfl⟩
  rw [parse, if_pos rfl]
  exact List.mem_cons_self

theorem sameAsLiteral_iff_width : ∃ str args, ¬SameAsLiteral [0x25, 0x2a, 0x64] str args := by
  by_contra hall
  push Not at hall
  exact (sameAsLiteral_iff [0x25, 0x2a, 0x64] (by decide)).1.mp hall hasStar_width

/-- With the arguments 5 and 7 the format `%*d` is printed as it stands. -/
theorem not_sameAsLiteral_width :
    ¬SameAsLiteral [0x25, 0x2a, 0x64] (fun _ ↦ []) (Stream'.cons 5 (Stream'.const 7)) :=
  not_sameAsLiteral (by decide) hasStar_width (fun _ ↦ List.not_mem_nil) _

end Literal

end VimOS
