import Mathlib.Data.Stream.Defs
import VimOS.Stdlib.Number

/-!
# Scanning a format

`vsprintf` of `stdlib/vsprintf.c`. The format lies in memory as its bytes and a NUL, `fmt` is an
index into them, and reading behind the NUL is a fault; so is running out of the fuel that bounds
each loop. The argument area is a stream of 64-bit slots, of which `va_arg` takes one after the
other.

A second reading of the same function works on what is left of the format: it needs no index and
no fuel, and the rest of the development is about it. The two agree on every format.
-/

namespace VimOS

open Signed32

/-! ## The code -/

/-- How the scan goes wrong: `fmt` behind the NUL, a loop that does not end, `str` null. -/
inductive Fault
  | overread
  | fuel
  | null
  deriving DecidableEq

/-- The slots of a `va_list`. -/
abbrev Args := Stream' (BitVec 64)

/-- `va_arg(args, int)`, which reads the lower half of a slot. -/
@[irreducible] def vaInt (args : Args) : ℤ := wrap args.head.toNat

/-- The macro `is_digit`. -/
def isDigit (c : Byte) : Bool := decide (0x30 ≤ c ∧ c ≤ 0x39)

/-- The flag that a character of the first `switch` sets. -/
def setFlag (c : Byte) (flags : Flags) : Option Flags :=
  if c = 0x2d then some { flags with left := true }
  else if c = 0x2b then some { flags with plus := true }
  else if c = 0x20 then some { flags with space := true }
  else if c = 0x23 then some { flags with special := true }
  else if c = 0x30 then some { flags with zeropad := true }
  else none

/-- `fmt[pos]`, where the bytes of `s` and a NUL lie at `fmt`. -/
def fetch (s : List Byte) (pos : ℕ) : Except Fault Byte :=
  match (s ++ [0])[pos]? with
  | some c => .ok c
  | none => .error .overread

/-- `skip_atoi`, `i` the number so far. -/
def skipAtoi (s : List Byte) : ℕ → ℕ → ℤ → Except Fault (ℤ × ℕ)
  | 0, _, _ => .error .fuel
  | fuel + 1, pos, i => do
    let c ← fetch s pos
    if isDigit c then skipAtoi s fuel (pos + 1) (wrap (i * 10 + c.toNat - 48)) else pure (i, pos)

/-- The loop `repeat`, entered with `fmt` at the percent sign or at the flag before. -/
def scanFlags (s : List Byte) : ℕ → ℕ → Flags → Except Fault (Flags × ℕ)
  | 0, _, _ => .error .fuel
  | fuel + 1, pos, flags => do
    let c ← fetch s (pos + 1)
    match setFlag c flags with
    | some flags => scanFlags s fuel (pos + 1) flags
    | none => pure (flags, pos + 1)

/-- The field width. After a star `fmt` stays where it is. -/
def scanWidth (s : List Byte) (fuel pos : ℕ) (flags : Flags) (args : Args) :
    Except Fault (ℤ × Flags × ℕ × Args) := do
  let c ← fetch s pos
  if isDigit c then
    let (width, pos) ← skipAtoi s fuel pos 0
    pure (width, flags, pos, args)
  else if c = 0x2a then
    if vaInt args < 0 then pure (wrap (-vaInt args), { flags with left := true }, pos, args.tail)
    else pure (vaInt args, flags, pos, args.tail)
  else pure (-1, flags, pos, args)

/-- The number behind the point of a precision. After a star `fmt` stays where it is. -/
def scanPoint (s : List Byte) (fuel pos : ℕ) (args : Args) : Except Fault (ℤ × ℕ × Args) := do
  let c ← fetch s pos
  if isDigit c then
    let (precision, pos) ← skipAtoi s fuel pos 0
    pure (precision, pos, args)
  else if c = 0x2a then pure (vaInt args, pos, args.tail)
  else pure (-1, pos, args)

/-- The precision. -/
def scanPrecision (s : List Byte) (fuel pos : ℕ) (args : Args) :
    Except Fault (ℤ × ℕ × Args) := do
  let c ← fetch s pos
  if c = 0x2e then
    let (precision, pos, args) ← scanPoint s fuel (pos + 1) args
    pure (if precision < 0 then 0 else precision, pos, args)
  else pure (-1, pos, args)

/-- The qualifier, which is stored and never read. -/
def scanQualifier (s : List Byte) (pos : ℕ) : Except Fault ℕ := do
  let c ← fetch s pos
  pure (if c = 0x68 ∨ c = 0x6c ∨ c = 0x4c then pos + 1 else pos)

/-- The case `s`: `text` is the string that the argument points to. -/
def stringBytes (text : List Byte) (width precision : ℤ) (flags : Flags) : List Byte :=
  let len := wrap text.length
  let len := if precision < 0 then len else if precision < len then precision else len
  let before := if !flags.left then countdown 0x20 len width else ([], width)
  before.1 ++ text.take len.toNat ++ (countdown 0x20 len before.2).1

/-- The default case: a percent sign unless `c` is one, and `c` unless it is the NUL. -/
def unknownBytes (c : Byte) : List Byte :=
  (if c ≠ 0x25 then [0x25] else []) ++ (if c ≠ 0 then [c] else [])

/-- The second `switch` for the character `c`: what is stored, and the slots that are left. -/
def convert (str : Addr → List Byte) (c : Byte) (flags : Flags) (width precision : ℤ)
    (args : Args) : Option (List Byte × Args) :=
  if c = 0x73 then some (stringBytes (str args.head) width precision flags, args.tail)
  else if c = 0x78 then
    (number args.head 16 width precision { flags with small := true }).map (·, args.tail)
  else if c = 0x58 then (number args.head 16 width precision flags).map (·, args.tail)
  else if c = 0x64 ∨ c = 0x69 then
    (number args.head 10 width precision { flags with sign := true }).map (·, args.tail)
  else if c = 0x75 then (number args.head 10 width precision flags).map (·, args.tail)
  else some (unknownBytes c, args)

/-- The loop over the format, from index `pos` on: the bytes stored. -/
def scan (s : List Byte) (str : Addr → List Byte) : ℕ → ℕ → Args → Except Fault (List Byte)
  | 0, _, _ => .error .fuel
  | fuel + 1, pos, args => do
    let c ← fetch s pos
    if c = 0 then pure []
    else if c ≠ 0x25 then
      let out ← scan s str fuel (pos + 1) args
      pure (c :: out)
    else
      let (flags, pos) ← scanFlags s fuel pos Flags.none
      let (width, flags, pos, args) ← scanWidth s fuel pos flags args
      let (precision, pos, args) ← scanPrecision s fuel pos args
      let pos ← scanQualifier s pos
      let c ← fetch s pos
      match convert str c flags width precision args with
      | none => .error .null
      | some (bytes, args) =>
        -- at the NUL the default case steps back, for the loop to step onto it again
        let pos := if c = 0 then pos - 1 else pos
        let out ← scan s str fuel (pos + 1) args
        pure (bytes ++ out)

/-- `vsprintf`: the text stored at `buf`, without the NUL behind it. -/
def vsprintf (fuel : ℕ) (fmt : List Byte) (str : Addr → List Byte) (args : Args) :
    Except Fault (List Byte) := scan fmt str fuel 0 args

/-! ## What is left of the format -/

/-- `*fmt`: the next character, at the end the NUL. -/
def peek (u : List Byte) : Byte := u.headD 0

/-- The number at the front of `u`, and what stands behind it. -/
def atoi : List Byte → ℤ → ℤ × List Byte
  | [], i => (i, [])
  | c :: u, i => if isDigit c then atoi u (wrap (i * 10 + c.toNat - 48)) else (i, c :: u)

/-- The flags at the front of `u`, and what stands behind them. -/
def flagsOf : List Byte → Flags → Flags × List Byte
  | [], flags => (flags, [])
  | c :: u, flags =>
    match setFlag c flags with
    | some flags => flagsOf u flags
    | none => (flags, c :: u)

/-- The width at the front of `u`. -/
def widthOf (u : List Byte) (flags : Flags) (args : Args) : ℤ × Flags × List Byte × Args :=
  if isDigit (peek u) then ((atoi u 0).1, flags, (atoi u 0).2, args)
  else if peek u = 0x2a then
    if vaInt args < 0 then (wrap (-vaInt args), { flags with left := true }, u, args.tail)
    else (vaInt args, flags, u, args.tail)
  else (-1, flags, u, args)

/-- The number behind the point of a precision, `-1` for none. -/
def pointOf (u : List Byte) (args : Args) : ℤ × List Byte × Args :=
  if isDigit (peek u) then ((atoi u 0).1, (atoi u 0).2, args)
  else if peek u = 0x2a then (vaInt args, u, args.tail)
  else (-1, u, args)

/-- The precision at the front of `u`. -/
def precisionOf (u : List Byte) (args : Args) : ℤ × List Byte × Args :=
  if peek u = 0x2e then
    (if (pointOf u.tail args).1 < 0 then 0 else (pointOf u.tail args).1, (pointOf u.tail args).2)
  else (-1, u, args)

/-- What stands behind the qualifier. -/
def skipQualifier (u : List Byte) : List Byte :=
  if peek u = 0x68 ∨ peek u = 0x6c ∨ peek u = 0x4c then u.tail else u

/-- A conversion up to its character: `rest` starts with that character. -/
structure Directive where
  flags : Flags
  width : ℤ
  precision : ℤ
  rest : List Byte
  args : Args

/-- The conversion whose text starts with `u`, behind the percent sign. -/
def directive (u : List Byte) (args : Args) : Directive :=
  let f := flagsOf u Flags.none
  let w := widthOf f.2 f.1 args
  let p := precisionOf w.2.2.1 w.2.2.2
  ⟨w.2.1, w.1, p.1, skipQualifier p.2.1, p.2.2⟩

/-- What a conversion stores, and the slots that are left. -/
def Directive.convert (d : Directive) (str : Addr → List Byte) : List Byte × Args :=
  (VimOS.convert str (peek d.rest) d.flags d.width d.precision d.args).getD ([], d.args)

section Rest

variable {u : List Byte} {args : Args} {flags : Flags}

theorem length_atoi_le (u : List Byte) (i : ℤ) : (atoi u i).2.length ≤ u.length := by
  induction u generalizing i with
  | nil => rfl
  | cons c u ih =>
    rw [atoi]
    split
    · exact (ih _).trans (Nat.le_succ _)
    · rfl

theorem length_flagsOf_le (u : List Byte) (flags : Flags) :
    (flagsOf u flags).2.length ≤ u.length := by
  induction u generalizing flags with
  | nil => rfl
  | cons c u ih =>
    rw [flagsOf]
    split
    · exact (ih _).trans (Nat.le_succ _)
    · rfl

theorem length_widthOf_le (u : List Byte) (flags : Flags) (args : Args) :
    (widthOf u flags args).2.2.1.length ≤ u.length := by
  rw [widthOf]
  split_ifs
  · exact length_atoi_le u 0
  all_goals rfl

theorem length_pointOf_le (u : List Byte) (args : Args) :
    (pointOf u args).2.1.length ≤ u.length := by
  rw [pointOf]
  split_ifs
  · exact length_atoi_le u 0
  all_goals rfl

theorem length_tail_le (u : List Byte) : u.tail.length ≤ u.length := by
  rw [List.length_tail]
  exact Nat.sub_le _ _

theorem length_precisionOf_le (u : List Byte) (args : Args) :
    (precisionOf u args).2.1.length ≤ u.length := by
  rw [precisionOf]
  split
  · exact (length_pointOf_le u.tail args).trans (length_tail_le u)
  · rfl

theorem length_skipQualifier_le (u : List Byte) : (skipQualifier u).length ≤ u.length := by
  rw [skipQualifier]
  split_ifs
  · exact length_tail_le u
  · rfl

theorem length_directive_le (u : List Byte) (args : Args) :
    (directive u args).rest.length ≤ u.length :=
  (length_skipQualifier_le _).trans ((length_precisionOf_le _ _).trans
    ((length_widthOf_le _ _ _).trans (length_flagsOf_le _ _)))

end Rest

/-- What `vsprintf` stores for the rest `u` of a format. -/
def format (str : Addr → List Byte) (u : List Byte) (args : Args) : List Byte :=
  match u with
  | [] => []
  | c :: u =>
    if c = 0x25 then
      ((directive u args).convert str).1 ++
        format str (directive u args).rest.tail ((directive u args).convert str).2
    else c :: format str u args
termination_by u.length
decreasing_by
  · have h := length_directive_le u args
    rw [List.length_tail, List.length_cons]
    omega
  · exact Nat.lt_succ_self _

/-! ## The two readings agree -/

/-- `u` is what stands at index `pos` of the format `s`, up to the NUL. -/
structure At (s : List Byte) (pos : ℕ) (u : List Byte) : Prop where
  le : pos ≤ s.length
  drop_eq : s.drop pos = u

section Agree

variable {s u v : List Byte} {pos fuel : ℕ} {c : Byte} {args : Args} {flags : Flags}

theorem At.length (h : At s pos u) : pos + u.length = s.length := by
  have hle := h.le
  rw [← h.drop_eq, List.length_drop]
  omega

theorem At.next (h : At s pos (c :: u)) : At s (pos + 1) u := by
  have hlen := h.length
  rw [List.length_cons] at hlen
  exact ⟨by omega, by rw [← List.tail_drop, h.drop_eq, List.tail_cons]⟩

/-- **No read behind the NUL** at an index of the format. -/
theorem At.fetch (h : At s pos u) : fetch s pos = .ok (peek u) := by
  have hget : (s ++ [0])[pos]? = some (peek u) := by
    rw [← List.head?_drop, List.drop_append_of_le_length h.le, h.drop_eq]
    cases u with
    | nil => rfl
    | cons c u => rfl
  rw [VimOS.fetch, hget]

theorem fetch_of_length_lt (h : s.length < pos) : fetch s pos = .error .overread := by
  rw [VimOS.fetch, List.getElem?_eq_none]
  rw [List.length_append, List.length_singleton]
  omega

theorem exists_cons_of_peek (h : peek u = c) (hc : c ≠ 0) : ∃ v, u = c :: v := by
  cases u with
  | nil => exact absurd h.symm hc
  | cons d v => exact ⟨v, by rw [← h]; rfl⟩

@[simp] theorem peek_cons : peek (c :: u) = c := rfl

theorem ok_bind {α β : Type} (a : α) (f : α → Except Fault β) : (Except.ok a >>= f) = f a := rfl

theorem skipAtoi_at (h : At s pos u) (hfuel : u.length < fuel) (i : ℤ) :
    ∃ pos', skipAtoi s fuel pos i = .ok ((atoi u i).1, pos') ∧ At s pos' (atoi u i).2 := by
  induction fuel generalizing pos u i with
  | zero => exact absurd hfuel (Nat.not_lt_zero _)
  | succ fuel ih =>
    rw [skipAtoi, h.fetch, ok_bind]
    cases u with
    | nil => exact ⟨pos, rfl, h⟩
    | cons c u =>
      rw [peek_cons, atoi]
      split
      · exact ih h.next (Nat.lt_of_succ_lt_succ hfuel) _
      · exact ⟨pos, rfl, h⟩

theorem scanFlags_at (h : At s (pos + 1) u) (hfuel : u.length < fuel) (flags : Flags) :
    ∃ pos', scanFlags s fuel pos flags = .ok ((flagsOf u flags).1, pos') ∧
      At s pos' (flagsOf u flags).2 := by
  induction fuel generalizing pos u flags with
  | zero => exact absurd hfuel (Nat.not_lt_zero _)
  | succ fuel ih =>
    rw [scanFlags, h.fetch, ok_bind]
    cases u with
    | nil => exact ⟨pos + 1, rfl, h⟩
    | cons c u =>
      rw [peek_cons, flagsOf]
      cases hc : setFlag c flags with
      | some flags' => exact ih h.next (Nat.lt_of_succ_lt_succ hfuel) flags'
      | none => exact ⟨pos + 1, rfl, h⟩

theorem scanWidth_at (h : At s pos u) (hfuel : u.length < fuel) (flags : Flags) (args : Args) :
    ∃ pos', scanWidth s fuel pos flags args = .ok ((widthOf u flags args).1,
        (widthOf u flags args).2.1, pos', (widthOf u flags args).2.2.2) ∧
      At s pos' (widthOf u flags args).2.2.1 := by
  rw [scanWidth, h.fetch, ok_bind, widthOf]
  split
  · obtain ⟨pos', hrun, hat⟩ := skipAtoi_at h hfuel 0
    exact ⟨pos', by rw [hrun]; rfl, hat⟩
  · split
    · split <;> exact ⟨pos, rfl, h⟩
    · exact ⟨pos, rfl, h⟩

theorem scanPoint_at (h : At s pos u) (hfuel : u.length < fuel) (args : Args) :
    ∃ pos', scanPoint s fuel pos args = .ok ((pointOf u args).1, pos', (pointOf u args).2.2) ∧
      At s pos' (pointOf u args).2.1 := by
  rw [scanPoint, h.fetch, ok_bind, pointOf]
  split
  · obtain ⟨pos', hrun, hat⟩ := skipAtoi_at h hfuel 0
    exact ⟨pos', by rw [hrun]; rfl, hat⟩
  · split <;> exact ⟨pos, rfl, h⟩

theorem scanPrecision_at (h : At s pos u) (hfuel : u.length < fuel) (args : Args) :
    ∃ pos', scanPrecision s fuel pos args = .ok ((precisionOf u args).1, pos',
        (precisionOf u args).2.2) ∧
      At s pos' (precisionOf u args).2.1 := by
  rw [scanPrecision, h.fetch, ok_bind, precisionOf]
  split
  next hpoint =>
    obtain ⟨v, rfl⟩ := exists_cons_of_peek hpoint (by decide)
    obtain ⟨pos', hrun, hat⟩ := scanPoint_at h.next (Nat.lt_of_succ_lt hfuel) args
    exact ⟨pos', by rw [hrun]; rfl, hat⟩
  next => exact ⟨pos, rfl, h⟩

theorem scanQualifier_at (h : At s pos u) :
    ∃ pos', scanQualifier s pos = .ok pos' ∧ At s pos' (skipQualifier u) := by
  rw [scanQualifier, h.fetch, ok_bind, skipQualifier]
  split
  next hc =>
    have hne : u ≠ [] := by
      rintro rfl
      revert hc
      decide
    obtain ⟨c, v, rfl⟩ := List.exists_cons_of_ne_nil hne
    exact ⟨pos + 1, rfl, h.next⟩
  next => exact ⟨pos, rfl, h⟩

/-- `number` is only called with bases it accepts. -/
theorem convert_ne_none (str : Addr → List Byte) (c : Byte) (flags : Flags) (width precision : ℤ)
    (args : Args) : convert str c flags width precision args ≠ none := by
  have hnumber : ∀ {num base type}, 2 ≤ base → base ≤ 36 →
      (number num base width precision type).map (·, args.tail) ≠ none := by
    intro num base type hbase hbase' hnone
    obtain ⟨out, hout, -⟩ := number_length num width precision type hbase hbase'
    exact absurd (hout.symm.trans (Option.map_eq_none_iff.mp hnone)) nofun
  rw [convert]
  split_ifs
  · exact nofun
  · exact hnumber (by norm_num) (by norm_num)
  · exact hnumber (by norm_num) (by norm_num)
  · exact hnumber (by norm_num) (by norm_num)
  · exact hnumber (by norm_num) (by norm_num)
  · exact nofun

theorem At.notMem (hnul : 0 ∉ s) (h : At s pos u) : 0 ∉ u := by
  rw [← h.drop_eq]
  exact fun hmem ↦ hnul (List.mem_of_mem_drop hmem)

/-- The loop goes on behind the character of a conversion, and at the NUL if that ended it. -/
theorem At.past (hnul : 0 ∉ s) (hs : s ≠ []) (h : At s pos u) :
    At s ((if peek u = 0 then pos - 1 else pos) + 1) u.tail := by
  cases u with
  | nil =>
    have hlen := h.length
    have hpos : 0 < s.length := List.length_pos_of_ne_nil hs
    rw [List.length_nil, add_zero] at hlen
    have hpeek : peek [] = 0 := rfl
    rwa [if_pos hpeek, Nat.sub_add_cancel (hlen ▸ hpos)]
  | cons c u =>
    have hc : c ≠ 0 := fun hc ↦ h.notMem hnul (hc ▸ List.mem_cons_self)
    rw [peek_cons, if_neg hc]
    exact h.next

/-- **The scan computes `format`**, with as much fuel as the format has characters. -/
theorem scan_at (hnul : 0 ∉ s) (str : Addr → List Byte) (h : At s pos u) (hfuel : u.length < fuel)
    (args : Args) : scan s str fuel pos args = .ok (format str u args) := by
  induction fuel generalizing pos u args with
  | zero => exact absurd hfuel (Nat.not_lt_zero _)
  | succ fuel ih =>
    rw [scan, h.fetch, ok_bind]
    cases u with
    | nil =>
      rw [format]
      rfl
    | cons c u =>
      have hc : c ≠ 0 := fun hc ↦ h.notMem hnul (hc ▸ List.mem_cons_self)
      have hlen : u.length < fuel := Nat.lt_of_succ_lt_succ hfuel
      rw [peek_cons, if_neg hc, format]
      by_cases hpercent : c = 0x25
      · -- the parts of the directive, one after the other
        obtain ⟨pos₁, hflags, hat₁⟩ := scanFlags_at h.next hlen Flags.none
        obtain ⟨pos₂, hwidth, hat₂⟩ := scanWidth_at hat₁
          ((length_flagsOf_le u _).trans_lt hlen) _ args
        obtain ⟨pos₃, hprecision, hat₃⟩ := scanPrecision_at hat₂
          (((length_widthOf_le _ _ _).trans (length_flagsOf_le u _)).trans_lt hlen) _
        obtain ⟨pos₄, hqualifier, hat₄⟩ := scanQualifier_at hat₃
        obtain ⟨⟨bytes, left⟩, hconvert⟩ := Option.ne_none_iff_exists'.mp
          (convert_ne_none str (peek (directive u args).rest) (directive u args).flags
            (directive u args).width (directive u args).precision (directive u args).args)
        have hrest : (directive u args).rest.tail.length < fuel :=
          ((length_tail_le _).trans (length_directive_le u args)).trans_lt hlen
        have hs : s ≠ [] := by
          rintro rfl
          exact absurd h.length (by simp)
        have hgo := ih (hat₄.past hnul hs) hrest left
        rw [if_neg (not_not.mpr hpercent), hflags, ok_bind]
        dsimp only
        rw [hwidth, ok_bind]
        dsimp only
        rw [hprecision, ok_bind]
        dsimp only
        rw [hqualifier, ok_bind, hat₄.fetch, ok_bind, if_pos hpercent, Directive.convert]
        simp only [directive] at hconvert hgo ⊢
        rw [hconvert]
        dsimp only
        rw [hgo]
        rfl
      · rw [if_neg hpercent, if_pos hpercent, ih h.next hlen]
        rfl

theorem vsprintf_eq (hnul : 0 ∉ s) (hfuel : s.length < fuel) (str : Addr → List Byte)
    (args : Args) : vsprintf fuel s str args = .ok (format str s args) :=
  scan_at hnul str ⟨Nat.zero_le _, List.drop_zero⟩ hfuel args

/-- **The scan ends at the NUL** of every format, wherever in a conversion that stands. -/
theorem vsprintf_ends (fmt : List Byte) (hnul : 0 ∉ fmt) (str : Addr → List Byte) (args : Args) :
    ∃ out, ∀ fuel, fmt.length < fuel → vsprintf fuel fmt str args = .ok out :=
  ⟨_, fun _ hfuel ↦ vsprintf_eq hnul hfuel str args⟩

/-- The format `%-5.*`, which ends after the star. -/
theorem vsprintf_ends_star : ∃ out, ∀ fuel, 5 < fuel →
    vsprintf fuel [0x25, 0x2d, 0x35, 0x2e, 0x2a] (fun _ ↦ []) (fun _ ↦ 0) = .ok out :=
  vsprintf_ends [0x25, 0x2d, 0x35, 0x2e, 0x2a] (by decide) (fun _ ↦ []) fun _ ↦ 0

end Agree

end VimOS
