import VimOS.Console.FrameBuffer
import VimOS.Stdlib.Vsprintf

/-!
# The console

`put_console` of `kernel/console.c`. One iteration of its loop first finds out what stands at `s`, a
character or an escape sequence, and how far to move on (`decodeInput`), and then moves the cursor
and draws (`Console.apply`). Only the first part reads the string, so only there can the end of the
string be passed; only the second changes the cursor.

The escape parser looks at the fourth character behind the escape after it has seen `\e[3`, without
asking whether the third is the NUL.
-/

namespace VimOS

open Signed32

/-! ## The code -/

/-- The static variables of `put_console`. -/
structure Console where
  x : ℤ
  y : ℤ
  tmpx : ℤ
  tmpy : ℤ
  colour : Rgb
  deriving DecidableEq

/-- A call of `put_char` or of `scroll_screen`. -/
inductive Drawing
  | putChar (glyph : Glyph)
  | scrollScreen
  deriving DecidableEq

/-- `(width / 8) * 8`. -/
def Geometry.cols (g : Geometry) : ℤ := wrap (g.width.tdiv 8 * 8)

/-- `(height / 16) * 16`. -/
def Geometry.rows (g : Geometry) : ℤ := wrap (g.height.tdiv 16 * 16)

/-- What one iteration of the loop deals with. -/
inductive Input
  | glyph (c : Byte)
  | tab
  | backspace
  | newline
  | up (num : ℕ)
  | down (num : ℕ)
  | right (num : ℕ)
  | left (num : ℕ)
  | colour (c : Byte)
  | nothing
  deriving DecidableEq

/-- Behind `\e[`: what is asked for, and by how much `s` is moved on. -/
def decodeEscape (mem : ℕ → Except Fault Byte) (pos : ℕ) : Except Fault (Input × ℕ) := do
  let c ← mem (pos + 2)
  if isDigit c then
    let num := c.toNat - 0x30
    let c ← mem (pos + 3)
    if c = 0x41 then pure (.up num, 4)
    else if c = 0x42 then pure (.down num, 4)
    else if c = 0x43 then pure (.right num, 4)
    else if c = 0x44 then pure (.left num, 4)
    else if num = 3 then
      -- `s[3]` may be the NUL here
      let m ← mem (pos + 4)
      if m = 0x6d then pure (.colour c, 5) else pure (.nothing, 3)
    else pure (.nothing, 3)
  else pure (.nothing, 2)

/-- What stands at `s[pos]`, and by how much `s` is moved on. -/
def decodeInput (mem : ℕ → Except Fault Byte) (pos : ℕ) : Except Fault (Input × ℕ) := do
  let c ← mem pos
  if c = 0x1b then
    let next ← mem (pos + 1)
    if next = 0x5b then decodeEscape mem pos else pure (.nothing, 1)
  else if c = 0x09 then pure (.tab, 1)
  else if c = 0x08 then pure (.backspace, 1)
  else if c = 0x0a then pure (.newline, 1)
  else if c = 0x0d then pure (.nothing, 1)
  else pure (.glyph c, 1)

/-- The `switch` for the colour; a character without a case leaves it as it is. -/
def rgbOf (c : Byte) (old : Rgb) : Rgb :=
  if c = 0x30 then ⟨0x00, 0x00, 0x00⟩
  else if c = 0x31 then ⟨0xff, 0x00, 0x00⟩
  else if c = 0x32 then ⟨0x00, 0xff, 0x00⟩
  else if c = 0x33 then ⟨0xff, 0xff, 0x00⟩
  else if c = 0x34 then ⟨0x00, 0x00, 0xff⟩
  else if c = 0x35 then ⟨0xff, 0xff, 0xff⟩
  else if c = 0x36 then ⟨0x00, 0xff, 0xff⟩
  else if c = 0x37 then ⟨0xff, 0xff, 0xff⟩
  else old

namespace Console

variable (g : Geometry) (k : Console)

/-- To the next line, which may be the one below the last. -/
def lineFeed : Console × List Drawing :=
  let k := { k with x := 0, y := wrap (k.y + 16) }
  if k.y = g.rows then ({ k with x := 0, y := wrap (k.y - 16) }, [.scrollScreen]) else (k, [])

/-- A printable character. -/
def print (c : Byte) : Console × List Drawing :=
  if k.x ≠ g.width then
    let glyph : Glyph := ⟨c, k.x, k.y, k.colour⟩
    let k := { k with x := wrap (k.x + 8) }
    if k.x = g.cols then ((k.lineFeed g).1, .putChar glyph :: (k.lineFeed g).2)
    else (k, [.putChar glyph])
  else (k, [])

/-- The width of a tab. -/
def tabWidth (x : ℤ) : ℤ := if (x.tdiv 8).tmod 2 ≠ 0 then 8 else 16

/-- The character before the cursor is covered by a black rectangle. -/
def backspace : Console × List Drawing :=
  if 8 ≤ k.x then
    let k := { k with x := wrap (k.x - 8) }
    (k, [.putChar ⟨0xdb, k.x, k.y, ⟨0, 0, 0⟩⟩])
  else (k, [])

/-- The saved position is restored first. -/
def newline : Console × List Drawing :=
  let x := if k.tmpx ≠ -1 then k.tmpx else k.x
  let y := if k.tmpy ≠ -1 then wrap (k.tmpy - 16) else k.y
  Console.lineFeed g ⟨x, y, -1, -1, ⟨0xff, 0xff, 0xff⟩⟩

def up (num : ℕ) : Console :=
  let tmpy := if k.tmpy = -1 then k.y else k.tmpy
  let y := wrap (k.y - 16 * num)
  { k with tmpy := tmpy, y := if y < 0 then 0 else y }

def down (num : ℕ) : Console :=
  let tmpy := if k.tmpy = -1 then k.y else k.tmpy
  let y := wrap (k.y + 16 * num)
  { k with tmpy := tmpy, y := if g.rows < y then wrap (g.rows - 16) else y }

def right (num : ℕ) : Console :=
  let tmpx := if k.tmpx = -1 then k.x else k.tmpx
  let x := wrap (k.x + 8 * num)
  { k with tmpx := tmpx, x := if g.cols < x then wrap (g.cols - 8) else x }

def left (num : ℕ) : Console :=
  let tmpx := if k.tmpx = -1 then k.x else k.tmpx
  let x := wrap (k.x - 8 * num)
  { k with tmpx := tmpx, x := if x < 0 then 0 else x }

/-- The cursor and the calls behind one input. -/
def apply : Input → Console × List Drawing
  | .glyph c => k.print g c
  | .tab => ({ k with x := wrap (k.x + tabWidth k.x) }, [])
  | .backspace => k.backspace
  | .newline => k.newline g
  | .up num => (k.up num, [])
  | .down num => (k.down g num, [])
  | .right num => (k.right g num, [])
  | .left num => (k.left num, [])
  | .colour c => ({ k with colour := rgbOf c k.colour }, [])
  | .nothing => (k, [])

end Console

/-- The loop of `put_console` from `s[pos]` on: the variables and the calls, and the index at which
it stops. -/
def putConsole (g : Geometry) (mem : ℕ → Except Fault Byte) :
    ℕ → ℕ → Console → Except Fault (Console × List Drawing × ℕ)
  | 0, _, _ => .error .fuel
  | fuel + 1, pos, k => do
    let c ← mem pos
    if c = 0 then pure (k, [], pos)
    else
      let (input, n) ← decodeInput mem pos
      let (after, rest, stop) ← putConsole g mem fuel (pos + n) (k.apply g input).1
      pure (after, (k.apply g input).2 ++ rest, stop)

/-! ## The end of the string -/

/-- `\e[3`, with nothing behind it. -/
def unfinished : List Byte := [0x1b, 0x5b, 0x33]

section Decode

variable {s u : List Byte} {pos : ℕ} {c : Byte}

theorem unfinished_suffix_cons (h : c :: u ≠ unfinished) :
    unfinished <:+ c :: u ↔ unfinished <:+ u := by
  rw [List.suffix_cons_iff, or_iff_right (Ne.symm h)]

/-- A character other than the escape does not begin the unfinished sequence. -/
theorem unfinished_suffix_of_ne (h : c ≠ 0x1b) : unfinished <:+ c :: u ↔ unfinished <:+ u :=
  unfinished_suffix_cons fun heq ↦ h (List.head_eq_of_cons_eq heq)

/-- What is decoded, and what is left of the string behind it: less, but ending in the unfinished
sequence just as before. -/
def Decoded (s u : List Byte) (pos : ℕ) (decoded : Except Fault (Input × ℕ)) : Prop :=
  ∃ input n v, decoded = .ok (input, n) ∧ At s (pos + n) v ∧ v.length < u.length ∧
    (unfinished <:+ u ↔ unfinished <:+ v)

theorem decoded_of {input : Input} {w v : List Byte} (hat : At s pos (w ++ v)) (hw : w ≠ [])
    (hsuffix : unfinished <:+ w ++ v ↔ unfinished <:+ v) :
    Decoded s (w ++ v) pos (.ok (input, w.length)) := by
  have hlen := hat.length
  have hpos := List.length_pos_iff.mpr hw
  rw [List.length_append] at hlen
  refine ⟨input, w.length, v, rfl, ⟨by omega, ?_⟩, by rw [List.length_append]; omega, hsuffix⟩
  rw [← List.drop_drop, hat.drop_eq, List.drop_left]

theorem ne_escape_of_isDigit (h : isDigit c = true) : c ≠ 0x1b := by
  rintro rfl
  revert h
  decide

/-- A sequence of four characters, the last of which is a letter. -/
theorem decoded_letter {input : Input} {letter : Byte}
    (hat : At s pos (0x1b :: 0x5b :: c :: u)) (hc : isDigit c = true) (hpeek : peek u = letter)
    (hnul : letter ≠ 0) (hletter : letter ≠ 0x1b) :
    Decoded s (0x1b :: 0x5b :: c :: u) pos (.ok (input, 4)) := by
  obtain ⟨v, rfl⟩ := exists_cons_of_peek hpeek hnul
  refine decoded_of (w := [0x1b, 0x5b, c, letter]) hat (by simp) ?_
  exact ((unfinished_suffix_cons (by simp [unfinished])).trans
    (unfinished_suffix_of_ne (by decide))).trans
      ((unfinished_suffix_of_ne (ne_escape_of_isDigit hc)).trans
        (unfinished_suffix_of_ne hletter))

/-- A sequence that is given up behind its digit. -/
theorem decoded_digit {input : Input} (hat : At s pos (0x1b :: 0x5b :: c :: u))
    (hc : isDigit c = true) (h : 0x1b :: 0x5b :: c :: u ≠ unfinished) :
    Decoded s (0x1b :: 0x5b :: c :: u) pos (.ok (input, 3)) :=
  decoded_of (w := [0x1b, 0x5b, c]) hat (by simp)
    ((unfinished_suffix_cons h).trans ((unfinished_suffix_of_ne (by decide)).trans
      (unfinished_suffix_of_ne (ne_escape_of_isDigit hc))))

theorem decodeEscape_at (hat : At s pos (0x1b :: 0x5b :: u))
    (h : 0x1b :: 0x5b :: u ≠ unfinished) :
    Decoded s (0x1b :: 0x5b :: u) pos (decodeEscape (fetch s) pos) := by
  have hthird : fetch s (pos + 2) = .ok (peek u) := hat.next.next.fetch
  rw [decodeEscape, hthird, ok_bind]
  split
  next hdigit =>
    have hne : peek u ≠ 0 := by
      intro hzero
      rw [hzero] at hdigit
      revert hdigit
      decide
    obtain ⟨v, hv⟩ := exists_cons_of_peek rfl hne
    generalize peek u = c at hdigit hne hv ⊢
    subst hv
    have hfourth : fetch s (pos + 3) = .ok (peek v) := hat.next.next.next.fetch
    rw [hfourth, ok_bind]
    split
    next hletter => exact decoded_letter hat hdigit hletter (by decide) (by decide)
    split
    next hletter => exact decoded_letter hat hdigit hletter (by decide) (by decide)
    split
    next hletter => exact decoded_letter hat hdigit hletter (by decide) (by decide)
    split
    next hletter => exact decoded_letter hat hdigit hletter (by decide) (by decide)
    split
    next hthree =>
      -- only here the fifth character is read, and the fourth is not the NUL
      have hc : c = 0x33 := by
        rw [← BitVec.toNat_inj]
        exact (by omega : c.toNat = 0x33)
      obtain ⟨d, v, rfl⟩ : ∃ d v', v = d :: v' := by
        refine List.exists_cons_of_ne_nil ?_
        rintro rfl
        exact h (by rw [hc]; rfl)
      have hfifth : fetch s (pos + 4) = .ok (peek v) := hat.next.next.next.next.fetch
      rw [hfifth, ok_bind]
      split
      next hm =>
        obtain ⟨v, rfl⟩ := exists_cons_of_peek hm (by decide)
        refine decoded_of (w := [0x1b, 0x5b, c, d, 0x6d]) hat (by simp) ?_
        exact ((unfinished_suffix_cons (by simp [unfinished])).trans
          (unfinished_suffix_of_ne (by decide))).trans
            ((unfinished_suffix_of_ne (ne_escape_of_isDigit hdigit)).trans
              ((unfinished_suffix_cons (by simp [unfinished])).trans
                (unfinished_suffix_of_ne (by decide))))
      next => exact decoded_digit hat hdigit h
    next => exact decoded_digit hat hdigit h
  next =>
    exact decoded_of (w := [0x1b, 0x5b]) hat (by simp)
      ((unfinished_suffix_cons h).trans (unfinished_suffix_of_ne (by decide)))

/-- **No read behind the NUL**, as long as what is left is not just the unfinished sequence. -/
theorem decodeInput_at (hat : At s pos (c :: u)) (h : c :: u ≠ unfinished) :
    Decoded s (c :: u) pos (decodeInput (fetch s) pos) := by
  have hone : ∀ {input : Input}, Decoded s (c :: u) pos (.ok (input, 1)) :=
    decoded_of (w := [c]) hat (by simp) (unfinished_suffix_cons h)
  rw [decodeInput, hat.fetch, ok_bind, peek_cons]
  split
  next hescape =>
    rw [hat.next.fetch, ok_bind]
    split
    next hbracket =>
      obtain ⟨v, rfl⟩ := exists_cons_of_peek hbracket (by decide)
      subst hescape
      exact decodeEscape_at hat h
    next => exact hone
  next => split_ifs <;> exact hone

/-- The unfinished sequence is looked at with the character behind the NUL. -/
theorem decodeInput_unfinished (hat : At s pos unfinished) :
    decodeInput (fetch s) pos = .error .overread := by
  have hlen : pos + 3 = s.length := hat.length
  have hthird : fetch s (pos + 2) = .ok 0x33 := hat.next.next.fetch
  have hfourth : fetch s (pos + 3) = .ok 0 := hat.next.next.next.fetch
  have hfifth : fetch s (pos + 4) = .error .overread := fetch_of_length_lt (by omega)
  rw [decodeInput, hat.fetch, ok_bind, unfinished, peek_cons, if_pos rfl, hat.next.fetch, ok_bind,
    peek_cons, if_pos rfl, decodeEscape, hthird, ok_bind, if_pos (by decide), hfourth, ok_bind,
    if_neg (by decide), if_neg (by decide), if_neg (by decide), if_neg (by decide),
    if_pos (by decide), hfifth]
  rfl

end Decode

/-! ## A whole string -/

section Strings

variable {g : Geometry} {s u : List Byte} {pos : ℕ} {k : Console}

/-- One iteration. -/
theorem putConsole_succ {mem : ℕ → Except Fault Byte} {c : Byte} {input : Input} {n : ℕ}
    (hmem : mem pos = .ok c) (hc : c ≠ 0) (hdecode : decodeInput mem pos = .ok (input, n))
    (fuel : ℕ) (k : Console) : putConsole g mem (fuel + 1) pos k = (do
      let (after, rest, stop) ← putConsole g mem fuel (pos + n) (k.apply g input).1
      pure (after, (k.apply g input).2 ++ rest, stop)) := by
  rw [putConsole, hmem, ok_bind, if_neg hc, hdecode, ok_bind]

theorem putConsole_ok (hnul : 0 ∉ s) (hat : At s pos u) (h : ¬unfinished <:+ u) (k : Console) :
    ∃ after calls, ∀ fuel, u.length < fuel →
      putConsole g (fetch s) fuel pos k = .ok (after, calls, s.length) := by
  induction hn : u.length using Nat.strong_induction_on generalizing u pos k with
  | _ n ih =>
    subst hn
    cases u with
    | nil =>
      have hlen := hat.length
      rw [List.length_nil, Nat.add_zero] at hlen
      refine ⟨k, [], fun fuel hfuel ↦ ?_⟩
      obtain ⟨fuel, rfl⟩ := Nat.exists_eq_add_one_of_ne_zero hfuel.ne'
      rw [putConsole, hat.fetch, ok_bind, ← hlen]
      rfl
    | cons c u =>
      have hc : c ≠ 0 := fun heq ↦ hat.notMem hnul (heq ▸ List.mem_cons_self)
      have hne : c :: u ≠ unfinished := fun heq ↦ h (heq ▸ List.suffix_rfl)
      obtain ⟨input, m, v, hdecode, hrest, hlen, hsuffix⟩ := decodeInput_at hat hne
      obtain ⟨after, calls, hrun⟩ := ih v.length hlen hrest (hsuffix.not.mp h)
        (k.apply g input).1 rfl
      refine ⟨after, (k.apply g input).2 ++ calls, fun fuel hfuel ↦ ?_⟩
      obtain ⟨fuel, rfl⟩ := Nat.exists_eq_add_one_of_ne_zero (Nat.ne_zero_of_lt hfuel)
      rw [putConsole_succ hat.fetch hc hdecode, hrun fuel (by omega)]
      rfl

theorem putConsole_error (hnul : 0 ∉ s) (hat : At s pos u) (h : unfinished <:+ u) (fuel : ℕ)
    (k : Console) : ∃ fault, putConsole g (fetch s) fuel pos k = .error fault := by
  induction fuel generalizing u pos k with
  | zero => exact ⟨.fuel, rfl⟩
  | succ fuel ih =>
    cases u with
    | nil => exact absurd (List.suffix_nil.mp h) (by decide)
    | cons c u =>
      have hc : c ≠ 0 := fun heq ↦ hat.notMem hnul (heq ▸ List.mem_cons_self)
      by_cases hne : c :: u = unfinished
      · refine ⟨.overread, ?_⟩
        have hfault := decodeInput_unfinished (hne ▸ hat)
        rw [putConsole, hat.fetch, ok_bind, peek_cons, if_neg hc, hfault]
        rfl
      · obtain ⟨input, m, v, hdecode, hrest, -, hsuffix⟩ := decodeInput_at hat hne
        obtain ⟨fault, hfault⟩ := ih hrest (hsuffix.mp h) (k.apply g input).1
        exact ⟨fault, by rw [putConsole_succ hat.fetch hc hdecode, hfault]; rfl⟩

/-- `put_console` returns at the NUL, with no read behind it. -/
def EndsAtNul (g : Geometry) (s : List Byte) (k : Console) : Prop :=
  ∃ n after calls, ∀ fuel, n ≤ fuel →
    putConsole g (fetch s) fuel 0 k = .ok (after, calls, s.length)

/-- **`put_console` never reads past the end of its string** exactly if that does not end in
`\e[3`. -/
theorem endsAtNul_iff (hnul : 0 ∉ s) (g : Geometry) (k : Console) :
    EndsAtNul g s k ↔ ¬unfinished <:+ s := by
  have hat : At s 0 s := ⟨Nat.zero_le _, rfl⟩
  constructor
  · rintro ⟨n, after, calls, hrun⟩ hsuffix
    obtain ⟨fault, hfault⟩ := putConsole_error hnul hat hsuffix n k
    cases hfault.symm.trans (hrun n le_rfl)
  · intro hsuffix
    obtain ⟨after, calls, hrun⟩ := putConsole_ok hnul hat hsuffix k
    exact ⟨s.length + 1, after, calls, fun fuel hfuel ↦ hrun fuel hfuel⟩

/-- The variables before the first call. -/
def Console.start : Console := ⟨0, 0, -1, -1, ⟨0xff, 0xff, 0xff⟩⟩

/-- The sequence for the colour red, cut off behind its bracket. -/
theorem endsAtNul_iff_bracket : EndsAtNul ⟨640, 480, 640, false⟩ [0x1b, 0x5b] .start :=
  (endsAtNul_iff (by decide) _ _).mpr (by decide)

/-- The same, cut off behind its first digit. -/
theorem not_endsAtNul_digit : ¬EndsAtNul ⟨640, 480, 640, false⟩ unfinished .start := by
  rintro ⟨n, after, calls, hrun⟩
  obtain ⟨fault, hfault⟩ := putConsole_error (s := unfinished) (by decide) ⟨Nat.zero_le _, rfl⟩
    List.suffix_rfl n .start
  cases hfault.symm.trans (hrun n le_rfl)

end Strings

end VimOS
