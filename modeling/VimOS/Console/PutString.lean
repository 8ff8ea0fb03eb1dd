import VimOS.Console.FrameBuffer
import VimOS.Stdlib.Vsprintf

/-!
# Drawing a string

`put_string` of `kernel/uefi_graphics.c`, as the calls of `put_char` that it makes. A newline moves
`s` on by one within the loop body, so the character behind it is drawn without a test: be it
another newline or the NUL.
-/

namespace VimOS

open Signed32

/-! ## The code -/

/-- The loop of `put_string` from index `pos` on: the calls, and the index at which it stops. -/
def putStringFrom (width : ℤ) (s : List Byte) (colour : Rgb) :
    ℕ → ℕ → ℤ → ℤ → Except Fault (List Glyph × ℕ)
  | 0, _, _, _ => .error .fuel
  | fuel + 1, pos, x, y => do
    let c ← fetch s pos
    if c = 0 then pure ([], pos)
    else
      let (pos, x, y) := if c = 0x0a then (pos + 1, 0, wrap (y + 16)) else (pos, x, y)
      -- behind a newline the next character has not been tested
      if x ≠ width then
        let c ← fetch s pos
        let (glyphs, stop) ← putStringFrom width s colour fuel (pos + 1) (wrap (x + 8)) y
        pure (⟨c, x, y, colour⟩ :: glyphs, stop)
      else putStringFrom width s colour fuel (pos + 1) x y

/-- `put_string`. -/
def putString (fuel : ℕ) (width : ℤ) (s : List Byte) (x y : ℤ) (colour : Rgb) :
    Except Fault (List Glyph × ℕ) := putStringFrom width s colour fuel 0 x y

/-! ## What is to be drawn -/

/-- The characters of a string that are not newlines, where they belong, as long as they are not
cut off. -/
def glyphsOf (width : ℤ) (colour : Rgb) : ℤ → ℤ → List Byte → List Glyph
  | _, _, [] => []
  | x, y, c :: u =>
    if c = 0x0a then glyphsOf width colour 0 (wrap (y + 16)) u
    else if x = width then glyphsOf width colour x y u
    else ⟨c, x, y, colour⟩ :: glyphsOf width colour (wrap (x + 8)) y u

/-- Behind every newline at which the loop stands there is a character other than a newline; on a
screen without columns, any character. -/
def Spaced (width : ℤ) : List Byte → Prop
  | [] => True
  | [c] => c ≠ 0x0a
  | c :: d :: u => if c = 0x0a then (d ≠ 0x0a ∨ width = 0) ∧ Spaced width u
    else Spaced width (d :: u)

section Draws

variable {s u : List Byte} {colour : Rgb} {width x y : ℤ} {pos fuel : ℕ}

theorem ne_newline_of_mem_glyphsOf (u : List Byte) (x y : ℤ) :
    ∀ glyph ∈ glyphsOf width colour x y u, glyph.c ≠ 0x0a := by
  induction u generalizing x y with
  | nil => exact fun _ hmem ↦ absurd hmem List.not_mem_nil
  | cons c u ih =>
    rw [glyphsOf]
    split
    · exact ih _ _
    · split
      · exact ih _ _
      next hc _ =>
        rw [List.forall_mem_cons]
        exact ⟨hc, ih _ _⟩

/-- Without columns nothing is drawn on a new line. -/
theorem glyphsOf_zero (colour : Rgb) (y : ℤ) (u : List Byte) : glyphsOf 0 colour 0 y u = [] := by
  induction u generalizing y with
  | nil => rfl
  | cons c u ih =>
    rw [glyphsOf]
    split
    · exact ih _
    · rw [if_pos rfl]
      exact ih _

/-- On a screen with columns this is said without jumping from newline to newline. -/
theorem spaced_iff (hwidth : width ≠ 0) (u : List Byte) :
    Spaced width u ↔ ¬[0x0a, 0x0a] <:+: u ∧ ¬[0x0a] <:+ u := by
  induction u using Spaced.induct with
  | case1 => simp [Spaced]
  | case2 c =>
    have hpair : ¬[0x0a, 0x0a] <:+: [c] := fun h ↦ absurd h.length_le (by simp)
    rw [Spaced, List.suffix_cons_iff, List.suffix_nil, List.singleton_inj, eq_comm (a := 0x0a)]
    simp only [hpair, not_false_eq_true, true_and, reduceCtorEq, or_false, ne_eq]
  | case3 d u ih =>
    rw [Spaced, if_pos rfl, ih]
    generalize (0x0a : Byte) = newline
    by_cases hd : newline = d
    · simp [hwidth, hd, List.infix_cons_iff]
    · simp [hwidth, hd, Ne.symm hd, List.infix_cons_iff, List.suffix_cons_iff]
  | case4 c d u hc ih =>
    have hpair : [0x0a, 0x0a] <:+: c :: d :: u ↔ [0x0a, 0x0a] <:+: d :: u := by
      rw [List.infix_cons_iff, List.cons_prefix_cons, or_iff_right fun h ↦ hc h.1.symm]
    have hsuffix : [0x0a] <:+ c :: d :: u ↔ [0x0a] <:+ d :: u := by
      rw [List.suffix_cons_iff, or_iff_right (by simp)]
    rw [Spaced, if_neg hc, ih, hpair, hsuffix]

/-! ### One iteration -/

theorem putStringFrom_nil (hat : At s pos []) (fuel : ℕ) :
    putStringFrom width s colour (fuel + 1) pos x y = .ok ([], s.length) := by
  have hlen := hat.length
  rw [List.length_nil, Nat.add_zero] at hlen
  rw [putStringFrom, hat.fetch, ok_bind, ← hlen]
  rfl

/-- An ordinary character. -/
theorem putStringFrom_cons {c : Byte} (hat : At s pos (c :: u)) (hnul : c ≠ 0) (hc : c ≠ 0x0a)
    (fuel : ℕ) : putStringFrom width s colour (fuel + 1) pos x y =
      if x ≠ width then do
        let (glyphs, stop) ← putStringFrom width s colour fuel (pos + 1) (wrap (x + 8)) y
        pure (⟨c, x, y, colour⟩ :: glyphs, stop)
      else putStringFrom width s colour fuel (pos + 1) x y := by
  rw [putStringFrom, hat.fetch, ok_bind, peek_cons, if_neg hnul, if_neg hc]
  simp only [hat.fetch, ok_bind, peek_cons]

/-- A newline, and the character behind it. -/
theorem putStringFrom_newline (hat : At s pos (0x0a :: u)) (fuel : ℕ) :
    putStringFrom width s colour (fuel + 1) pos x y =
      if 0 ≠ width then do
        let (glyphs, stop) ← putStringFrom width s colour fuel (pos + 1 + 1) (wrap (0 + 8))
          (wrap (y + 16))
        pure (⟨peek u, 0, wrap (y + 16), colour⟩ :: glyphs, stop)
      else putStringFrom width s colour fuel (pos + 1 + 1) 0 (wrap (y + 16)) := by
  rw [putStringFrom, hat.fetch, ok_bind, peek_cons, if_neg (by decide), if_pos rfl]
  simp only [hat.next.fetch, ok_bind]

/-- Behind the NUL there is nothing to read. -/
theorem putStringFrom_behind (hpos : s.length < pos) (fuel : ℕ) :
    ∃ fault, putStringFrom width s colour fuel pos x y = .error fault := by
  cases fuel with
  | zero => exact ⟨.fuel, rfl⟩
  | succ fuel => exact ⟨.overread, by rw [putStringFrom, fetch_of_length_lt hpos]; rfl⟩

/-- A newline at the end takes the loop over the NUL. -/
theorem putStringFrom_newline_nil (hat : At s pos [0x0a]) (fuel : ℕ) :
    ∃ fault, putStringFrom width s colour fuel pos x y = .error fault := by
  cases fuel with
  | zero => exact ⟨.fuel, rfl⟩
  | succ fuel =>
    have hlen := hat.length
    rw [List.length_singleton] at hlen
    rw [putStringFrom_newline hat]
    split
    · obtain ⟨fault, hfault⟩ := putStringFrom_behind (by omega : s.length < pos + 1 + 1) fuel
      exact ⟨fault, by rw [hfault]; rfl⟩
    · exact putStringFrom_behind (by omega) fuel

/-! ### The whole string -/

theorem putStringFrom_of_rest {c : Byte} (hat : At s pos (c :: u)) (hnul : c ≠ 0) (hc : c ≠ 0x0a)
    (hrest : ∀ x, putStringFrom width s colour fuel (pos + 1) x y =
      .ok (glyphsOf width colour x y u, s.length)) :
    putStringFrom width s colour (fuel + 1) pos x y =
      .ok (glyphsOf width colour x y (c :: u), s.length) := by
  rw [putStringFrom_cons hat hnul hc, glyphsOf, if_neg hc]
  by_cases hx : x = width
  · rw [if_neg (not_not.mpr hx), if_pos hx, hrest]
  · rw [if_pos hx, if_neg hx, hrest]
    rfl

theorem putStringFrom_of_spaced (hspaced : Spaced width u) (hat : At s pos u) (hnul : 0 ∉ u)
    (hfuel : u.length < fuel) : putStringFrom width s colour fuel pos x y =
      .ok (glyphsOf width colour x y u, s.length) := by
  obtain ⟨fuel, rfl⟩ := Nat.exists_eq_add_one_of_ne_zero (Nat.ne_zero_of_lt hfuel)
  induction u using Spaced.induct generalizing pos x y fuel with
  | case1 => exact putStringFrom_nil hat fuel
  | case2 c =>
    obtain ⟨fuel, rfl⟩ := Nat.exists_eq_add_one_of_ne_zero (Nat.lt_of_succ_lt_succ hfuel).ne'
    have hc : c ≠ 0 := fun h ↦ hnul (h ▸ List.mem_cons_self)
    exact putStringFrom_of_rest hat hc hspaced fun _ ↦ putStringFrom_nil hat.next fuel
  | case3 d u ih =>
    rw [Spaced, if_pos rfl] at hspaced
    rw [List.length_cons, List.length_cons] at hfuel
    have hd : d ≠ 0 := fun h ↦ hnul (h ▸ List.mem_cons_of_mem _ List.mem_cons_self)
    have hu : 0 ∉ u := List.not_mem_of_not_mem_cons (List.not_mem_of_not_mem_cons hnul)
    obtain ⟨fuel, rfl⟩ := Nat.exists_eq_add_one_of_ne_zero (by omega : fuel ≠ 0)
    have hrest := fun x ↦
      ih (x := x) (y := wrap (y + 16)) hspaced.2 hat.next.next hu fuel (by omega)
    rw [putStringFrom_newline hat, peek_cons, glyphsOf, if_pos rfl, hrest, hrest]
    rcases hspaced.1 with hnewline | rfl
    · rw [glyphsOf, if_neg hnewline]
      by_cases hwidth : 0 = width
      · rw [if_neg (not_not.mpr hwidth), if_pos hwidth]
      · rw [if_pos hwidth, if_neg hwidth]
        rfl
    · rw [if_neg (not_not.mpr rfl), glyphsOf_zero, glyphsOf_zero]
  | case4 c d u hc ih =>
    rw [Spaced, if_neg hc] at hspaced
    rw [List.length_cons] at hfuel
    have hnul' : c ≠ 0 := fun h ↦ hnul (h ▸ List.mem_cons_self)
    obtain ⟨fuel, rfl⟩ := Nat.exists_eq_add_one_of_ne_zero (by omega : fuel ≠ 0)
    exact putStringFrom_of_rest hat hnul' hc fun _ ↦
      ih hspaced hat.next (List.not_mem_of_not_mem_cons hnul) fuel (by omega)

/-- A call is the first one of a run whose other calls are those of the rest. -/
theorem exists_rest {e : Except Fault (List Glyph × ℕ)} {glyph : Glyph} {glyphs : List Glyph}
    {stop : ℕ} (h : (do
      let (glyphs, stop) ← e
      pure (glyph :: glyphs, stop)) = .ok (glyphs, stop)) :
    ∃ rest, e = .ok (rest, stop) ∧ glyphs = glyph :: rest := by
  cases e with
  | error fault => cases h
  | ok run =>
    cases h
    exact ⟨run.1, rfl, rfl⟩

/-- A run that goes right never draws a newline, so none follows another. -/
theorem spaced_of_putStringFrom {glyphs : List Glyph} {stop : ℕ} (hat : At s pos u)
    (hnul : 0 ∉ u) (hrun : putStringFrom width s colour fuel pos x y = .ok (glyphs, stop))
    (hglyphs : ∀ glyph ∈ glyphs, glyph.c ≠ 0x0a) : Spaced width u := by
  induction u using Spaced.induct generalizing pos x y fuel glyphs with
  | case1 => exact trivial
  | case2 c =>
    rintro rfl
    obtain ⟨fault, hfault⟩ := putStringFrom_newline_nil hat fuel
    cases hfault.symm.trans hrun
  | case3 d u ih =>
    have hu : 0 ∉ u := List.not_mem_of_not_mem_cons (List.not_mem_of_not_mem_cons hnul)
    rw [Spaced, if_pos rfl]
    cases fuel with
    | zero => cases hrun
    | succ fuel =>
      rw [putStringFrom_newline hat, peek_cons] at hrun
      split at hrun
      · obtain ⟨rest, hrest, rfl⟩ := exists_rest hrun
        rw [List.forall_mem_cons] at hglyphs
        exact ⟨.inl hglyphs.1, ih hat.next.next hu hrest hglyphs.2⟩
      next hwidth =>
        exact ⟨.inr (not_not.mp hwidth).symm, ih hat.next.next hu hrun hglyphs⟩
  | case4 c d u hc ih =>
    have hnul' : c ≠ 0 := fun h ↦ hnul (h ▸ List.mem_cons_self)
    rw [Spaced, if_neg hc]
    cases fuel with
    | zero => cases hrun
    | succ fuel =>
      rw [putStringFrom_cons hat hnul' hc] at hrun
      split at hrun
      · obtain ⟨rest, hrest, rfl⟩ := exists_rest hrun
        rw [List.forall_mem_cons] at hglyphs
        exact ih hat.next (List.not_mem_of_not_mem_cons hnul) hrest hglyphs.2
      · exact ih hat.next (List.not_mem_of_not_mem_cons hnul) hrun hglyphs

/-- `put_string` returns at the NUL, with no read behind it, and its calls of `put_char` are the
string. -/
def DrawsString (width : ℤ) (s : List Byte) (x y : ℤ) (colour : Rgb) : Prop :=
  ∃ n, ∀ fuel, n ≤ fuel → putString fuel width s x y colour =
    .ok (glyphsOf width colour x y s, s.length)

/-- **`put_string` draws exactly its string** if and only if no newline ends it or follows another
(on a screen without columns, if none is taken for the last character). -/
theorem drawsString_iff (hnul : 0 ∉ s) (x y : ℤ) (colour : Rgb) :
    DrawsString width s x y colour ↔ Spaced width s := by
  have hat : At s 0 s := ⟨Nat.zero_le _, rfl⟩
  constructor
  · rintro ⟨n, hrun⟩
    exact spaced_of_putStringFrom hat hnul (hrun n le_rfl) (ne_newline_of_mem_glyphsOf s x y)
  · intro hspaced
    exact ⟨s.length + 1, fun fuel hfuel ↦ putStringFrom_of_spaced hspaced hat hnul hfuel⟩

theorem drawsString_iff_lines : DrawsString 640 [0x61, 0x0a, 0x62] 0 0 ⟨0, 0, 0⟩ :=
  (drawsString_iff (by decide) 0 0 _).mpr (by simp [Spaced])

/-- The string of one newline is not. -/
theorem not_drawsString_newline : ¬DrawsString 640 [0x0a] 0 0 ⟨0, 0, 0⟩ := by
  rintro ⟨n, hrun⟩
  obtain ⟨fault, hfault⟩ := putStringFrom_newline_nil (s := [0x0a]) ⟨Nat.zero_le _, rfl⟩ n
  cases hfault.symm.trans (hrun n le_rfl)

end Draws

end VimOS
