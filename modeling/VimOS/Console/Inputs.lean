import VimOS.Console.PutConsole

/-!
# The language of `put_console`

A second reading of the escape parser works on what is left of the string: `firstInput` is the input
at its front, `inputs` all of them, and a call of `put_console` performs these one after the other.

With that reading two questions are about lists of inputs only. Every input that `put_console` can
be asked for has a text, and the texts of several, one behind the other, are read back as just
these. And a text may be printed in pieces wherever it does not break an escape sequence: the
parser keeps nothing from one call to the next, so that what `Cut` describes is lost at the end of
a piece.
-/

namespace VimOS

open Signed32

/-! ## Reading a string from its front -/

/-- Behind `\e[`: what is asked for, and what is left. -/
def escapeInput (u : List Byte) : Input × List Byte :=
  if isDigit (peek u) then
    let num := (peek u).toNat - 0x30
    let v := u.tail
    if peek v = 0x41 then (.up num, v.tail)
    else if peek v = 0x42 then (.down num, v.tail)
    else if peek v = 0x43 then (.right num, v.tail)
    else if peek v = 0x44 then (.left num, v.tail)
    else if num = 3 ∧ peek v.tail = 0x6d then (.colour (peek v), v.tail.tail)
    else (.nothing, v)
  else (.nothing, u)

/-- An input of one character. -/
def plainInput (c : Byte) : Input :=
  if c = 0x09 then .tab
  else if c = 0x08 then .backspace
  else if c = 0x0a then .newline
  else if c = 0x0d then .nothing
  else .glyph c

/-- The input at the front of `c :: u`, and what is left behind it. -/
def firstInput (c : Byte) (u : List Byte) : Input × List Byte :=
  if c = 0x1b then if peek u = 0x5b then escapeInput u.tail else (.nothing, u)
  else (plainInput c, u)

section Read

variable {s u v : List Byte} {pos : ℕ} {c : Byte}

theorem length_escapeInput_le (u : List Byte) : (escapeInput u).2.length ≤ u.length := by
  simp only [escapeInput]
  split_ifs <;> simp only [List.length_tail] <;> grind

theorem length_firstInput_le (c : Byte) (u : List Byte) :
    (firstInput c u).2.length ≤ u.length := by
  have htail := length_escapeInput_le u.tail
  rw [List.length_tail] at htail
  rw [firstInput]
  split_ifs
  · exact htail.trans (Nat.sub_le _ _)
  · exact le_rfl
  · exact le_rfl

/-- All inputs of a string. -/
def inputs : List Byte → List Input
  | [] => []
  | c :: u => (firstInput c u).1 :: inputs (firstInput c u).2
termination_by u => u.length
decreasing_by exact Nat.lt_succ_of_le (length_firstInput_le c u)

theorem At.tail (h : At s pos u) (hu : u ≠ []) : At s (pos + 1) u.tail := by
  obtain ⟨c, v, rfl⟩ := List.exists_cons_of_ne_nil hu
  exact h.next

theorem ne_nil_of_peek (h : peek u = c) (hc : c ≠ 0) : u ≠ [] := by
  obtain ⟨v, rfl⟩ := exists_cons_of_peek h hc
  exact List.cons_ne_nil _ _

theorem peek_ne_zero_of_isDigit (h : isDigit (peek u) = true) : peek u ≠ 0 := by
  intro hzero
  rw [hzero] at h
  exact absurd h (by decide)

/-- What is decoded at `u` is what stands at its front. -/
def ReadsAs (s : List Byte) (pos : ℕ) (decoded : Except Fault (Input × ℕ))
    (first : Input × List Byte) : Prop :=
  ∃ n, decoded = .ok (first.1, n) ∧ At s (pos + n) first.2

theorem decodeEscape_eq (hat : At s (pos + 2) u) (h : u ≠ [0x33]) :
    ReadsAs s pos (decodeEscape (fetch s) pos) (escapeInput u) := by
  rw [decodeEscape, escapeInput, hat.fetch, ok_bind]
  by_cases hdigit : isDigit (peek u) = true
  · have hu := ne_nil_of_peek rfl (peek_ne_zero_of_isDigit hdigit)
    have hthird := hat.tail hu
    rw [if_pos hdigit, if_pos hdigit, hthird.fetch, ok_bind]
    have hmove : ∀ {letter : Byte}, peek u.tail = letter → letter ≠ 0 →
        At s (pos + 4) u.tail.tail := fun hpeek hletter ↦
      hthird.tail (ne_nil_of_peek hpeek hletter)
    dsimp only
    split
    next hpeek => exact ⟨4, rfl, hmove hpeek (by decide)⟩
    split
    next hpeek => exact ⟨4, rfl, hmove hpeek (by decide)⟩
    split
    next hpeek => exact ⟨4, rfl, hmove hpeek (by decide)⟩
    split
    next hpeek => exact ⟨4, rfl, hmove hpeek (by decide)⟩
    split
    next hthree =>
      -- the string goes on, since it is not cut off behind the digit
      have hv : u.tail ≠ [] := by
        intro hnil
        obtain ⟨d, v, rfl⟩ := List.exists_cons_of_ne_nil hu
        have hd : d = 0x33 := by
          rw [peek_cons] at hthree
          rw [← BitVec.toNat_inj]
          exact (by omega : d.toNat = 0x33)
        rw [List.tail_cons] at hnil
        exact h (by rw [hd, hnil])
      have hfourth := hthird.tail hv
      rw [hfourth.fetch, ok_bind]
      by_cases hm : peek u.tail.tail = 0x6d
      · rw [if_pos hm, if_pos ⟨hthree, hm⟩]
        exact ⟨5, rfl, hfourth.tail (ne_nil_of_peek hm (by decide))⟩
      · rw [if_neg hm, if_neg fun hboth ↦ hm hboth.2]
        exact ⟨3, rfl, hthird⟩
    next hthree =>
      rw [if_neg fun hboth ↦ hthree hboth.1]
      exact ⟨3, rfl, hthird⟩
  · rw [if_neg hdigit, if_neg hdigit]
    exact ⟨2, rfl, hat⟩

theorem decodeInput_eq (hat : At s pos (c :: u)) (h : c :: u ≠ unfinished) :
    ReadsAs s pos (decodeInput (fetch s) pos) (firstInput c u) := by
  rw [decodeInput, firstInput, hat.fetch, ok_bind, peek_cons]
  by_cases hescape : c = 0x1b
  · rw [if_pos hescape, if_pos hescape, hat.next.fetch, ok_bind]
    by_cases hbracket : peek u = 0x5b
    · rw [if_pos hbracket, if_pos hbracket]
      obtain ⟨v, rfl⟩ := exists_cons_of_peek hbracket (by decide)
      refine decodeEscape_eq hat.next.next fun hv ↦ h ?_
      rw [hescape, ← List.cons_head_tail (List.cons_ne_nil 0x5b v), hv]
      rfl
    · rw [if_neg hbracket, if_neg hbracket]
      exact ⟨1, rfl, hat.next⟩
  · rw [if_neg hescape, if_neg hescape, plainInput]
    split_ifs <;> exact ⟨1, rfl, hat.next⟩

end Read

/-! ## A whole call -/

/-- The inputs one after the other: the variables behind them, and the calls. -/
def Console.perform (g : Geometry) (k : Console) : List Input → Console × List Drawing
  | [] => (k, [])
  | input :: rest =>
    (((k.apply g input).1.perform g rest).1,
      (k.apply g input).2 ++ ((k.apply g input).1.perform g rest).2)

section Calls

variable {g : Geometry} {k : Console} {s t u v : List Byte} {pos fuel : ℕ} {c : Byte}

theorem Console.perform_append (is js : List Input) : k.perform g (is ++ js) =
    (((k.perform g is).1.perform g js).1,
      (k.perform g is).2 ++ ((k.perform g is).1.perform g js).2) := by
  induction is generalizing k with
  | nil => rfl
  | cons input is ih =>
    rw [List.cons_append, Console.perform, ih, Console.perform, List.append_assoc]

theorem inputs_cons (c : Byte) (u : List Byte) :
    inputs (c :: u) = (firstInput c u).1 :: inputs (firstInput c u).2 := by
  rw [inputs]

/-- What is left ends in the unfinished sequence just as before. -/
theorem unfinished_suffix_firstInput (h : c :: u ≠ unfinished) :
    unfinished <:+ c :: u ↔ unfinished <:+ (firstInput c u).2 := by
  have hat : At (c :: u) 0 (c :: u) := ⟨Nat.zero_le _, rfl⟩
  obtain ⟨n, hdecode, hrest⟩ := decodeInput_eq hat h
  obtain ⟨input, m, v, hdecode', hrest', -, hsuffix⟩ := decodeInput_at hat h
  cases hdecode.symm.trans hdecode'
  rw [hsuffix, ← hrest'.drop_eq, hrest.drop_eq]

/-- **The loop of `put_console` performs the inputs** of what is left of its string. -/
theorem putConsole_perform (hnul : 0 ∉ s) (hat : At s pos u) (h : ¬unfinished <:+ u)
    (hfuel : u.length < fuel) (k : Console) : putConsole g (fetch s) fuel pos k =
      .ok ((k.perform g (inputs u)).1, (k.perform g (inputs u)).2, s.length) := by
  induction fuel generalizing u pos k with
  | zero => exact absurd hfuel (Nat.not_lt_zero _)
  | succ fuel ih =>
    cases u with
    | nil =>
      have hlen := hat.length
      rw [List.length_nil, Nat.add_zero] at hlen
      rw [putConsole, hat.fetch, ok_bind, inputs, ← hlen]
      rfl
    | cons c u =>
      have hc : c ≠ 0 := fun heq ↦ hat.notMem hnul (heq ▸ List.mem_cons_self)
      have hne : c :: u ≠ unfinished := fun heq ↦ h (heq ▸ List.suffix_rfl)
      have hlen := length_firstInput_le c u
      rw [List.length_cons] at hfuel
      obtain ⟨n, hdecode, hrest⟩ := decodeInput_eq hat hne
      rw [putConsole_succ hat.fetch hc hdecode,
        ih hrest ((unfinished_suffix_firstInput hne).not.mp h) (by omega), inputs_cons]
      rfl

/-- In a string cut off in the unfinished sequence the loop reads on behind the NUL. -/
theorem putConsole_overread (hnul : 0 ∉ s) (hat : At s pos u) (h : unfinished <:+ u)
    (hfuel : u.length < fuel) (k : Console) :
    putConsole g (fetch s) fuel pos k = .error .overread := by
  induction fuel generalizing u pos k with
  | zero => exact absurd hfuel (Nat.not_lt_zero _)
  | succ fuel ih =>
    cases u with
    | nil => exact absurd (List.suffix_nil.mp h) (by decide)
    | cons c u =>
      have hc : c ≠ 0 := fun heq ↦ hat.notMem hnul (heq ▸ List.mem_cons_self)
      by_cases hne : c :: u = unfinished
      · rw [putConsole, hat.fetch, ok_bind, peek_cons, if_neg hc,
          decodeInput_unfinished (hne ▸ hat)]
        rfl
      · have hlen := length_firstInput_le c u
        rw [List.length_cons] at hfuel
        obtain ⟨n, hdecode, hrest⟩ := decodeInput_eq hat hne
        rw [putConsole_succ hat.fetch hc hdecode,
          ih hrest ((unfinished_suffix_firstInput hne).mp h) (by omega)]
        rfl

/-- A call of `put_console` with `s`: the variables behind it, and the calls. -/
def callPutConsole (g : Geometry) (s : List Byte) (k : Console) :
    Except Fault (Console × List Drawing) := do
  let (after, calls, _) ← putConsole g (fetch s) (s.length + 1) 0 k
  pure (after, calls)

theorem callPutConsole_eq (hnul : 0 ∉ s) (k : Console) : callPutConsole g s k =
    if unfinished <:+ s then .error .overread else .ok (k.perform g (inputs s)) := by
  have hat : At s 0 s := ⟨Nat.zero_le _, rfl⟩
  rw [callPutConsole]
  split
  next h => rw [putConsole_overread hnul hat h (Nat.lt_succ_self _)]; rfl
  next h => rw [putConsole_perform hnul hat h (Nat.lt_succ_self _)]; rfl

end Calls

/-! ## Texts of inputs -/

/-- The escape sequence with one number and the letter behind it. -/
def moveText (num : ℕ) (letter : Byte) : List Byte :=
  [0x1b, 0x5b, BitVec.ofNat 8 (num + 0x30), letter]

/-- How to ask for an input. -/
def Input.text : Input → List Byte
  | .glyph c => [c]
  | .tab => [0x09]
  | .backspace => [0x08]
  | .newline => [0x0a]
  | .up num => moveText num 0x41
  | .down num => moveText num 0x42
  | .right num => moveText num 0x43
  | .left num => moveText num 0x44
  | .colour c => [0x1b, 0x5b, 0x33, c, 0x6d]
  | .nothing => [0x0d]

/-- The letter of an escape sequence that moves the cursor. -/
def IsMove (c : Byte) : Prop := c = 0x41 ∨ c = 0x42 ∨ c = 0x43 ∨ c = 0x44

instance (c : Byte) : Decidable (IsMove c) := inferInstanceAs (Decidable (_ ∨ _))

/-- What `put_console` can be asked for: a character without a meaning of its own, a number of one
digit, a colour that is not the letter of a move. -/
def Input.Writable : Input → Prop
  | .glyph c => c ≠ 0 ∧ plainInput c = .glyph c ∧ c ≠ 0x1b
  | .up num | .down num | .right num | .left num => num ≤ 9
  | .colour c => c ≠ 0 ∧ ¬IsMove c
  | _ => True

section Texts

variable {s t u v : List Byte} {c : Byte} {input : Input} {is : List Input} {num : ℕ}

theorem isDigit_ofNat (h : num ≤ 9) : isDigit (BitVec.ofNat 8 (num + 0x30)) = true ∧
    (BitVec.ofNat 8 (num + 0x30)).toNat - 0x30 = num := by
  have hmod : (num + 0x30) % 256 = num + 0x30 := Nat.mod_eq_of_lt (by omega)
  have hnat : (BitVec.ofNat 8 (num + 0x30)).toNat = num + 0x30 := by
    rw [BitVec.toNat_ofNat]
    exact hmod
  refine ⟨?_, by rw [hnat, Nat.add_sub_cancel]⟩
  rw [isDigit, decide_eq_true_eq, BitVec.le_def, BitVec.le_def, hnat]
  exact ⟨Nat.le_add_left _ _, Nat.add_le_add_right h _⟩

theorem firstInput_escape (u : List Byte) :
    firstInput 0x1b (0x5b :: u) = escapeInput u := by
  rw [firstInput, if_pos rfl, peek_cons, if_pos rfl, List.tail_cons]

theorem escapeInput_digit (h : isDigit c = true) (letter : Byte) (u : List Byte) :
    escapeInput (c :: letter :: u) =
      if letter = 0x41 then (.up (c.toNat - 0x30), u)
      else if letter = 0x42 then (.down (c.toNat - 0x30), u)
      else if letter = 0x43 then (.right (c.toNat - 0x30), u)
      else if letter = 0x44 then (.left (c.toNat - 0x30), u)
      else if c.toNat - 0x30 = 3 ∧ peek u = 0x6d then (.colour letter, u.tail)
      else (.nothing, letter :: u) := by
  rw [escapeInput, peek_cons, if_pos h]
  rfl

/-- **A text is read back** in front of whatever follows it. -/
theorem inputs_text (h : input.Writable) (u : List Byte) :
    inputs (input.text ++ u) = input :: inputs u := by
  have hmove : ∀ {num : ℕ} {letter : Byte}, num ≤ 9 →
      inputs (moveText num letter ++ u) =
        (escapeInput (BitVec.ofNat 8 (num + 0x30) :: letter :: u)).1 ::
          inputs (escapeInput (BitVec.ofNat 8 (num + 0x30) :: letter :: u)).2 := by
    intro num letter hnum
    rw [moveText, List.cons_append, List.cons_append, inputs_cons, firstInput_escape]
    rfl
  have hplain : ∀ {c : Byte}, c ≠ 0x1b → inputs (c :: u) = plainInput c :: inputs u := by
    intro c hc
    rw [inputs_cons, firstInput, if_neg hc]
  cases input with
  | glyph c => exact (hplain h.2.2).trans (congrArg (· :: _) h.2.1)
  | tab => exact hplain (by decide)
  | backspace => exact hplain (by decide)
  | newline => exact hplain (by decide)
  | nothing => exact hplain (by decide)
  | up num =>
    obtain ⟨hdigit, hnum⟩ := isDigit_ofNat h
    rw [Input.text, hmove h, escapeInput_digit hdigit, if_pos rfl, hnum]
  | down num =>
    obtain ⟨hdigit, hnum⟩ := isDigit_ofNat h
    rw [Input.text, hmove h, escapeInput_digit hdigit, if_neg (by decide), if_pos rfl, hnum]
  | right num =>
    obtain ⟨hdigit, hnum⟩ := isDigit_ofNat h
    rw [Input.text, hmove h, escapeInput_digit hdigit, if_neg (by decide), if_neg (by decide),
      if_pos rfl, hnum]
  | left num =>
    obtain ⟨hdigit, hnum⟩ := isDigit_ofNat h
    rw [Input.text, hmove h, escapeInput_digit hdigit, if_neg (by decide), if_neg (by decide),
      if_neg (by decide), if_pos rfl, hnum]
  | colour c =>
    have hletter := not_or.mp h.2
    have hletter' := not_or.mp hletter.2
    have hletter'' := not_or.mp hletter'.2
    have htext : (Input.colour c).text ++ u = 0x1b :: 0x5b :: 0x33 :: c :: 0x6d :: u := rfl
    rw [htext, inputs_cons, firstInput_escape, escapeInput_digit (by decide), if_neg hletter.1,
      if_neg hletter'.1, if_neg hletter''.1, if_neg hletter''.2, if_pos ⟨rfl, rfl⟩]
    rfl

theorem inputs_textOfInputs (h : ∀ input ∈ is, input.Writable) :
    inputs (is.flatMap Input.text) = is := by
  induction is with
  | nil => rw [List.flatMap_nil, inputs]
  | cons input is ih =>
    rw [List.flatMap_cons, inputs_text (h input List.mem_cons_self),
      ih fun other hmem ↦ h other (List.mem_cons_of_mem _ hmem)]

theorem nul_notMem_text (h : input.Writable) : 0 ∉ input.text := by
  have hmove : ∀ {num : ℕ} {letter : Byte}, num ≤ 9 → letter ≠ 0 → 0 ∉ moveText num letter := by
    intro num letter hnum hletter hmem
    have hdigit := (isDigit_ofNat hnum).1
    simp only [moveText, List.mem_cons, List.not_mem_nil, or_false] at hmem
    rcases hmem with h | h | h | h
    · exact absurd h (by decide)
    · exact absurd h (by decide)
    · rw [← h] at hdigit
      exact absurd hdigit (by decide)
    · exact hletter h.symm
  cases input with
  | glyph c => exact fun hmem ↦ h.1 (List.mem_singleton.mp hmem).symm
  | up num => exact hmove h (by decide)
  | down num => exact hmove h (by decide)
  | right num => exact hmove h (by decide)
  | left num => exact hmove h (by decide)
  | colour c =>
    intro hmem
    simp only [Input.text, List.mem_cons, List.not_mem_nil, or_false] at hmem
    rcases hmem with heq | heq | heq | heq | heq
    · exact absurd heq (by decide)
    · exact absurd heq (by decide)
    · exact absurd heq (by decide)
    · exact h.1 heq.symm
    · exact absurd heq (by decide)
  | _ => decide

/-- A text does not begin the unfinished sequence, and nothing of it stands at the end. -/
theorem unfinished_suffix_text (h : input.Writable) (u : List Byte) :
    unfinished <:+ input.text ++ u ↔ unfinished <:+ u := by
  have hone : ∀ {c : Byte}, c ≠ 0x1b → (unfinished <:+ [c] ++ u ↔ unfinished <:+ u) :=
    unfinished_suffix_of_ne
  have hmove : ∀ {num : ℕ} {letter : Byte}, num ≤ 9 → letter ≠ 0x1b →
      (unfinished <:+ moveText num letter ++ u ↔ unfinished <:+ u) := by
    intro num letter hnum hletter
    exact ((unfinished_suffix_cons (by simp [unfinished])).trans
      (unfinished_suffix_of_ne (by decide))).trans
        ((unfinished_suffix_of_ne (ne_escape_of_isDigit (isDigit_ofNat hnum).1)).trans
          (unfinished_suffix_of_ne hletter))
  cases input with
  | glyph c => exact hone h.2.2
  | tab => exact hone (by decide)
  | backspace => exact hone (by decide)
  | newline => exact hone (by decide)
  | nothing => exact hone (by decide)
  | up num => exact hmove h (by decide)
  | down num => exact hmove h (by decide)
  | right num => exact hmove h (by decide)
  | left num => exact hmove h (by decide)
  | colour c =>
    exact ((unfinished_suffix_cons (by simp [unfinished])).trans
      (unfinished_suffix_of_ne (by decide))).trans ((unfinished_suffix_of_ne (by decide)).trans
        ((unfinished_suffix_cons (by simp [unfinished])).trans
          (unfinished_suffix_of_ne (by decide))))

theorem not_unfinished_texts (h : ∀ input ∈ is, input.Writable) :
    ¬unfinished <:+ is.flatMap Input.text := by
  induction is with
  | nil => decide
  | cons input is ih =>
    rw [List.flatMap_cons, unfinished_suffix_text (h input List.mem_cons_self)]
    exact ih fun other hmem ↦ h other (List.mem_cons_of_mem _ hmem)

theorem escapeInput_writable (hnul : 0 ∉ u) : (escapeInput u).1.Writable := by
  simp only [escapeInput]
  split
  next hdigit =>
    have hle : (peek u).toNat - 0x30 ≤ 9 := by
      rw [isDigit, decide_eq_true_eq] at hdigit
      exact Nat.sub_le_of_le_add (BitVec.le_def.mp hdigit.2)
    split
    next => exact hle
    split
    next => exact hle
    split
    next => exact hle
    split
    next => exact hle
    split
    next hup hdown hright hleft hcolour =>
      refine ⟨?_, not_or.mpr ⟨hup, not_or.mpr ⟨hdown, not_or.mpr ⟨hright, hleft⟩⟩⟩⟩
      have hrest := ne_nil_of_peek hcolour.2 (by decide)
      obtain ⟨d, w, hw⟩ := List.exists_cons_of_ne_nil fun hnil : u.tail = [] ↦
        hrest (by rw [hnil, List.tail_nil])
      rw [hw, peek_cons]
      rintro rfl
      exact hnul (List.mem_of_mem_tail (hw ▸ List.mem_cons_self))
    next => trivial
  next => trivial

theorem plainInput_writable (hc : c ≠ 0) (hescape : c ≠ 0x1b) : (plainInput c).Writable := by
  by_cases hplain : plainInput c = .glyph c
  · rw [hplain]
    exact ⟨hc, hplain, hescape⟩
  · revert hplain
    rw [plainInput]
    split_ifs <;> intro hplain
    · trivial
    · trivial
    · trivial
    · trivial
    · exact absurd rfl hplain

theorem firstInput_writable (hnul : 0 ∉ c :: u) : (firstInput c u).1.Writable := by
  have hc : c ≠ 0 := fun heq ↦ hnul (heq ▸ List.mem_cons_self)
  have hu : 0 ∉ u := fun hmem ↦ hnul (List.mem_cons_of_mem _ hmem)
  rw [firstInput]
  split
  next =>
    split
    next => exact escapeInput_writable fun hmem ↦ hu (List.mem_of_mem_tail hmem)
    next => trivial
  next hescape => exact plainInput_writable hc hescape

theorem escapeInput_suffix (u : List Byte) : (escapeInput u).2 <:+ u := by
  simp only [escapeInput]
  split_ifs
  · exact (List.tail_suffix _).trans (List.tail_suffix _)
  · exact (List.tail_suffix _).trans (List.tail_suffix _)
  · exact (List.tail_suffix _).trans (List.tail_suffix _)
  · exact (List.tail_suffix _).trans (List.tail_suffix _)
  · exact (List.tail_suffix _).trans ((List.tail_suffix _).trans (List.tail_suffix _))
  · exact List.tail_suffix _
  · exact List.suffix_rfl

theorem firstInput_suffix (c : Byte) (u : List Byte) : (firstInput c u).2 <:+ u := by
  rw [firstInput]
  split_ifs
  · exact (escapeInput_suffix _).trans (List.tail_suffix _)
  · exact List.suffix_rfl
  · exact List.suffix_rfl

theorem inputs_writable (hnul : 0 ∉ s) : ∀ input ∈ inputs s, input.Writable := by
  induction s using inputs.induct with
  | case1 =>
    intro input hmem
    rw [inputs] at hmem
    exact absurd hmem List.not_mem_nil
  | case2 c u ih =>
    intro input hmem
    rw [inputs_cons, List.mem_cons] at hmem
    rcases hmem with rfl | hmem
    · exact firstInput_writable hnul
    · refine ih (fun hzero ↦ hnul ?_) input hmem
      exact List.mem_cons_of_mem _ ((firstInput_suffix c u).mem hzero)

/-- **The language of the console**: every list of inputs has a text that `put_console` performs as
just these inputs, and every string that is not cut off in the unfinished sequence is performed as
some list of inputs that has a text. -/
theorem console_language (g : Geometry) (k : Console) :
    (∀ is : List Input, (∀ input ∈ is, input.Writable) → 0 ∉ is.flatMap Input.text ∧
      callPutConsole g (is.flatMap Input.text) k = .ok (k.perform g is)) ∧
    ∀ s : List Byte, 0 ∉ s → ¬unfinished <:+ s → ∃ is : List Input,
      (∀ input ∈ is, input.Writable) ∧ callPutConsole g s k = .ok (k.perform g is) := by
  constructor
  · intro is h
    have hnul : 0 ∉ is.flatMap Input.text := by
      rw [List.mem_flatMap]
      rintro ⟨input, hmem, hzero⟩
      exact nul_notMem_text (h input hmem) hzero
    refine ⟨hnul, ?_⟩
    rw [callPutConsole_eq hnul, if_neg (not_unfinished_texts h), inputs_textOfInputs h]
  · intro s hnul h
    refine ⟨inputs s, inputs_writable hnul, ?_⟩
    rw [callPutConsole_eq hnul, if_neg h]

end Texts

/-! ## Printing in pieces -/

/-- `s` ends inside of what more characters could make an escape sequence. -/
def Cut (s : List Byte) : Prop :=
  [0x1b] <:+ s ∨ [0x1b, 0x5b] <:+ s ∨ (∃ d, isDigit d = true ∧ [0x1b, 0x5b, d] <:+ s) ∨
    ∃ c, ¬IsMove c ∧ [0x1b, 0x5b, 0x33, c] <:+ s

/-- `t` does not go on with an escape sequence of which `s` is the beginning. -/
structure Parted (s t : List Byte) : Prop where
  bracket : s = [0x1b] → peek t ≠ 0x5b
  digit : s = [0x1b, 0x5b] → ¬isDigit (peek t) = true
  move : ∀ {d}, isDigit d = true → s = [0x1b, 0x5b, d] → ¬IsMove (peek t) ∧ peek t.tail ≠ 0x6d
  colour : ∀ {c}, ¬IsMove c → s = [0x1b, 0x5b, 0x33, c] → peek t ≠ 0x6d

/-- Two calls of `put_console`, the second with the variables that the first has left. -/
def callTwice (g : Geometry) (s t : List Byte) (k : Console) :
    Except Fault (Console × List Drawing) := do
  let (k, calls) ← callPutConsole g s k
  let (after, rest) ← callPutConsole g t k
  pure (after, calls ++ rest)

section Pieces

variable {g : Geometry} {s t u v : List Byte} {c d : Byte}

theorem Cut.mono (hsuffix : v <:+ s) (h : Cut v) : Cut s := by
  rcases h with h | h | ⟨d, hd, h⟩ | ⟨c, hc, h⟩
  · exact .inl (h.trans hsuffix)
  · exact .inr (.inl (h.trans hsuffix))
  · exact .inr (.inr (.inl ⟨d, hd, h.trans hsuffix⟩))
  · exact .inr (.inr (.inr ⟨c, hc, h.trans hsuffix⟩))

theorem parted_of_not_cut (h : ¬Cut s) (hsuffix : v <:+ s) (t : List Byte) : Parted v t where
  bracket heq := absurd (.inl (heq ▸ hsuffix)) h
  digit heq := absurd (.inr (.inl (heq ▸ hsuffix))) h
  move hd heq := absurd (.inr (.inr (.inl ⟨_, hd, heq ▸ hsuffix⟩))) h
  colour hc heq := absurd (.inr (.inr (.inr ⟨_, hc, heq ▸ hsuffix⟩))) h

/-- An escape character begins anew, unless it is the character of a colour. -/
theorem parted_escape (s : List Byte) (hv : peek v ≠ 0x6d) : Parted s (0x1b :: v) where
  bracket _ := by
    rw [peek_cons]
    decide
  digit _ := by
    rw [peek_cons]
    decide
  move _ _ := by
    rw [peek_cons]
    exact ⟨by decide, hv⟩
  colour _ _ := by
    rw [peek_cons]
    decide

/-- A sequence that is given up behind its digit. -/
theorem escapeInput_given_up (hd : isDigit d = true) (hmove : ¬IsMove (peek t))
    (hm : peek t.tail ≠ 0x6d) : escapeInput (d :: t) = (.nothing, t) := by
  obtain ⟨hup, hmove⟩ := not_or.mp hmove
  obtain ⟨hdown, hmove⟩ := not_or.mp hmove
  obtain ⟨hright, hleft⟩ := not_or.mp hmove
  rw [escapeInput, peek_cons, if_pos hd]
  dsimp only [List.tail_cons]
  rw [if_neg hup, if_neg hdown, if_neg hright, if_neg hleft, if_neg fun hboth ↦ hm hboth.2]

theorem escapeInput_append (h : Parted (0x1b :: 0x5b :: u) t) :
    escapeInput (u ++ t) = ((escapeInput u).1, (escapeInput u).2 ++ t) := by
  cases u with
  | nil =>
    rw [List.nil_append, escapeInput, if_neg (h.digit rfl)]
    rfl
  | cons d v =>
    by_cases hd : isDigit d = true
    · cases v with
      | nil =>
        obtain ⟨hmove, hm⟩ := h.move hd rfl
        rw [List.cons_append, List.nil_append, escapeInput_given_up hd hmove hm,
          escapeInput_given_up hd (by decide) (by decide)]
        rfl
      | cons c w =>
        rw [List.cons_append, List.cons_append, escapeInput_digit hd, escapeInput_digit hd]
        by_cases hmove : IsMove c
        · rcases hmove with rfl | rfl | rfl | rfl <;> rfl
        · obtain ⟨hup, hmove'⟩ := not_or.mp hmove
          obtain ⟨hdown, hmove'⟩ := not_or.mp hmove'
          obtain ⟨hright, hleft⟩ := not_or.mp hmove'
          simp only [if_neg hup, if_neg hdown, if_neg hright, if_neg hleft]
          cases w with
          | nil =>
            have hm : ¬(d.toNat - 0x30 = 3 ∧ peek t = 0x6d) := by
              rintro ⟨hthree, hm⟩
              rw [isDigit, decide_eq_true_eq, BitVec.le_def] at hd
              have heq : d = 0x33 := by
                rw [← BitVec.toNat_inj]
                exact (by omega : d.toNat = 0x33)
              exact h.colour hmove (by rw [heq]) hm
            rw [List.nil_append, if_neg hm, if_neg fun hboth ↦ absurd hboth.2 (by decide)]
            rfl
          | cons e x =>
            rw [List.cons_append, peek_cons, peek_cons]
            split <;> rfl
    · rw [List.cons_append, escapeInput, escapeInput, peek_cons, peek_cons, if_neg hd, if_neg hd,
        List.cons_append]

/-- The first input of a string is that of its longer versions, with the rest left. -/
theorem firstInput_append (h : Parted (c :: u) t) :
    firstInput c (u ++ t) = ((firstInput c u).1, (firstInput c u).2 ++ t) := by
  by_cases hescape : c = 0x1b
  · subst hescape
    cases u with
    | nil =>
      rw [List.nil_append, firstInput, if_pos rfl, if_neg (h.bracket rfl)]
      rfl
    | cons d v =>
      by_cases hbracket : d = 0x5b
      · subst hbracket
        rw [List.cons_append, firstInput_escape, firstInput_escape, escapeInput_append h]
      · rw [List.cons_append, firstInput, firstInput, if_pos rfl, if_pos rfl, peek_cons, peek_cons,
          if_neg hbracket, if_neg hbracket, List.cons_append]
  · rw [firstInput, firstInput, if_neg hescape, if_neg hescape]

theorem inputs_append (h : ∀ v, v <:+ s → Parted v t) :
    inputs (s ++ t) = inputs s ++ inputs t := by
  induction s using inputs.induct with
  | case1 => rw [inputs, List.nil_append, List.nil_append]
  | case2 c u ih =>
    have hrest : (firstInput c u).2 <:+ c :: u :=
      (firstInput_suffix c u).trans (List.suffix_cons c u)
    rw [List.cons_append, inputs_cons, firstInput_append (h _ List.suffix_rfl), inputs_cons,
      List.cons_append, ih fun v hv ↦ h v (hv.trans hrest)]

/-- Behind a whole sequence only `t` matters for the end of the string. -/
theorem unfinished_suffix_append (h : ¬Cut s) : unfinished <:+ s ++ t ↔ unfinished <:+ t := by
  induction s using inputs.induct with
  | case1 => rw [List.nil_append]
  | case2 c u ih =>
    have hrest : (firstInput c u).2 <:+ c :: u :=
      (firstInput_suffix c u).trans (List.suffix_cons c u)
    have hne : c :: (u ++ t) ≠ unfinished := by
      intro heq
      refine h ?_
      rcases u with _ | ⟨d, _ | ⟨e, _ | ⟨f, w⟩⟩⟩ <;> cases heq
      · exact .inl List.suffix_rfl
      · exact .inr (.inl List.suffix_rfl)
      · exact .inr (.inr (.inl ⟨_, by decide, List.suffix_rfl⟩))
    rw [List.cons_append, unfinished_suffix_firstInput hne,
      firstInput_append (parted_of_not_cut h List.suffix_rfl t)]
    exact ih fun hcut ↦ h (hcut.mono hrest)

/-- A text may be printed in two pieces where no escape sequence is broken. -/
theorem callPutConsole_append (hs : 0 ∉ s) (ht : 0 ∉ t) (h : ¬Cut s) (k : Console) :
    callPutConsole g (s ++ t) k = callTwice g s t k := by
  have hnul : 0 ∉ s ++ t := by
    rw [List.mem_append]
    exact fun hmem ↦ hmem.elim hs ht
  have hwhole : ¬unfinished <:+ s := fun hsuffix ↦
    h (.inr (.inr (.inl ⟨0x33, by decide, hsuffix⟩)))
  rw [callTwice, callPutConsole_eq hs, if_neg hwhole, ok_bind, callPutConsole_eq hnul,
    inputs_append fun v hv ↦ parted_of_not_cut h hv t, Console.perform_append]
  obtain ⟨k', calls⟩ := k.perform g (inputs s)
  dsimp only
  rw [callPutConsole_eq ht]
  simp only [unfinished_suffix_append h]
  split <;> rfl

theorem wrap_dvd {z : ℤ} (h : 8 ∣ z) : 8 ∣ wrap z := by
  rw [wrap]
  omega

/-- The cursor moves by whole characters. -/
theorem Console.apply_dvd {k : Console} (h : 8 ∣ k.x) (g : Geometry) (input : Input) :
    8 ∣ (k.apply g input).1.x := by
  have hcols : 8 ∣ g.cols := wrap_dvd (dvd_mul_left _ _)
  have hline : ∀ k : Console, 8 ∣ (k.lineFeed g).1.x := by
    intro k
    rw [lineFeed]
    dsimp only
    split_ifs <;> exact dvd_zero _
  cases input with
  | glyph c =>
    rw [Console.apply, print]
    dsimp only
    split_ifs
    · exact hline _
    · exact wrap_dvd (by omega)
    · exact h
  | tab =>
    rw [Console.apply, tabWidth]
    dsimp only
    split_ifs <;> exact wrap_dvd (by omega)
  | backspace =>
    rw [Console.apply, backspace]
    split_ifs
    · exact wrap_dvd (by omega)
    · exact h
  | newline => exact hline _
  | right num =>
    rw [Console.apply, right]
    dsimp only
    split_ifs <;> exact wrap_dvd (by omega)
  | left num =>
    rw [Console.apply, left]
    dsimp only
    split_ifs
    · exact dvd_zero _
    · exact wrap_dvd (by omega)
  | _ => exact h

theorem Console.perform_dvd {k : Console} (h : 8 ∣ k.x) (g : Geometry) (is : List Input) :
    8 ∣ (k.perform g is).1.x := by
  induction is generalizing k with
  | nil => exact h
  | cons input is ih => exact ih (k.apply_dvd h g input)

/-- A display whose right edge cuts a character: the cursor never stands on it. -/
def narrow : Geometry := ⟨641, 480, 641, false⟩

/-- A character is drawn wherever the cursor may have come to. -/
theorem Console.exists_drawing {k : Console} (h : 8 ∣ k.x) (c : Byte) :
    ∃ drawing rest, (k.apply narrow (.glyph c)).2 = drawing :: rest := by
  have hx : k.x ≠ narrow.width := by
    intro heq
    rw [heq] at h
    exact absurd h (by decide)
  rw [Console.apply, print, if_pos hx]
  dsimp only
  split_ifs <;> exact ⟨_, _, rfl⟩

theorem callPutConsole_glyph {k : Console} (h : 8 ∣ k.x) (hc : (Input.glyph c).Writable) :
    ∃ after drawing rest, callPutConsole narrow [c] k = .ok (after, drawing :: rest) := by
  have hnul : 0 ∉ [c] := fun hmem ↦ hc.1 (List.mem_singleton.mp hmem).symm
  have hwhole : ¬unfinished <:+ [c] := fun hsuffix ↦ Nat.not_succ_le_self 2
    (hsuffix.length_le.trans (Nat.le_succ 1))
  have hinputs : inputs [c] = [.glyph c] := by
    have htext := inputs_text hc []
    rwa [List.append_nil, inputs] at htext
  obtain ⟨drawing, rest, hdraw⟩ := k.exists_drawing h c
  rw [callPutConsole_eq hnul, if_neg hwhole, hinputs, Console.perform, hdraw]
  exact ⟨_, _, _, rfl⟩

theorem inputs_eq_singleton {input : Input} (h : firstInput c u = (input, [])) :
    inputs (c :: u) = [input] := by
  rw [inputs_cons, h, inputs]

/-- A character that completes a sequence is drawn only if it comes in a call of its own. -/
theorem callTwice_ne (c : Byte) (input : Input) {p w : List Byte} (hs : 0 ∉ p ++ 0x1b :: w)
    (hc : (Input.glyph c).Writable) (hthree : c ≠ 0x33) (hw : peek w ≠ 0x6d)
    (hfirst : firstInput 0x1b (w ++ [c]) = (input, []))
    (hcalls : ∀ k : Console, (k.apply narrow input).2 = []) (hm : peek (w ++ [c]) ≠ 0x6d) :
    ∃ t, 0 ∉ t ∧ callPutConsole narrow (p ++ 0x1b :: w ++ t) .start
      ≠ callTwice narrow (p ++ 0x1b :: w) t .start := by
  have hnul : 0 ∉ [c] := fun hmem ↦ hc.1 (List.mem_singleton.mp hmem).symm
  refine ⟨[c], hnul, ?_⟩
  have hnul' : 0 ∉ p ++ 0x1b :: w ++ [c] := by
    rw [List.mem_append]
    exact fun hmem ↦ hmem.elim hs hnul
  have hlast : ¬unfinished <:+ p ++ 0x1b :: w ++ [c] := by
    rintro ⟨q, hq⟩
    have hget := congrArg List.getLast? hq
    rw [List.getLast?_concat, List.getLast?_append] at hget
    exact hthree (Option.some.inj hget).symm
  have hparts : ∀ {v : List Byte}, peek v ≠ 0x6d →
      inputs (p ++ 0x1b :: v) = inputs p ++ inputs (0x1b :: v) := fun hv ↦
    inputs_append fun w _ ↦ parted_escape w hv
  have hwhole : inputs (p ++ 0x1b :: w ++ [c]) = inputs p ++ [input] := by
    rw [List.append_assoc, List.cons_append, hparts hm, inputs_eq_singleton hfirst]
  rw [callTwice, callPutConsole_eq hs, callPutConsole_eq hnul', if_neg hlast, hwhole]
  split
  next => exact fun heq ↦ by cases heq
  next =>
    obtain ⟨after, drawing, rest, hdraw⟩ := callPutConsole_glyph (Console.perform_dvd (k := .start)
      (dvd_zero 8) narrow (inputs p ++ inputs (0x1b :: w))) hc
    rw [hparts hw, ok_bind]
    dsimp only
    rw [hdraw, ok_bind, Console.perform_append, Console.perform_append, Console.perform,
      Console.perform, hcalls]
    intro heq
    have hlen := congrArg (fun calls ↦ calls.2.length) (Except.ok.inj heq)
    simp only [List.length_append, List.length_cons, List.length_nil] at hlen
    omega

theorem exists_broken (hs : 0 ∉ s) (h : Cut s) :
    ∃ t, 0 ∉ t ∧ callPutConsole narrow (s ++ t) .start ≠ callTwice narrow s t .start := by
  rcases h with ⟨p, rfl⟩ | ⟨p, rfl⟩ | ⟨d, hd, p, rfl⟩ | ⟨c, hc, p, rfl⟩
  · -- the bracket
    refine callTwice_ne 0x5b .nothing hs ?_ ?_ ?_ rfl (fun _ ↦ rfl) ?_
    · exact ⟨by decide, by decide, by decide⟩
    all_goals decide
  · -- a digit
    refine callTwice_ne 0x34 .nothing hs ?_ ?_ ?_ rfl (fun _ ↦ rfl) ?_
    · exact ⟨by decide, by decide, by decide⟩
    all_goals decide
  · -- the letter of a move
    refine callTwice_ne 0x41 (.up (d.toNat - 0x30)) hs ?_ (by decide) ?_ ?_
      (fun _ ↦ rfl) ?_
    · exact ⟨by decide, by decide, by decide⟩
    · rw [peek_cons]
      decide
    · rw [List.cons_append, List.cons_append, List.nil_append, firstInput_escape,
        escapeInput_digit hd, if_pos rfl]
    · rw [List.cons_append, peek_cons]
      decide
  · -- the letter of a colour
    refine callTwice_ne 0x6d (.colour c) hs ?_ (by decide) ?_ ?_ (fun _ ↦ rfl) ?_
    · exact ⟨by decide, by decide, by decide⟩
    · rw [peek_cons]
      decide
    · obtain ⟨hup, hmove⟩ := not_or.mp hc
      obtain ⟨hdown, hmove⟩ := not_or.mp hmove
      obtain ⟨hright, hleft⟩ := not_or.mp hmove
      rw [List.cons_append, List.cons_append, List.cons_append, List.nil_append, firstInput_escape,
        escapeInput_digit (by decide), if_neg hup, if_neg hdown, if_neg hright, if_neg hleft,
        if_pos ⟨rfl, rfl⟩]
      rfl
    · rw [List.cons_append, peek_cons]
      decide

/-- **Printing in pieces**: to cut a text behind `s`, whatever the display, the variables and the
rest are, changes nothing exactly if `s` does not end inside an escape sequence. -/
theorem pieces_iff (hs : 0 ∉ s) :
    (∀ (g : Geometry) (k : Console) (t : List Byte), 0 ∉ t →
      callPutConsole g (s ++ t) k = callTwice g s t k) ↔ ¬Cut s := by
  constructor
  · intro h hcut
    obtain ⟨t, ht, hne⟩ := exists_broken hs hcut
    exact hne (h narrow .start t ht)
  · exact fun h g k t ht ↦ callPutConsole_append hs ht h k

/-- A letter behind the sequence for the colour red. -/
theorem pieces_iff_red : callPutConsole narrow ((Input.colour 0x31).text ++ [0x41]) .start =
    callTwice narrow (Input.colour 0x31).text [0x41] .start := by
  refine (pieces_iff (by decide)).mpr ?_ narrow .start [0x41] (by decide)
  rintro (h | h | ⟨d, -, h⟩ | ⟨c, -, h⟩)
  · exact absurd h (by decide)
  · exact absurd h (by decide)
  · cases List.suffix_iff_eq_drop.mp h
  · cases List.suffix_iff_eq_drop.mp h

end Pieces

end VimOS
