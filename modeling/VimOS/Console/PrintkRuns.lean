import VimOS.Console.CursorRuns
import VimOS.Console.Inputs
import VimOS.Console.Printk

/-!
# What `printk` shows

`printk` formats into its static buffer and hands that to `print_func`, which `init_console` makes
`put_console`. The buffer keeps what the calls before have left there; a text is shown as it is as
long as the parser does not look behind the NUL, which it does for one kind of text only.

Nothing in the text of a call is a NUL: its bytes are those of the format, of the strings, and of
the numbers, which are digits, letters, signs and blanks.
-/

namespace VimOS

open Signed32

/-! ## The code -/

/-- A call of `printk`. -/
structure PrintkCall where
  fmt : List Byte
  str : Addr → List Byte
  args : Args

/-- The text of a call. -/
def PrintkCall.text (c : PrintkCall) : List Byte := format c.str c.fmt c.args

/-- The static variables: `print_func`, which is null or `put_console`, and those of
`put_console`. `mem` is memory from the buffer on. Besides, all that has been drawn. -/
structure PrintkState where
  printFunc : Bool
  mem : ℕ → Byte
  console : Console
  drawings : List Drawing

/-- Memory behind stores. -/
def storesIn (mem : ℕ → Byte) (stores : List (Byte × ℕ)) : ℕ → Byte :=
  stores.foldl (fun mem store ↦ Function.update mem store.2 store.1) mem

/-- `printk`, with the call of `print_func`. -/
def showPrintk (g : Geometry) (fuel : ℕ) (s : PrintkState) (c : PrintkCall) :
    Except Fault PrintkState := do
  let stores ← printk fuel c.fmt c.str c.args
  let mem := storesIn s.mem stores
  if s.printFunc then
    let (console, drawings, _) ← putConsole g (readable mem) fuel 0 s.console
    pure { s with mem := mem, console := console, drawings := s.drawings ++ drawings }
  else pure { s with mem := mem }

/-- What happens to the variables: `init_console`, or a call of `printk`. -/
inductive PrintkEvent
  | initConsole
  | printk (c : PrintkCall)

def PrintkState.step (g : Geometry) (fuel : ℕ) (s : PrintkState) :
    PrintkEvent → Except Fault PrintkState
  | .initConsole => pure { s with printFunc := true }
  | .printk c => showPrintk g fuel s c

/-! ## The bytes of a text -/

/-- A digit, a letter, a sign or a blank. -/
def isNumberChar (c : Byte) : Bool :=
  isDigit c || decide (0x41 ≤ c ∧ c ≤ 0x5a ∨ 0x61 ≤ c ∧ c ≤ 0x7a) ||
    decide (c = 0x20 ∨ c = 0x2b ∨ c = 0x2d)

section Bytes

variable {c : Byte} {str : Addr → List Byte} {args : Args} {u : List Byte}

theorem isNumberChar_digitAt (small : Bool) {d : ℕ} (h : d < 36) :
    isNumberChar (digitAt small d) = true := by
  revert d
  cases small <;> decide

theorem isNumberChar_tmpBytes {num : BitVec 64} {base : ℤ} {type : Flags} (hbase : 2 ≤ base)
    (hbase' : base ≤ 36) (hc : c ∈ tmpBytes num base type) : isNumberChar c = true := by
  have hlow : 2 ≤ base.toNat := by omega
  rw [tmpBytes] at hc
  split at hc
  · rw [List.mem_singleton] at hc
    rw [hc]
    rfl
  · rw [fillTmp_eq _ hlow, List.mem_map] at hc
    obtain ⟨d, hd, rfl⟩ := hc
    exact isNumberChar_digitAt _ ((Nat.digits_lt_base hlow hd).trans_le (by omega))

/-- Every byte of a number. -/
theorem isNumberChar_number {num : BitVec 64} {base size precision : ℤ} {type : Flags}
    {out : List Byte} (hbase : 2 ≤ base) (hbase' : base ≤ 36)
    (hout : number num base size precision type = some out) (hc : c ∈ out) :
    isNumberChar c = true := by
  have hpad : ∀ {n : ℕ} {b : Byte}, isNumberChar b = true → c ∈ List.replicate n b →
      isNumberChar c = true := fun hb hmem ↦ List.eq_of_mem_replicate hmem ▸ hb
  have hsign : c ∈ signText type → isNumberChar c = true := by
    rw [signText]
    split_ifs <;> intro hmem
    · exact List.mem_singleton.mp hmem ▸ rfl
    · exact List.mem_singleton.mp hmem ▸ rfl
    · exact absurd hmem List.not_mem_nil
  have hspecial : c ∈ specialBytes base type → isNumberChar c = true := by
    intro hmem
    rw [specialBytes] at hmem
    split_ifs at hmem
    · exact List.mem_singleton.mp hmem ▸ rfl
    · rcases List.mem_cons.mp hmem with rfl | hmem
      · rfl
      · exact List.mem_singleton.mp hmem ▸ isNumberChar_digitAt _ (by norm_num)
    · exact absurd hmem List.not_mem_nil
    · exact absurd hmem List.not_mem_nil
  cases (number_eq hbase hbase').symm.trans hout
  simp only [List.mem_append, List.mem_reverse] at hc
  rcases hc with (((((hc | hc) | hc) | hc) | hc) | hc) | hc
  · exact hpad rfl hc
  · exact hsign hc
  · exact hspecial hc
  · refine hpad ?_ hc
    split_ifs <;> rfl
  · exact hpad rfl hc
  · exact isNumberChar_tmpBytes hbase hbase' hc
  · exact hpad rfl hc

/-- Every byte of a string conversion. -/
theorem mem_stringBytes {text : List Byte} {width precision : ℤ} {flags : Flags}
    (hc : c ∈ stringBytes text width precision flags) : c ∈ text ∨ c = 0x20 := by
  simp only [stringBytes, countdown_eq, List.mem_append] at hc
  rcases hc with (hc | hc) | hc
  · split at hc
    · exact .inr (List.eq_of_mem_replicate hc)
    · exact absurd hc List.not_mem_nil
  · exact .inl (List.mem_of_mem_take hc)
  · exact .inr (List.eq_of_mem_replicate hc)

/-- Where a byte of a conversion comes from. -/
theorem mem_convert {d : Directive} (hc : c ∈ (d.convert str).1) :
    isNumberChar c = true ∨ (∃ p, c ∈ str p) ∨ c = 0x25 ∨ c ∈ d.rest := by
  have hnumber : ∀ {base : ℤ} {type : Flags}, 2 ≤ base → base ≤ 36 →
      c ∈ (((number d.args.head base d.width d.precision type).map (·, d.args.tail)).getD
        ([], d.args)).1 → isNumberChar c = true := by
    intro base type hbase hbase' hmem
    cases h : number d.args.head base d.width d.precision type with
    | none =>
      rw [h] at hmem
      exact absurd hmem List.not_mem_nil
    | some out =>
      rw [h] at hmem
      exact isNumberChar_number hbase hbase' h hmem
  rw [Directive.convert, VimOS.convert] at hc
  split_ifs at hc with hs hx hX hd hu
  · rcases mem_stringBytes hc with hmem | rfl
    · exact .inr (.inl ⟨_, hmem⟩)
    · exact .inl rfl
  · exact .inl (hnumber (by norm_num) (by norm_num) hc)
  · exact .inl (hnumber (by norm_num) (by norm_num) hc)
  · exact .inl (hnumber (by norm_num) (by norm_num) hc)
  · exact .inl (hnumber (by norm_num) (by norm_num) hc)
  · rcases List.mem_append.mp hc with hmem | hmem
    · split_ifs at hmem
      · exact .inr (.inr (.inl (List.mem_singleton.mp hmem)))
      · exact absurd hmem List.not_mem_nil
    · split_ifs at hmem with hpeek
      · rw [List.mem_singleton] at hmem
        obtain ⟨v, hv⟩ := exists_cons_of_peek rfl hpeek
        exact .inr (.inr (.inr (by rw [hv, hmem]; exact List.mem_cons_self)))
      · exact absurd hmem List.not_mem_nil

theorem mem_rest (hc : c ∈ (directive u args).rest) : c = 0x25 ∨ c ∈ u := by
  have hat : At (0x25 :: u) 1 u := ⟨Nat.le_add_left _ _, rfl⟩
  have hlen := Nat.lt_succ_self u.length
  obtain ⟨pos₁, -, hat₁⟩ := scanFlags_at hat hlen Flags.none
  obtain ⟨pos₂, -, hat₂⟩ := scanWidth_at hat₁ ((length_flagsOf_le u _).trans_lt hlen) _ args
  obtain ⟨pos₃, -, hat₃⟩ := scanPrecision_at hat₂
    (((length_widthOf_le _ _ _).trans (length_flagsOf_le u _)).trans_lt hlen) _
  obtain ⟨pos₄, -, hat₄⟩ := scanQualifier_at hat₃
  have hdrop : (directive u args).rest = (0x25 :: u).drop pos₄ := hat₄.drop_eq.symm
  rw [hdrop] at hc
  exact List.mem_cons.mp (List.mem_of_mem_drop hc)

/-- **Where a byte of a text comes from**: from a number, a string, or the format. -/
theorem mem_format (hc : c ∈ format str u args) :
    isNumberChar c = true ∨ (∃ p, c ∈ str p) ∨ c = 0x25 ∨ c ∈ u := by
  induction u, args using format.induct str with
  | case1 args =>
    rw [format] at hc
    exact absurd hc List.not_mem_nil
  | case2 args u ih =>
    have hrest : c ∈ (directive u args).rest → c = 0x25 ∨ c ∈ 0x25 :: u := fun hmem ↦
      (mem_rest hmem).imp_right (List.mem_cons_of_mem _)
    rw [format, if_pos rfl, List.mem_append] at hc
    rcases hc with hc | hc
    · rcases mem_convert hc with h | h | h | h
      · exact .inl h
      · exact .inr (.inl h)
      · exact .inr (.inr (.inl h))
      · exact .inr (.inr (hrest h))
    · rcases ih hc with h | h | h | h
      · exact .inl h
      · exact .inr (.inl h)
      · exact .inr (.inr (.inl h))
      · exact .inr (.inr (hrest (List.mem_of_mem_tail h)))
  | case3 args d u hd ih =>
    rw [format, if_neg hd, List.mem_cons] at hc
    rcases hc with rfl | hc
    · exact .inr (.inr (.inr List.mem_cons_self))
    · rcases ih hc with h | h | h | h
      · exact .inl h
      · exact .inr (.inl h)
      · exact .inr (.inr (.inl h))
      · exact .inr (.inr (.inr (List.mem_cons_of_mem _ h)))

/-- The format and the strings are C strings, and the text leaves room for the NUL. -/
structure PrintkCall.Valid (c : PrintkCall) : Prop where
  fmt : 0 ∉ c.fmt
  str : ∀ p, 0 ∉ c.str p
  fits : formatLength c.str c.fmt c.args < printkBufSize

theorem PrintkCall.Valid.nul_notMem {c : PrintkCall} (h : c.Valid) : 0 ∉ c.text := by
  intro hmem
  rcases mem_format hmem with hzero | ⟨p, hzero⟩ | hzero | hzero
  · exact absurd hzero (by decide)
  · exact h.str p hzero
  · exact absurd hzero (by decide)
  · exact h.fmt hzero

end Bytes

/-! ## The buffer as a string -/

/-- The string lies in memory, with its NUL. -/
def HoldsText (mem : ℕ → Byte) (s : List Byte) : Prop :=
  ∀ i c, fetch s i = .ok c → mem i = c

section Buffer

variable {g : Geometry} {mem : ℕ → Byte} {s u : List Byte} {pos fuel : ℕ} {k after : Console}
  {drawings : List Drawing} {stop : ℕ}

theorem storesIn_zipIdx (mem : ℕ → Byte) (out : List Byte) (n i : ℕ) :
    storesIn mem (out.zipIdx n) i = if n ≤ i then (out[i - n]?).getD (mem i) else mem i := by
  induction out generalizing mem n with
  | nil =>
    rw [List.zipIdx_nil, storesIn, List.foldl_nil, List.getElem?_nil, Option.getD_none, ite_self]
  | cons b out ih =>
    rw [List.zipIdx_cons, storesIn, List.foldl_cons]
    refine (ih _ _).trans ?_
    rcases lt_trichotomy i n with h | rfl | h
    · rw [if_neg (by omega), if_neg (by omega), Function.update_of_ne h.ne]
    · rw [if_neg (by omega), if_pos le_rfl, Function.update_self, Nat.sub_self]
      rfl
    · have hsub : i - n = i - (n + 1) + 1 := by omega
      rw [if_pos (Nat.succ_le_of_lt h), if_pos h.le, Function.update_of_ne h.ne', hsub,
        List.getElem?_cons_succ]

theorem holds_storesIn (mem : ℕ → Byte) (s : List Byte) :
    HoldsText (storesIn mem (s ++ [0]).zipIdx) s := by
  intro i c h
  rw [fetch] at h
  rw [storesIn_zipIdx, if_pos (Nat.zero_le i), Nat.sub_zero]
  cases hget : (s ++ [0])[i]? with
  | none =>
    rw [hget] at h
    cases h
  | some b =>
    rw [hget] at h
    cases h
    rfl

/-- The stores of a text that fits leave everything behind the buffer alone. -/
theorem storesIn_of_le {out : List Byte} (h : out.length ≤ pos) (mem : ℕ → Byte) :
    storesIn mem out.zipIdx pos = mem pos := by
  rw [storesIn_zipIdx, if_pos (Nat.zero_le pos), Nat.sub_zero, List.getElem?_eq_none h]
  rfl

theorem exists_of_bind {α β : Type} {x : Except Fault α} {f : α → Except Fault β} {b : β}
    (h : (x >>= f) = .ok b) : ∃ a, x = .ok a ∧ f a = .ok b := by
  cases x with
  | error fault => cases h
  | ok a => exact ⟨a, rfl, h⟩

theorem decodeEscape_of_holdsText (h : HoldsText mem s) {decoded : Input × ℕ}
    (hdecode : decodeEscape (fetch s) pos = .ok decoded) :
    decodeEscape (readable mem) pos = .ok decoded := by
  rw [decodeEscape] at hdecode ⊢
  obtain ⟨c, hc, hdecode⟩ := exists_of_bind hdecode
  rw [readable, h _ _ hc, ok_bind]
  split at hdecode
  next hdigit =>
    obtain ⟨d, hd, hdecode⟩ := exists_of_bind hdecode
    rw [if_pos hdigit, readable, h _ _ hd, ok_bind]
    split_ifs at hdecode ⊢
    · exact hdecode
    · exact hdecode
    · exact hdecode
    · exact hdecode
    · obtain ⟨e, he, hdecode⟩ := exists_of_bind hdecode
      rw [readable, h _ _ he, ok_bind]
      exact hdecode
    · exact hdecode
  next hdigit =>
    rw [if_neg hdigit]
    exact hdecode

theorem decodeInput_of_holdsText (h : HoldsText mem s) {decoded : Input × ℕ}
    (hdecode : decodeInput (fetch s) pos = .ok decoded) :
    decodeInput (readable mem) pos = .ok decoded := by
  rw [decodeInput] at hdecode ⊢
  obtain ⟨c, hc, hdecode⟩ := exists_of_bind hdecode
  rw [readable, h _ _ hc, ok_bind]
  by_cases hescape : c = 0x1b
  · rw [if_pos hescape] at hdecode ⊢
    obtain ⟨d, hd, hdecode⟩ := exists_of_bind hdecode
    rw [readable, h _ _ hd, ok_bind]
    split at hdecode
    next hbracket =>
      rw [if_pos hbracket]
      exact decodeEscape_of_holdsText h hdecode
    next hbracket =>
      rw [if_neg hbracket]
      exact hdecode
  · rw [if_neg hescape] at hdecode ⊢
    exact hdecode

/-- A loop that stays inside the string does the same on memory that holds it. -/
theorem putConsole_of_holdsText (h : HoldsText mem s)
    (hrun : putConsole g (fetch s) fuel pos k = .ok (after, drawings, stop)) :
    putConsole g (readable mem) fuel pos k = .ok (after, drawings, stop) := by
  induction fuel generalizing pos k drawings with
  | zero => cases hrun
  | succ fuel ih =>
    rw [putConsole] at hrun ⊢
    obtain ⟨c, hc, hrun⟩ := exists_of_bind hrun
    rw [readable, h _ _ hc, ok_bind]
    split at hrun
    next hnul =>
      rw [if_pos hnul]
      exact hrun
    next hnul =>
      obtain ⟨decoded, hdecode, hrun⟩ := exists_of_bind hrun
      obtain ⟨⟨after', rest, stop'⟩, hrest, hrun⟩ := exists_of_bind hrun
      cases hrun
      rw [if_neg hnul, decodeInput_of_holdsText h hdecode, ok_bind]
      dsimp only
      rw [ih hrest]
      rfl

end Buffer

/-! ## One call after the other -/

/-- The variables behind a call that shows its text. -/
def PrintkState.shown (g : Geometry) (s : PrintkState) (text : List Byte) : PrintkState where
  printFunc := s.printFunc
  mem := storesIn s.mem (text ++ [0]).zipIdx
  console := if s.printFunc then (s.console.perform g (inputs text)).1 else s.console
  drawings := s.drawings ++ if s.printFunc then (s.console.perform g (inputs text)).2 else []

/-- The texts of the calls that are made when `print_func` is set. -/
def shownText : Bool → List PrintkEvent → List Byte
  | _, [] => []
  | _, .initConsole :: events => shownText true events
  | printFunc, .printk c :: events =>
    (if printFunc then c.text else []) ++ shownText printFunc events

/-- The calls of a run are valid, and none of their texts ends inside an escape sequence. -/
def AllWhole (events : List PrintkEvent) : Prop :=
  ∀ c, .printk c ∈ events → c.Valid ∧ ¬Cut c.text

section Session

variable {g : Geometry} {c : PrintkCall} {s : PrintkState} {fuel : ℕ} {k : Console}
  {events : List PrintkEvent} {mem : ℕ → Byte}

theorem not_unfinished_of_not_cut {u : List Byte} (h : ¬Cut u) : ¬unfinished <:+ u := fun hsuffix ↦
  h (.inr (.inr (.inl ⟨0x33, by decide, hsuffix⟩)))

/-- **A call shows its text**, whatever the buffer holds. -/
theorem showPrintk_eq (h : c.Valid) (hwhole : ¬unfinished <:+ c.text) (hfmt : c.fmt.length < fuel)
    (htext : c.text.length < fuel) (s : PrintkState) :
    showPrintk g fuel s c = .ok (s.shown g c.text) := by
  have hat : At c.text 0 c.text := ⟨Nat.zero_le _, rfl⟩
  have hput := putConsole_of_holdsText (g := g) (holds_storesIn s.mem c.text)
    (putConsole_perform h.nul_notMem hat hwhole htext s.console)
  rw [showPrintk, printk_eq h.fmt hfmt, ok_bind, PrintkState.shown]
  cases s.printFunc with
  | false =>
    rw [if_neg Bool.false_ne_true, if_neg Bool.false_ne_true, if_neg Bool.false_ne_true,
      List.append_nil]
    rfl
  | true =>
    rw [if_pos rfl, if_pos rfl, if_pos rfl]
    refine (congrArg (· >>= _) hput).trans ?_
    rfl

theorem AllWhole.cons {event : PrintkEvent} (h : AllWhole (event :: events)) : AllWhole events :=
  fun c hmem ↦ h c (List.mem_cons_of_mem _ hmem)

theorem AllWhole.nul_notMem (h : AllWhole events) (printFunc : Bool) :
    0 ∉ shownText printFunc events := by
  induction events generalizing printFunc with
  | nil => exact List.not_mem_nil
  | cons event events ih =>
    cases event with
    | initConsole => exact ih h.cons true
    | printk c =>
      rw [shownText, List.mem_append, not_or]
      refine ⟨?_, ih h.cons printFunc⟩
      split
      next => exact (h c List.mem_cons_self).1.nul_notMem
      next => exact List.not_mem_nil

theorem AllWhole.not_unfinished (h : AllWhole events) (printFunc : Bool) :
    ¬unfinished <:+ shownText printFunc events := by
  induction events generalizing printFunc with
  | nil =>
    rw [shownText]
    decide
  | cons event events ih =>
    cases event with
    | initConsole => exact ih h.cons true
    | printk c =>
      rw [shownText]
      split
      next => rw [unfinished_suffix_append (h c List.mem_cons_self).2]; exact ih h.cons printFunc
      next => exact ih h.cons printFunc

/-- A run performs the inputs of all that is shown. -/
theorem foldlM_step (h : AllWhole events) (g : Geometry) (s : PrintkState) :
    ∃ n s', (∀ fuel, n ≤ fuel → events.foldlM (PrintkState.step g fuel) s = .ok s') ∧
      s'.console = (s.console.perform g (inputs (shownText s.printFunc events))).1 ∧
      s'.drawings =
        s.drawings ++ (s.console.perform g (inputs (shownText s.printFunc events))).2 ∧
      ∀ i, printkBufSize ≤ i → s'.mem i = s.mem i := by
  induction events generalizing s with
  | nil =>
    refine ⟨0, s, fun _ _ ↦ rfl, ?_, ?_, fun _ _ ↦ rfl⟩
    · rw [shownText, inputs]
      rfl
    · rw [shownText, inputs]
      exact (List.append_nil _).symm
  | cons event events ih =>
    cases event with
    | initConsole =>
      obtain ⟨n, s', hrun, hrest⟩ := ih h.cons { s with printFunc := true }
      exact ⟨n, s', fun fuel hfuel ↦ by rw [List.foldlM_cons]; exact hrun fuel hfuel, hrest⟩
    | printk c =>
      obtain ⟨hvalid, hcut⟩ := h c List.mem_cons_self
      obtain ⟨n, s', hrun, hconsole, hdrawings, hmem⟩ := ih h.cons (s.shown g c.text)
      refine ⟨max n (max c.fmt.length c.text.length + 1), s', fun fuel hfuel ↦ ?_, ?_, ?_, ?_⟩
      · rw [max_le_iff, Nat.succ_le_iff, max_lt_iff] at hfuel
        have hcall := showPrintk_eq (g := g) hvalid (not_unfinished_of_not_cut hcut) hfuel.2.1
          hfuel.2.2 s
        rw [List.foldlM_cons]
        exact (congrArg (· >>= _) hcall).trans (hrun fuel hfuel.1)
      · rw [hconsole, shownText, PrintkState.shown]
        cases s.printFunc with
        | false => rfl
        | true =>
          dsimp only
          rw [if_pos rfl, if_pos rfl, inputs_append fun v hv ↦ parted_of_not_cut hcut hv _,
            Console.perform_append]
      · rw [hdrawings, shownText, PrintkState.shown]
        cases s.printFunc with
        | false =>
          dsimp only
          rw [if_neg Bool.false_ne_true, if_neg Bool.false_ne_true, if_neg Bool.false_ne_true,
            List.append_nil, List.nil_append]
        | true =>
          dsimp only
          rw [if_pos rfl, if_pos rfl, if_pos rfl,
            inputs_append fun v hv ↦ parted_of_not_cut hcut hv _, Console.perform_append,
            List.append_assoc]
      · intro i hi
        have hfits : (c.text ++ [0]).length ≤ printkBufSize := by
          rw [List.length_append, List.length_singleton, PrintkCall.text, length_format]
          exact hvalid.fits
        exact (hmem i hi).trans (storesIn_of_le (hfits.trans hi) s.mem)

/-- **A session of `printk`**: what is on the screen behind any calls, from any buffer, is what one
call of `put_console` draws for the texts of those made behind `init_console`, and nothing is
stored behind the buffer. -/
theorem printk_session (h : AllWhole events) (g : Geometry) (s : PrintkState) :
    ∃ n s' drawings, (∀ fuel, n ≤ fuel → events.foldlM (PrintkState.step g fuel) s = .ok s') ∧
      callPutConsole g (shownText s.printFunc events) s.console = .ok (s'.console, drawings) ∧
      s'.drawings = s.drawings ++ drawings ∧ ∀ i, printkBufSize ≤ i → s'.mem i = s.mem i := by
  obtain ⟨n, s', hrun, hconsole, hdrawings, hmem⟩ := foldlM_step h g s
  refine ⟨n, s', _, hrun, ?_, hdrawings, hmem⟩
  rw [callPutConsole_eq (h.nul_notMem _), if_neg (h.not_unfinished _), hconsole]

/-- A call of one letter. -/
def letterCall : PrintkCall := ⟨[0x41], fun _ ↦ [], Stream'.const 0⟩

theorem text_letterCall : letterCall.text = [0x41] := by
  rw [PrintkCall.text, letterCall, format, if_neg (by decide), format]

theorem valid_letterCall : letterCall.Valid where
  fmt := by decide
  str _ := List.not_mem_nil
  fits := by
    rw [letterCall, formatLength, if_neg (by decide), formatLength]
    decide

theorem not_cut_letter : ¬Cut [0x41] := by
  rintro (h | h | ⟨d, -, h⟩ | ⟨c, -, h⟩)
  · exact absurd h (by decide)
  · exact absurd h (by decide)
  · exact absurd h.length_le (by simp)
  · exact absurd h.length_le (by simp)

/-- The variables before `init_console`, the buffer being full of letters. -/
def letterState : PrintkState := ⟨false, fun _ ↦ 0x41, .start, []⟩

/-- One call before `init_console`, and one behind. -/
theorem printk_session_letter : ∃ n s' drawings,
    (∀ fuel, n ≤ fuel → [.printk letterCall, .initConsole, .printk letterCall].foldlM
        (PrintkState.step narrow fuel) letterState = .ok s') ∧
      callPutConsole narrow (shownText false
        [.printk letterCall, .initConsole, .printk letterCall]) .start
          = .ok (s'.console, drawings) ∧
      s'.drawings = drawings ∧ ∀ i, printkBufSize ≤ i → s'.mem i = 0x41 := by
  refine printk_session (fun c hmem ↦ ?_) narrow letterState
  have hc : c = letterCall := by
    simp only [List.mem_cons, PrintkEvent.printk.injEq, reduceCtorEq, List.not_mem_nil, or_false,
      false_or, or_self] at hmem
    exact hmem
  rw [hc, text_letterCall]
  exact ⟨valid_letterCall, not_cut_letter⟩

end Session

/-! ## What the buffer held before -/

/-- A call shows `drawings` on memory `mem` and leaves the variables `after`. -/
def Shows (g : Geometry) (c : PrintkCall) (k : Console) (mem : ℕ → Byte) (after : Console)
    (drawings : List Drawing) : Prop :=
  ∃ n, ∀ fuel, n ≤ fuel → ∃ s', showPrintk g fuel ⟨true, mem, k, []⟩ c = .ok s' ∧
    s'.console = after ∧ s'.drawings = drawings

section Stale

variable {g : Geometry} {c : PrintkCall} {s u : List Byte} {pos fuel : ℕ} {mem : ℕ → Byte}

/-- The loop comes to the unfinished sequence at the end of the string. -/
theorem exists_reach (hnul : 0 ∉ s) (hat : At s pos u) (h : unfinished <:+ u) (g : Geometry)
    {k : Console} (hx : 8 ∣ k.x) : ∃ j k' drawings, 8 ∣ k'.x ∧ ∀ mem, HoldsText mem s → ∀ fuel,
      putConsole g (readable mem) (fuel + j) pos k = (do
        let (after, rest, stop) ← putConsole g (readable mem) fuel (s.length - 3) k'
        pure (after, drawings ++ rest, stop)) := by
  induction hn : u.length using Nat.strong_induction_on generalizing u pos k with
  | _ n ih =>
    subst hn
    cases u with
    | nil => exact absurd (List.suffix_nil.mp h) (by decide)
    | cons c u =>
      have hc : c ≠ 0 := fun heq ↦ hat.notMem hnul (heq ▸ List.mem_cons_self)
      by_cases hne : c :: u = unfinished
      · refine ⟨0, k, [], hx, fun mem _ fuel ↦ ?_⟩
        have hlen := hat.length
        rw [hne] at hlen
        have hpos : pos = s.length - 3 := Nat.eq_sub_of_add_eq hlen
        rw [Nat.add_zero, hpos]
        cases putConsole g (readable mem) fuel (s.length - 3) k <;> rfl
      · obtain ⟨n, hdecode, hrest⟩ := decodeInput_eq hat hne
        obtain ⟨j, k', drawings, hx', hreach⟩ := ih _
          (Nat.lt_succ_of_le (length_firstInput_le c u)) hrest
          ((unfinished_suffix_firstInput hne).mp h) (k.apply_dvd hx g (firstInput c u).1) rfl
        refine ⟨j + 1, k', (k.apply g (firstInput c u).1).2 ++ drawings, hx',
          fun mem hmem fuel ↦ ?_⟩
        have hbyte : readable mem pos = .ok c := congrArg Except.ok (hmem _ _ hat.fetch)
        rw [← Nat.add_assoc, putConsole_succ hbyte hc (decodeInput_of_holdsText hmem hdecode),
          hreach mem hmem]
        cases putConsole g (readable mem) fuel (s.length - 3) k' with
        | error fault => rfl
        | ok result =>
          exact congrArg (fun l ↦ (Except.ok (result.1, l, result.2.2) : Except Fault _))
            (List.append_assoc _ _ _).symm

/-- What follows the NUL decides what the unfinished sequence is. -/
theorem decodeInput_stale (hmem : HoldsText mem s) (hat : At s pos unfinished) :
    decodeInput (readable mem) pos
      = .ok (if mem (pos + 4) = 0x6d then (.colour 0, 5) else (.nothing, 3)) := by
  have hfirst : mem pos = 0x1b := hmem _ _ hat.fetch
  have hsecond : mem (pos + 1) = 0x5b := hmem _ _ hat.next.fetch
  have hthird : mem (pos + 2) = 0x33 := hmem _ _ hat.next.next.fetch
  have hnul : mem (pos + 3) = 0 := hmem _ _ hat.next.next.next.fetch
  rw [decodeInput, decodeEscape]
  simp only [readable, ok_bind, hfirst, hsecond, hthird, hnul, if_true]
  rw [if_pos (by decide), if_neg (by decide), if_neg (by decide), if_neg (by decide),
    if_neg (by decide), if_pos (by decide)]
  split <;> rfl

/-- With nothing behind the NUL the sequence is given up, and the call returns. -/
theorem putConsole_given_up (hmem : HoldsText mem s) (hat : At s pos unfinished)
    (hstale : mem (pos + 4) = 0) (fuel : ℕ) (k : Console) :
    putConsole g (readable mem) (fuel + 2) pos k = .ok (k, [], pos + 3) := by
  have hbyte : readable mem pos = .ok 0x1b := congrArg Except.ok (hmem _ _ hat.fetch)
  have hend : mem (pos + 3) = 0 := hmem _ _ hat.next.next.next.fetch
  have hdecode := decodeInput_stale hmem hat
  rw [hstale, if_neg (by decide)] at hdecode
  rw [putConsole_succ hbyte (by decide) hdecode, putConsole, readable, hend, ok_bind, if_pos rfl]
  rfl

/-- With `m` behind the NUL the call goes on with what an earlier text has left. -/
theorem putConsole_stale (hmem : HoldsText mem s) (hat : At s pos unfinished)
    (hstale : mem (pos + 4) = 0x6d) (hletter : mem (pos + 5) = 0x41) (hend : mem (pos + 6) = 0)
    (fuel : ℕ) (k : Console) : putConsole g (readable mem) (fuel + 3) pos k
      = .ok (((k.apply g (.colour 0)).1.apply g (.glyph 0x41)).1,
          ((k.apply g (.colour 0)).1.apply g (.glyph 0x41)).2, pos + 6) := by
  have hbyte : readable mem pos = .ok 0x1b := congrArg Except.ok (hmem _ _ hat.fetch)
  have hbyte' : readable mem (pos + 5) = .ok 0x41 := congrArg Except.ok hletter
  have hdecode := decodeInput_stale hmem hat
  rw [hstale, if_pos rfl] at hdecode
  have hdecode' : decodeInput (readable mem) (pos + 5) = .ok (.glyph 0x41, 1) := by
    rw [decodeInput, hbyte']
    rfl
  rw [putConsole_succ hbyte (by decide) hdecode, putConsole_succ hbyte' (by decide) hdecode',
    putConsole, readable, hend, ok_bind, if_pos rfl]
  exact congrArg (fun l ↦ (Except.ok (_, l, _) : Except Fault _)) (List.append_nil _)

theorem showPrintk_of_putConsole (h : c.Valid) (hfmt : c.fmt.length < fuel) {k after : Console}
    {drawings : List Drawing} {stop : ℕ}
    (hput : putConsole g (readable (storesIn mem (c.text ++ [0]).zipIdx)) fuel 0 k
      = .ok (after, drawings, stop)) : showPrintk g fuel ⟨true, mem, k, []⟩ c
      = .ok ⟨true, storesIn mem (c.text ++ [0]).zipIdx, after, drawings⟩ := by
  rw [showPrintk, printk_eq h.fmt hfmt, ok_bind, if_pos rfl]
  exact (congrArg (· >>= _) hput).trans rfl

theorem shows_of_putConsole (h : c.Valid) {k after : Console} {drawings : List Drawing}
    {stop m : ℕ} (hput : ∀ fuel, putConsole g (readable (storesIn mem (c.text ++ [0]).zipIdx))
      (fuel + m) 0 k = .ok (after, drawings, stop)) : Shows g c k mem after drawings := by
  refine ⟨max m (c.fmt.length + 1), fun fuel hfuel ↦ ?_⟩
  obtain ⟨rest, rfl⟩ := Nat.exists_eq_add_of_le' ((le_max_left _ _).trans hfuel)
  exact ⟨_, showPrintk_of_putConsole h ((le_max_right _ _).trans hfuel) (hput rest), rfl, rfl⟩

theorem Shows.unique {k after after' : Console} {drawings drawings' : List Drawing}
    (h : Shows g c k mem after drawings) (h' : Shows g c k mem after' drawings') :
    drawings = drawings' := by
  obtain ⟨n, hrun⟩ := h
  obtain ⟨n', hrun'⟩ := h'
  obtain ⟨s, hs, -, rfl⟩ := hrun (max n n') (le_max_left _ _)
  obtain ⟨s', hs', -, rfl⟩ := hrun' (max n n') (le_max_right _ _)
  cases hs.symm.trans hs'
  rfl

/-- What an earlier text may have left behind the NUL of a text of `n` bytes. -/
def leftover (n i : ℕ) : Byte := if i = n + 1 then 0x6d else if i = n + 2 then 0x41 else 0

/-- A text that ends in the unfinished sequence shows different things on different buffers. -/
theorem exists_shows (h : c.Valid) (hsuffix : unfinished <:+ c.text) :
    ∃ after after' drawings drawing rest, Shows narrow c .start (fun _ ↦ 0) after drawings ∧
      Shows narrow c .start (leftover c.text.length) after' (drawings ++ drawing :: rest) := by
  have hstart : At c.text 0 c.text := ⟨Nat.zero_le _, rfl⟩
  have hend : At c.text (c.text.length - 3) unfinished :=
    ⟨Nat.sub_le _ _, (List.suffix_iff_eq_drop.mp hsuffix).symm⟩
  have hlen : c.text.length - 3 + 3 = c.text.length := hend.length
  have hbehind : ∀ (mem : ℕ → Byte) {i : ℕ}, 1 ≤ i → storesIn mem (c.text ++ [0]).zipIdx
      (c.text.length - 3 + 3 + i) = mem (c.text.length + i) := by
    intro mem i hi
    rw [hlen]
    refine storesIn_of_le ?_ mem
    rw [List.length_append]
    exact Nat.add_le_add_left hi _
  obtain ⟨j, k', drawings, hx, hreach⟩ := exists_reach h.nul_notMem hstart hsuffix narrow
    (k := .start) (dvd_zero 8)
  obtain ⟨drawing, rest, hdraw⟩ := (k'.apply narrow (.colour 0)).1.exists_drawing
    (k'.apply_dvd hx narrow (.colour 0)) 0x41
  have hm : leftover c.text.length (c.text.length + 1) = 0x6d := if_pos rfl
  have hletter : leftover c.text.length (c.text.length + 2) = 0x41 := by
    rw [leftover, if_neg (by omega), if_pos rfl]
  have hnul : leftover c.text.length (c.text.length + 3) = 0 := by
    rw [leftover, if_neg (by omega), if_neg (by omega)]
  have hzero := fun fuel ↦ putConsole_given_up (g := narrow)
    (holds_storesIn (fun _ ↦ 0) c.text) hend (hbehind _ le_rfl) fuel k'
  have hleft := fun fuel ↦ putConsole_stale (g := narrow)
    (holds_storesIn (leftover c.text.length) c.text) hend ((hbehind _ le_rfl).trans hm)
    ((hbehind _ one_le_two).trans hletter) ((hbehind _ (by decide)).trans hnul) fuel k'
  have hfirst : ∀ fuel, putConsole narrow (readable (storesIn (fun _ ↦ 0) (c.text ++ [0]).zipIdx))
      (fuel + (2 + j)) 0 .start = .ok (k', drawings, c.text.length - 3 + 3) := by
    intro fuel
    rw [← Nat.add_assoc, hreach _ (holds_storesIn _ _), hzero]
    exact congrArg (fun l ↦ (Except.ok (_, l, _) : Except Fault _)) (List.append_nil _)
  have hsecond : ∀ fuel, putConsole narrow
      (readable (storesIn (leftover c.text.length) (c.text ++ [0]).zipIdx)) (fuel + (3 + j)) 0
        .start = .ok (((k'.apply narrow (.colour 0)).1.apply narrow (.glyph 0x41)).1,
          drawings ++ drawing :: rest, c.text.length - 3 + 6) := by
    intro fuel
    rw [← Nat.add_assoc, hreach _ (holds_storesIn _ _), hleft, hdraw]
    rfl
  exact ⟨_, _, _, _, _, shows_of_putConsole h hfirst, shows_of_putConsole h hsecond⟩

/-- **What a call shows does not depend on what the buffer held before** exactly if its text does
not end in `\e[3`. -/
theorem printk_forgets_iff (h : c.Valid) :
    (∀ g k, ∃ after drawings, ∀ mem, Shows g c k mem after drawings) ↔ ¬unfinished <:+ c.text := by
  constructor
  · intro hshows hsuffix
    obtain ⟨after, drawings, hsame⟩ := hshows narrow .start
    obtain ⟨_, _, calls, drawing, rest, hzero, hleft⟩ := exists_shows h hsuffix
    have heq : calls = calls ++ drawing :: rest :=
      ((hsame _).unique hzero).symm.trans ((hsame _).unique hleft)
    exact List.cons_ne_nil _ _ (List.self_eq_append_right.mp heq)
  · intro hwhole g k
    refine ⟨_, _, fun mem ↦ shows_of_putConsole (m := c.text.length + 1) h fun fuel ↦
      putConsole_of_holdsText (holds_storesIn mem c.text) (putConsole_perform h.nul_notMem
        ⟨Nat.zero_le _, rfl⟩ hwhole (Nat.lt_of_lt_of_le (Nat.lt_succ_self _)
          (Nat.le_add_left _ _)) k)⟩

/-- The call of one letter. -/
theorem printk_forgets_iff_letter :
    ∃ after drawings, ∀ mem, Shows narrow letterCall .start mem after drawings := by
  refine (printk_forgets_iff valid_letterCall).mpr (fun hsuffix ↦ ?_) narrow .start
  rw [text_letterCall] at hsuffix
  exact absurd hsuffix (by decide)

end Stale

end VimOS
