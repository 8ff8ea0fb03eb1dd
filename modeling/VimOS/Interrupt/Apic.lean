import VimOS.Paging.Address

/-!
# The interrupt controllers of an APIC

`kernel/apic.c` enables the local APIC and goes through the redirection table of the I/O APIC. Both
are driven through registers: those of the I/O APIC are selected by one write and read or written by
the next access.

The version register gives the number of the *last* entry of the table. The code takes it for how
many entries there are, so the last one is left as it was found (`redirection_entries`).
-/

namespace VimOS

/-! ## The controllers -/

/-- The registers that the code makes use of: the MSR of the local APIC, three of its registers, and
the registers of the I/O APIC by their number, with the one that is selected. -/
structure Apic where
  apicBase : BitVec 64
  spurious : BitVec 32
  taskPriority : BitVec 32
  /-- How often an end of interrupt was sent. -/
  ends : ℕ
  select : BitVec 32
  registers : BitVec 8 → BitVec 32

namespace Apic

/-- `ioapic[0] = reg`. -/
def selectIndex (reg : BitVec 32) (a : Apic) : Apic := { a with select := reg }

/-- The register that is selected, by eight bits. -/
def selected (a : Apic) : BitVec 8 := a.select.setWidth 8

/-- `ioapic[4]`. -/
def readWindow (a : Apic) : BitVec 32 := a.registers a.selected

/-- The bits of a register that a write leaves alone: the whole of the version register, and the
delivery status and the remote IRR of an entry. -/
def readOnly (reg : BitVec 8) : BitVec 32 :=
  if reg = 1 then 0xffffffff#32 else if 0x10 ≤ reg ∧ reg.getLsbD 0 = false then 0x5000#32 else 0#32

/-- `ioapic[4] = val`. -/
def writeWindow (val : BitVec 32) (a : Apic) : Apic :=
  let val := val &&& ~~~readOnly a.selected ||| a.readWindow &&& readOnly a.selected
  { a with registers := Function.update a.registers a.selected val }

end Apic

/-! ## The code -/

def ioapicRead (reg : BitVec 32) (a : Apic) : BitVec 32 × Apic :=
  let a := a.selectIndex reg
  (a.readWindow, a)

def ioapicWrite (reg val : BitVec 32) (a : Apic) : Apic := (a.selectIndex reg).writeWindow val

/-- `IOAPIC_REG_TABLE + 2 * irq`. -/
def ioapicRegTable (irq : ℕ) : BitVec 32 := BitVec.ofNat 32 (0x10 + 2 * irq)

def ioapicUnmaskInterrupt (irq : ℕ) (a : Apic) : Apic :=
  let a := ioapicWrite (ioapicRegTable irq) (BitVec.ofNat 32 (0x20 + irq)) a
  ioapicWrite (ioapicRegTable irq + 1) 0 a

def lapicEoi (_irq : ℕ) (a : Apic) : Apic := { a with ends := a.ends + 1 }

/-- The loop over the entries, the number of which comes from the version register. -/
def maskEntry (a : Apic) (i : ℕ) : Apic :=
  let a := ioapicWrite (ioapicRegTable i) (BitVec.ofNat 32 (0x20 + i) ||| 0x10000#32) a
  ioapicWrite (ioapicRegTable i + 1) 0 a

def initApic (a : Apic) : Apic :=
  let base := a.apicBase &&& ~~~0xfff
  -- enabled, and not in x2APIC mode
  let base := (base ||| 0x800) &&& ~~~0x400
  let a := { a with apicBase := base, spurious := 0x100 ||| 0xff }
  let a := lapicEoi 0 a
  let a := { a with taskPriority := 0 }
  let (version, a) := ioapicRead 0x01 a
  let maxRedirectionEntries := (version >>> 16 &&& 0xff).toNat
  (List.range maxRedirectionEntries).foldl maskEntry a

/-! ## The redirection table -/

namespace Apic

/-- The two registers of an entry. -/
def entry (a : Apic) (i : ℕ) : BitVec 32 × BitVec 32 :=
  (a.registers (BitVec.ofNat 8 (0x10 + 2 * i)), a.registers (BitVec.ofNat 8 (0x11 + 2 * i)))

/-- The number of the last entry, from the version register. -/
def lastEntry (a : Apic) : ℕ := (a.registers 1 >>> 16 &&& 0xff).toNat

/-- The interrupt of an entry is not delivered. -/
def Masked (a : Apic) (i : ℕ) : Prop := (a.entry i).1.getLsbD 16 = true

instance (a : Apic) (i : ℕ) : Decidable (a.Masked i) := inferInstanceAs (Decidable (_ = _))

/-- The vector of an entry. -/
def entryVector (a : Apic) (i : ℕ) : Byte := (a.entry i).1.setWidth 8

/-- An entry has its vector behind those of the exceptions, fixed delivery to the processor 0, and
is masked or not. Its read-only bits may be anything. -/
def Programmed (masked : Bool) (e : BitVec 32 × BitVec 32) (i : ℕ) : Prop :=
  e.1 &&& ~~~0x5000#32 =
    BitVec.ofNat 32 (0x20 + i) ||| (if masked then 0x10000#32 else 0#32) ∧ e.2 = 0

end Apic

section Entries

variable {a : Apic} {i j n : ℕ} {val : BitVec 32}

/-- The numbers of the registers of an entry. -/
theorem toNat_registerNumber {k : ℕ} (hk : k < 256) : (BitVec.ofNat 8 k).toNat = k := by
  rw [BitVec.toNat_ofNat, Nat.mod_eq_of_lt hk]

theorem ofNat_inj_iff {k l : ℕ} (hk : k < 256) (hl : l < 256) :
    BitVec.ofNat 8 k = BitVec.ofNat 8 l ↔ k = l := by
  rw [← BitVec.toNat_inj, toNat_registerNumber hk, toNat_registerNumber hl]

/-- No register of an entry is the version register. -/
theorem one_ne_registerNumber {k : ℕ} (hk : k < 256) (hlt : 1 < k) :
    (1 : BitVec 8) ≠ BitVec.ofNat 8 k :=
  fun heq ↦ hlt.ne ((ofNat_inj_iff (by decide) hk).mp heq)

theorem readOnly_low (hi : i ≤ 119) :
    Apic.readOnly (BitVec.ofNat 8 (0x10 + 2 * i)) = 0x5000#32 := by
  have hne := one_ne_registerNumber (k := 0x10 + 2 * i) (by omega) (by omega)
  have hle : (0x10 : Byte) ≤ BitVec.ofNat 8 (0x10 + 2 * i) := by
    rw [BitVec.le_def, toNat_registerNumber (by omega)]
    exact Nat.le_add_right _ _
  have heven : (BitVec.ofNat 8 (0x10 + 2 * i)).getLsbD 0 = false := by
    rw [BitVec.getLsbD, toNat_registerNumber (by omega), Nat.testBit_zero, decide_eq_false]
    omega
  rw [Apic.readOnly, if_neg hne.symm, if_pos ⟨hle, heven⟩]

theorem readOnly_high (hi : i ≤ 119) : Apic.readOnly (BitVec.ofNat 8 (0x11 + 2 * i)) = 0#32 := by
  have hne := one_ne_registerNumber (k := 0x11 + 2 * i) (by omega) (by omega)
  have hodd : (BitVec.ofNat 8 (0x11 + 2 * i)).getLsbD 0 = true := by
    rw [BitVec.getLsbD, toNat_registerNumber (by omega), Nat.testBit_zero, decide_eq_true_eq]
    omega
  rw [Apic.readOnly, if_neg hne.symm, hodd, if_neg fun h ↦ Bool.noConfusion h.2]

theorem registers_ioapicWrite {k : ℕ} (hk : k < 256) (reg : BitVec 8) :
    (ioapicWrite (BitVec.ofNat 32 k) val a).registers reg =
      if reg = BitVec.ofNat 8 k then
        val &&& ~~~Apic.readOnly reg ||| a.registers reg &&& Apic.readOnly reg
      else a.registers reg := by
  have hselected : (a.selectIndex (BitVec.ofNat 32 k)).selected = BitVec.ofNat 8 k := by
    refine BitVec.eq_of_toNat_eq ?_
    rw [Apic.selected, Apic.selectIndex, BitVec.toNat_setWidth, BitVec.toNat_ofNat,
      toNat_registerNumber hk]
    omega
  rw [ioapicWrite, Apic.writeWindow, Apic.readWindow, hselected]
  dsimp only
  rw [Function.update_apply]
  split
  next heq =>
    subst heq
    rfl
  next => rfl

/-- The two registers of an entry are written one after the other. -/
def writeEntry (i : ℕ) (val : BitVec 32) (a : Apic) : Apic :=
  ioapicWrite (ioapicRegTable i + 1) 0 (ioapicWrite (ioapicRegTable i) val a)

theorem registers_writeEntry (hi : i ≤ 119) (reg : BitVec 8) :
    (writeEntry i val a).registers reg =
      if reg = BitVec.ofNat 8 (0x11 + 2 * i) then 0
      else if reg = BitVec.ofNat 8 (0x10 + 2 * i) then
        val &&& ~~~0x5000#32 ||| a.registers reg &&& 0x5000#32
      else a.registers reg := by
  have hnext : ioapicRegTable i + 1 = BitVec.ofNat 32 (0x11 + 2 * i) := by
    rw [ioapicRegTable]
    bv_omega
  rw [writeEntry, hnext, ioapicRegTable, registers_ioapicWrite (by omega),
    registers_ioapicWrite (by omega)]
  split
  next heq =>
    rw [heq, readOnly_high hi]
    simp
  next =>
    split
    next heq => rw [heq, readOnly_low hi]
    next => rfl

theorem entry_writeEntry (hi : i ≤ 119) (hj : j ≤ 119) : (writeEntry i val a).entry j =
    if j = i then (val &&& ~~~0x5000#32 ||| (a.entry i).1 &&& 0x5000#32, 0) else a.entry j := by
  rw [Apic.entry, registers_writeEntry hi, registers_writeEntry hi]
  have hlow : BitVec.ofNat 8 (0x10 + 2 * j) = BitVec.ofNat 8 (0x10 + 2 * i) ↔ j = i :=
    (ofNat_inj_iff (by omega) (by omega)).trans (by omega)
  have hhigh : BitVec.ofNat 8 (0x11 + 2 * j) = BitVec.ofNat 8 (0x11 + 2 * i) ↔ j = i :=
    (ofNat_inj_iff (by omega) (by omega)).trans (by omega)
  have hcross : BitVec.ofNat 8 (0x10 + 2 * j) ≠ BitVec.ofNat 8 (0x11 + 2 * i) :=
    fun heq ↦ absurd ((ofNat_inj_iff (by omega) (by omega)).mp heq) (by omega)
  have hcross' : BitVec.ofNat 8 (0x11 + 2 * j) ≠ BitVec.ofNat 8 (0x10 + 2 * i) :=
    fun heq ↦ absurd ((ofNat_inj_iff (by omega) (by omega)).mp heq) (by omega)
  rw [if_neg hcross, if_neg hcross']
  simp only [hlow, hhigh]
  split
  next heq =>
    subst heq
    rfl
  next => rfl

theorem lastEntry_writeEntry (hi : i ≤ 119) : (writeEntry i val a).lastEntry = a.lastEntry := by
  have hlow := one_ne_registerNumber (k := 0x10 + 2 * i) (by omega) (by omega)
  have hhigh := one_ne_registerNumber (k := 0x11 + 2 * i) (by omega) (by omega)
  rw [Apic.lastEntry, registers_writeEntry hi, if_neg hhigh, if_neg hlow, Apic.lastEntry]

/-- A vector with or without the mask bit has no read-only bits. -/
theorem entryValue_and (hi : i ≤ 119) (masked : Bool) :
    (BitVec.ofNat 32 (0x20 + i) ||| if masked then 0x10000#32 else 0#32) &&& 0x5000#32 = 0#32 := by
  have hvector : BitVec.ofNat 32 (0x20 + i) &&& 0x5000#32 = 0#32 := by
    refine BitVec.eq_of_getLsbD_eq fun j hj ↦ ?_
    rw [BitVec.getLsbD_and, BitVec.getLsbD_ofNat]
    by_cases hlow : j < 8
    · have hbit : (0x5000#32 : BitVec 32).getLsbD j = false := by
        revert j
        decide
      rw [hbit, Bool.and_false, BitVec.getLsbD_zero]
    · have hlt : 0x20 + i < 2 ^ j :=
        lt_of_lt_of_le (by omega : 0x20 + i < 2 ^ 8) (Nat.pow_le_pow_right (by decide) (by omega))
      rw [Nat.testBit_lt_two_pow hlt, Bool.and_false, Bool.false_and, BitVec.getLsbD_zero]
  rw [BitVec.and_or_distrib_right, hvector]
  cases masked <;> rfl

theorem programmed_writeEntry (hi : i ≤ 119) (masked : Bool) :
    Apic.Programmed masked
      ((writeEntry i (BitVec.ofNat 32 (0x20 + i) ||| if masked then 0x10000#32 else 0#32) a).entry
        i) i := by
  have hkept : ∀ v w : BitVec 32, v &&& 0x5000#32 = 0#32 →
      (v &&& ~~~0x5000#32 ||| w &&& 0x5000#32) &&& ~~~0x5000#32 = v := by
    intro v w hv
    refine BitVec.eq_of_getLsbD_eq fun j hj ↦ ?_
    have hbit := congrArg (BitVec.getLsbD · j) hv
    simp only [BitVec.getLsbD_and, BitVec.getLsbD_or, BitVec.getLsbD_not, BitVec.getLsbD_zero,
      decide_eq_true hj, Bool.true_and] at hbit ⊢
    revert hbit
    cases v.getLsbD j <;> cases w.getLsbD j <;> cases (0x5000#32 : BitVec 32).getLsbD j <;> decide
  rw [entry_writeEntry hi hi, if_pos rfl]
  exact ⟨hkept _ _ (entryValue_and hi masked), rfl⟩

/-! ## The initialisation and what follows it -/

theorem foldl_maskEntry (hn : n ≤ 120) (hj : j ≤ 119) :
    ((List.range n).foldl maskEntry a).lastEntry = a.lastEntry ∧
      (j < n → Apic.Programmed true (((List.range n).foldl maskEntry a).entry j) j) ∧
      (n ≤ j → ((List.range n).foldl maskEntry a).entry j = a.entry j) := by
  induction n with
  | zero => exact ⟨rfl, fun h ↦ absurd h (Nat.not_lt_zero j), fun _ ↦ rfl⟩
  | succ n ih =>
    obtain ⟨hlast, hbelow, habove⟩ := ih (by omega)
    rw [List.range_succ, List.foldl_append, List.foldl_cons, List.foldl_nil]
    generalize (List.range n).foldl maskEntry a = a' at hlast hbelow habove ⊢
    have hmask : maskEntry a' n =
        writeEntry n (BitVec.ofNat 32 (0x20 + n) ||| if true then 0x10000#32 else 0#32) a' := rfl
    rw [hmask]
    refine ⟨(lastEntry_writeEntry (by omega)).trans hlast, fun hlt ↦ ?_, fun hle ↦ ?_⟩
    · rcases Nat.lt_succ_iff_lt_or_eq.mp hlt with hlt | rfl
      · rw [entry_writeEntry (by omega) hj, if_neg hlt.ne]
        exact hbelow hlt
      · exact programmed_writeEntry hj true
    · rw [entry_writeEntry (by omega) hj, if_neg (by omega)]
      exact habove (by omega)

theorem lastEntry_initApic (h : a.lastEntry ≤ 119) : (initApic a).lastEntry = a.lastEntry :=
  (foldl_maskEntry (h.trans (by decide)) (Nat.zero_le 119)).1

theorem entry_initApic (h : a.lastEntry ≤ 119) (hj : j ≤ 119) :
    (j < a.lastEntry → Apic.Programmed true ((initApic a).entry j) j) ∧
      (a.lastEntry ≤ j → (initApic a).entry j = a.entry j) :=
  (foldl_maskEntry (h.trans (by decide)) hj).2

/-- Calls of `ioapic_unmask_interrupt`, one after the other. -/
def unmaskEntries (irqs : List ℕ) (a : Apic) : Apic :=
  irqs.foldl (fun a irq ↦ ioapicUnmaskInterrupt irq a) a

theorem entry_unmaskEntries {irqs : List ℕ} (hirqs : ∀ irq ∈ irqs, irq ≤ 119) (hj : j ≤ 119) :
    (j ∈ irqs → Apic.Programmed false ((unmaskEntries irqs a).entry j) j) ∧
      (j ∉ irqs → (unmaskEntries irqs a).entry j = a.entry j) := by
  induction irqs generalizing a with
  | nil => exact ⟨fun h ↦ absurd h List.not_mem_nil, fun _ ↦ rfl⟩
  | cons irq irqs ih =>
    rw [List.forall_mem_cons] at hirqs
    have hunmask : ioapicUnmaskInterrupt irq a =
        writeEntry irq (BitVec.ofNat 32 (0x20 + irq) ||| if false then 0x10000#32 else 0#32) a := by
      rw [if_neg Bool.false_ne_true, BitVec.or_zero]
      rfl
    obtain ⟨hmem, hother⟩ := ih (a := ioapicUnmaskInterrupt irq a) hirqs.2
    refine ⟨fun h ↦ ?_, fun h ↦ ?_⟩
    · by_cases hin : j ∈ irqs
      · exact hmem hin
      · obtain rfl : j = irq := (List.mem_cons.mp h).resolve_right hin
        refine (hother hin).symm ▸ ?_
        rw [hunmask]
        exact programmed_writeEntry hj false
    · rw [List.mem_cons, not_or] at h
      refine (hother h.2).trans ?_
      rw [hunmask, entry_writeEntry hirqs.1 hj, if_neg h.1]

theorem lastEntry_unmaskEntries {irqs : List ℕ} (hirqs : ∀ irq ∈ irqs, irq ≤ 119) :
    (unmaskEntries irqs a).lastEntry = a.lastEntry := by
  induction irqs generalizing a with
  | nil => rfl
  | cons irq irqs ih =>
    rw [List.forall_mem_cons] at hirqs
    exact (ih hirqs.2).trans (lastEntry_writeEntry hirqs.1)

theorem Apic.Programmed.masked_iff {masked : Bool} {e : BitVec 32 × BitVec 32}
    (h : Programmed masked e i) (hi : i ≤ 119) : e.1.getLsbD 16 = masked := by
  have hbit := congrArg (BitVec.getLsbD · 16) h.1
  have hvector : (BitVec.ofNat 32 (0x20 + i)).getLsbD 16 = false := by
    rw [BitVec.getLsbD_ofNat, Nat.testBit_lt_two_pow (by omega), Bool.and_false]
  have hkept : (~~~0x5000#32).getLsbD 16 = true := rfl
  simp only [BitVec.getLsbD_and, BitVec.getLsbD_or, hvector, hkept, Bool.and_true,
    Bool.false_or] at hbit
  rw [hbit]
  cases masked <;> rfl

section Unmasked

variable {irqs : List ℕ} (hlast : a.lastEntry ≤ 119) (hirqs : ∀ irq ∈ irqs, irq ≤ a.lastEntry)
  (hi : i ≤ a.lastEntry)

include hlast hirqs hi

theorem programmed_unmaskEntries (h : i ∈ irqs ∨ i < a.lastEntry) :
    Apic.Programmed (decide (i ∉ irqs)) ((unmaskEntries irqs (initApic a)).entry i) i := by
  obtain ⟨hmem, hother⟩ := entry_unmaskEntries (a := initApic a)
    (fun irq hirq ↦ (hirqs irq hirq).trans hlast) (hi.trans hlast)
  by_cases hin : i ∈ irqs
  · rw [decide_eq_false (not_not.mpr hin)]
    exact hmem hin
  · rw [decide_eq_true hin]
    exact (hother hin).symm ▸ (entry_initApic hlast (hi.trans hlast)).1 (h.resolve_left hin)

theorem entry_unmaskEntries_last (hin : i ∉ irqs) (heq : i = a.lastEntry) :
    (unmaskEntries irqs (initApic a)).entry i = a.entry i := by
  obtain ⟨-, hother⟩ := entry_unmaskEntries (a := initApic a)
    (fun irq hirq ↦ (hirqs irq hirq).trans hlast) (hi.trans hlast)
  exact (hother hin).trans ((entry_initApic hlast (hi.trans hlast)).2 heq.ge)

theorem masked_unmaskEntries : (unmaskEntries irqs (initApic a)).Masked i ↔
    i ∉ irqs ∧ (i < a.lastEntry ∨ a.Masked i) := by
  by_cases h : i ∈ irqs ∨ i < a.lastEntry
  · have hprogrammed := programmed_unmaskEntries hlast hirqs hi h
    rw [Apic.Masked, hprogrammed.masked_iff (hi.trans hlast), decide_eq_true_eq]
    exact ⟨fun hin ↦ ⟨hin, .inl (h.resolve_left hin)⟩, And.left⟩
  · rw [not_or, not_lt] at h
    rw [Apic.Masked, entry_unmaskEntries_last hlast hirqs hi h.1 (le_antisymm hi h.2),
      ← Apic.Masked]
    exact ⟨fun hm ↦ ⟨h.1, .inr hm⟩, fun hm ↦ hm.2.resolve_left (not_lt.mpr h.2)⟩

end Unmasked

end Entries

/-- **The redirection table** behind `init_apic` and any calls of `ioapic_unmask_interrupt`: each
entry that is unmasked or stands in front of the last one has its own vector, and an interrupt is
delivered for those that are unmasked. The last entry is as it was found, until it is unmasked. -/
theorem redirection_entries (a : Apic) (irqs : List ℕ) (hlast : a.lastEntry ≤ 119)
    (hirqs : ∀ irq ∈ irqs, irq ≤ a.lastEntry) {i : ℕ} (hi : i ≤ a.lastEntry) :
    let a' := unmaskEntries irqs (initApic a)
    (i ∈ irqs ∨ i < a.lastEntry → Apic.Programmed (decide (i ∉ irqs)) (a'.entry i) i) ∧
      (i ∉ irqs → i = a.lastEntry → a'.entry i = a.entry i) ∧
      (a'.Masked i ↔ i ∉ irqs ∧ (i < a.lastEntry ∨ a.Masked i)) :=
  ⟨programmed_unmaskEntries hlast hirqs hi, entry_unmaskEntries_last hlast hirqs hi,
    masked_unmaskEntries hlast hirqs hi⟩

/-- An APIC with 24 entries, all of them unmasked. -/
def foundApic : Apic where
  apicBase := 0xfee00900
  spurious := 0x1ff
  taskPriority := 0
  ends := 0
  select := 0
  registers reg := if reg = 1 then 0x170020 else 0

theorem redirection_entries_found :
    (unmaskEntries [1] (initApic foundApic)).Masked 12 ∧
      ¬(unmaskEntries [1] (initApic foundApic)).Masked 23 := by
  have h := fun i hi ↦ (redirection_entries foundApic [1] (by decide) (by decide) (i := i) hi).2.2
  exact ⟨(h 12 (by decide)).mpr ⟨by decide, .inl (by decide)⟩,
    fun hm ↦ ((h 23 (by decide)).mp hm).2.elim (by decide) (by decide)⟩

end VimOS
