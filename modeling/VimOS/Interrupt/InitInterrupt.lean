import VimOS.Interrupt.Apic
import VimOS.Interrupt.Gates
import VimOS.Interrupt.Pic

/-!
# Before interrupts are enabled

`init_interrupt` loads the table of the exceptions and then sets up one of the two kinds of
controllers; it leaves two function pointers, through which lines are unmasked and interrupts
ended. Behind it `vMain` enables interrupts.

Only exceptions have a gate, so an interrupt from outside would be a fault. None can come as long as
every line is masked, which after `init_apic` depends on what the firmware has left in the last
entry of the table (`openLines_initInterrupt`).
-/

namespace VimOS

/-- The controllers that `unmask_interrupt` and `end_of_interrupt` may be for. -/
inductive IrqChip : Type
  | pic
  | apic
  deriving DecidableEq

/-- The table, the controllers and the two pointers, which are set together. -/
structure InterruptState where
  idt : Idt
  pics : Pics
  apic : Apic
  chip : Option IrqChip

/-- `CPUID_APIC`. -/
def cpuidApic : BitVec 32 := 0x200

/-- `check_apic`, by what `cpuid` leaves in `edx`. -/
def checkApic (edx : BitVec 32) : Bool := edx &&& cpuidApic ≠ 0

def initInterrupt (handlers : ExceptionName → Addr) (edx : BitVec 32) (s : InterruptState) :
    InterruptState :=
  let s := { s with idt := initIdt handlers, pics := disablePic s.pics }
  if checkApic edx then { s with apic := initApic s.apic, chip := some .apic }
  else { s with pics := initPic s.pics, chip := some .pic }

/-- A call through `unmask_interrupt`; through a null pointer it does not return. -/
def unmaskInterrupt (irq : ℕ) (s : InterruptState) : Option InterruptState :=
  match s.chip with
  | none => none
  | some .pic => some { s with pics := picUnmaskInterrupt irq s.pics }
  | some .apic => some { s with apic := ioapicUnmaskInterrupt irq s.apic }

/-- Calls through `unmask_interrupt`, one after the other. -/
def unmaskAll (irqs : List ℕ) (s : InterruptState) : Option InterruptState :=
  irqs.foldlM (fun s irq ↦ unmaskInterrupt irq s) s

/-! ## Lines -/

namespace InterruptState

/-- The lines that the controllers in use have. -/
def HasLine (s : InterruptState) (irq : ℕ) : Prop :=
  match s.chip with
  | none => False
  | some .pic => irq < 16 ∧ irq ≠ 2
  | some .apic => irq ≤ s.apic.lastEntry

/-- The lines on which an interrupt is delivered. -/
def openLines (s : InterruptState) : Set ℕ :=
  { irq | s.HasLine irq ∧
    match s.chip with
    | none => False
    | some .pic => s.pics.Open irq
    | some .apic => ¬s.apic.Masked irq }

/-- The vector of a line. -/
def lineVector (s : InterruptState) (irq : ℕ) : Byte :=
  match s.chip with
  | some .apic => s.apic.entryVector irq
  | _ => s.pics.vectorOf irq

end InterruptState

section Lines

variable {handlers : ExceptionName → Addr} {edx : BitVec 32} {s : InterruptState} {irqs : List ℕ}

theorem initInterrupt_apic (h : checkApic edx = true) : initInterrupt handlers edx s =
    ⟨initIdt handlers, disablePic s.pics, initApic s.apic, some .apic⟩ := by
  rw [initInterrupt]
  exact if_pos h

theorem initInterrupt_pic (h : checkApic edx = false) : initInterrupt handlers edx s =
    ⟨initIdt handlers, initPic (disablePic s.pics), s.apic, some .pic⟩ := by
  rw [initInterrupt]
  exact if_neg (by rw [h]; exact Bool.false_ne_true)

theorem unmaskAll_apic {idt : Idt} {p : Pics} {a : Apic} :
    unmaskAll irqs ⟨idt, p, a, some .apic⟩ = some ⟨idt, p, unmaskEntries irqs a, some .apic⟩ := by
  induction irqs generalizing a with
  | nil => rfl
  | cons irq irqs ih => exact ih

/-- Calls of `pic_unmask_interrupt`, one after the other. -/
def unmaskPics (irqs : List ℕ) (p : Pics) : Pics :=
  irqs.foldl (fun p irq ↦ picUnmaskInterrupt irq p) p

theorem unmaskAll_pic {idt : Idt} {p : Pics} {a : Apic} :
    unmaskAll irqs ⟨idt, p, a, some .pic⟩ = some ⟨idt, unmaskPics irqs p, a, some .pic⟩ := by
  induction irqs generalizing p with
  | nil => rfl
  | cons irq irqs ih => exact ih

/-- They are a run without interrupts. -/
theorem run_unmaskPics {t : PicState} (hirqs : ∀ irq ∈ irqs, irq < 16) :
    GuardedRun.Run PicStep (fun _ _ ↦ True) t
      { t with pics := unmaskPics irqs t.pics, unmasked := irqs.reverse ++ t.unmasked } := by
  induction irqs generalizing t with
  | nil => exact GuardedRun.Run.refl _
  | cons irq irqs ih =>
    rw [List.forall_mem_cons] at hirqs
    have hrest := ih hirqs.2 (t := { t with
      pics := picUnmaskInterrupt irq t.pics, unmasked := irq :: t.unmasked })
    rw [List.reverse_cons, List.append_assoc]
    exact GuardedRun.Run.head trivial (.unmask hirqs.1) hrest

theorem pics_unmasked {p : Pics} (hirqs : ∀ irq ∈ irqs, irq < 16) {irq : ℕ} (hirq : irq < 16)
    (hcascade : irq ≠ 2) : ((unmaskPics irqs (initPic p)).Open irq ↔ irq ∈ irqs) ∧
      (unmaskPics irqs (initPic p)).vectorOf irq = BitVec.ofNat 8 (0x20 + irq) := by
  have hreflected := reflected_of_run (run_unmaskPics (t := .start p) hirqs)
  have hopen := hreflected.open_iff hirq hcascade
  rw [PicState.start, List.append_nil, List.mem_reverse] at hopen
  exact ⟨hopen, hreflected.vectorOf_eq irq⟩

theorem lineVector_toNat {irq : ℕ} (h : irq < 0xe0) :
    (BitVec.ofNat 8 (0x20 + irq)).toNat = 0x20 + irq := by
  rw [BitVec.toNat_ofNat]
  omega

/-- No exception has a vector from 0x20 on. -/
theorem gate_line {irq : ℕ} {v : Byte} (hv : v = BitVec.ofNat 8 (0x20 + irq)) (h : irq < 0xe0) :
    (decodeGate (initIdt handlers v).bits).present = false := by
  refine gate_initIdt_of_ne handlers fun e heq ↦ ?_
  have htoNat := lineVector_toNat h
  have hlt : e.vector.toNat < 0x20 := by cases e <;> decide
  rw [← hv, heq] at htoNat
  omega

theorem entryVector_of_programmed {a : Apic} {masked : Bool} {irq : ℕ}
    (h : Apic.Programmed masked (a.entry irq) irq) :
    a.entryVector irq = BitVec.ofNat 8 (0x20 + irq) := by
  have hkept : (~~~0x5000#32).setWidth 8 = BitVec.allOnes 8 := rfl
  have hmask : (if masked then 0x10000#32 else 0#32).setWidth 8 = 0#8 := by cases masked <;> rfl
  have hwidth := congrArg (BitVec.setWidth 8) h.1
  rw [BitVec.setWidth_and, hkept, BitVec.and_allOnes, BitVec.setWidth_or, hmask, BitVec.or_zero,
    BitVec.setWidth_ofNat_of_le (by decide)] at hwidth
  exact hwidth

/-- The lines behind `init_interrupt` and calls through `unmask_interrupt` when there is an APIC. -/
theorem mem_openLines_apic (idt : Idt) (p : Pics) {a : Apic} (hlast : a.lastEntry ≤ 119)
    (irqs : List ℕ) (hirqs : ∀ irq ∈ irqs, irq ≤ a.lastEntry) (irq : ℕ) :
    irq ∈ InterruptState.openLines ⟨idt, p, unmaskEntries irqs (initApic a), some .apic⟩ ↔
      irq ∈ irqs ∨ irq = a.lastEntry ∧ ¬a.Masked irq := by
  have hlines : (unmaskEntries irqs (initApic a)).lastEntry = a.lastEntry :=
    (lastEntry_unmaskEntries fun irq hirq ↦ (hirqs irq hirq).trans hlast).trans
      (lastEntry_initApic hlast)
  have hmem : irq ∈ InterruptState.openLines
      ⟨idt, p, unmaskEntries irqs (initApic a), some .apic⟩ ↔
        irq ≤ (unmaskEntries irqs (initApic a)).lastEntry ∧
          ¬(unmaskEntries irqs (initApic a)).Masked irq := Iff.rfl
  rw [hmem, hlines]
  by_cases hle : irq ≤ a.lastEntry
  · rw [masked_unmaskEntries hlast hirqs hle]
    by_cases hin : irq ∈ irqs
    · simp [hle, hin]
    · have hlt : irq < a.lastEntry ↔ irq ≠ a.lastEntry := ⟨fun h ↦ h.ne, lt_of_le_of_ne hle⟩
      rw [hlt]
      simp [hle, hin]
  · refine iff_of_false (fun h ↦ hle h.1) ?_
    rintro (hin | ⟨rfl, -⟩)
    · exact hle (hirqs irq hin)
    · exact hle le_rfl

theorem mem_openLines_pic (idt : Idt) (p : Pics) (a : Apic) (irqs : List ℕ)
    (hirqs : ∀ irq ∈ irqs, irq < 16 ∧ irq ≠ 2) (irq : ℕ) :
    irq ∈ InterruptState.openLines ⟨idt, unmaskPics irqs (initPic p), a, some .pic⟩ ↔
      irq ∈ irqs := by
  have hmem : irq ∈ InterruptState.openLines ⟨idt, unmaskPics irqs (initPic p), a, some .pic⟩ ↔
      (irq < 16 ∧ irq ≠ 2) ∧ (unmaskPics irqs (initPic p)).Open irq := Iff.rfl
  rw [hmem]
  by_cases hline : irq < 16 ∧ irq ≠ 2
  · rw [(pics_unmasked (fun irq hirq ↦ (hirqs irq hirq).1) hline.1 hline.2).1, and_iff_right hline]
  · exact iff_of_false (fun h ↦ hline h.1) fun h ↦ hline (hirqs irq h)

end Lines

/-- **No interrupt comes from outside** when `init_interrupt` has returned, if there is no APIC or
the firmware has left the last entry of its table masked, and only then. -/
theorem openLines_initInterrupt (handlers : ExceptionName → Addr) (edx : BitVec 32)
    (s : InterruptState) (hlast : s.apic.lastEntry ≤ 119) :
    (initInterrupt handlers edx s).openLines = ∅ ↔
      checkApic edx = false ∨ s.apic.Masked s.apic.lastEntry := by
  rw [Set.eq_empty_iff_forall_notMem]
  cases hedx : checkApic edx with
  | false =>
    rw [initInterrupt_pic hedx]
    refine iff_of_true (fun irq hirq ↦ ?_) (.inl rfl)
    exact List.not_mem_nil ((mem_openLines_pic _ _ _ [] (by simp) irq).mp hirq)
  | true =>
    rw [initInterrupt_apic hedx, or_iff_right Bool.noConfusion]
    have hlines := mem_openLines_apic (initIdt handlers) (disablePic s.pics) hlast [] (by simp)
    simp only [unmaskEntries, List.foldl_nil, List.not_mem_nil, false_or] at hlines
    simp only [hlines, not_and, not_not]
    exact forall_eq

/-- **Both kinds of controllers are one abstract controller**: a set of open lines. A call through
`unmask_interrupt` opens the line it is for and no other, at a vector behind those of the exceptions
that has no gate yet. -/
theorem unmaskAll_openLines (handlers : ExceptionName → Addr) (edx : BitVec 32)
    (s : InterruptState) (hlast : s.apic.lastEntry ≤ 119) (irqs : List ℕ)
    (hirqs : ∀ irq ∈ irqs, (initInterrupt handlers edx s).HasLine irq) :
    ∃ s', unmaskAll irqs (initInterrupt handlers edx s) = some s' ∧
      s'.openLines = (initInterrupt handlers edx s).openLines ∪ { irq | irq ∈ irqs } ∧
      ∀ irq ∈ irqs, s'.lineVector irq = BitVec.ofNat 8 (0x20 + irq) ∧
        (decodeGate (s'.idt (s'.lineVector irq)).bits).present = false := by
  cases hedx : checkApic edx with
  | false =>
    rw [initInterrupt_pic hedx] at hirqs ⊢
    have hlt : ∀ irq ∈ irqs, irq < 16 := fun irq hirq ↦ (hirqs irq hirq).1
    refine ⟨_, unmaskAll_pic, ?_, fun irq hirq ↦ ?_⟩
    · ext irq
      have hnone := mem_openLines_pic (initIdt handlers) (disablePic s.pics) s.apic [] (by simp) irq
      rw [mem_openLines_pic _ _ _ irqs hirqs, Set.mem_union]
      exact (or_iff_right fun hmem ↦ List.not_mem_nil (hnone.mp hmem)).symm
    · have hvector := (pics_unmasked (p := disablePic s.pics) hlt (hlt irq hirq)
        (hirqs irq hirq).2).2
      have hbound := hlt irq hirq
      exact ⟨hvector, gate_line hvector (by omega)⟩
  | true =>
    rw [initInterrupt_apic hedx] at hirqs ⊢
    have hle : ∀ irq ∈ irqs, irq ≤ s.apic.lastEntry := fun irq hirq ↦
      (hirqs irq hirq).trans_eq (lastEntry_initApic hlast)
    refine ⟨_, unmaskAll_apic, ?_, fun irq hirq ↦ ?_⟩
    · ext irq
      have hnone := mem_openLines_apic (initIdt handlers) (disablePic s.pics) hlast [] (by simp) irq
      rw [mem_openLines_apic _ _ hlast irqs hle, Set.mem_union]
      exact or_comm.trans (or_congr_left (hnone.trans (or_iff_right List.not_mem_nil)).symm)
    · have hprogrammed := programmed_unmaskEntries hlast hle (hle irq hirq) (.inl hirq)
      have hvector := entryVector_of_programmed hprogrammed
      have hbound := (hle irq hirq).trans hlast
      exact ⟨hvector, gate_line hvector (by omega)⟩

/-- The controllers as they may be found. -/
def foundInterrupts : InterruptState := ⟨clearedIdt, foundPics, foundApic, none⟩

theorem openLines_foundInterrupts : foundApic.lastEntry ≤ 119 ∧
    (initInterrupt (fun _ ↦ 0x100000) 0x200 foundInterrupts).openLines ≠ ∅ :=
  ⟨by decide, fun h ↦ ((openLines_initInterrupt (fun _ ↦ 0x100000) 0x200 foundInterrupts
    (by decide)).mp h).elim (by decide) (by decide)⟩

theorem unmaskAll_foundInterrupts :
    ∃ s', unmaskAll [1] (initInterrupt (fun _ ↦ 0x100000) 0x200 foundInterrupts) = some s' ∧
      s'.lineVector 1 = 0x21 := by
  have hirqs : ∀ irq ∈ [1],
      (initInterrupt (fun _ ↦ 0x100000) 0x200 foundInterrupts).HasLine irq := by
    have hline : 1 ≤ (initApic foundApic).lastEntry := by decide
    rw [initInterrupt_apic (by decide), List.forall_mem_singleton]
    exact hline
  obtain ⟨s', hrun, -, hlines⟩ :=
    unmaskAll_openLines (fun _ ↦ 0x100000) 0x200 foundInterrupts (by decide) [1] hirqs
  exact ⟨s', hrun, (hlines 1 List.mem_cons_self).1⟩

end VimOS
