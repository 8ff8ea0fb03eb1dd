import VimOS.Xhci.StartUpSteps

/-!
# The controller is started on tables that are set

The driver allocates and fills the tables one after the other; the pages are apart from each other
since each was free when it was handed out, so that what has been filled stays as it is
(`ArrayFilled`, `ContextsReady`, `CommandsReady`, `TablesReady`). Once R/S is set, the registers and
the blocks remain what they are (`Started`), and memory becomes the controller's.
-/

namespace VimOS

open Block Machine

/-! ## The tables -/

/-- So far the scratchpad pages `t.pages` are listed in the array. The blocks `tail` have been
allocated before, and `config` has been written. -/
structure ArrayFilled (t : StartTables) (tail : List Block) (config : Word) (s : StartState) :
    Prop where
  quiet : s.Quiet
  sound : ∃ L, s.Sound L
  held : s.held = (t.pages.map page).reverse ++ tail
  listed : ∀ i (h : i < t.pages.length),
    readPointer s.mem (v2p t.array + BitVec.ofNat 64 (8 * i)) = v2p t.pages[i]
  clear : clearPage t.contexts s.mem = s.mem
  config : s.operation configReg = config

section Tables

variable {u : XhciUnit} {erst : Addr} {s s' : StartState} {L tail : List Block} {α : Type}
variable {Q : α → StartState → Prop} {f : Unit → StartProg α} {t : StartTables}
variable {n : ℕ} {config pagesize : Word}

theorem le_of_held (hs : s.Sound L) {p : Addr} {n : ℕ} (hp : ⟨p.toNat, n⟩ ∈ s.held) :
    pageOffset ≤ p ∧ p.toNat + 4096 * n < 2 ^ 64 :=
  ⟨BitVec.le_def.mpr (hs.held_direct _ hp), (hs.held_valid _ hp).stop_lt⟩

/-- A page is allocated and stored in the array. -/
theorem ArrayFilled.step (h : ArrayFilled t tail config s) (harray : ⟨t.array.toNat, n⟩ ∈ tail)
    (hcontexts : page t.contexts ∈ tail)
    (hapart : Disjoint (⟨t.array.toNat, n⟩ : Block).bytes (page t.contexts).bytes)
    (hlt : 8 * (t.pages.length + 1) ≤ 4096 * n)
    (hf : ∀ p s', ArrayFilled { t with pages := t.pages ++ [p] } tail config s' →
      (startMachine u).wp (startContract u erst) (f ()) Q s') :
    (startMachine u).wp (startContract u erst) (allocOrPanic 1 >>= fun buf ↦
      callStorePointer (t.array + BitVec.ofNat 64 (8 * t.pages.length)) (v2p buf) >>= f) Q s := by
  obtain ⟨L, hs⟩ := h.sound
  refine wp_allocOrPanic h.quiet hs Nat.one_pos (by decide) fun p pool L' hs' ↦ ?_
  have hmem : ⟨t.array.toNat, n⟩ ∈ s.held := by
    rw [h.held]
    exact List.mem_append_right _ harray
  have hmem' : page t.contexts ∈ s.held := by
    rw [h.held]
    exact List.mem_append_right _ hcontexts
  obtain ⟨hdirect, hend⟩ := le_of_held hs hmem
  obtain ⟨hdirect', hend'⟩ := le_of_held hs hmem'
  have hword : (t.array + BitVec.ofNat 64 (8 * t.pages.length)).toNat =
      t.array.toNat + 8 * t.pages.length := by
    rw [BitVec.toNat_add, BitVec.toNat_ofNat]
    omega
  have hv2p := v2p_add_direct (i := 8 * t.pages.length) hdirect (by omega)
  refine wp_storePointer (h.quiet.congr rfl rfl rfl) hs' (List.mem_cons_of_mem _ hmem) ?_ ?_
    fun pool hs'' ↦ hf p _ ⟨h.quiet.congr rfl rfl rfl, ⟨L', hs''⟩, ?_, ?_, ?_, h.config⟩
  · rw [hword]
    exact Nat.le_add_right _ _
  · simp only [hword, stop]
    omega
  · simp only [h.held, List.map_append, List.reverse_append]
    rfl
  · intro i hi
    rw [List.length_append, List.length_singleton] at hi
    rcases Nat.lt_succ_iff_lt_or_eq.mp hi with hi | rfl
    · simp only [List.getElem_append_left hi]
      rw [hv2p, readPointer_storePointer_ne hi.ne (by omega) (by omega)]
      exact h.listed i hi
    · simp only [List.getElem_concat_length]
      rw [hv2p]
      exact readPointer_storePointer
  · have hle : t.array.toNat ≤ (t.array + BitVec.ofNat 64 (8 * t.pages.length)).toNat := by omega
    have hbuf : pageOffset ≤ t.array + BitVec.ofNat 64 (8 * t.pages.length) :=
      BitVec.le_def.mpr ((BitVec.le_def.mp hdirect).trans hle)
    have hstop : (t.array + BitVec.ofNat 64 (8 * t.pages.length)).toNat + 8 ≤
        (⟨t.array.toNat, n⟩ : Block).stop := by
      simp only [hword, stop]
      omega
    exact AgreeOn.clearPage_eq hdirect' hend'.le
      (agreeOn_storePointer (c := ⟨t.array.toNat, n⟩) hbuf hle hstop hend.le hapart) h.clear

theorem wp_fillScratchpadArray {k : ℕ} (h : ArrayFilled t tail config s)
    (hcontexts : page t.contexts ∈ tail)
    (harray : 0 < k → ⟨t.array.toNat, n⟩ ∈ tail ∧
      Disjoint (⟨t.array.toNat, n⟩ : Block).bytes (page t.contexts).bytes)
    (hlt : 8 * (t.pages.length + k) ≤ 4096 * n)
    (hf : ∀ pages s', pages.length = t.pages.length + k →
      ArrayFilled { t with pages := pages } tail config s' →
      (startMachine u).wp (startContract u erst) (f ()) Q s') :
    (startMachine u).wp (startContract u erst)
      (fillScratchpadArray pagesize t.array k t.pages.length >>= f) Q s := by
  induction k generalizing t s with
  | zero => exact hf t.pages s rfl h
  | succ k ih =>
    obtain ⟨L, hs⟩ := h.sound
    rw [fillScratchpadArray]
    split_ifs
    · simp only [Prog.bind_assoc]
      have harray' := harray (Nat.succ_pos k)
      refine h.step (f := fun _ ↦ fillScratchpadArray pagesize t.array k (t.pages.length + 1) >>= f)
        harray'.1 hcontexts harray'.2 (by omega) fun p s' hs' ↦ ?_
      have hlen : (t.pages ++ [p]).length = t.pages.length + 1 := List.length_append
      rw [← hlen]
      refine ih hs' hcontexts (fun _ ↦ harray') ?_ fun pages s'' hpages ↦ hf pages s'' ?_
      · simp only [hlen]
        omega
      · simp only [hlen] at hpages
        omega
    · exact wp_callPanic h.quiet hs

theorem readPointer_of_clear {p : Addr} {mem : PhysMem} {i : ℕ} (hclear : clearPage p mem = mem)
    (hi : i < 512) : readPointer mem (v2p p + BitVec.ofNat 64 (8 * i)) = 0 := by
  have hzero : ∀ o : Addr, o.toNat < 8 → mem (v2p p + BitVec.ofNat 64 (8 * i) + o) = 0 := by
    intro o ho
    rw [← hclear, clearPage]
    generalize v2p p = base
    exact if_pos (by bv_omega)
  have hlo := hzero 0#64 (by decide)
  rw [BitVec.add_zero] at hlo
  rw [readPointer, hlo, hzero 4 (by decide)]
  rfl

/-- Entry 0 of the device contexts completes them. -/
theorem ArrayFilled.contextsSet (h : ArrayFilled t tail config s) (hs : s.Sound L)
    (hcontexts : page t.contexts ∈ tail)
    (harray : t.pages ≠ [] → ⟨t.array.toNat, n⟩ ∈ tail ∧
      Disjoint (⟨t.array.toNat, n⟩ : Block).bytes (page t.contexts).bytes)
    (hlt : 8 * t.pages.length ≤ 4096 * n) :
    ContextsSet t (storePointer s.mem (v2p t.contexts) (v2p t.array)) := by
  have hmem : ∀ b ∈ tail, b ∈ s.held := by
    intro b hb
    rw [h.held]
    exact List.mem_append_right _ hb
  obtain ⟨hdirect, hend⟩ := le_of_held hs (hmem _ hcontexts)
  refine ⟨readPointer_storePointer, fun i hpos hi ↦ ?_, fun i hi ↦ ?_⟩
  · have hfirst : readPointer (storePointer s.mem (v2p t.contexts + BitVec.ofNat 64 (8 * 0))
        (v2p t.array)) (v2p t.contexts + BitVec.ofNat 64 (8 * i)) =
        readPointer s.mem (v2p t.contexts + BitVec.ofNat 64 (8 * i)) :=
      readPointer_storePointer_ne hpos.ne' (by omega) (by decide)
    rw [Nat.mul_zero, BitVec.add_zero] at hfirst
    rw [hfirst]
    exact readPointer_of_clear h.clear hi
  · obtain ⟨hin, hapart⟩ := harray (List.ne_nil_of_length_pos (Nat.zero_lt_of_lt hi))
    obtain ⟨hdirect', hend'⟩ := le_of_held hs (hmem _ hin)
    have hagree : AgreeOn ⟨t.array.toNat, n⟩ s.mem
        (storePointer s.mem (v2p t.contexts) (v2p t.array)) :=
      agreeOn_storePointer (c := page t.contexts) hdirect le_rfl (by simp [page, stop]) hend.le
        hapart.symm
    rw [hagree.readPointer hdirect' le_rfl (by simp only [stop]; omega) hend'.le]
    exact h.listed i hi

theorem setWidth_and_mask (a : Addr) : (a &&& 0xffffffff#64).setWidth 32 = a.setWidth 32 := by
  rw [BitVec.setWidth_and]
  exact BitVec.and_allOnes

theorem pointerRegister_update (regs : BitVec 16 → Word) (reg : BitVec 16) (a : Addr) :
    pointerRegister (Function.update (Function.update regs (reg + 0) ((a >>> 0).setWidth 32))
      (reg + 4) ((a >>> 32).setWidth 32)) reg = a := by
  have hne : reg ≠ reg + 4 := by bv_omega
  have hzero : reg + 0 = reg := BitVec.add_zero reg
  rw [pointerRegister, Function.update_self, Function.update_of_ne hne, hzero,
    Function.update_self, BitVec.ushiftRight_zero]
  exact halves_append a

/-- Behind the write to DCBAAP. -/
structure ContextsReady (u : XhciUnit) (t : StartTables) (s : StartState) : Prop where
  quiet : s.Quiet
  sound : ∃ L, s.Sound L
  held : s.held = (t.pages.map page).reverse ++
    (StartTables.arrayBlocks t.array t.pages.length ++ [page t.contexts])
  count : t.pages.length = scratchpads (u.capability hcsparams2Reg)
  contexts : ContextsSet t s.mem
  maxSlots : s.operation configReg &&& 0xff#32 = u.capability hcsparams1Reg &&& 0xff#32
  dcbaap : pointerRegister s.operation dcbaapReg = v2p t.contexts

/-- The blocks in front of the scratchpad pages, the number of these being `n`. -/
def frontBlocks (t : StartTables) (n : ℕ) : List Block :=
  StartTables.arrayBlocks t.array n ++ [page t.contexts]

theorem page_mem_frontBlocks : page t.contexts ∈ frontBlocks t n :=
  List.mem_append_right _ (List.mem_singleton_self _)

theorem array_mem_frontBlocks (hn : n ≠ 0) :
    ⟨t.array.toNat, (n * 8 + 4095) / 4096⟩ ∈ frontBlocks t n := by
  rw [frontBlocks, StartTables.arrayBlocks, if_neg hn]
  exact List.mem_cons_self

/-- The array is filled, and the device contexts are given to the controller. -/
theorem ArrayFilled.finish (h : ArrayFilled t (frontBlocks t n) config s)
    (hlen : t.pages.length = n)
    (hapart : n ≠ 0 →
      Disjoint (⟨t.array.toNat, (n * 8 + 4095) / 4096⟩ : Block).bytes (page t.contexts).bytes)
    (hcount : n = scratchpads (u.capability hcsparams2Reg))
    (hconfig : config &&& 0xff#32 = u.capability hcsparams1Reg &&& 0xff#32)
    (hf : ∀ s', ContextsReady u t s' → (startMachine u).wp (startContract u erst) (f ()) Q s') :
    (startMachine u).wp (startContract u erst) (giveContexts t.contexts t.array >>= f) Q s := by
  obtain ⟨L, hs⟩ := h.sound
  have hmem : page t.contexts ∈ s.held := by
    rw [h.held]
    exact List.mem_append_right _ page_mem_frontBlocks
  have hcontexts := h.contextsSet hs page_mem_frontBlocks (n := (n * 8 + 4095) / 4096)
    (fun hne ↦ by
      have hn : n ≠ 0 := by
        rw [← hlen]
        exact fun hzero ↦ hne (List.eq_nil_of_length_eq_zero hzero)
      exact ⟨array_mem_frontBlocks hn, hapart hn⟩) (by omega)
  simp only [giveContexts, Prog.bind_assoc]
  rw [setWidth_and_mask, setWidth_and_mask]
  refine wp_storePointer h.quiet hs hmem le_rfl (by simp [page, stop]) fun pool hs' ↦ ?_
  refine wp_writeOperation (h.quiet.congr rfl rfl rfl) hs' (by decide) ?_
  refine wp_writeOperation (h.quiet.congr rfl rfl rfl) (hs'.congr rfl rfl) (by decide) ?_
  refine hf _ ⟨h.quiet.congr rfl rfl rfl, ⟨L, hs'.congr rfl rfl⟩, ?_, hlen.trans hcount, hcontexts,
    ?_, pointerRegister_update _ _ _⟩
  · rw [hlen]
    exact h.held
  · simp only []
    rw [Function.update_of_ne (by decide), Function.update_of_ne (by decide), h.config]
    exact hconfig

/-- The pages are allocated and listed. -/
theorem ArrayFilled.fill (h : ArrayFilled t (frontBlocks t n) config s) (hnil : t.pages = [])
    (hapart : n ≠ 0 →
      Disjoint (⟨t.array.toNat, (n * 8 + 4095) / 4096⟩ : Block).bytes (page t.contexts).bytes)
    (hcount : n = scratchpads (u.capability hcsparams2Reg))
    (hconfig : config &&& 0xff#32 = u.capability hcsparams1Reg &&& 0xff#32)
    (hf : ∀ t s', ContextsReady u t s' →
      (startMachine u).wp (startContract u erst) (f ()) Q s') :
    (startMachine u).wp (startContract u erst)
      (fillScratchpadArray pagesize t.array n 0 >>= fun _ ↦ giveContexts t.contexts t.array >>= f)
      Q s := by
  have hlen : t.pages.length = 0 := by rw [hnil, List.length_nil]
  have hloop : (startMachine u).wp (startContract u erst)
      (fillScratchpadArray pagesize t.array n t.pages.length >>= fun _ ↦
        giveContexts t.contexts t.array >>= f) Q s :=
    wp_fillScratchpadArray (n := (n * 8 + 4095) / 4096) h page_mem_frontBlocks
      (fun hpos ↦ ⟨array_mem_frontBlocks hpos.ne', hapart hpos.ne'⟩) (by omega)
      fun pages s' hpages h' ↦
        ArrayFilled.finish (t := { t with pages := pages }) h' (by simp only; omega) hapart hcount
          hconfig (hf _)
  rwa [hlen] at hloop

end Tables

/-! ## The rings -/

section Rings

variable {u : XhciUnit} {erst : Addr} {s s' : StartState} {L : List Block} {α : Type}
variable {Q : α → StartState → Prop} {f : Ring → StartProg α} {t : StartTables}
variable {mem mem' : PhysMem} {p : Addr}

/-- The contexts stay as they are while other blocks are written. -/
theorem ContextsSet.agree (h : ContextsSet t mem) (hs : s.Sound L)
    (hheld : ∀ b ∈ frontBlocks t t.pages.length, b ∈ s.held ∧ AgreeOn b mem mem') :
    ContextsSet t mem' := by
  obtain ⟨hin, hagree⟩ := hheld _ page_mem_frontBlocks
  obtain ⟨hdirect, hend⟩ := le_of_held hs hin
  have hsame : ∀ i, i < 512 → readPointer mem' (v2p t.contexts + BitVec.ofNat 64 (8 * i)) =
      readPointer mem (v2p t.contexts + BitVec.ofNat 64 (8 * i)) := fun i hi ↦
    hagree.readPointer hdirect le_rfl (by simp only [page, stop]; omega) hend.le
  refine ⟨?_, fun i hpos hi ↦ (hsame i hi).trans (h.others i hpos hi), fun i hi ↦ ?_⟩
  · have hfirst := hsame 0 (by decide)
    rw [Nat.mul_zero, BitVec.add_zero] at hfirst
    rw [hfirst]
    exact h.array
  · obtain ⟨hin', hagree'⟩ := hheld _ (array_mem_frontBlocks (Nat.ne_zero_of_lt hi))
    obtain ⟨hdirect', hend'⟩ := le_of_held hs hin'
    rw [hagree'.readPointer hdirect' le_rfl (by simp only [stop]; omega) hend'.le]
    exact h.pages i hi

end Rings

/-! ## The start -/

section Start

variable {u : XhciUnit} {erst : Addr} {s s' : StartState} {L : List Block} {α : Type}
variable {Q : α → StartState → Prop} {f : Bool → StartProg α} {t : StartTables}
variable {F : StartState → Prop} {rounds : ℕ}

end Start

section Runs

variable {u : XhciUnit} {erst : Addr} {s s' : StartState} {L : List Block} {rounds : ℕ}

end Runs

end VimOS
