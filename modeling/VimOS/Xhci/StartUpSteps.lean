import VimOS.Xhci.EventDelivery
import VimOS.Xhci.StartUp

/-!
# While the controller is not running

Up to the end of the reset the controller may change its state while the driver waits, and the
driver has been given nothing that it could spoil (`StartState.Bare`). Behind it the controller is
ready, halted and not told to run, so that nothing happens between two operations
(`StartState.Quiet`): what the driver has written is still there when it writes the next register.
-/

namespace VimOS

open Block Machine

/-! ## Physical pages -/

section Pages

variable {p q a val : Addr} {mem : PhysMem} {b c : Block} {n i : ℕ}

/-- Where a page is mapped, the page's words are found. -/
theorem p2v_v2p_add (hp : pageOffset ≤ p) (o : Addr) : p2v (v2p p + o) = p + o := by
  rw [v2p, if_pos ((sub_pageOffset_lt_iff p).mpr hp), p2v]
  generalize pageOffset = offset
  bv_omega

theorem v2p_add_direct (hp : pageOffset ≤ p) (hi : p.toNat + i < 2 ^ 64) :
    v2p (p + BitVec.ofNat 64 i) = v2p p + BitVec.ofNat 64 i := by
  have hle : pageOffset ≤ p + BitVec.ofNat 64 i := by
    generalize pageOffset = offset at hp
    bv_omega
  rw [v2p, v2p, if_pos ((sub_pageOffset_lt_iff _).mpr hp),
    if_pos ((sub_pageOffset_lt_iff _).mpr hle)]
  generalize pageOffset = offset
  bv_omega

/-- The addresses of a block, physical and virtual. -/
theorem sub_v2p_lt_iff (hp : pageOffset ≤ p) (hn : p.toNat + n ≤ 2 ^ 64) :
    (a - v2p p).toNat < n ↔ p.toNat ≤ (p2v a).toNat ∧ (p2v a).toNat < p.toNat + n := by
  have hsub : a - v2p p = p2v a - p := by
    rw [v2p, if_pos ((sub_pageOffset_lt_iff p).mpr hp), p2v]
    generalize pageOffset = offset
    bv_omega
  rw [hsub]
  generalize p2v a = v
  bv_omega

theorem toNat_word (hp : pageOffset ≤ p) (ho : p.toNat + i < 2 ^ 64) :
    (p2v (v2p p + BitVec.ofNat 64 i)).toNat = p.toNat + i := by
  rw [p2v_v2p_add hp, BitVec.toNat_add, BitVec.toNat_ofNat]
  omega

/-- Two memories agree on a block. -/
def AgreeOn (b : Block) (mem mem' : PhysMem) : Prop :=
  ∀ a, (p2v a).toNat ∈ b.bytes → mem' a = mem a

theorem AgreeOn.trans {mem' mem'' : PhysMem} (h : AgreeOn b mem mem') (h' : AgreeOn b mem' mem'') :
    AgreeOn b mem mem'' := fun a ha ↦ (h' a ha).trans (h a ha)

theorem AgreeOn.refl (b : Block) (mem : PhysMem) : AgreeOn b mem mem := fun _ _ ↦ rfl

/-- A cleared page stays so as long as it is not written. -/
theorem AgreeOn.clearPage_eq {mem' : PhysMem} (hp : pageOffset ≤ p) (hn : p.toNat + 4096 ≤ 2 ^ 64)
    (h : AgreeOn ⟨p.toNat, 1⟩ mem mem') (hclear : clearPage p mem = mem) :
    clearPage p mem' = mem' := by
  funext a
  rw [clearPage]
  split_ifs with hin
  · have hzero := congrFun hclear a
    rw [clearPage, if_pos hin] at hzero
    rw [h a ((sub_v2p_lt_iff hp hn).mp hin), ← hzero]
  · rfl

/-- A store within a block leaves the others alone. -/
theorem agreeOn_storePointer (hp : pageOffset ≤ p) (hc : c.addr ≤ p.toNat)
    (hn : p.toNat + 8 ≤ c.stop) (hstop : c.stop ≤ 2 ^ 64) (hb : Disjoint c.bytes b.bytes) :
    AgreeOn b mem (storePointer mem (v2p p) val) := by
  intro a ha
  have hout : ∀ o : ℕ, o < 8 → a ≠ v2p p + BitVec.ofNat 64 o := by
    rintro o ho rfl
    rw [toNat_word hp (by omega)] at ha
    exact Set.disjoint_left.mp hb ⟨by omega, by omega⟩ ha
  have hhi : a ≠ v2p p + 4 := hout 4 (by decide)
  have hlo : a ≠ v2p p := by simpa using hout 0 (by decide)
  rw [storePointer, Function.update_of_ne hhi, Function.update_of_ne hlo]

theorem readPointer_storePointer : readPointer (storePointer mem a val) a = val := by
  rw [readPointer, storePointer, Function.update_self, Function.update_of_ne (by bv_omega),
    Function.update_self]
  exact halves_append val

theorem readPointer_storePointer_ne {k : ℕ} (hne : i ≠ k) (hi : 8 * i + 8 ≤ 2 ^ 64)
    (hk : 8 * k + 8 ≤ 2 ^ 64) :
    readPointer (storePointer mem (a + BitVec.ofNat 64 (8 * k)) val) (a + BitVec.ofNat 64 (8 * i)) =
      readPointer mem (a + BitVec.ofNat 64 (8 * i)) := by
  rw [readPointer, readPointer, storePointer, Function.update_of_ne (by bv_omega),
    Function.update_of_ne (by bv_omega), Function.update_of_ne (by bv_omega),
    Function.update_of_ne (by bv_omega)]

/-- A pointer is read from the block it lies in. -/
theorem AgreeOn.readPointer {mem' : PhysMem} (h : AgreeOn b mem mem') (hp : pageOffset ≤ p)
    (hb : b.addr ≤ p.toNat) (hn : p.toNat + i + 8 ≤ b.stop) (hstop : b.stop ≤ 2 ^ 64) :
    VimOS.readPointer mem' (v2p p + BitVec.ofNat 64 i) =
      VimOS.readPointer mem (v2p p + BitVec.ofNat 64 i) := by
  have hin : ∀ o, o < 8 → (p2v (v2p p + BitVec.ofNat 64 (i + o))).toNat ∈ b.bytes := by
    intro o ho
    rw [toNat_word hp (by omega)]
    exact ⟨by omega, by omega⟩
  have hhi := h _ (hin 4 (by decide))
  have hlo := h _ (hin 0 (by decide))
  rw [BitVec.ofNat_add, ← BitVec.add_assoc] at hhi
  rw [VimOS.readPointer, VimOS.readPointer]
  exact congrArg₂ (· ++ ·) hhi hlo

end Pages

/-! ## While the controller waits to be started -/

/-- The controller is ready and halted, and stays so until it is written to. -/
structure StartState.Quiet (s : StartState) : Prop where
  running : s.running = false
  resetting : s.resetting = false
  notReady : s.notReady = false
  halted : s.halted = true

section Quiet

variable {u : XhciUnit} {erst : Addr} {s s' : StartState} {L : List Block} {α β : Type}
variable {k : Addr → StartProg α} {Q : α → StartState → Prop} {pages : ℕ} {b x : Block}

theorem StartState.Quiet.step (h : s.Quiet) {i : ControllerStep}
    (hstep : ControllerStep.Rel s i s') : s' = s := by
  cases i with
  | reset => exact absurd (h.resetting.symm.trans hstep.1) Bool.false_ne_true
  | ready =>
    rw [hstep, ← h.notReady]
  | start => exact absurd (h.running.symm.trans hstep.1) Bool.false_ne_true
  | stop =>
    rw [hstep.2, ← h.halted]
  | transfer => exact absurd (h.halted.symm.trans hstep.1) Bool.noConfusion

/-- Between two operations nothing happens. -/
theorem wp_quiet {e : StartOp} {k : e.Answer → StartProg α} (hq : s.Quiet) (hs : s.Sound L)
    (hpre : (startContract u erst).pre e s)
    (hk : ∀ r s', e.exec u s r s' → (startMachine u).wp (startContract u erst) (k r) Q s') :
    (startMachine u).wp (startContract u erst) (.op e k) Q s := by
  refine wp_op (P := fun t ↦ t = s) ?_ ?_ ?_ rfl
  · rintro _ i t rfl _ hstep
    exact hq.step hstep
  · rintro _ rfl
    exact ⟨L, hs⟩
  · rintro _ rfl _
    exact ⟨hpre, hk⟩

theorem wp_callPanic {k : β → StartProg α} (hq : s.Quiet) (hs : s.Sound L) :
    (startMachine u).wp (startContract u erst) (callPanic >>= k) Q s :=
  wp_quiet hq hs trivial fun _ _ hexec ↦ absurd hexec id

/-! ### Allocations -/

theorem StartState.Sound.alloc (h : s.Sound L) (hpos : 0 < pages) (hlt : pages < 2 ^ 20) {p : Addr}
    (hp : p ≠ 0) {fuel : ℕ} {pool : Memory}
    (hrun : VimOS.allocMem fuel s.pool pages = .ok (pool, p.toNat)) :
    ∃ L', StartState.Sound L'
      { s with pool := pool, held := ⟨p.toNat, pages⟩ :: s.held } := by
  have hne : p.toNat ≠ 0 := fun hzero ↦ hp (BitVec.eq_of_toNat_eq hzero)
  obtain ⟨A, b, B, rfl, -, hle, hptr, hpool⟩ :=
    h.pool.alloc hpos hlt (allocPages_eq_some.mpr ⟨hrun, hne⟩)
  rw [hptr]
  have hvalid := h.pool.valid b (by simp)
  obtain ⟨hunion, hdiff⟩ := cover_split hle h.pool.sorted
  have hsub : (⟨b.addr, pages⟩ : Block).bytes ⊆ cover (A ++ b :: B) := by
    rw [hunion]
    exact Set.subset_union_left
  have hrest : cover (A ++ remainder pages b ++ B) ⊆ cover (A ++ b :: B) := by
    rw [hdiff]
    exact Set.sdiff_subset
  have haligned := h.aligned b (by simp)
  refine ⟨_, hpool, fun c hc ↦ ?_, ?_, ?_, ?_, ?_, ?_⟩
  · rw [List.append_assoc, List.mem_append, List.mem_append] at hc
    rcases hc with hc | hc | hc
    · exact h.aligned c (List.mem_append_left _ hc)
    · have haddr := (remainder_bounds hle hc).1
      omega
    · exact h.aligned c (List.mem_append_right _ (List.mem_cons_of_mem _ hc))
  · exact List.forall_mem_cons.mpr ⟨haligned, h.held_aligned⟩
  · refine List.forall_mem_cons.mpr ⟨⟨hvalid.addr_pos, hpos, ?_⟩, h.held_valid⟩
    have hstop := hvalid.stop_lt
    simp only [stop] at hstop ⊢
    omega
  · exact List.forall_mem_cons.mpr ⟨h.pool.direct b (by simp), h.held_direct⟩
  · exact List.pairwise_cons.mpr ⟨fun c hc ↦ ((h.free c hc).mono_right hsub).symm, h.apart⟩
  · refine List.forall_mem_cons.mpr ⟨?_, fun c hc ↦ (h.free c hc).mono_right hrest⟩
    rw [hdiff]
    exact Set.disjoint_sdiff_right

/-- A call that fails has changed nothing. -/
theorem allocLoop_null {fuel m : ℕ} {pool pool' : Memory} {prev : Place}
    (hrun : allocLoop pages fuel pool prev m = .ok (pool', 0)) : pool' = pool := by
  induction fuel generalizing prev m with
  | zero => exact absurd hrun nofun
  | succ fuel ih =>
    rw [allocLoop] at hrun
    split_ifs at hrun with hnull hexact hfit
    · exact (congrArg Prod.fst (Except.ok.inj hrun)).symm
    · exact absurd (congrArg Prod.snd (Except.ok.inj hrun)) hnull
    · exact absurd (congrArg Prod.snd (Except.ok.inj hrun)) hnull
    · exact ih hrun

theorem StartState.Sound.alloc_zero (h : s.Sound L) {p : Addr} (hp : p ≠ 0) {fuel : ℕ}
    {pool : Memory} (hrun : VimOS.allocMem fuel s.pool 0 = .ok (pool, p.toNat)) :
    StartState.Sound L { s with pool := pool } :=
  have hne : p.toNat ≠ 0 := fun hzero ↦ hp (BitVec.eq_of_toNat_eq hzero)
  { h with pool := (h.pool.alloc_zero (allocPages_eq_some.mpr ⟨hrun, hne⟩)).1 }

/-- What the driver writes to its pages does not reach the free list. -/
theorem StartState.Sound.clobber (h : s.Sound L) (hb : b ∈ s.held) (hx : x.bytes ⊆ b.bytes)
    (hpos : 0 < x.pages) (junk : ℕ → MemList) (mem : PhysMem) :
    StartState.Sound L { s with mem := mem, pool := s.pool.clobber x junk } :=
  { h with pool := h.pool.clobber junk hpos ((h.free b hb).mono_left hx) }

theorem StartState.Quiet.congr (h : s.Quiet) (hcmd : s'.usbcmd = s.usbcmd)
    (hready : s'.notReady = s.notReady) (hhalted : s'.halted = s.halted) : s'.Quiet := by
  refine ⟨?_, ?_, hready.trans h.notReady, hhalted.trans h.halted⟩
  · rw [StartState.running, hcmd]
    exact h.running
  · rw [StartState.resetting, hcmd]
    exact h.resetting

/-- An allocation of at least one page. -/
theorem wp_allocOrPanic (hq : s.Quiet) (hs : s.Sound L) (hpos : 0 < pages) (hlt : pages < 2 ^ 20)
    (hk : ∀ p pool L', StartState.Sound L'
        { s with pool := pool, held := ⟨p.toNat, pages⟩ :: s.held } →
      (startMachine u).wp (startContract u erst) (k p) Q
        { s with pool := pool, held := ⟨p.toNat, pages⟩ :: s.held }) :
    (startMachine u).wp (startContract u erst) (allocOrPanic pages >>= k) Q s := by
  refine wp_quiet hq hs trivial ?_
  rintro (p : Addr) s' ⟨fuel, pool, hrun, rfl⟩
  change (startMachine u).wp _ ((if p = 0 then callPanic else pure p) >>= k) Q _
  by_cases hp : p = 0
  · subst hp
    rw [if_pos rfl, if_pos (.inl rfl)]
    obtain rfl := allocLoop_null hrun
    exact wp_callPanic hq hs
  · rw [if_neg hp, if_neg (not_or.mpr ⟨hp, hpos.ne'⟩)]
    obtain ⟨L', hs'⟩ := hs.alloc hpos hlt hp hrun
    exact hk p pool L' hs'

end Quiet

/-! ## The reset -/

section Reset

variable {u : XhciUnit} {erst : Addr} {s s' : StartState} {L : List Block} {α : Type}
variable {Q : α → StartState → Prop} {F G : StartState → Prop} {f : Bool → StartProg α}

theorem StartState.Sound.congr (h : s.Sound L) (hpool : s'.pool = s.pool)
    (hheld : s'.held = s.held) : s'.Sound L := by
  obtain ⟨hp, ha, hha, hhv, hhd, hap, hfr⟩ := h
  rw [← hpool] at hp
  rw [← hheld] at hha hhv hhd hap hfr
  exact ⟨hp, ha, hha, hhv, hhd, hap, hfr⟩

end Reset

/-! ## One operation after the other -/

section Rules

variable {u : XhciUnit} {erst : Addr} {s : StartState} {L : List Block} {α : Type}
variable {Q : α → StartState → Prop} {f : Unit → StartProg α} {reg : BitVec 16} {v : Word}
variable {p val : Addr} {b : Block}

theorem wp_writeOperation (hq : s.Quiet) (hs : s.Sound L) (hreg : reg ≠ usbcmdReg)
    (hf : (startMachine u).wp (startContract u erst) (f ()) Q
      { s with operation := Function.update s.operation reg v }) :
    (startMachine u).wp (startContract u erst) (writeXhciOperation reg v >>= f) Q s := by
  refine wp_quiet hq hs ⟨⟨hq.resetting, hq.notReady⟩, hq.halted, fun heq ↦ absurd heq hreg⟩ ?_
  rintro _ s' hwrite
  rw [StartOp.exec, if_neg hreg] at hwrite
  subst hwrite
  exact hf

/-- An address in a block of whole pages has its page there. -/
theorem pageOf_subset (haligned : b.addr % 4096 = 0) (hle : b.addr ≤ p.toNat)
    (hlt : p.toNat < b.stop) : (pageOf p).bytes ⊆ b.bytes := by
  rw [stop] at hlt
  intro q hq
  simp only [bytes, stop, pageOf, Set.mem_Ico] at hq ⊢
  omega

theorem wp_storePointer (hq : s.Quiet) (hs : s.Sound L) (hb : b ∈ s.held) (hle : b.addr ≤ p.toNat)
    (hstop : p.toNat + 8 ≤ b.stop)
    (hf : ∀ pool, StartState.Sound L
        { s with mem := storePointer s.mem (v2p p) val, pool := pool } →
      (startMachine u).wp (startContract u erst) (f ()) Q
        { s with mem := storePointer s.mem (v2p p) val, pool := pool }) :
    (startMachine u).wp (startContract u erst) (callStorePointer p val >>= f) Q s := by
  refine wp_quiet hq hs ⟨b, hb, hle, hstop⟩ ?_
  rintro _ s' ⟨junk, rfl⟩
  exact hf _ (hs.clobber hb (pageOf_subset (hs.held_aligned b hb) hle (by omega)) Nat.one_pos
    junk _)

end Rules

end VimOS
