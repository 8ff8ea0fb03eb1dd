import VimOS.Memory.FreePages
import VimOS.Paging.DemandMapping

/-!
# Page faults

`do_page_fault` of `kernel/exception.c` does not return from a fault on a page that is present. On
any other fault it maps the page, if the address lies between `brk` and the stack, and returns. It
returns without having mapped the page where the address lies elsewhere, and where `setupPageMap`
has run out of memory on the way: the latter returns `-1`, which `setupPageMaps` drops.

The tables need not be a tree here. One page is mapped by one step on each level (`setupPage`); an
entry that is present stays as it is, as far as a walk follows it, so what counts is how many pages
the walk of the address lacks (`missingPages`) and how many are free.
-/

namespace VimOS

open PageWalk Block

variable {pool : ℕ → Addr} {rw : Bool}

/-- `void do_page_fault(struct interrupt_frame *regs)`, with `regs->error` and what `getCR2`
returns. `none` is a fault from which it does not return. -/
def doPageFault (pool : ℕ → Addr) (cr3 brk cr2 : Addr) (error : BitVec 64) (s : PagingState) :
    Option PagingState :=
  if error &&& 0x01 ≠ 0 then none
  else if brk ≤ cr2 ∧ cr2 ≤ 0x7fffffffe000 then setupPageMaps pool cr3 s cr2 1 true
  else some s

/-! ## One page -/

/-- `setupPageMap` for one page: a step on each level. -/
def setupPage (pool : ℕ → Addr) (rw : Bool) (addr : Addr) : ℕ → Addr → PagingState → PagingState
  | 0, _, s => s
  | level + 1, pageMap, s =>
    let entry := pageMap + BitVec.ofNat 64 (8 * part addr (level + 1))
    let r := setNewPageMapIfNotPresent pool s entry
    if r.2 = 0 then r.1
    else
      let s := r.1.store entry (setField 1 1 (r.1.load entry) rw.toNat)
      let s := s.store entry (setField 2 1 (s.load entry) 1)
      setupPage pool rw addr level r.2 s

section Loop

variable {level : ℕ} {child : Addr → PagingState → Addr → BitVec 32 → Option PageMapReturn}
  {pageMap addr addr' : Addr} {s s' : PagingState} {left : Option (BitVec 32)}

/-- The loop is left after one page. -/
theorem setupLoop_one (fuel : ℕ)
    (h : setupEntry pool rw level child pageMap s addr 1 = some (s', addr', left))
    (hleft : left = none ∨ left = some 0) :
    ∃ r, setupLoop pool rw level child pageMap (fuel + 2) s addr 1 = some r ∧ r.1 = s' ∧
      (r.2.2 = -1 ∨ r.2.2 = 0) := by
  rw [setupLoop, if_neg (by decide), h]
  rcases hleft with rfl | rfl
  · exact ⟨_, rfl, rfl, .inl rfl⟩
  · simp only [Option.bind_some]
    split_ifs
    · exact ⟨_, rfl, rfl, .inr rfl⟩
    · rw [setupLoop, if_pos rfl]
      exact ⟨_, rfl, rfl, .inr rfl⟩

theorem setupPageMap_one (hpos : 1 ≤ level) (pageMap : Addr) (s : PagingState) (addr : Addr) :
    ∃ r, setupPageMap pool rw level pageMap s addr 1 = some r ∧
      r.1 = setupPage pool rw addr level pageMap s ∧ (r.2.2 = -1 ∨ r.2.2 = 0) := by
  induction level, hpos using Nat.le_induction generalizing pageMap s with
  | base =>
    rw [setupPageMap, setupPage]
    dsimp only
    split_ifs with hnull
    · have hentry : setupEntry pool rw 1 (setupPageMap pool rw 0) pageMap s addr 1 =
          some (_, addr, none) := if_pos hnull
      exact setupLoop_one 510 hentry (.inl rfl)
    · have hentry : setupEntry pool rw 1 (setupPageMap pool rw 0) pageMap s addr 1 =
          some (_, addr, some 0) := (if_neg hnull).trans (if_pos rfl)
      exact setupLoop_one 510 hentry (.inr rfl)
  | succ level hpos ih =>
    rw [setupPageMap, setupPage]
    dsimp only
    split_ifs with hnull
    · have hentry : setupEntry pool rw (level + 1) (setupPageMap pool rw level) pageMap s addr 1 =
          some (_, addr, none) := if_pos hnull
      exact setupLoop_one 510 hentry (.inl rfl)
    · obtain ⟨r, hr, hstate, hret⟩ := ih _ _
      rw [← hstate]
      have hentry : setupEntry pool rw (level + 1) (setupPageMap pool rw level) pageMap s addr 1 =
          some (r.1, r.2.1, if r.2.2 = -1 then none else some r.2.2) := by
        refine (if_neg hnull).trans ((if_neg (by omega)).trans ?_)
        rw [hr]
        rfl
      refine setupLoop_one 510 hentry ?_
      rcases hret with hret | hret
      · exact .inl (if_pos hret)
      · rw [hret]
        exact .inr rfl

end Loop

/-- For one page, `setupPageMaps` is a step on each level. -/
theorem setupPageMaps_one (cr3 : Addr) (s : PagingState) (addr : Addr) :
    setupPageMaps pool cr3 s addr 1 rw = some (setupPage pool rw addr 4 (p2v cr3) s) := by
  obtain ⟨r, hr, hstate, -⟩ := @setupPageMap_one pool rw 4 (by decide) (p2v cr3) s addr
  rw [setupPageMaps, hr, Option.map_some, hstate]

/-! ## One level -/

/-- The calls after the first one. -/
theorem calls_succ (calls k : ℕ) : calls + 1 + k = calls + (k + 1) :=
  (Nat.add_right_comm calls 1 k).trans (Nat.add_assoc calls k 1)

/-- The first of the pages and the others. -/
theorem pool_ne_zero_succ_iff {calls n : ℕ} : (∀ k < n + 1, pool (calls + k) ≠ 0) ↔
    pool calls ≠ 0 ∧ ∀ k < n, pool (calls + 1 + k) ≠ 0 := by
  simp only [Nat.forall_lt_succ_left, calls_succ]
  rfl

/-- The state after an entry that was not present is linked to a new page. -/
def linkPage (pool : ℕ → Addr) (rw : Bool) (s : PagingState) (entry : Addr) : PagingState :=
  let s₁ : PagingState := ⟨memsetZero (newPage pool s.calls) (8 * 512) s.mem, s.calls + 1⟩
  s₁.store entry (markEntry rw (linkEntry (s₁.load entry) (pool s.calls)))

section Step

variable {level : ℕ} {addr pageMap entry : Addr} {s : PagingState}

theorem setupPage_null (hentry : pageMap + BitVec.ofNat 64 (8 * part addr (level + 1)) = 0) :
    setupPage pool rw addr (level + 1) pageMap s = s := by
  rw [setupPage, setNewPageMapIfNotPresent, if_pos hentry]
  rfl

theorem setupPage_present (hentry : pageMap + BitVec.ofNat 64 (8 * part addr (level + 1)) = entry)
    (hne : entry ≠ 0) (hpresent : present (s.load entry) = true) :
    setupPage pool rw addr (level + 1) pageMap s =
      if pointer (s.load entry) = 0 then s
      else setupPage pool rw addr level (pointer (s.load entry))
        (s.store entry (markEntry rw (s.load entry))) := by
  rw [setupPage, hentry, setNewPageMapIfNotPresent, if_neg hne, if_pos hpresent]
  dsimp only
  rw [store_rights]

theorem setupPage_absent (hentry : pageMap + BitVec.ofNat 64 (8 * part addr (level + 1)) = entry)
    (hne : entry ≠ 0) (hpresent : present (s.load entry) = false) :
    setupPage pool rw addr (level + 1) pageMap s =
      if pool s.calls = 0 then { s with calls := s.calls + 1 }
      else setupPage pool rw addr level (pool s.calls) (linkPage pool rw s entry) := by
  rw [setupPage, hentry, setNewPageMapIfNotPresent, if_neg hne,
    if_neg (Bool.eq_false_iff.mp hpresent)]
  by_cases hnull : pool s.calls = 0
  · have hnew : newPageMap pool s = ({ s with calls := s.calls + 1 }, 0) := if_pos hnull
    simp only [hnew, hnull, if_true]
  · have hnew : newPageMap pool s =
        (⟨memsetZero (newPage pool s.calls) (8 * 512) s.mem, s.calls + 1⟩, pool s.calls) :=
      if_neg hnull
    simp only [hnew, hnull, if_false, PagingState.load_store, PagingState.store_store]
    rfl

/-! ## What stays -/

theorem sameLink_markEntry (e : BitVec 64) : SameLink e (markEntry rw e) :=
  ⟨present_markEntry rw e, large_markEntry rw e, fun _ ↦ frame_markEntry rw e⟩

theorem PagingState.mem_store_self (s : PagingState) (p : Addr) (e : BitVec 64) :
    (s.store p e).mem (p - pageOffset).toNat = e := Function.update_self _ _ _

theorem PagingState.mem_store_of_ne (s : PagingState) {p : Addr} (e : BitVec 64) {a : ℕ}
    (h : a ≠ (p - pageOffset).toNat) : (s.store p e).mem a = s.mem a := Function.update_of_ne h _ _

theorem sameLink_store (s : PagingState) (entry : Addr) (a : ℕ) :
    SameLink (s.mem a) ((s.store entry (markEntry rw (s.load entry))).mem a) := by
  by_cases ha : a = (entry - pageOffset).toNat
  · obtain rfl := ha
    rw [PagingState.mem_store_self]
    exact sameLink_markEntry _
  · rw [PagingState.mem_store_of_ne _ _ ha]
    exact SameLink.refl _

/-- Outside the entry and the new page, memory is as before. -/
theorem linkPage_out {a : ℕ} (ha : a ≠ (entry - pageOffset).toNat)
    (hout : a < newPage pool s.calls ∨ newPage pool s.calls + 4096 ≤ a) :
    (linkPage pool rw s entry).mem a = s.mem a :=
  (PagingState.mem_store_of_ne _ _ ha).trans (memsetZero_out hout)

/-- The new page is zero. -/
theorem linkPage_new {a : ℕ} (ha : a ≠ (entry - pageOffset).toNat) (hge : newPage pool s.calls ≤ a)
    (hlt : a < newPage pool s.calls + 4096) : (linkPage pool rw s entry).mem a = 0 :=
  (PagingState.mem_store_of_ne _ _ ha).trans (memsetZero_in hge hlt)

theorem linkPage_entry (hout : (entry - pageOffset).toNat < newPage pool s.calls ∨
      newPage pool s.calls + 4096 ≤ (entry - pageOffset).toNat) :
    (linkPage pool rw s entry).mem (entry - pageOffset).toNat =
      markEntry rw (linkEntry (s.load entry) (pool s.calls)) := by
  refine (PagingState.mem_store_self _ _ _).trans (congrArg _ (congrArg₂ _ ?_ rfl))
  exact memsetZero_out hout

/-- Outside the pages it allocates, a run leaves the entries that are present, whatever the tables
are. -/
theorem setupPage_stays {a : ℕ} (hout : ∀ k < level, pool (s.calls + k) ≠ 0 →
      a < newPage pool (s.calls + k) ∨ newPage pool (s.calls + k) + 4096 ≤ a) :
    Stays (s.mem a) ((setupPage pool rw addr level pageMap s).mem a) := by
  induction level generalizing pageMap s with
  | zero => exact Stays.refl _
  | succ level ih =>
    generalize hentry : pageMap + BitVec.ofNat 64 (8 * part addr (level + 1)) = entry
    by_cases hne : entry = 0
    · rw [setupPage_null (hentry.trans hne)]
      exact Stays.refl _
    · cases hpresent : present (s.load entry) with
      | true =>
        rw [setupPage_present hentry hne hpresent]
        split_ifs
        · exact Stays.refl _
        · refine (sameLink_store s entry a).stays.trans (ih fun k hk ↦ ?_)
          exact hout k (Nat.lt_succ_of_lt hk)
      | false =>
        rw [setupPage_absent hentry hne hpresent]
        split_ifs with hnull
        · exact Stays.refl _
        · refine Stays.trans (fun hpresent' ↦ ?_) (ih fun k hk ↦ ?_)
          · -- the entry that is written was not present
            have ha : a ≠ (entry - pageOffset).toNat := by
              rintro rfl
              rw [PagingState.load, hpresent'] at hpresent
              cases hpresent
            rw [linkPage_out ha (hout 0 (Nat.succ_pos _) hnull)]
            exact ⟨hpresent', rfl, rfl⟩
          · rw [show (linkPage pool rw s entry).calls = s.calls + 1 from rfl, calls_succ]
            exact hout (k + 1) (Nat.succ_lt_succ hk)

end Step

/-! ## What is missing -/

/-- An allocator and a table from which a walk goes on: the tables of the walk are in the memory
that `P2V` reaches, and each call hands out a page of its own, which is none of them, or returns
`NULL`. -/
structure Ready (pool : ℕ → Addr) (s : PagingState) (level table v : ℕ) : Prop where
  direct : ∀ t ∈ walkTables s.mem level table v, InDirectMap t
  aligned : ∀ t ∈ walkTables s.mem level table v, t % 4096 = 0
  new_direct : ∀ k < level, pool (s.calls + k) ≠ 0 → InDirectMap (newPage pool (s.calls + k))
  new_aligned : ∀ k < level, pool (s.calls + k) ≠ 0 → newPage pool (s.calls + k) % 4096 = 0
  unused : ∀ k < level, pool (s.calls + k) ≠ 0 →
    newPage pool (s.calls + k) ∉ walkTables s.mem level table v
  distinct : ∀ k < level, ∀ k' < level, pool (s.calls + k) ≠ 0 →
    newPage pool (s.calls + k) = newPage pool (s.calls + k') → k = k'

theorem part_eq_index (addr : Addr) {level : ℕ} (h : level < 4) :
    part addr (level + 1) = index (level + 1) addr.toNat := by
  have hcases : level = 0 ∨ level = 1 ∨ level = 2 ∨ level = 3 := by omega
  rcases hcases with rfl | rfl | rfl | rfl <;> rfl

namespace Ready

variable {s : PagingState} {level table : ℕ} {addr : Addr}

section Entry

variable (h : Ready pool s (level + 1) table addr.toNat)

include h

theorem table_direct : InDirectMap table := h.direct _ mem_walkTables

theorem table_aligned : table % 4096 = 0 := h.aligned _ mem_walkTables

theorem entry_ne_zero (hlevel : level < 4) :
    pagePointer table + BitVec.ofNat 64 (8 * part addr (level + 1)) ≠ 0 := by
  have hindex := index_lt (level + 1) addr.toNat
  rw [part_eq_index addr hlevel]
  exact pagePointer_ne_zero h.table_direct h.table_aligned (by omega)

theorem entry_addr (hlevel : level < 4) :
    (pagePointer table + BitVec.ofNat 64 (8 * part addr (level + 1)) - pageOffset).toNat =
      entryAddr (level + 1) table addr.toNat := by
  have hindex := index_lt (level + 1) addr.toNat
  rw [part_eq_index addr hlevel, toNat_pagePointer_add h.table_direct (by omega), entryAddr]

/-- The entry is not in a new page. -/
theorem entry_out {k : ℕ} (hk : k < level + 1) (hnull : pool (s.calls + k) ≠ 0) :
    entryAddr (level + 1) table addr.toNat < newPage pool (s.calls + k) ∨
      newPage pool (s.calls + k) + 4096 ≤ entryAddr (level + 1) table addr.toNat := by
  have hindex := index_lt (level + 1) addr.toNat
  have haligned := h.table_aligned
  have haligned' := h.new_aligned k hk hnull
  have hne : table ≠ newPage pool (s.calls + k) := fun heq ↦
    h.unused k hk hnull (heq ▸ mem_walkTables)
  rw [entryAddr]
  omega

theorem entry_out_first (hnull : pool s.calls ≠ 0) :
    entryAddr (level + 1) table addr.toNat < newPage pool s.calls ∨
      newPage pool s.calls + 4096 ≤ entryAddr (level + 1) table addr.toNat :=
  h.entry_out (Nat.succ_pos level) hnull

theorem load_entry (hlevel : level < 4) :
    s.load (pagePointer table + BitVec.ofNat 64 (8 * part addr (level + 1))) =
      s.mem (entryAddr (level + 1) table addr.toNat) :=
  congrArg s.mem (h.entry_addr hlevel)

/-- What holds one level below an entry that leads to a table. -/
theorem below (rw : Bool) (entry : Addr)
    (hpresent : present (s.mem (entryAddr (level + 1) table addr.toNat)) = true)
    (hlarge : ¬ (large (s.mem (entryAddr (level + 1) table addr.toNat)) = true ∧
      (level = 1 ∨ level = 2))) :
    Ready pool (s.store entry (markEntry rw (s.load entry))) level
      (frame (s.mem (entryAddr (level + 1) table addr.toNat))) addr.toNat := by
  have htables := walkTables_table rfl hpresent hlarge
  have hcongr := @walkTables_congr s.mem level
    (frame (s.mem (entryAddr (level + 1) table addr.toNat))) addr.toNat _
    (@sameLink_store rw s entry)
  refine ⟨fun t ht ↦ ?_, fun t ht ↦ ?_, fun k hk ↦ h.new_direct k (by omega),
    fun k hk ↦ h.new_aligned k (by omega), fun k hk hnull ht ↦ ?_,
    fun k hk k' hk' ↦ h.distinct k (by omega) k' (by omega)⟩
  · rw [hcongr] at ht
    exact h.direct t (htables ▸ List.mem_cons_of_mem _ ht)
  · rw [hcongr] at ht
    exact h.aligned t (htables ▸ List.mem_cons_of_mem _ ht)
  · rw [hcongr] at ht
    exact h.unused k (by omega) hnull (htables ▸ List.mem_cons_of_mem _ ht)

/-- A new page is zero. -/
theorem new_zero (hlevel : level < 4) (hnull : pool s.calls ≠ 0) (rw : Bool) {below : ℕ} :
    (linkPage pool rw s (pagePointer table + BitVec.ofNat 64 (8 * part addr (level + 1)))).mem
      (entryAddr below (newPage pool s.calls) addr.toNat) = 0 := by
  have hindex := index_lt below addr.toNat
  have hout := h.entry_out_first hnull
  refine linkPage_new ?_ (Nat.le_add_right _ _) ?_
  · rw [h.entry_addr hlevel, entryAddr]
    omega
  · rw [entryAddr]
    omega

/-- The entry leads to the new page, and is as large as it was. -/
theorem linked_entry (hlevel : level < 4) (hnull : pool s.calls ≠ 0) (rw : Bool) :
    let e := (linkPage pool rw s
      (pagePointer table + BitVec.ofNat 64 (8 * part addr (level + 1)))).mem
        (entryAddr (level + 1) table addr.toNat)
    present e = true ∧ large e = large (s.mem (entryAddr (level + 1) table addr.toNat)) ∧
      frame e = newPage pool s.calls := by
  have hout := h.entry_out_first hnull
  rw [← h.entry_addr hlevel] at hout
  have hentry := @linkPage_entry pool rw _ s hout
  rw [h.entry_addr hlevel, h.load_entry hlevel] at hentry
  dsimp only
  rw [hentry, present_markEntry, large_markEntry, frame_markEntry, present_linkEntry,
    large_linkEntry, @pool_eq pool s.calls]
  exact ⟨rfl, rfl, frame_linkEntry (h.new_direct 0 (Nat.succ_pos _) hnull)
    (h.new_aligned 0 (Nat.succ_pos _) hnull) _⟩

theorem missingPages_linked (hlevel : level < 4) (hnull : pool s.calls ≠ 0) (rw : Bool) :
    missingPages (linkPage pool rw s
      (pagePointer table + BitVec.ofNat 64 (8 * part addr (level + 1)))).mem level
        (newPage pool s.calls) addr.toNat = level := by
  cases level with
  | zero => rfl
  | succ below =>
    exact missingPages_not_present (h.new_zero hlevel hnull rw) rfl fun hlarge ↦
      absurd hlarge.1 (by decide)

/-- What holds one level below an entry that is linked to a new page. -/
theorem linked (hlevel : level < 4) (hnull : pool s.calls ≠ 0) (rw : Bool) :
    Ready pool (linkPage pool rw s
      (pagePointer table + BitVec.ofNat 64 (8 * part addr (level + 1))))
      level (newPage pool s.calls) addr.toNat := by
  have htables : ∀ t ∈ walkTables (linkPage pool rw s
      (pagePointer table + BitVec.ofNat 64 (8 * part addr (level + 1)))).mem level
      (newPage pool s.calls) addr.toNat, t = newPage pool s.calls := by
    intro t ht
    cases level with
    | zero => exact absurd ht List.not_mem_nil
    | succ below =>
      rw [walkTables_not_present (h.new_zero hlevel hnull rw) rfl] at ht
      exact List.mem_singleton.mp ht
  have hcalls : (linkPage pool rw s
    (pagePointer table + BitVec.ofNat 64 (8 * part addr (level + 1)))).calls = s.calls + 1 := rfl
  refine ⟨fun t ht ↦ ?_, fun t ht ↦ ?_, fun k hk ↦ ?_, fun k hk ↦ ?_, fun k hk hnull' ht ↦ ?_,
    fun k hk k' hk' hnull' heq ↦ ?_⟩
  · rw [htables t ht]
    exact h.new_direct 0 (Nat.succ_pos _) hnull
  · rw [htables t ht]
    exact h.new_aligned 0 (Nat.succ_pos _) hnull
  · rw [hcalls, calls_succ]
    exact h.new_direct (k + 1) (by omega)
  · rw [hcalls, calls_succ]
    exact h.new_aligned (k + 1) (by omega)
  · have heq := htables _ ht
    rw [hcalls, calls_succ] at hnull' heq
    exact absurd (h.distinct (k + 1) (by omega) 0 (by omega) hnull' heq) (by omega)
  · rw [hcalls, calls_succ] at hnull' heq
    rw [calls_succ] at heq
    have hsame := h.distinct (k + 1) (by omega) (k' + 1) (by omega) hnull' heq
    omega

end Entry

/-- **One page.** The page is mapped afterwards if and only if the allocator has the pages that its
walk lacks. -/
theorem missingPages_iff (h : Ready pool s level table addr.toNat) (hlevel : level ≤ 4) :
    missingPages (setupPage pool rw addr level (pagePointer table) s).mem level table
      addr.toNat = 0 ↔
      ∀ k < missingPages s.mem level table addr.toNat, pool (s.calls + k) ≠ 0 := by
  induction level generalizing s table with
  | zero => exact iff_of_true rfl fun k hk ↦ absurd hk (Nat.not_lt_zero k)
  | succ level ih =>
    have hne := h.entry_ne_zero hlevel
    have hload := h.load_entry hlevel
    have hstays : Stays (s.mem (entryAddr (level + 1) table addr.toNat))
        ((setupPage pool rw addr (level + 1) (pagePointer table) s).mem
          (entryAddr (level + 1) table addr.toNat)) :=
      setupPage_stays fun k hk hnull ↦ h.entry_out hk hnull
    cases hpresent : present (s.mem (entryAddr (level + 1) table addr.toNat)) with
    | true =>
      obtain ⟨hpresent', hlarge', hframe'⟩ := hstays hpresent
      by_cases hlarge : large (s.mem (entryAddr (level + 1) table addr.toNat)) = true ∧
          (level = 1 ∨ level = 2)
      · rw [missingPages_large rfl hlarge, if_pos hpresent,
          missingPages_large rfl ⟨hlarge'.trans hlarge.1, hlarge.2⟩, if_pos hpresent']
        exact iff_of_true rfl fun k hk ↦ absurd hk (Nat.not_lt_zero k)
      · rw [missingPages_table rfl hpresent hlarge,
          missingPages_table rfl hpresent' (by rwa [hlarge']), hframe',
          setupPage_present rfl hne (by rwa [hload]), hload, pointer_eq]
        cases level with
        | zero => exact iff_of_true rfl fun k hk ↦ absurd hk (Nat.not_lt_zero k)
        | succ level =>
          have hready := h.below rw
            (pagePointer table + BitVec.ofNat 64 (8 * part addr (level + 1 + 1))) hpresent hlarge
          have hnull := hready.table_direct.pagePointer_ne_zero hready.table_aligned
          have hcongr := @missingPages_congr s.mem (level + 1)
            (frame (s.mem (entryAddr (level + 1 + 1) table addr.toNat))) addr.toNat _
            (@sameLink_store rw s
              (pagePointer table + BitVec.ofNat 64 (8 * part addr (level + 1 + 1))))
          rw [hload] at hready hcongr
          rw [if_neg hnull, ih hready (by omega), hcongr]
          rfl
    | false =>
      by_cases hnull : pool s.calls = 0
      · have hpos := missingPages_pos rfl hpresent
        rw [setupPage_absent rfl hne (by rwa [hload]), if_pos hnull]
        exact iff_of_false hpos.ne' fun hall ↦ hall 0 hpos hnull
      · have hiff := ih (h.linked hlevel hnull rw) (by omega)
        obtain ⟨hpresent', hlarge', hframe'⟩ := h.linked_entry hlevel hnull rw
        have hcalls : (linkPage pool rw s
          (pagePointer table + BitVec.ofNat 64 (8 * part addr (level + 1)))).calls =
            s.calls + 1 := rfl
        have hstays' : Stays _ ((setupPage pool rw addr level (pool s.calls) (linkPage pool rw s
            (pagePointer table + BitVec.ofNat 64 (8 * part addr (level + 1))))).mem
              (entryAddr (level + 1) table addr.toNat)) :=
          setupPage_stays fun k hk hnull' ↦ by
            rw [hcalls, calls_succ] at hnull' ⊢
            exact h.entry_out (Nat.succ_lt_succ hk) hnull'
        obtain ⟨hpresent'', hlarge'', hframe''⟩ := hstays' hpresent'
        rw [h.missingPages_linked hlevel hnull rw, ← pool_eq] at hiff
        rw [setupPage_absent rfl hne (by rwa [hload]), if_neg hnull]
        by_cases hlarge : large (s.mem (entryAddr (level + 1) table addr.toNat)) = true ∧
            (level = 1 ∨ level = 2)
        · rw [missingPages_large rfl hlarge, if_neg (Bool.eq_false_iff.mp hpresent),
            missingPages_large rfl ⟨(hlarge''.trans hlarge').trans hlarge.1, hlarge.2⟩,
            if_pos hpresent'']
          refine iff_of_true rfl fun k hk ↦ ?_
          obtain rfl := Nat.lt_one_iff.mp hk
          exact hnull
        · rw [missingPages_not_present rfl hpresent hlarge,
            missingPages_table rfl hpresent'' (by rwa [hlarge'', hlarge']), hframe'', hframe', hiff,
            pool_ne_zero_succ_iff]
          exact (and_iff_right hnull).symm

end Ready

/-! ## The fault -/

theorem walkTables_aligned {mem : Mem} {level table v : ℕ} (htable : table % 4096 = 0) :
    ∀ t ∈ walkTables mem level table v, t % 4096 = 0 := by
  induction level generalizing table with
  | zero => exact fun t ht ↦ absurd ht List.not_mem_nil
  | succ level ih =>
    intro t ht
    rw [walkTables] at ht
    rcases List.mem_cons.mp ht with rfl | ht
    · exact htable
    · split_ifs at ht
      · exact ih (frame_mod _) t ht
      · exact absurd ht List.not_mem_nil

section Fault

variable {M : Memory} {L : List Block} {fuel : ℕ} {cr3 brk cr2 : Addr}
    {error : BitVec 64} {mem : Mem}

/-- The free list hands out pages that are none of the tables. -/
theorem ready_allocPool (hpool : Pool M L) (hpages : ∀ b ∈ L, b.addr % 4096 = 0)
    (hfuel : L.length < fuel) (junk : ℕ → ℕ → MemList) {root v : ℕ} (hroot : root % 4096 = 0)
    (htables : ∀ t ∈ walkTables mem 4 root v, InDirectMap t ∧ (pagePointer t).toNat ∉ cover L) :
    Ready (fun call ↦ allocPool fuel junk call M) ⟨mem, 0⟩ 4 root v := by
  have hoffset : pageOffset.toNat = 0xffff806000000000 := rfl
  -- the page of a call, as the allocator and as the page tables number it
  have hpage : ∀ call, allocPool fuel junk call M ≠ 0 → ∃ p, (freePages L)[call]? = some p ∧
      (allocPool fuel junk call M).toNat = p ∧ p ∈ freePages L ∧
      newPage (fun call ↦ allocPool fuel junk call M) call = p - pageOffset.toNat := by
    intro call hne
    obtain ⟨p, hp, hnat⟩ := exists_page_of_allocPool hpool hfuel junk hne
    have hmem := List.mem_of_getElem? hp
    obtain ⟨hge, -⟩ := hpool.page_bounds hmem
    refine ⟨p, hp, hnat, hmem, ?_⟩
    rw [newPage, BitVec.toNat_sub_of_le, hnat]
    rwa [BitVec.le_def, hnat]
  refine ⟨fun t ht ↦ (htables t ht).1, walkTables_aligned hroot, fun k _ hne ↦ ?_, fun k _ hne ↦ ?_,
    fun k _ hne ht ↦ ?_, fun k _ k' _ hne heq ↦ ?_⟩
  · obtain ⟨p, -, -, hmem, hnew⟩ := hpage _ hne
    have hbounds := hpool.page_bounds hmem
    rw [hnew, InDirectMap]
    omega
  · obtain ⟨p, -, -, hmem, hnew⟩ := hpage _ hne
    obtain ⟨b, hb, hp⟩ := List.mem_flatMap.mp hmem
    obtain ⟨i, -, rfl⟩ := Block.mem_pageList.mp hp
    have haligned := hpages b hb
    have hdirect := hpool.direct b hb
    rw [hnew]
    omega
  · obtain ⟨p, -, hnat, hmem, -⟩ := hpage _ hne
    refine (htables _ ht).2 ?_
    rw [← @pool_eq (fun call ↦ allocPool fuel junk call M), hnat]
    exact mem_cover_of_freePages hmem
  · have hsame : allocPool fuel junk (0 + k) M = allocPool fuel junk (0 + k') M := by
      have heq := congrArg pagePointer heq
      rwa [← @pool_eq (fun call ↦ allocPool fuel junk call M),
        ← @pool_eq (fun call ↦ allocPool fuel junk call M)] at heq
    obtain ⟨p, hp, hnat, -⟩ := hpage _ hne
    obtain ⟨p', hp', hnat', -⟩ := hpage (0 + k') (hsame ▸ hne)
    obtain rfl : p = p' := by rw [← hnat, ← hnat', hsame]
    obtain ⟨hlt, -⟩ := List.getElem?_eq_some_iff.mp hp
    have hindex : 0 + k = 0 + k' :=
      (List.getElem?_inj hlt hpool.nodup_freePages).mp (hp.trans hp'.symm)
    omega

/-- What the handler has done when it returns. -/
theorem doPageFault_eq (herror : error &&& 0x01 = 0) (pool : ℕ → Addr) (s : PagingState) :
    doPageFault pool cr3 brk cr2 error s =
      some (if brk ≤ cr2 ∧ cr2 ≤ 0x7fffffffe000 then setupPage pool true cr2 4 (p2v cr3) s
        else s) := by
  rw [doPageFault, if_neg (not_not.mpr herror), setupPageMaps_one]
  split_ifs
  · rfl
  · rfl

/-- In the range the page is mapped if and only if there are enough free pages. -/
theorem isSome_walk_setupPage (hpool : Pool M L) (hpages : ∀ b ∈ L, b.addr % 4096 = 0)
    (hfuel : L.length < fuel) (junk : ℕ → ℕ → MemList) (hcr3 : cr3.toNat % 4096 = 0)
    (htables : ∀ t ∈ walkTables mem 4 cr3.toNat cr2.toNat,
      InDirectMap t ∧ (pagePointer t).toNat ∉ cover L) :
    (walk (setupPage (fun call ↦ allocPool fuel junk call M) true cr2 4 (p2v cr3) ⟨mem, 0⟩).mem 4
      cr3.toNat cr2.toNat).isSome = true ↔
        missingPages mem 4 cr3.toNat cr2.toNat ≤ (L.map Block.pages).sum := by
  rw [isSome_walk_iff, p2v_eq_pagePointer,
    (ready_allocPool hpool hpages hfuel junk hcr3 htables).missingPages_iff le_rfl]
  constructor
  · intro hall
    by_contra hlt
    have hne := hall _ (not_le.mp hlt)
    rw [Nat.zero_add] at hne
    exact hne ((allocPool_eq_zero_iff hpool hfuel junk).mpr le_rfl)
  · intro hle k hk hnull
    rw [Nat.zero_add] at hnull
    exact hk.not_ge (hle.trans ((allocPool_eq_zero_iff hpool hfuel junk).mp hnull))

/-- **A page fault that is handled.** The handler returns from a fault on a page that is not
present, and then the address is mapped if and only if it was mapped before, or lies between `brk`
and the stack and there are as many free pages as its walk lacks. -/
theorem page_fault_mapped_iff (hpool : Pool M L) (hpages : ∀ b ∈ L, b.addr % 4096 = 0)
    (hfuel : L.length < fuel) (junk : ℕ → ℕ → MemList) (hcr3 : cr3.toNat % 4096 = 0)
    (htables : ∀ t ∈ walkTables mem 4 cr3.toNat cr2.toNat,
      InDirectMap t ∧ (pagePointer t).toNat ∉ cover L) (herror : error &&& 0x01 = 0) :
    ∃ s', doPageFault (fun call ↦ allocPool fuel junk call M) cr3 brk cr2 error ⟨mem, 0⟩ = some s' ∧
      ((walk s'.mem 4 cr3.toNat cr2.toNat).isSome = true ↔
        (walk mem 4 cr3.toNat cr2.toNat).isSome = true ∨ (brk ≤ cr2 ∧ cr2 ≤ 0x7fffffffe000) ∧
          missingPages mem 4 cr3.toNat cr2.toNat ≤ (L.map Block.pages).sum) := by
  refine ⟨_, doPageFault_eq herror _ _, ?_⟩
  split_ifs with hrange
  · rw [isSome_walk_setupPage hpool hpages hfuel junk hcr3 htables, isSome_walk_iff]
    constructor
    · exact fun hle ↦ .inr ⟨hrange, hle⟩
    · rintro (hzero | ⟨-, hle⟩)
      · exact hzero ▸ Nat.zero_le _
      · exact hle
  · constructor
    · exact .inl
    · rintro (hmapped | ⟨hin, -⟩)
      · exact hmapped
      · exact absurd hin hrange

theorem missingPages_emptyTable (root v : ℕ) : missingPages emptyTable.mem 4 root v = 4 :=
  missingPages_not_present (e := 0) rfl rfl fun hlarge ↦ absurd hlarge.1 (by decide)

theorem walkTables_emptyTable {root v t : ℕ} (h : t ∈ walkTables emptyTable.mem 4 root v) :
    t = root := by
  rw [walkTables_not_present (e := 0) rfl rfl] at h
  exact List.mem_singleton.mp h

theorem inDirectMap_root : InDirectMap 0x1000 := by
  rw [InDirectMap, show pageOffset.toNat = 0xffff806000000000 from rfl]
  decide

/-- Four free pages are enough for a fault in an empty table. -/
theorem page_fault_mapped_iff_four : ∃ s', doPageFault
    (fun call ↦ allocPool 2 (fun _ _ ↦ ⟨0, 0⟩) call
      (oneNode ⟨0xffff806000100000, 4⟩)) 0x1000 0x300000
    0x400000 0x4 emptyTable = some s' ∧ (walk s'.mem 4 0x1000 0x400000).isSome = true := by
  have htables : ∀ t ∈ walkTables emptyTable.mem 4 0x1000 0x400000,
      InDirectMap t ∧ (pagePointer t).toNat ∉ cover [⟨0xffff806000100000, 4⟩] := by
    intro t ht
    obtain rfl := walkTables_emptyTable ht
    refine ⟨inDirectMap_root, fun hcover ↦ ?_⟩
    obtain ⟨b, hb, hge, -⟩ := mem_cover.mp hcover
    rw [List.mem_singleton.mp hb,
      show (pagePointer 0x1000).toNat = 0xffff806000001000 from rfl] at hge
    exact absurd hge (by decide)
  obtain ⟨s', hs', hiff⟩ := @page_fault_mapped_iff _ [⟨0xffff806000100000, 4⟩] 2 0x1000 0x300000
    0x400000 0x4 emptyTable.mem (pool_oneNode ⟨by decide, by decide, by decide⟩ (by decide))
    (List.forall_mem_singleton.mpr rfl) (by decide) (fun _ _ ↦ ⟨0, 0⟩) rfl htables rfl
  refine ⟨s', hs', hiff.mpr (.inr ⟨by decide, ?_⟩)⟩
  have hmissing := missingPages_emptyTable (0x1000 : Addr).toNat (0x400000 : Addr).toNat
  exact hmissing.le

/-- Without free memory the handler returns, and the address is not mapped. -/
theorem not_page_fault_mapped :
    ¬ ∀ (M : Memory) (L : List Block) (fuel : ℕ) (junk : ℕ → ℕ → MemList)
    (cr3 brk cr2 : Addr) (error : BitVec 64) (mem : Mem) (s' : PagingState), Pool M L →
    (∀ b ∈ L, b.addr % 4096 = 0) → L.length < fuel → cr3.toNat % 4096 = 0 →
    (∀ t ∈ walkTables mem 4 cr3.toNat cr2.toNat, InDirectMap t ∧ (pagePointer t).toNat ∉ cover L) →
    error &&& 0x01 = 0 →
    doPageFault (fun call ↦ allocPool fuel junk call M) cr3 brk cr2 error ⟨mem, 0⟩ = some s' →
    (walk s'.mem 4 cr3.toNat cr2.toNat).isSome = true := by
  intro hall
  have hpool : Pool ⟨⟨0, 0⟩, fun _ ↦ ⟨0, 0⟩⟩ [] := by
    refine ⟨⟨rfl, ?_⟩, List.Pairwise.nil, ?_, ?_⟩
    all_goals exact fun b hb ↦ absurd hb List.not_mem_nil
  have hpages : ∀ b ∈ ([] : List Block), b.addr % 4096 = 0 := fun b hb ↦ absurd hb List.not_mem_nil
  have htables : ∀ t ∈ walkTables emptyTable.mem 4 (0x1000 : Addr).toNat (0x400000 : Addr).toNat,
      InDirectMap t ∧ (pagePointer t).toNat ∉ cover [] := by
    intro t ht
    obtain rfl := walkTables_emptyTable ht
    refine ⟨inDirectMap_root, fun hcover ↦ ?_⟩
    obtain ⟨b, hb, -⟩ := mem_cover.mp hcover
    exact absurd hb List.not_mem_nil
  have hmapped := hall _ [] 1 (fun _ _ ↦ ⟨0, 0⟩) 0x1000 0x300000 0x400000 0x4 emptyTable.mem _ hpool
    hpages Nat.one_pos rfl htables rfl (doPageFault_eq rfl _ _)
  rw [if_pos (by decide), isSome_walk_setupPage hpool hpages Nat.one_pos _ rfl htables,
    missingPages_emptyTable] at hmapped
  exact absurd hmapped (by decide)

end Fault

end VimOS
