import VimOS.Paging.TreeUpdate

/-!
# The runs of `setupPageMap`

A call on a table of a level handles the pages it counts (`mappedPages`) one after another, and
touches the entries on the way to each. One thing stops it before: a page that is mapped to the
physical page whose pointer is `NULL` is taken for a failure of `alloc_mem`, so that its own entry
and all that follows is left alone (`EntryHandled`).

The loop invariant is that the entries of the pages handled so far are touched and that `Sound`
holds (`Maps`). An entry of the loop is its own entry and the pages below it; the induction is on
the levels and, for each, on the entries of its table.
-/

namespace VimOS

open PageWalk

variable {pool : ℕ → Addr} {rw : Bool} {root : ℕ}

/-! ## The pages that are handled -/

/-- The page is mapped to the physical page whose pointer is `NULL`. -/
def NullPage (mem : Mem) (root q : ℕ) : Prop :=
  present (treeEntry mem root 4 q) = true ∧ pointer (treeEntry mem root 4 q) = 0

/-- The entries from depth `D` on that are touched for the pages from `lo` on, before `hi`. -/
def EntryHandled (null : ℕ → Prop) (D lo hi d p : ℕ) : Prop :=
  D ≤ d ∧ d ≤ 4 ∧ ∃ q, lo ≤ q ∧ q < hi ∧ (∀ q', lo ≤ q' → q' < q → ¬ null q') ∧
    (d = 4 → ¬ null q) ∧ q / 512 ^ (4 - d) = p

variable {null null' : ℕ → Prop} {D lo mid hi d p : ℕ}

/-- The pages up to a page and the pages behind it, where no page stops the run. -/
theorem entryHandled_append (hlo : lo ≤ mid) (hmid : mid ≤ hi)
    (hclear : ∀ q, lo ≤ q → q < mid → ¬ null q) :
    EntryHandled null D lo hi d p ↔ EntryHandled null D lo mid d p ∨
      EntryHandled null D mid hi d p := by
  constructor
  · rintro ⟨hD, hd, q, hge, hlt, hbefore, hleaf, hq⟩
    rcases Nat.lt_or_ge q mid with hfirst | hsecond
    · exact .inl ⟨hD, hd, q, hge, hfirst, hbefore, hleaf, hq⟩
    · exact .inr ⟨hD, hd, q, hsecond, hlt, fun q' hq' ↦ hbefore q' (hlo.trans hq'), hleaf, hq⟩
  · rintro (⟨hD, hd, q, hge, hlt, hbefore, hleaf, hq⟩ | ⟨hD, hd, q, hge, hlt, hbefore, hleaf, hq⟩)
    · exact ⟨hD, hd, q, hge, hlt.trans_le hmid, hbefore, hleaf, hq⟩
    · refine ⟨hD, hd, q, hlo.trans hge, hlt, fun q' hge' hlt' ↦ ?_, hleaf, hq⟩
      rcases Nat.lt_or_ge q' mid with hfirst | hsecond
      · exact hclear q' hge' hfirst
      · exact hbefore q' hsecond hlt'

/-- Behind a page that stops the run, no page is handled. -/
theorem entryHandled_stop {stop : ℕ} (hlo : lo ≤ stop) (hstop : null stop) (hmid : stop < mid)
    (hhi : mid ≤ hi) : EntryHandled null D lo hi d p ↔ EntryHandled null D lo mid d p := by
  constructor
  · rintro ⟨hD, hd, q, hge, hlt, hbefore, hleaf, hq⟩
    have hle : q ≤ stop := by
      by_contra hgt
      exact hbefore stop hlo (by omega) hstop
    exact ⟨hD, hd, q, hge, hle.trans_lt hmid, hbefore, hleaf, hq⟩
  · rintro ⟨hD, hd, q, hge, hlt, hbefore, hleaf, hq⟩
    exact ⟨hD, hd, q, hge, hlt.trans_le hhi, hbefore, hleaf, hq⟩

/-- The pages of one entry: the entry, and what is below it. -/
theorem entryHandled_entry {level : ℕ} (hD : D + level = 4) (hpos : 1 ≤ level) (hlt : lo < hi)
    (hsame : ∀ q, lo ≤ q → q < hi → q / 512 ^ level = lo / 512 ^ level) :
    EntryHandled null D lo hi d p ↔
      (d = D ∧ p = lo / 512 ^ level) ∨ EntryHandled null (D + 1) lo hi d p := by
  obtain rfl : level = 4 - D := by omega
  constructor
  · rintro ⟨hge, hd, q, hlo, hhi, hbefore, hleaf, hq⟩
    rcases hge.eq_or_lt with rfl | hgt
    · exact .inl ⟨rfl, hq ▸ hsame q hlo hhi⟩
    · exact .inr ⟨hgt, hd, q, hlo, hhi, hbefore, hleaf, hq⟩
  · rintro (⟨rfl, rfl⟩ | ⟨hgt, hd, q, hlo, hhi, hbefore, hleaf, hq⟩)
    · refine ⟨le_rfl, by omega, lo, le_rfl, hlt, fun q' hge hlt ↦ ?_, fun hd ↦ ?_, rfl⟩
      · omega
      · omega
    · exact ⟨by omega, hd, q, hlo, hhi, hbefore, hleaf, hq⟩

/-- An entry of the lowest level is handled unless it is the one that stops the run. -/
theorem entryHandled_leaf : EntryHandled null 4 lo (lo + 1) d p ↔ d = 4 ∧ p = lo ∧ ¬ null lo := by
  constructor
  · rintro ⟨hge, hd, q, hlo, hhi, -, hleaf, hq⟩
    obtain rfl : q = lo := by omega
    obtain rfl : d = 4 := by omega
    rw [Nat.sub_self, pow_zero, Nat.div_one] at hq
    exact ⟨rfl, hq.symm, hleaf rfl⟩
  · rintro ⟨rfl, rfl, hnull⟩
    refine ⟨le_rfl, le_rfl, p, le_rfl, Nat.lt_succ_self p, fun q' hge hlt ↦ ?_, fun _ ↦ hnull, ?_⟩
    · omega
    · rw [Nat.sub_self, pow_zero, Nat.div_one]

theorem entryHandled_congr (h : ∀ q, lo ≤ q → q < hi → (null q ↔ null' q)) :
    EntryHandled null D lo hi d p ↔ EntryHandled null' D lo hi d p := by
  have hone : ∀ {null null' : ℕ → Prop}, (∀ q, lo ≤ q → q < hi → (null q ↔ null' q)) →
      EntryHandled null D lo hi d p → EntryHandled null' D lo hi d p := by
    rintro null null' h ⟨hD, hd, q, hlo, hhi, hbefore, hleaf, hq⟩
    refine ⟨hD, hd, q, hlo, hhi, fun q' hge hlt ↦ ?_, fun hd ↦ ?_, hq⟩
    · rw [← h q' hge (hlt.trans hhi)]
      exact hbefore q' hge hlt
    · rw [← h q hlo hhi]
      exact hleaf hd
  exact ⟨hone h, hone fun q hlo hhi ↦ (h q hlo hhi).symm⟩

theorem not_entryHandled_empty : ¬ EntryHandled null D lo lo d p := by
  rintro ⟨-, -, q, hge, hlt, -⟩
  omega

/-- The page lies in the lower half, and so does every entry on the way to it. -/
theorem inLower_page (level : ℕ) {q : ℕ} (hlevel : level ≤ 4) (hq : q < 2 ^ 35) :
    InLower (4 - level) (q / 512 ^ level) := by
  induction level with
  | zero =>
    rw [InLower, pow_zero, Nat.div_one]
    omega
  | succ level ih =>
    have h := ih (by omega)
    rw [show 4 - level = 4 - (level + 1) + 1 by omega] at h
    rw [pow_succ, ← Nat.div_div_eq_div_mul]
    exact h.parent

/-! ## One entry of the loop -/

section Entry

variable {s₀ s : PagingState} {K depth table : ℕ}

/-- The page for an entry that is not present is counted, whether there is one or not. -/
theorem setNewPageMapIfNotPresent_calls_eq {a : Addr} (ha : a ≠ 0) :
    (setNewPageMapIfNotPresent pool s a).1.calls = (cleared pool s (s.load a)).calls := by
  have hnew : (newPageMap pool s).1.calls = s.calls + 1 := by
    rw [newPageMap]
    split_ifs
    · rfl
    · rfl
  rw [setNewPageMapIfNotPresent, if_neg ha, cleared]
  split_ifs with hpresent
  · rfl
  · dsimp only
    split_ifs
    · exact hnew
    · exact hnew

theorem InDirectMap.pagePointer_ne_zero {page : ℕ} (h : InDirectMap page)
    (hpage : page % 4096 = 0) :
    pagePointer page ≠ 0 := by
  have hne := VimOS.pagePointer_ne_zero h hpage (k := 0) (by decide)
  rwa [BitVec.add_zero] at hne

/-- The body of the loop touches the entry. -/
theorem AtEntry.setNewPageMapIfNotPresent_eq (rw : Bool)
    (h : AtEntry pool root s₀ K s depth p table) :
    let a := pagePointer table + BitVec.ofNat 64 (8 * (p % 512))
    let r := setNewPageMapIfNotPresent pool s a
    let s₁ := r.1.store a (setField 1 1 (r.1.load a) rw.toNat)
    r.2 = pagePointer (frame (touchedEntry rw (treeEntry s.mem root (depth + 1) p)
      (pool s.calls))) ∧
      s₁.store a (setField 2 1 (s₁.load a) 1) = touch pool rw root s (depth + 1) p table := by
  have hindex : p % 512 < 512 := Nat.mod_lt _ (by decide)
  have ha := VimOS.pagePointer_ne_zero h.table_direct (pageAt_aligned h.sound.tree.aligned h.page)
    (k := 8 * (p % 512)) (by omega)
  have hload := h.entry_eq
  obtain ⟨hpage, hstate⟩ := @VimOS.setNewPageMapIfNotPresent_eq pool rw s _ ha
    (fun hpresent ↦ by
      rw [hload] at hpresent
      rw [@pool_eq pool s.calls]
      exact (h.pages.direct h.sound.calls_le (h.calls_lt hpresent)).pagePointer_ne_zero
        (h.pages.aligned h.sound.calls_le (h.calls_lt hpresent)))
    (by
      rw [hload, load_entry h.table_direct hindex, ← hload, load_entry h.table_direct hindex]
      refine cleared_apply fun hpresent ↦ ?_
      rw [← load_entry h.table_direct hindex, hload] at hpresent
      have hapart := h.ne_newPage hpresent h.depth_lt h.lower.parent h.page
      omega)
  dsimp only at hpage hstate ⊢
  refine ⟨?_, ?_⟩
  · rw [hpage, hload]
    split_ifs with hpresent
    · rw [pointer_eq, frame_touchedEntry_of_present _ hpresent]
    · have hpresent := Bool.eq_false_iff.mpr hpresent
      rw [frame_touchedEntry_new hpresent (h.pages.direct h.sound.calls_le (h.calls_lt hpresent))
        (h.pages.aligned h.sound.calls_le (h.calls_lt hpresent)), ← pool_eq]
  · rw [hstate, hload, store_entry h.table_direct hindex, touch]

/-- One of the pages stops the run. -/
def MeetsNull (mem : Mem) (root lo hi : ℕ) : Prop := ∃ q, lo ≤ q ∧ q < hi ∧ NullPage mem root q

/-- From a state to a state in which the entries on the way to a number of pages have been touched,
as far as no page stops the run. `ret` is `stopped` or `passed`. -/
structure Maps {α : Type*} (pool : ℕ → Addr) (rw : Bool) (root : ℕ) (s₀ : PagingState) (level : ℕ)
    (s : PagingState) (page count : ℕ) (s' : PagingState) (ret stopped passed : α) : Prop where
  sound : Sound pool root s₀ s'
  touches : Touches pool rw root
    (EntryHandled (NullPage s.mem root) (5 - level) page (page + count)) s s'
  stopped : MeetsNull s.mem root page (page + count) → ret = stopped
  passed : ¬ MeetsNull s.mem root page (page + count) → ret = passed

/-- `setupPageMap` on a level maps the pages that it counts. -/
def MapsPages (pool : ℕ → Addr) (rw : Bool) (root : ℕ) (s₀ : PagingState) (K level : ℕ)
    (child : Addr → PagingState → Addr → BitVec 32 → Option PageMapReturn) : Prop :=
  ∀ pageMap s addr numPages, ∃ r, child pageMap s addr numPages = some r ∧
    Counted level s addr numPages r ∧
    ∀ table, pageMap = pagePointer table → r.1.calls ≤ K → Sound pool root s₀ s →
      treePage s.mem root (4 - level) (pageNo addr / 512 ^ level) = some table →
      pageNo addr + mappedPages level (pageNo addr) numPages.toNat ≤ 2 ^ 35 →
      Maps pool rw root s₀ level s (pageNo addr) (mappedPages level (pageNo addr) numPages.toNat)
        r.1 r.2.2 (-1) (returned level (pageNo addr) numPages)

/-- A page is mapped to `NULL` as before, unless its own entry is touched. -/
theorem AtEntry.nullPage_touch (h : AtEntry pool root s₀ K s depth p table) (hdepth : depth + 1 ≠ 4)
    {q : ℕ} (hq : q < 2 ^ 35) :
    NullPage (touch pool rw root s (depth + 1) p table).mem root q ↔ NullPage s.mem root q := by
  have hlow := inLower_page 0 (by decide) hq
  rw [pow_zero, Nat.div_one] at hlow
  rw [NullPage, NullPage, h.entry_touch le_rfl hlow, if_neg (by omega)]

variable {child : Addr → PagingState → Addr → BitVec 32 → Option PageMapReturn} {addr : Addr}
  {numPages : BitVec 32}

/-- The entry of an address, in the table of a level. -/
theorem atEntry (level : ℕ) {addr : Addr} (hlevel : level < 4) (hdepth : depth + level = 3)
    (hs : Sound pool root s₀ s) (hpages : NewPages pool s₀.mem root s₀.calls K)
    (ht : treePage s.mem root (4 - (level + 1)) (pageNo addr / 512 ^ (level + 1)) = some table)
    (hlow : pageNo addr < 2 ^ 35)
    (hK : (setNewPageMapIfNotPresent pool s
      (pagePointer table + BitVec.ofNat 64 (8 * part addr (level + 1)))).1.calls ≤ K) :
    AtEntry pool root s₀ K s depth (pageNo addr / 512 ^ level) table where
  sound := hs
  pages := hpages
  depth_lt := by omega
  lower := by
    have h := inLower_page level (by omega) hlow
    rwa [show 4 - level = depth + 1 by omega] at h
  page := by
    rwa [Nat.div_div_eq_div_mul, ← pow_succ, show depth = 4 - (level + 1) by omega]
  calls_le := by
    have hindex : pageNo addr / 512 ^ level % 512 < 512 := Nat.mod_lt _ (by decide)
    have hlower := inLower_page (level + 1) (by omega) hlow
    have hdirect := hs.direct (by omega) hlower ht
    have hentry : treeEntry s.mem root (depth + 1) (pageNo addr / 512 ^ level) =
        s.mem (table + 8 * (pageNo addr / 512 ^ level % 512)) := by
      refine entryAt_of_table ?_
      rwa [Nat.div_div_eq_div_mul, ← pow_succ, show depth = 4 - (level + 1) by omega]
    rw [part_eq addr hlevel, setNewPageMapIfNotPresent_calls_eq, load_entry hdirect hindex,
      ← hentry] at hK
    · exact hK
    · exact VimOS.pagePointer_ne_zero hdirect (pageAt_aligned hs.tree.aligned ht) (by omega)

theorem setupEntry_calls (level : ℕ) {pageMap : Addr} {r : PagingState × Addr × Option (BitVec 32)}
    (hchild : 1 ≤ level → ∀ pageMap s addr numPages r, child pageMap s addr numPages = some r →
      s.calls ≤ r.1.calls)
    (h : setupEntry pool rw (level + 1) child pageMap s addr numPages = some r) :
    (setNewPageMapIfNotPresent pool s
      (pageMap + BitVec.ofNat 64 (8 * part addr (level + 1)))).1.calls ≤ r.1.calls := by
  rw [setupEntry] at h
  dsimp only at h
  split_ifs at h with hnull hlevel
  · rw [← Option.some.inj h]
  · rw [← Option.some.inj h]
    exact le_rfl
  · obtain ⟨c, hc, rfl⟩ := Option.map_eq_some_iff.mp h
    have hle := hchild (by omega) _ _ _ _ _ hc
    exact hle

/-- The body of the loop: the entry is touched, and then the pages below it are mapped. -/
theorem AtEntry.setupEntry_eq (rw : Bool) {level : ℕ} {addr : Addr}
    (child : Addr → PagingState → Addr → BitVec 32 → Option PageMapReturn) (numPages : BitVec 32)
    (hlevel : level < 4)
    (h : AtEntry pool root s₀ K s depth (pageNo addr / 512 ^ level) table) :
    let entry := pagePointer table + BitVec.ofNat 64 (8 * part addr (level + 1))
    let s' := touch pool rw root s (depth + 1) (pageNo addr / 512 ^ level) table
    let childMap := pagePointer (frame (touchedEntry rw
      (treeEntry s.mem root (depth + 1) (pageNo addr / 512 ^ level)) (pool s.calls)))
    setupEntry pool rw (level + 1) child (pagePointer table) s addr numPages =
      if childMap = 0 then some ((VimOS.setNewPageMapIfNotPresent pool s entry).1, addr, none)
      else if level = 0 then some (s', addr, some (numPages - 1))
      else (child childMap s' addr numPages).map fun c ↦
        (c.1, c.2.1, if c.2.2 = -1 then none else some c.2.2) := by
  obtain ⟨hpage, hstate⟩ := h.setNewPageMapIfNotPresent_eq rw
  rw [← part_eq addr hlevel] at hpage hstate
  dsimp only at hpage hstate ⊢
  rw [setupEntry]
  simp only [hpage, hstate, Nat.add_eq_right]

/-- The page of an entry has the pointer `NULL` only if it was there before. -/
theorem AtEntry.childMap_eq_zero_iff (rw : Bool) (h : AtEntry pool root s₀ K s depth p table) :
    pagePointer (frame (touchedEntry rw (treeEntry s.mem root (depth + 1) p) (pool s.calls))) = 0 ↔
      present (treeEntry s.mem root (depth + 1) p) = true ∧
        pointer (treeEntry s.mem root (depth + 1) p) = 0 := by
  cases hpresent : present (treeEntry s.mem root (depth + 1) p) with
  | true =>
    rw [frame_touchedEntry_of_present _ hpresent, pointer_eq]
    exact ⟨fun h ↦ ⟨rfl, h⟩, fun h ↦ h.2⟩
  | false =>
    have hdirect := h.pages.direct h.sound.calls_le (h.calls_lt hpresent)
    have haligned := h.pages.aligned h.sound.calls_le (h.calls_lt hpresent)
    rw [frame_touchedEntry_new hpresent hdirect haligned]
    exact iff_of_false (hdirect.pagePointer_ne_zero haligned) fun h ↦ absurd h.1 (by decide)

/-- A present entry is found without a change. -/
theorem AtEntry.setNewPageMapIfNotPresent_of_present (h : AtEntry pool root s₀ K s depth p table)
    (hpresent : present (treeEntry s.mem root (depth + 1) p) = true) :
    (VimOS.setNewPageMapIfNotPresent pool s
      (pagePointer table + BitVec.ofNat 64 (8 * (p % 512)))).1 = s := by
  have hindex : p % 512 < 512 := Nat.mod_lt _ (by decide)
  have ha := VimOS.pagePointer_ne_zero h.table_direct (pageAt_aligned h.sound.tree.aligned h.page)
    (k := 8 * (p % 512)) (by omega)
  rw [VimOS.setNewPageMapIfNotPresent, if_neg ha, h.entry_eq, if_pos hpresent]

theorem meetsNull_one {mem : Mem} {page : ℕ} :
    MeetsNull mem root page (page + 1) ↔ NullPage mem root page := by
  constructor
  · rintro ⟨q, hge, hlt, hq⟩
    obtain rfl : q = page := by omega
    exact hq
  · intro hpage
    exact ⟨page, le_rfl, Nat.lt_succ_self page, hpage⟩

theorem meetsNull_congr {mem mem' : Mem}
    (h : ∀ q, lo ≤ q → q < hi → (NullPage mem root q ↔ NullPage mem' root q)) :
    MeetsNull mem root lo hi ↔ MeetsNull mem' root lo hi := by
  constructor
  · rintro ⟨q, hge, hlt, hq⟩
    exact ⟨q, hge, hlt, (h q hge hlt).mp hq⟩
  · rintro ⟨q, hge, hlt, hq⟩
    exact ⟨q, hge, hlt, (h q hge hlt).mpr hq⟩

/-- The body of the loop on the lowest level. -/
theorem setupEntry_leaf {r : PagingState × Addr × Option (BitVec 32)}
    (h : setupEntry pool rw 1 child (pagePointer table) s addr numPages = some r)
    (hK : r.1.calls ≤ K) (hs : Sound pool root s₀ s)
    (hpages : NewPages pool s₀.mem root s₀.calls K)
    (ht : treePage s.mem root 3 (pageNo addr / 512) = some table) (hlow : pageNo addr < 2 ^ 35) :
    Maps pool rw root s₀ 1 s (pageNo addr) 1 r.1 r.2.2 none (some (numPages - 1)) := by
  have hcalls := setupEntry_calls 0 (fun h ↦ absurd h (by decide)) h
  have hentry := @atEntry pool root s₀ s K 3 table 0 addr (by decide) rfl hs hpages ht hlow
    (hcalls.trans hK)
  have hpage : pageNo addr / 512 ^ 0 = pageNo addr := by rw [pow_zero, Nat.div_one]
  have heq := hentry.setupEntry_eq rw child numPages (by decide)
  rw [h, part_eq addr (by decide)] at heq
  rw [hpage] at heq hentry
  dsimp only at heq
  by_cases hnull : NullPage s.mem root (pageNo addr)
  · rw [if_pos ((hentry.childMap_eq_zero_iff rw).mpr hnull),
      hentry.setNewPageMapIfNotPresent_of_present hnull.1] at heq
    obtain rfl := Option.some.inj heq
    refine ⟨hs, (Touches.none_touched s).congr fun d p _ _ ↦ ?_, fun _ ↦ rfl, fun hclear ↦ ?_⟩
    · exact iff_of_false id fun hhandled ↦ (entryHandled_leaf.mp hhandled).2.2 hnull
    · exact absurd (meetsNull_one.mpr hnull) hclear
  · rw [if_neg (mt (hentry.childMap_eq_zero_iff rw).mp hnull), if_pos rfl] at heq
    obtain rfl := Option.some.inj heq
    refine ⟨hentry.sound_touch, hentry.touches.congr fun d p _ _ ↦ ?_, fun hmeets ↦ ?_, fun _ ↦ rfl⟩
    · rw [entryHandled_leaf, and_iff_left hnull]
    · exact absurd (meetsNull_one.mp hmeets) hnull

/-- The pages below one entry share it. -/
theorem div_eq_of_lt_room {level page q : ℕ} (hge : page ≤ q) (hlt : q < page + room level page) :
    q / 512 ^ level = page / 512 ^ level := by
  have hpos : 0 < 512 ^ level := by positivity
  have hmod : page % 512 ^ level < 512 ^ level := Nat.mod_lt _ hpos
  have hdiv := Nat.div_add_mod page (512 ^ level)
  rw [room] at hlt
  rw [Nat.div_eq_iff hpos]
  rw [Nat.mul_comm] at hdiv
  omega

/-- The body of the loop above the lowest level. -/
theorem setupEntry_below {level : ℕ} (hlevel : level < 4) (hpos : 1 ≤ level)
    (hchild : MapsPages pool rw root s₀ K level child)
    {r : PagingState × Addr × Option (BitVec 32)}
    (h : setupEntry pool rw (level + 1) child (pagePointer table) s addr numPages = some r)
    (hK : r.1.calls ≤ K) (hs : Sound pool root s₀ s)
    (hpages : NewPages pool s₀.mem root s₀.calls K)
    (ht : treePage s.mem root (4 - (level + 1)) (pageNo addr / 512 ^ (level + 1)) = some table)
    (hn : numPages ≠ 0)
    (hlow : pageNo addr + mappedPages level (pageNo addr) numPages.toNat ≤ 2 ^ 35) :
    Maps pool rw root s₀ (level + 1) s (pageNo addr)
      (mappedPages level (pageNo addr) numPages.toNat) r.1 r.2.2 none
      (some (returned level (pageNo addr) numPages)) := by
  have hcount : 0 < mappedPages level (pageNo addr) numPages.toNat := mappedPages_pos hn
  have hroom : mappedPages level (pageNo addr) numPages.toNat ≤ room level (pageNo addr) :=
    mappedPages_le_room
  obtain ⟨depth, hdepth⟩ : ∃ depth, depth + level = 3 := ⟨3 - level, by omega⟩
  have hcalls := setupEntry_calls level (fun _ pageMap s addr numPages r hr ↦ by
    obtain ⟨r', hr', hcounted, -⟩ := hchild pageMap s addr numPages
    rw [hr] at hr'
    rw [Option.some.inj hr']
    exact hcounted.calls_le) h
  have hentry := atEntry level hlevel hdepth hs hpages ht (by omega) (hcalls.trans hK)
  have hsound : Sound pool root s₀
    (touch pool rw root s (depth + 1) (pageNo addr / 512 ^ level) table) := hentry.sound_touch
  -- the entry leads to a page now, for which the level below is run
  have hpage : treePage (touch pool rw root s (depth + 1)
      (pageNo addr / 512 ^ level) table).mem root
      (depth + 1) (pageNo addr / 512 ^ level) = some (frame (touchedEntry rw
        (treeEntry s.mem root (depth + 1) (pageNo addr / 512 ^ level)) (pool s.calls))) := by
    rw [hentry.page_touch (by omega) hentry.lower, if_pos ⟨rfl, rfl⟩]
  have hdirect := hsound.direct (by omega) hentry.lower hpage
  have haligned := pageAt_aligned hsound.tree.aligned hpage
  have heq := hentry.setupEntry_eq rw child numPages hlevel
  rw [h] at heq
  dsimp only at heq
  rw [if_neg (hdirect.pagePointer_ne_zero haligned), if_neg (by omega)] at heq
  obtain ⟨r', hr', -, hmaps⟩ := hchild (pagePointer (frame (touchedEntry rw
    (treeEntry s.mem root (depth + 1) (pageNo addr / 512 ^ level)) (pool s.calls))))
    (touch pool rw root s (depth + 1) (pageNo addr / 512 ^ level) table) addr numPages
  rw [hr', Option.map_some] at heq
  obtain rfl := Option.some.inj heq
  have hmaps := hmaps _ rfl hK hsound (by rwa [show 4 - level = depth + 1 by omega]) (by omega)
  have hnull : ∀ q, pageNo addr ≤ q →
      q < pageNo addr + mappedPages level (pageNo addr) numPages.toNat →
      (NullPage (touch pool rw root s (depth + 1) (pageNo addr / 512 ^ level) table).mem root q ↔
        NullPage s.mem root q) := fun q _ hlt ↦ hentry.nullPage_touch (by omega) (by omega)
  have hmeets := meetsNull_congr hnull
  refine ⟨hmaps.sound, (hentry.touches.trans hmaps.touches).congr fun d p _ _ ↦ ?_, fun hstop ↦ ?_,
    fun hclear ↦ ?_⟩
  · have hsame : ∀ q, pageNo addr ≤ q →
        q < pageNo addr + mappedPages level (pageNo addr) numPages.toNat →
        q / 512 ^ level = pageNo addr / 512 ^ level := fun q hge hlt ↦
      div_eq_of_lt_room hge (by omega)
    rw [show 5 - level = depth + 1 + 1 by omega, show 5 - (level + 1) = depth + 1 by omega,
      entryHandled_congr hnull]
    exact (entryHandled_entry (by omega) hpos (by omega) hsame).symm
  · exact if_pos (hmaps.stopped (hmeets.mpr hstop))
  · rw [hmaps.passed (mt hmeets.mp hclear)]
    exact if_neg (returned_ne_neg_one hn)

/-- The body of the loop. -/
theorem setupEntry_maps {level : ℕ} (hlevel : level < 4)
    (hchild : 1 ≤ level → MapsPages pool rw root s₀ K level child)
    {r : PagingState × Addr × Option (BitVec 32)}
    (h : setupEntry pool rw (level + 1) child (pagePointer table) s addr numPages = some r)
    (hK : r.1.calls ≤ K) (hs : Sound pool root s₀ s)
    (hpages : NewPages pool s₀.mem root s₀.calls K)
    (ht : treePage s.mem root (4 - (level + 1)) (pageNo addr / 512 ^ (level + 1)) = some table)
    (hn : numPages ≠ 0)
    (hlow : pageNo addr + mappedPages level (pageNo addr) numPages.toNat ≤ 2 ^ 35) :
    Maps pool rw root s₀ (level + 1) s (pageNo addr)
      (mappedPages level (pageNo addr) numPages.toNat) r.1 r.2.2 none
      (some (returned level (pageNo addr) numPages)) := by
  rcases Nat.eq_zero_or_pos level with rfl | hpos
  · have hpos : 0 < mappedPages 0 (pageNo addr) numPages.toNat := mappedPages_pos hn
    have hroom : mappedPages 0 (pageNo addr) numPages.toNat ≤ room 0 (pageNo addr) :=
      mappedPages_le_room
    rw [room_zero] at hroom
    rw [returned_level_zero hn, show mappedPages 0 (pageNo addr) numPages.toNat = 1 by omega]
    refine setupEntry_leaf h hK hs hpages ?_ (by omega)
    rwa [Nat.zero_add, pow_one] at ht
  · exact setupEntry_below hlevel hpos (hchild hpos) h hK hs hpages ht hn hlow

end Entry

/-! ## Part after part -/

section Runs

variable {s₀ s s₁ s₂ : PagingState} {level page count next count' : ℕ}

/-- Tables and pages stay where they are. -/
theorem Touches.page_eq {S : ℕ → ℕ → Prop} (h : Touches pool rw root S s s₁) {t : ℕ} (hd : d ≤ 4)
    (hp : InLower d p) (ht : treePage s.mem root d p = some t) :
    treePage s₁.mem root d p = some t := by
  cases d with
  | zero => exact ht
  | succ d =>
    obtain ⟨call, -, -, hentry⟩ := h.entries
    obtain ⟨htouched, hkept⟩ := hentry (d + 1) p hd hp
    cases hpresent : present (treeEntry s.mem root (d + 1) p) with
    | false =>
      rw [treePage_none_of_entry hpresent] at ht
      cases ht
    | true =>
      rw [treePage_of_entry hpresent] at ht
      by_cases hS : S (d + 1) p
      · have h₁ := htouched hS
        rw [treePage_of_entry (by rw [h₁, present_touchedEntry]), h₁,
          frame_touchedEntry_of_present _ hpresent, ht]
      · have h₁ := hkept hS
        rw [treePage_of_entry (by rw [h₁, hpresent]), h₁, ht]

section Parts

variable {α β : Type*} {ret stopped passed : α} {ret' stopped' passed' : β}

/-- Behind the pages that are handled, pages are mapped as before. -/
theorem Maps.nullPage (h : Maps pool rw root s₀ level s page count s₁ ret stopped passed)
    {q : ℕ} (hge : page + count ≤ q) (hq : q < 2 ^ 35) :
    NullPage s₁.mem root q ↔ NullPage s.mem root q := by
  obtain ⟨call, -, -, hentry⟩ := h.touches.entries
  have hlow := inLower_page 0 (by decide) hq
  rw [pow_zero, Nat.div_one] at hlow
  rw [NullPage, NullPage, (hentry 4 q le_rfl hlow).2]
  rintro ⟨-, -, q', -, hlt, -, -, hq'⟩
  rw [Nat.sub_self, pow_zero, Nat.div_one] at hq'
  omega

theorem Maps.not_meetsNull (h : Maps pool rw root s₀ level s page count s₁ ret stopped passed)
    (hne : ret ≠ stopped) : ¬ MeetsNull s.mem root page (page + count) :=
  fun hstop ↦ hne (h.stopped hstop)

/-- A part and the part behind it. -/
theorem Maps.append (h : Maps pool rw root s₀ level s page count s₁ ret stopped passed)
    (hclear : ¬ MeetsNull s.mem root page (page + count))
    (h' : Maps pool rw root s₀ level s₁ next count' s₂ ret' stopped' passed')
    (hnext : count' = 0 ∨ next = page + count) (hlow : page + count + count' ≤ 2 ^ 35) :
    Maps pool rw root s₀ level s page (count + count') s₂ ret' stopped' passed' := by
  have hnull : ∀ q, next ≤ q → q < next + count' →
      (NullPage s₁.mem root q ↔ NullPage s.mem root q) := by
    intro q hge hlt
    exact h.nullPage (by omega) (by omega)
  have hfirst : ∀ q, page ≤ q → q < page + count → ¬ NullPage s.mem root q :=
    fun q hge hlt hq ↦ hclear ⟨q, hge, hlt, hq⟩
  have hhandled : ∀ d p, EntryHandled (NullPage s₁.mem root) (5 - level) next (next + count') d p ↔
      EntryHandled (NullPage s.mem root) (5 - level) (page + count)
        (page + (count + count')) d p := by
    intro d p
    rw [entryHandled_congr hnull]
    rcases hnext with rfl | rfl
    · exact iff_of_false not_entryHandled_empty not_entryHandled_empty
    · rw [Nat.add_assoc]
  have hmeets : MeetsNull s₁.mem root next (next + count') ↔
      MeetsNull s.mem root page (page + (count + count')) := by
    rw [meetsNull_congr hnull]
    constructor
    · rintro ⟨q, hge, hlt, hq⟩
      exact ⟨q, by omega, by omega, hq⟩
    · rintro ⟨q, hge, hlt, hq⟩
      have hmid : page + count ≤ q := by
        by_contra hlt'
        exact hfirst q hge (by omega) hq
      exact ⟨q, by omega, by omega, hq⟩
  refine ⟨h'.sound, (h.touches.trans h'.touches).congr fun d p _ _ ↦ ?_,
    fun hstop ↦ h'.stopped (hmeets.mpr hstop), fun hpass ↦ h'.passed (mt hmeets.mp hpass)⟩
  rw [hhandled d p]
  exact (entryHandled_append (Nat.le_add_right _ _) (by omega) hfirst).symm

/-- A part that is stopped is all there is. -/
theorem Maps.stop (h : Maps pool rw root s₀ level s page count s₁ ret stopped passed)
    (hstop : MeetsNull s.mem root page (page + count)) (hle : count ≤ count') {x : β} :
    Maps pool rw root s₀ level s page count' s₁ x x passed' := by
  have hmore : MeetsNull s.mem root page (page + count') := by
    obtain ⟨q, hge, hlt, hq⟩ := hstop
    exact ⟨q, hge, by omega, hq⟩
  refine ⟨h.sound, h.touches.congr fun d p _ _ ↦ ?_, fun _ ↦ rfl, fun hclear ↦ absurd hmore hclear⟩
  obtain ⟨q, hge, hlt, hq⟩ := hstop
  exact (entryHandled_stop hge hq hlt (by omega)).symm

end Parts

/-- No pages are mapped in no step. -/
theorem Sound.maps_zero {α : Type*} {stopped passed : α} (h : Sound pool root s₀ s) :
    Maps pool rw root s₀ level s page 0 s passed stopped passed := by
  refine ⟨h, (Touches.none_touched s).congr fun d p _ _ ↦ ?_, ?_, fun _ ↦ rfl⟩
  · exact iff_of_false id not_entryHandled_empty
  · rintro ⟨q, hge, hlt, -⟩
    omega

/-! ## The loop -/

variable {K table : ℕ} {child : Addr → PagingState → Addr → BitVec 32 → Option PageMapReturn}
  {addr : Addr} {numPages : BitVec 32}

/-- The first page of the next entry is at most the end of the lower half. -/
theorem next_le_lower (hlevel : level < 4) {q : ℕ} (hq : q < 2 ^ 35) :
    (q / 512 ^ level + 1) * 512 ^ level ≤ 2 ^ 35 := by
  have hcases : level = 0 ∨ level = 1 ∨ level = 2 ∨ level = 3 := by omega
  rcases hcases with rfl | rfl | rfl | rfl <;> omega

theorem setupLoop_maps (hlevel : level < 4)
    (hchild : 1 ≤ level → MapsPages pool rw root s₀ K level child)
    (hpages : NewPages pool s₀.mem root s₀.calls K) {fuel : ℕ}
    (hfuel : 512 ≤ fuel + part addr (level + 1)) {r : PageMapReturn}
    (h : setupLoop pool rw (level + 1) child (pagePointer table) fuel s addr numPages = some r)
    (hK : r.1.calls ≤ K) (hs : Sound pool root s₀ s)
    (ht : treePage s.mem root (4 - (level + 1)) (pageNo addr / 512 ^ (level + 1)) = some table)
    (hlow : pageNo addr + mappedPages (level + 1) (pageNo addr) numPages.toNat ≤ 2 ^ 35) :
    Maps pool rw root s₀ (level + 1) s (pageNo addr)
      (mappedPages (level + 1) (pageNo addr) numPages.toNat) r.1 r.2.2 (-1)
      (returned (level + 1) (pageNo addr) numPages) := by
  have hcounted : 1 ≤ level → ∀ pageMap s addr numPages,
      ∃ r, child pageMap s addr numPages = some r ∧ Counted level s addr numPages r := by
    intro hpos pageMap s addr numPages
    obtain ⟨r, hr, hr', -⟩ := hchild hpos pageMap s addr numPages
    exact ⟨r, hr, hr'⟩
  induction fuel generalizing s addr numPages with
  | zero => cases h
  | succ fuel ih =>
    rw [setupLoop] at h
    by_cases hn : numPages = 0
    · obtain rfl := hn
      rw [if_pos rfl] at h
      obtain rfl := Option.some.inj h
      have hzero : (0 : BitVec 32).toNat = 0 := rfl
      rw [hzero, mappedPages_zero, returned_zero]
      exact hs.maps_zero
    · rw [if_neg hn] at h
      obtain ⟨⟨s₁, addr', left⟩, hentry, -, -, haddr, hleft⟩ :=
        @setupEntry_counted _ _ pool rw _ hcounted (pagePointer table) s addr hn
      have hle : mappedPages level (pageNo addr) numPages.toNat ≤
          mappedPages (level + 1) (pageNo addr) numPages.toNat := mappedPages_le_succ
      have hmaps := fun hK ↦ setupEntry_maps hlevel hchild hentry hK hs hpages ht hn (by omega)
      simp only [hentry, Option.bind_some] at h
      simp only at haddr hmaps hleft
      cases left with
      | none =>
        -- without a value the loop ends at the entry, where a page stopped it
        obtain rfl := Option.some.inj h
        have hmaps := hmaps hK
        by_cases hmeets : MeetsNull s.mem root (pageNo addr)
          (pageNo addr + mappedPages level (pageNo addr) numPages.toNat)
        · exact hmaps.stop hmeets hle
        · cases hmaps.passed hmeets
      | some left =>
        obtain rfl : left = returned level (pageNo addr) numPages := by
          rcases hleft with hleft | hleft
          · cases hleft
          · exact Option.some.inj hleft
        simp only at h
        split_ifs at h with hindex
        · -- the last entry of the table
          obtain rfl := Option.some.inj h
          rw [part_eq addr hlevel] at hindex
          have hmaps := hmaps hK
          have hclear := hmaps.not_meetsNull (by simp)
          rw [mappedPages_last hindex, returned_last hindex]
          exact ⟨hmaps.sound, hmaps.touches, fun hstop ↦ absurd hstop hclear, fun _ ↦ rfl⟩
        · -- the loop goes on at the next entry
          have hnext := pageNo_next hlevel hindex haddr
          have hfuel' := fuel_next hlevel hindex haddr hfuel
          rw [part_eq addr hlevel] at hindex
          have hlt : pageNo addr / 512 ^ level % 512 < 512 := Nat.mod_lt _ (by decide)
          obtain ⟨r', hr', hcounted'⟩ :=
            setupLoop_counted hlevel hcounted (pagePointer table) fuel s₁
            (clearParts (setPart addr' (level + 1) (part addr (level + 1) + 1)) level)
            (returned level (pageNo addr) numPages) hfuel'
          obtain rfl := Option.some.inj (hr'.symm.trans h)
          have hmaps := hmaps (hcounted'.calls_le.trans hK)
          have hclear := hmaps.not_meetsNull (by simp)
          have htable := @next_div_table level (pageNo addr) (by omega)
          have hmapped := @mappedPages_next level (pageNo addr) numPages (by omega)
          have hcount : 0 < mappedPages level (pageNo addr) numPages.toNat := mappedPages_pos hn
          have hstart : mappedPages (level + 1) ((pageNo addr / 512 ^ level + 1) * 512 ^ level)
                (returned level (pageNo addr) numPages).toNat = 0 ∨
              (pageNo addr / 512 ^ level + 1) * 512 ^ level =
                pageNo addr + mappedPages level (pageNo addr) numPages.toNat := by
            rcases returned_eq_zero_or level (pageNo addr) numPages with hzero | hstart
            · rw [hzero]
              exact .inl mappedPages_zero
            · exact .inr hstart.symm
          have hbound := next_le_lower hlevel (show pageNo addr < 2 ^ 35 by omega)
          have hrest := ih hfuel' h hmaps.sound
            (by
              rw [hnext, htable]
              exact hmaps.touches.page_eq (by omega) (inLower_page _ (by omega) (by omega)) ht)
            (by
              rw [hnext]
              omega)
          rw [hnext] at hrest
          rw [hmapped, returned_next (by omega)]
          exact hmaps.append hclear hrest hstart (by omega)

theorem setupPageMap_maps (hlevel : level ≤ 4) (hpos : 1 ≤ level)
    (hpages : NewPages pool s₀.mem root s₀.calls K) :
    MapsPages pool rw root s₀ K level (setupPageMap pool rw level) := by
  induction level, hpos using Nat.le_induction with
  | base =>
    intro pageMap s addr numPages
    obtain ⟨r, hr, hcounted⟩ := setupPageMap_counted (by decide) le_rfl pageMap s addr numPages
    refine ⟨r, hr, hcounted, ?_⟩
    rintro table rfl hK hs ht hlow
    exact setupLoop_maps (by decide) (fun h ↦ absurd h (by decide)) hpages (Nat.le_add_right _ _) hr
      hK hs ht hlow
  | succ level hpos ih =>
    intro pageMap s addr numPages
    obtain ⟨r, hr, hcounted⟩ := setupPageMap_counted hlevel (by omega) pageMap s addr numPages
    refine ⟨r, hr, hcounted, ?_⟩
    rintro table rfl hK hs ht hlow
    exact setupLoop_maps (by omega)
      (fun _ ↦ ih (by omega)) hpages (Nat.le_add_right _ _) hr hK hs ht
      hlow

end Runs

end VimOS
