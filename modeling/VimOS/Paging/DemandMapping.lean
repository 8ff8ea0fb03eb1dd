import VimOS.Paging.SetupRuns

/-!
# When demand mapping is exact

`setupPageMaps` is to map the pages of a range that are not mapped, each to a new page of zeros, to
give all of them their rights, and to leave every other page of the address space as it was
(`ExactlyMapped`). Large pages are allowed in the upper half only.

Whether it does is read off the entries on the way to the pages of the range (`EntriesServe`). The
call handles the pages of the range up to one that is mapped to the physical page whose pointer is
`NULL`. An entry that it does not handle must have been present, user and writable. An entry that it
handles and that is not present keeps its bit 7, so on level 2 or 3 this bit must be clear:
otherwise the new table would be a large page.
-/

namespace VimOS

open PageWalk

/-! ## The tree and the new pages -/

/-- A page table is a tree. Its lower half has no large pages, and its tables are in the physical
memory that `P2V` reaches. -/
structure LowerTree (mem : Mem) (root : ℕ) : Prop where
  aligned : root % 4096 = 0
  direct : ∀ {d p table}, d < 4 → InLower d p → pageAt leads mem root d p = some table →
    InDirectMap table
  distinct : ∀ {d p d' p' table}, d < 4 → d' < 4 → p < 512 ^ d → p' < 512 ^ d' →
    pageAt leads mem root d p = some table → pageAt leads mem root d' p' = some table →
    d = d' ∧ p = p'
  no_large : ∀ {d p}, d = 2 ∨ d = 3 → InLower d p → present (entryAt leads mem root d p) = true →
    large (entryAt leads mem root d p) = false

/-- A page is a table, or an address is mapped to it. -/
def InUse (mem : Mem) (root page : ℕ) : Prop :=
  (∃ d p, d < 4 ∧ p < 512 ^ d ∧ pageAt leads mem root d p = some page) ∨
    ∃ v a, walk mem 4 root v = some a ∧ page ≤ a ∧ a < page + 4096

/-- The calls of `alloc_mem(1)` from `lo` on, before `hi`, succeed with pages of the memory that
`P2V` reaches, which are not in use and which no other of these calls returns. -/
structure Allocated (pool : ℕ → Addr) (mem : Mem) (root lo hi : ℕ) : Prop where
  direct : ∀ {call}, lo ≤ call → call < hi → InDirectMap (newPage pool call)
  aligned : ∀ {call}, lo ≤ call → call < hi → newPage pool call % 4096 = 0
  distinct : ∀ {call call'}, lo ≤ call → call < hi → lo ≤ call' → call' < hi →
    newPage pool call = newPage pool call' → call = call'
  unused : ∀ {call}, lo ≤ call → call < hi → ¬ InUse mem root (newPage pool call)

/-- The `n` pages from a page on are mapped on demand: `mem` is memory before and `mem'` after. -/
structure ExactlyMapped (mem mem' : Mem) (root page n : ℕ) : Prop where
  rights : ∀ i < n, UserWritable mem' 4 root (4096 * (page + i))
  kept : ∀ i < n, ∀ a, walk mem 4 root (4096 * (page + i)) = some a →
    walk mem' 4 root (4096 * (page + i)) = some a
  fresh : ∀ i < n, walk mem 4 root (4096 * (page + i)) = none →
    ∃ f, walk mem' 4 root (4096 * (page + i)) = some f ∧ f % 4096 = 0 ∧ ¬ InUse mem root f ∧
      ∀ a, f ≤ a → a < f + 4096 → mem' a = 0
  distinct : ∀ i < n, ∀ j < n, i ≠ j → walk mem 4 root (4096 * (page + i)) = none →
    walk mem 4 root (4096 * (page + j)) = none →
    walk mem' 4 root (4096 * (page + i)) ≠ walk mem' 4 root (4096 * (page + j))
  others : ∀ q < 2 ^ 36, (∀ i < n, q ≠ page + i) →
    walk mem' 4 root (4096 * q) = walk mem 4 root (4096 * q)

/-- The entry of a level on the way to a page is touched when `n` pages from a page on are
mapped. -/
def HandledOn (mem : Mem) (root page n level q : ℕ) : Prop :=
  EntryHandled (NullPage mem root) 1 page (page + n) (4 - level)
    (q / 512 ^ level)

/-- The entries on the way to the pages are fit for demand mapping. -/
def EntriesServe (mem : Mem) (root page n : ℕ) : Prop :=
  ∀ i < n, ∀ level < 4,
    let e := treeEntry mem root (4 - level) ((page + i) / 512 ^ level)
    (HandledOn mem root page n level (page + i) →
      present e = false → level = 1 ∨ level = 2 → large e = false) ∧
    (¬ HandledOn mem root page n level (page + i) →
      present e = true ∧ user e = true ∧ writable e = true)

/-! ## The lower half -/

section Lower

variable {mem : Mem} {root d p : ℕ}

/-- In the lower half the processor and `setupPageMap` follow the same entries. -/
theorem LowerTree.pageAt_eq (h : LowerTree mem root) (hd : d ≤ 4) (hp : InLower d p) :
    treePage mem root d p = pageAt leads mem root d p := by
  induction d generalizing p with
  | zero => rfl
  | succ d ih =>
    have hparent := ih (by omega) hp.parent
    cases htable : pageAt leads mem root d (p / 512) with
    | none => rw [treePage, pageAt_of_none (hparent.trans htable), pageAt_of_none htable]
    | some table =>
      have hentry := entryAt_of_table htable
      have hlarge := fun hlevel ↦ h.no_large (d := d + 1) hlevel hp
      rw [treePage, pageAt_of_table (hparent.trans htable), pageAt_of_table htable,
        entryAt_of_table (hparent.trans htable), hentry]
      rw [hentry] at hlarge
      cases hpresent : present (mem (table + 8 * (p % 512))) with
      | false => rw [leads, hpresent, Bool.false_and]
      | true =>
        have hleads : leads (d + 1) (mem (table + 8 * (p % 512))) = true := by
          rw [leads, hpresent, Bool.true_and, Bool.not_eq_true', Bool.and_eq_false_iff]
          by_cases hlevel : d + 1 = 2 ∨ d + 1 = 3
          · exact .inl (hlarge hlevel hpresent)
          · right
            simp only [Bool.or_eq_false_iff, beq_eq_false_iff_ne]
            omega
        rw [hleads]

theorem LowerTree.entryAt_eq (h : LowerTree mem root) (hd : d ≤ 4) (hp : InLower d p) :
    treeEntry mem root d p = entryAt leads mem root d p := by
  cases d with
  | zero => rfl
  | succ d =>
    have hparent := h.pageAt_eq (by omega) hp.parent
    rw [treeEntry, entryAt, entryAt]
    exact congrArg (fun o : Option ℕ ↦
      (o.map fun table ↦ mem (table + 8 * (p % 512))).getD 0) hparent

theorem inLower_lt (hp : InLower d p) : p < 512 ^ d := by
  rw [InLower] at hp
  omega

theorem inLower_four (hp : p < 2 ^ 35) : InLower 4 p := by
  rw [InLower]
  omega

theorem Allocated.newPages {pool : ℕ → Addr} {lo hi : ℕ} (h : Allocated pool mem root lo hi)
    (htree : LowerTree mem root) : NewPages pool mem root lo hi where
  direct := h.direct
  aligned := h.aligned
  distinct := h.distinct
  no_table := by
    intro call d p hlo hhi hd hp hpage
    rw [htree.pageAt_eq (by omega) hp] at hpage
    exact h.unused hlo hhi (.inl ⟨d, p, hd, inLower_lt hp, hpage⟩)

/-- What holds before the first step. -/
theorem LowerTree.sound {s : PagingState} (h : LowerTree s.mem root) (pool : ℕ → Addr) :
    Sound pool root s s where
  calls_le := le_rfl
  tree := by
    refine ⟨h.aligned, ?_⟩
    intro d p d' p' page hd hd' hp hp' hpage hpage'
    rw [← treePage, h.pageAt_eq (by omega) hp] at hpage
    rw [← treePage, h.pageAt_eq (by omega) hp'] at hpage'
    exact h.distinct hd hd' (inLower_lt hp) (inLower_lt hp') hpage hpage'
  direct := by
    intro d p table hd hp hpage
    rw [h.pageAt_eq (by omega) hp] at hpage
    exact h.direct hd hp hpage
  table := fun _ _ hpage ↦ .inl hpage
  kept := fun _ hne ↦ absurd rfl hne
  zero := fun call hge hlt ↦ absurd hlt (by omega)

end Lower

/-! ## After the call -/

/-- A call has mapped `n` pages from a page on, with rights `rw`. -/
structure MapRun (pool : ℕ → Addr) (rw : Bool) (root page n : ℕ) (s s' : PagingState) : Prop where
  tree : LowerTree s.mem root
  pages : Allocated pool s.mem root s.calls s'.calls
  sound : Sound pool root s s'
  touches : Touches pool rw root
    (EntryHandled (NullPage s.mem root) 1 page (page + n)) s s'

namespace MapRun

variable {pool : ℕ → Addr} {rw : Bool} {root page n : ℕ} {s s' : PagingState} {d p : ℕ}
  (h : MapRun pool rw root page n s s')

include h

theorem handled (hd : d ≤ 4) (hp : InLower d p)
    (hhandled : EntryHandled (NullPage s.mem root) 1 page (page + n) d p) :
    present (treeEntry s'.mem root d p) = true ∧ user (treeEntry s'.mem root d p) = true ∧
      writable (treeEntry s'.mem root d p) = rw := by
  obtain ⟨call, -, -, hentry⟩ := h.touches.entries
  rw [(hentry d p hd hp).1 hhandled]
  exact ⟨present_touchedEntry _ _, user_touchedEntry _ _, writable_touchedEntry _ _⟩

theorem not_handled (hd : d ≤ 4) (hp : InLower d p)
    (hhandled : ¬ EntryHandled (NullPage s.mem root) 1 page (page + n) d p) :
    treeEntry s'.mem root d p = treeEntry s.mem root d p := by
  obtain ⟨call, -, -, hentry⟩ := h.touches.entries
  exact (hentry d p hd hp).2 hhandled

theorem large_eq (hd : d ≤ 4) (hp : InLower d p) :
    large (treeEntry s'.mem root d p) = large (treeEntry s.mem root d p) := by
  obtain ⟨call, -, -, hentry⟩ := h.touches.entries
  by_cases hhandled : EntryHandled (NullPage s.mem root) 1 page (page + n) d p
  · rw [(hentry d p hd hp).1 hhandled, large_touchedEntry]
  · rw [(hentry d p hd hp).2 hhandled]

theorem large_of_present (hd : d = 2 ∨ d = 3) (hp : InLower d p)
    (hpresent : present (treeEntry s.mem root d p) = true) :
    large (treeEntry s.mem root d p) = false := by
  rw [h.tree.entryAt_eq (by omega) hp] at hpresent ⊢
  exact h.tree.no_large hd hp hpresent

/-- The tables of the upper half are not written. -/
theorem upper_entry {q d p table : ℕ} (hge : 2 ^ 35 ≤ q) (hlt : q < 2 ^ 36) (hd : d < 4)
    (hp : q / 512 ^ (3 - d) = p) (htable : pageAt leads s.mem root d (p / 512) = some table) :
    s'.mem (table + 8 * (p % 512)) = s.mem (table + 8 * (p % 512)) := by
  by_contra hne
  have hindex : p % 512 < 512 := Nat.mod_lt _ (by decide)
  have hsize : p < 512 ^ (d + 1) ∧ ¬ InLower (d + 1) p := by
    rw [InLower, ← hp]
    have hcases : d = 0 ∨ d = 1 ∨ d = 2 ∨ d = 3 := by omega
    rcases hcases with rfl | rfl | rfl | rfl <;> omega
  have hparent : p / 512 < 512 ^ d := by
    rw [pow_succ] at hsize
    omega
  have haligned := pageAt_aligned h.tree.aligned htable
  rcases h.sound.kept _ hne with ⟨d', p', table', hd', hp', htable', haddr⟩ | ⟨call, hc, hc', hin⟩
  · have hlower := inLower_lt hp'.parent
    have haligned' := pageAt_aligned h.tree.aligned htable'
    have hindex' : p' % 512 < 512 := Nat.mod_lt _ (by decide)
    rw [h.tree.pageAt_eq (by omega) hp'.parent] at htable'
    obtain rfl : table = table' := by omega
    obtain ⟨rfl, heq⟩ := h.tree.distinct hd hd' hparent hlower htable htable'
    obtain rfl : p = p' := by omega
    exact hsize.2 hp'
  · have haligned' := h.pages.aligned hc hc'
    obtain rfl : table = newPage pool call := by omega
    exact h.pages.unused hc hc' (.inl ⟨d, p / 512, hd, hparent, htable⟩)

end MapRun

/-- A call has mapped `n` pages from a page on. -/
structure DemandRun (pool : ℕ → Addr) (root page n : ℕ) (s s' : PagingState) : Prop where
  tree : LowerTree s.mem root
  pages : Allocated pool s.mem root s.calls s'.calls
  lower : page + n ≤ 2 ^ 35
  sound : Sound pool root s s'
  touches : Touches pool true root
    (EntryHandled (NullPage s.mem root) 1 page (page + n)) s s'

namespace DemandRun

variable {pool : ℕ → Addr} {root page n : ℕ} {s s' : PagingState} {d p : ℕ}
  (h : DemandRun pool root page n s s')

include h

theorem mapRun : MapRun pool true root page n s s' := ⟨h.tree, h.pages, h.sound, h.touches⟩

/-- The rights are what the entries have to serve for. -/
theorem rights_iff : (∀ i < n, UserWritable s'.mem 4 root (4096 * (page + i))) ↔
    EntriesServe s.mem root page n := by
  refine forall₂_congr fun i hi ↦ ?_
  rw [userWritable_iff le_rfl rfl]
  refine forall₂_congr fun level hlevel ↦ ?_
  have hlower := h.lower
  have hp := inLower_page level (q := page + i) (by omega) (by omega)
  have hlarge := h.mapRun.large_eq (by omega) hp
  have hno := fun hlevel ↦ h.mapRun.large_of_present hlevel hp
  dsimp only
  by_cases hhandled : HandledOn s.mem root page n level (page + i)
  · obtain ⟨hpresent, huser, hwritable⟩ := h.mapRun.handled (by omega) hp hhandled
    constructor
    · rintro ⟨-, -, -, hnot⟩
      refine ⟨fun _ _ hbit ↦ ?_, fun hne ↦ absurd hhandled hne⟩
      rw [← hlarge]
      exact Bool.eq_false_iff.mpr fun htrue ↦ hnot ⟨htrue, hbit⟩
    · rintro ⟨hserves, -⟩
      refine ⟨hpresent, huser, hwritable, ?_⟩
      rintro ⟨htrue, hbit⟩
      rw [hlarge] at htrue
      cases hbefore : present (treeEntry s.mem root (4 - level) ((page + i) / 512 ^ level)) with
      | false => exact Bool.eq_false_iff.mp (hserves hhandled hbefore hbit) htrue
      | true => exact Bool.eq_false_iff.mp (hno (by omega) hbefore) htrue
  · rw [← treeEntry, h.mapRun.not_handled (by omega) hp hhandled]
    constructor
    · rintro ⟨hpresent, huser, hwritable, -⟩
      exact ⟨fun hc ↦ absurd hc hhandled, fun _ ↦ ⟨hpresent, huser, hwritable⟩⟩
    · rintro ⟨-, hserves⟩
      obtain ⟨hpresent, huser, hwritable⟩ := hserves hhandled
      exact ⟨hpresent, huser, hwritable,
        fun hc ↦ Bool.eq_false_iff.mp (hno (by omega) hpresent) hc.1⟩

/-! ### New pages -/

/-- Where there was no page, a page that is there now was returned by a call of its own. -/
theorem exists_calls : ∃ call : ℕ → ℕ → ℕ,
    (∀ d p f, d ≤ 4 → InLower d p → treePage s.mem root d p = none →
      treePage s'.mem root d p = some f →
      s.calls ≤ call d p ∧ call d p < s'.calls ∧ f = newPage pool (call d p)) ∧
    ∀ d p d' p' f, d ≤ 4 → InLower d p → d' ≤ 4 → InLower d' p' →
      treePage s.mem root d p = none → treePage s.mem root d' p' = none →
      treePage s'.mem root d p = some f → treePage s'.mem root d' p' = some f →
      d = d' ∧ p = p' := by
  obtain ⟨call, hcall, hdistinct, hentry⟩ := h.touches.entries
  -- a page is new only behind an entry that was handled and not present
  have hnew : ∀ d p f, d ≤ 4 → InLower d p → treePage s.mem root d p = none →
      treePage s'.mem root d p = some f →
      EntryHandled (NullPage s.mem root) 1 page (page + n) d p ∧
        present (treeEntry s.mem root d p) = false ∧
        s.calls ≤ call d p ∧ call d p < s'.calls ∧ f = newPage pool (call d p) := by
    intro d p f hd hp hnone hsome
    cases d with
    | zero => cases hnone
    | succ d =>
      have hpresent : present (treeEntry s.mem root (d + 1) p) = false := by
        refine Bool.eq_false_iff.mpr fun hpresent ↦ ?_
        rw [treePage_of_entry hpresent] at hnone
        cases hnone
      have hhandled : EntryHandled (NullPage s.mem root) 1 page
          (page + n) (d + 1) p := by
        by_contra hnot
        have heq := (hentry (d + 1) p hd hp).2 hnot
        rw [treePage_none_of_entry (heq ▸ hpresent)] at hsome
        cases hsome
      obtain ⟨hge, hlt⟩ := hcall (d + 1) p hd hp hhandled hpresent
      have heq := (hentry (d + 1) p hd hp).1 hhandled
      rw [treePage_of_entry (by rw [heq, present_touchedEntry]), heq,
        frame_touchedEntry_new hpresent (h.pages.direct hge hlt) (h.pages.aligned hge hlt)] at hsome
      exact ⟨hhandled, hpresent, hge, hlt, (Option.some.inj hsome).symm⟩
  refine ⟨call, fun d p f hd hp hnone hsome ↦ (hnew d p f hd hp hnone hsome).2.2, ?_⟩
  intro d p d' p' f hd hp hd' hp' hnone hnone' hsome hsome'
  obtain ⟨hhandled, hpresent, hge, hlt, heq⟩ := hnew d p f hd hp hnone hsome
  obtain ⟨hhandled', hpresent', hge', hlt', heq'⟩ := hnew d' p' f hd' hp' hnone' hsome'
  exact hdistinct d p d' p' hd hd' hp hp' hhandled hhandled' hpresent hpresent'
    (h.pages.distinct hge hlt hge' hlt' (heq.symm.trans heq'))

theorem new_page {f : ℕ} (hd : d ≤ 4) (hp : InLower d p) (hnone : treePage s.mem root d p = none)
    (hsome : treePage s'.mem root d p = some f) : f % 4096 = 0 ∧ ¬ InUse s.mem root f := by
  obtain ⟨call, hcall, -⟩ := h.exists_calls
  obtain ⟨hge, hlt, rfl⟩ := hcall d p f hd hp hnone hsome
  exact ⟨h.pages.aligned hge hlt, h.pages.unused hge hlt⟩

/-- A new page that a page of the range is mapped to is zero. -/
theorem new_page_zero {f : ℕ} (hp : InLower 4 p) (hnone : treePage s.mem root 4 p = none)
    (hsome : treePage s'.mem root 4 p = some f) {a : ℕ} (hge : f ≤ a) (hlt : a < f + 4096) :
    s'.mem a = 0 := by
  obtain ⟨-, hunused⟩ := h.new_page le_rfl hp hnone hsome
  obtain ⟨call, hcall, hdistinct⟩ := h.exists_calls
  obtain ⟨hge', hlt', rfl⟩ := hcall 4 p f le_rfl hp hnone hsome
  rcases h.sound.zero (call 4 p) hge' hlt' with hzero | ⟨d', p', hd', hp', htable⟩
  · exact hzero a hge hlt
  · -- it would be a table: one that was there before, or this very page
    exfalso
    cases hbefore : treePage s.mem root d' p' with
    | some table =>
      have hstays := h.touches.page_eq (by omega) hp' hbefore
      obtain rfl := Option.some.inj (hstays.symm.trans htable)
      rw [h.tree.pageAt_eq (by omega) hp'] at hbefore
      exact hunused (.inl ⟨d', p', hd', inLower_lt hp', hbefore⟩)
    | none =>
      have heq := (hdistinct 4 p d' p' _ le_rfl hp (by omega) hp' hnone hbefore hsome htable).1
      omega

/-- Before the call the walk of a page ends at the page that its entries lead to. -/
theorem walk_before {q : ℕ} (hq : q < 2 ^ 35) :
    walk s.mem 4 root (4096 * q) = treePage s.mem root 4 q := by
  refine walk_page le_rfl rfl fun level hlevel hpresent ↦ ?_
  exact h.mapRun.large_of_present (by omega) (inLower_page level (by omega) hq) hpresent

theorem walk_upper {q : ℕ} (hge : 2 ^ 35 ≤ q) (hlt : q < 2 ^ 36) :
    walk s'.mem 4 root (4096 * q) = walk s.mem 4 root (4096 * q) :=
  walk_congr le_rfl rfl fun _ _ _ hd hp htable ↦ h.mapRun.upper_entry hge hlt hd hp htable

variable (hserve : EntriesServe s.mem root page n)

include hserve

/-- After the call too, for no new large page has come up. -/
theorem walk_after {q : ℕ} (hq : q < 2 ^ 35) :
    walk s'.mem 4 root (4096 * q) = treePage s'.mem root 4 q := by
  refine walk_page le_rfl rfl fun level hlevel hpresent ↦ ?_
  have hp := inLower_page level (by omega) hq
  rw [← treeEntry, h.mapRun.large_eq (by omega) hp]
  cases hbefore : present (treeEntry s.mem root (4 - level) (q / 512 ^ level)) with
  | true => exact h.mapRun.large_of_present (by omega) hp hbefore
  | false =>
    by_cases hhandled : EntryHandled (NullPage s.mem root) 1 page (page + n)
        (4 - level) (q / 512 ^ level)
    · -- the entry is on the way to a page of the range
      have hhandled' := hhandled
      obtain ⟨-, -, q', hge, hlt, -, -, hq'⟩ := hhandled'
      obtain ⟨i, rfl⟩ := Nat.exists_eq_add_of_le hge
      rw [show 4 - (4 - level) = level by omega] at hq'
      have hserve' := (hserve i (by omega) level (by omega)).1
      rw [HandledOn, hq'] at hserve'
      exact hserve' hhandled hbefore hlevel
    · rw [← treeEntry, h.mapRun.not_handled (by omega) hp hhandled] at hpresent
      rw [hbefore] at hpresent
      cases hpresent

/-- Each page of the range is mapped. -/
theorem exists_page {i : ℕ} (hi : i < n) : ∃ f, treePage s'.mem root 4 (page + i) = some f := by
  have hlower := h.lower
  have hrights := (h.rights_iff.mpr hserve) i hi
  rw [userWritable_iff le_rfl rfl] at hrights
  have hpresent := (hrights 0 (by decide)).1
  rw [pow_zero, Nat.div_one] at hpresent
  exact ⟨_, treePage_of_entry hpresent⟩

theorem exactlyMapped : ExactlyMapped s.mem s'.mem root page n where
  rights := h.rights_iff.mpr hserve
  kept := by
    intro i hi a ha
    have hlower := h.lower
    have hp : InLower 4 (page + i) := inLower_four (by omega)
    rw [h.walk_before (by omega)] at ha
    rw [h.walk_after hserve (by omega)]
    exact h.touches.page_eq le_rfl hp ha
  fresh := by
    intro i hi hnone
    have hlower := h.lower
    have hp : InLower 4 (page + i) := inLower_four (by omega)
    rw [h.walk_before (by omega)] at hnone
    rw [h.walk_after hserve (by omega)]
    obtain ⟨f, hf⟩ := h.exists_page hserve hi
    obtain ⟨haligned, hunused⟩ := h.new_page le_rfl hp hnone hf
    exact ⟨f, hf, haligned, hunused, fun a hge hlt ↦ h.new_page_zero hp hnone hf hge hlt⟩
  distinct := by
    intro i hi j hj hne hnone hnone' heq
    have hlower := h.lower
    have hp : InLower 4 (page + i) := inLower_four (by omega)
    have hp' : InLower 4 (page + j) := inLower_four (by omega)
    rw [h.walk_before (by omega)] at hnone hnone'
    rw [h.walk_after hserve (by omega), h.walk_after hserve (by omega)] at heq
    obtain ⟨f, hf⟩ := h.exists_page hserve hi
    obtain ⟨call, -, hdistinct⟩ := h.exists_calls
    have hsame := (hdistinct 4 _ 4 _ f le_rfl hp le_rfl hp' hnone hnone' hf (heq ▸ hf)).2
    omega
  others := by
    intro q hq hout
    rcases Nat.lt_or_ge q (2 ^ 35) with hlow | hhigh
    · have hp : InLower 4 q := inLower_four hlow
      rw [h.walk_before hlow, h.walk_after hserve hlow]
      have heq := h.mapRun.not_handled le_rfl hp (by
        rintro ⟨-, -, q', hge, hlt, -, -, hq'⟩
        rw [Nat.sub_self, pow_zero, Nat.div_one] at hq'
        exact hout (q' - page) (by omega) (by omega))
      rw [treePage, treePage, pageAt_succ rfl, pageAt_succ rfl, ← treeEntry, ← treeEntry, heq]
    · exact h.walk_upper hhigh hq

end DemandRun

/-! ## Demand mapping -/

variable {pool : ℕ → Addr} {cr3 : Addr} {s : PagingState} {addr : Addr} {n : BitVec 32}

/-- All pages are mapped: the highest table reaches them. -/
theorem mappedPages_four {page n : ℕ} (h : page + n ≤ 2 ^ 35) : mappedPages 4 page n = n := by
  rw [mappedPages, room]
  omega

/-- The call returns, and has handled the pages of the range. -/
theorem setupPageMaps_mapRun (rw : Bool) (hn : n ≠ 0)
    (hrange : ∀ i < n.toNat, pageNo addr + i < 2 ^ 35) (htree : LowerTree s.mem cr3.toNat) :
    ∃ s', setupPageMaps pool cr3 s addr n rw = some s' ∧
      s'.calls ≤ s.calls + 4 * n.toNat ∧
      (Allocated pool s.mem cr3.toNat s.calls s'.calls →
        MapRun pool rw cr3.toNat (pageNo addr) n.toNat s s') := by
  have hpos : n.toNat ≠ 0 := fun hzero ↦ hn (BitVec.eq_of_toNat_eq hzero)
  have hlast := hrange (n.toNat - 1) (by omega)
  have hcount := @mappedPages_four (pageNo addr) n.toNat (by omega)
  obtain ⟨r, hr, hcounted⟩ := @setupPageMap_counted 4 pool rw le_rfl (by decide) (p2v cr3) s addr n
  have hcalls := hcounted.calls_bound
  rw [hcount] at hcalls
  refine ⟨r.1, by rw [setupPageMaps, hr, Option.map_some], hcalls, fun hpages ↦ ?_⟩
  obtain ⟨r', hr', -, hmaps⟩ := @setupPageMap_maps pool rw cr3.toNat s 4 r.1.calls le_rfl
    (by decide) (hpages.newPages htree) (p2v cr3) s addr n
  obtain rfl := Option.some.inj (hr.symm.trans hr')
  have hmaps := hmaps cr3.toNat (p2v_eq_pagePointer cr3) le_rfl (htree.sound pool) rfl (by omega)
  rw [hcount] at hmaps
  exact ⟨htree, hpages, hmaps.sound, hmaps.touches⟩

theorem setupPageMaps_run (hn : n ≠ 0) (hrange : ∀ i < n.toNat, pageNo addr + i < 2 ^ 35)
    (htree : LowerTree s.mem cr3.toNat) :
    ∃ s', setupPageMaps pool cr3 s addr n true = some s' ∧
      s'.calls ≤ s.calls + 4 * n.toNat ∧
      (Allocated pool s.mem cr3.toNat s.calls s'.calls →
        DemandRun pool cr3.toNat (pageNo addr) n.toNat s s') := by
  have hpos : n.toNat ≠ 0 := fun hzero ↦ hn (BitVec.eq_of_toNat_eq hzero)
  have hlast := hrange (n.toNat - 1) (by omega)
  obtain ⟨s', hs', hcalls, hrun⟩ := setupPageMaps_mapRun true hn hrange htree
  refine ⟨s', hs', hcalls, fun hpages ↦ ?_⟩
  have hrun := hrun hpages
  exact ⟨htree, hpages, by omega, hrun.sound, hrun.touches⟩

theorem setupPageMaps_zero (rw : Bool) : setupPageMaps pool cr3 s addr 0 rw = some s := by
  rw [setupPageMaps, setupPageMap, setupLoop, if_pos rfl]
  rfl

/-- **Demand mapping.** A call returns, and if memory is allocated for it, the pages are mapped
exactly as they should be if and only if the entries on the way to them serve for it. -/
theorem demand_mapping_exact (hrange : ∀ i < n.toNat, pageNo addr + i < 2 ^ 35)
    (htree : LowerTree s.mem cr3.toNat) :
    ∃ s', setupPageMaps pool cr3 s addr n true = some s' ∧
      (Allocated pool s.mem cr3.toNat s.calls s'.calls →
        (ExactlyMapped s.mem s'.mem cr3.toNat (pageNo addr) n.toNat ↔
          EntriesServe s.mem cr3.toNat (pageNo addr) n.toNat)) := by
  by_cases hn : n = 0
  · obtain rfl := hn
    have hnone : ∀ i, ¬ i < (0 : BitVec 32).toNat := fun i ↦ Nat.not_lt_zero i
    refine ⟨s, setupPageMaps_zero true, fun _ ↦ iff_of_true ⟨?_, ?_, ?_, ?_, fun _ _ _ ↦ rfl⟩ ?_⟩
    · exact fun i hi ↦ absurd hi (hnone i)
    · exact fun i hi ↦ absurd hi (hnone i)
    · exact fun i hi ↦ absurd hi (hnone i)
    · exact fun i hi ↦ absurd hi (hnone i)
    · exact fun i hi ↦ absurd hi (hnone i)
  · obtain ⟨s', hs', -, hrun⟩ := setupPageMaps_run hn hrange htree
    refine ⟨s', hs', fun hpages ↦ ⟨fun hexact ↦ ?_, (hrun hpages).exactlyMapped⟩⟩
    exact (hrun hpages).rights_iff.mp hexact.rights

/-! ### When the entries serve -/

/-- The common case: no page is mapped to `NULL`, and bit 7 is clear. -/
theorem entriesServe_of_clear {mem : Mem} {root page n : ℕ}
    (hnull : ∀ i < n, ¬ NullPage mem root (page + i))
    (hbit : ∀ i < n, ∀ level, level = 1 ∨ level = 2 →
      large (treeEntry mem root (4 - level) ((page + i) / 512 ^ level)) = false) :
    EntriesServe mem root page n := by
  intro i hi level hlevel
  refine ⟨fun _ _ ↦ hbit i hi level, fun hhandled ↦ absurd ?_ hhandled⟩
  refine ⟨by omega, by omega, page + i, by omega, by omega, ?_, fun _ ↦ hnull i hi, ?_⟩
  · intro q hge hlt
    obtain ⟨j, rfl⟩ := Nat.exists_eq_add_of_le hge
    exact hnull j (by omega)
  · rw [show 4 - (4 - level) = level by omega]

/-! ### Tables with one entry each -/

/-- Tables at `0x1000`, `0x2000`, `0x3000` and `0x4000`. The first entry of each leads to the next
one, if it is present; the others are 0. -/
structure FirstEntries (mem : Mem) : Prop where
  others : ∀ {d i}, d < 4 → i < 512 → i ≠ 0 → mem (0x1000 * (d + 1) + 8 * i) = 0
  frame : ∀ {d}, d < 4 → present (mem (0x1000 * (d + 1))) = true →
    frame (mem (0x1000 * (d + 1))) = 0x1000 * (d + 2)
  small : ∀ {d}, d < 4 → present (mem (0x1000 * (d + 1))) = true →
    large (mem (0x1000 * (d + 1))) = false

namespace FirstEntries

variable {mem : Mem} (h : FirstEntries mem) {d p : ℕ}

include h

/-- The tables, and the page. -/
theorem of_pageAt {follows : ℕ → BitVec 64 → Bool}
    (hpresent : ∀ d e, follows d e = true → present e = true) {page : ℕ} (hd : d ≤ 4)
    (hp : p < 512 ^ d) (hpage : pageAt follows mem 0x1000 d p = some page) :
    p = 0 ∧ page = 0x1000 * (d + 1) := by
  induction d generalizing p page with
  | zero => exact ⟨by omega, (Option.some.inj hpage).symm⟩
  | succ d ih =>
    cases htable : pageAt follows mem 0x1000 d (p / 512) with
    | none =>
      rw [pageAt_of_none htable] at hpage
      cases hpage
    | some table =>
      rw [pow_succ] at hp
      obtain ⟨hparent, rfl⟩ := ih (by omega) (by omega) htable
      have hindex : p % 512 < 512 := Nat.mod_lt _ (by decide)
      rw [pageAt_of_table htable, entryAt_of_table htable] at hpage
      split_ifs at hpage with hfollows
      have hset := hpresent _ _ hfollows
      by_cases hne : p % 512 = 0
      · rw [hne, Nat.mul_zero, Nat.add_zero] at hpage hset
        rw [h.frame (by omega) hset] at hpage
        exact ⟨by omega, (Option.some.inj hpage).symm⟩
      · rw [h.others (by omega) hindex hne] at hset
        cases hset

/-- An entry that is present is the first one of its table. -/
theorem small_entryAt {follows : ℕ → BitVec 64 → Bool}
    (hpresent : ∀ d e, follows d e = true → present e = true) (hd : d ≤ 4) (hp : p < 512 ^ d)
    (hset : present (entryAt follows mem 0x1000 d p) = true) :
    large (entryAt follows mem 0x1000 d p) = false := by
  cases d with
  | zero =>
    rw [entryAt]
    rfl
  | succ d =>
    cases htable : pageAt follows mem 0x1000 d (p / 512) with
    | none =>
      rw [entryAt_of_none htable]
      rfl
    | some table =>
      rw [pow_succ] at hp
      obtain ⟨-, rfl⟩ := h.of_pageAt hpresent (by omega) (by omega) htable
      have hindex : p % 512 < 512 := Nat.mod_lt _ (by decide)
      rw [entryAt_of_table htable] at hset ⊢
      by_cases hne : p % 512 = 0
      · rw [hne, Nat.mul_zero, Nat.add_zero] at hset ⊢
        exact h.small (by omega) hset
      · rw [h.others (by omega) hindex hne] at hset
        cases hset

theorem lowerTree : LowerTree mem 0x1000 where
  aligned := rfl
  direct := by
    intro d p table hd hp htable
    obtain ⟨-, rfl⟩ := h.of_pageAt (fun _ _ ↦ present_of_leads) (by omega) (inLower_lt hp) htable
    rw [InDirectMap, show pageOffset.toNat = 0xffff806000000000 from rfl]
    omega
  distinct := by
    intro d p d' p' table hd hd' hp hp' htable htable'
    obtain ⟨rfl, rfl⟩ := h.of_pageAt (fun _ _ ↦ present_of_leads) (by omega) hp htable
    obtain ⟨rfl, heq⟩ := h.of_pageAt (fun _ _ ↦ present_of_leads) (by omega) hp' htable'
    exact ⟨by omega, rfl⟩
  no_large := by
    intro d p hd hp hset
    exact h.small_entryAt (fun _ _ ↦ present_of_leads) (by omega) (inLower_lt hp) hset

/-- Addresses are mapped to one page only. -/
theorem of_walk {level v a : ℕ} (hlevel : level ≤ 4)
    (hwalk : walk mem level (0x1000 * (5 - level)) v = some a) : 0x5000 ≤ a ∧ a < 0x6000 := by
  induction level with
  | zero =>
    have ha := Option.some.inj hwalk
    omega
  | succ level ih =>
    have hindex := index_lt (level + 1) v
    obtain ⟨d, hd⟩ : ∃ d, 5 - (level + 1) = d + 1 ∧ d < 4 ∧ 5 - level = d + 2 :=
      ⟨3 - level, by omega⟩
    rw [hd.1] at hwalk
    by_cases hzero : index (level + 1) v = 0
    · have he : mem (entryAddr (level + 1) (0x1000 * (d + 1)) v) = mem (0x1000 * (d + 1)) := by
        rw [entryAddr, hzero]
        rfl
      cases hset : present (mem (0x1000 * (d + 1))) with
      | false =>
        rw [walk_not_present he hset] at hwalk
        cases hwalk
      | true =>
        rw [walk_table he hset (h.small hd.2.1 hset), h.frame hd.2.1 hset] at hwalk
        refine ih (by omega) ?_
        rwa [hd.2.2]
    · have he : mem (entryAddr (level + 1) (0x1000 * (d + 1)) v) = 0 :=
        h.others hd.2.1 hindex hzero
      rw [walk_not_present he rfl] at hwalk
      cases hwalk

end FirstEntries

/-- One page after another, from `0x10000` on. -/
def highPool (call : ℕ) : Addr := p2v (BitVec.ofNat 64 (0x10000 + 0x1000 * call))

theorem newPage_highPool {call : ℕ} (h : call < 2 ^ 35) :
    newPage highPool call = 0x10000 + 0x1000 * call := by
  rw [newPage, highPool, p2v, BitVec.add_comm, BitVec.add_sub_cancel, BitVec.toNat_ofNat,
    Nat.mod_eq_of_lt (by omega)]

theorem FirstEntries.allocated {mem : Mem} (h : FirstEntries mem) {calls : ℕ}
    (hcalls : calls ≤ 2 ^ 32) : Allocated highPool mem 0x1000 0 calls where
  direct := by
    intro call _ hlt
    rw [InDirectMap, newPage_highPool (by omega),
      show pageOffset.toNat = 0xffff806000000000 from rfl]
    omega
  aligned := by
    intro call _ hlt
    rw [newPage_highPool (by omega)]
    omega
  distinct := by
    intro call call' _ hlt _ hlt' heq
    rw [newPage_highPool (by omega), newPage_highPool (by omega)] at heq
    omega
  unused := by
    intro call _ hlt hused
    rw [newPage_highPool (by omega)] at hused
    rcases hused with ⟨d, p, hd, hp, htable⟩ | ⟨v, a, hwalk, hge, -⟩
    · obtain ⟨-, heq⟩ := h.of_pageAt (fun _ _ ↦ present_of_leads) (by omega) hp htable
      omega
    · have hlt := (h.of_walk le_rfl hwalk).2
      omega

/-- No page is mapped. -/
def emptyTable : PagingState := ⟨fun _ ↦ 0, 0⟩

theorem firstEntries_emptyTable : FirstEntries emptyTable.mem := by
  have hzero : ¬ present 0 = true := by decide
  have hnone : ∀ a, ¬ present (emptyTable.mem a) = true := fun _ ↦ hzero
  exact ⟨fun _ _ _ ↦ rfl, fun _ hset ↦ absurd hset (hnone _), fun _ hset ↦ absurd hset (hnone _)⟩

theorem entryAt_emptyTable {follows : ℕ → BitVec 64 → Bool} (root d p : ℕ) :
    entryAt follows emptyTable.mem root d p = 0 := by
  cases d with
  | zero => rfl
  | succ d =>
    cases htable : pageAt follows emptyTable.mem root d (p / 512) with
    | none => exact entryAt_of_none htable
    | some table => exact entryAt_of_table htable

/-- The last page of one table and the first page of the next one are mapped. -/
theorem demand_mapping_exact_two : ∃ s', setupPageMaps highPool 0x1000 emptyTable 0x1ff000 2 true =
      some s' ∧ ExactlyMapped emptyTable.mem s'.mem 0x1000 511 2 := by
  have hrange : ∀ i < (2 : BitVec 32).toNat, pageNo 0x1ff000 + i < 2 ^ 35 := by
    have hpage : pageNo 0x1ff000 = 511 := rfl
    intro i hi
    have hi : i < 2 := hi
    omega
  have htree : LowerTree emptyTable.mem 0x1000 := firstEntries_emptyTable.lowerTree
  obtain ⟨s', hs', hiff⟩ := @demand_mapping_exact highPool 0x1000 emptyTable _ _ hrange htree
  obtain ⟨s'', hs'', hcalls, -⟩ := @setupPageMaps_run highPool 0x1000 emptyTable _ _ (by decide)
    hrange htree
  obtain rfl := Option.some.inj (hs''.symm.trans hs')
  refine ⟨s'', hs', (hiff (firstEntries_emptyTable.allocated (hcalls.trans (by decide)))).mpr
    (entriesServe_of_clear ?_ ?_)⟩
  · rintro i - ⟨hpresent, -⟩
    rw [treeEntry, entryAt_emptyTable] at hpresent
    cases hpresent
  · intro i _ level _
    rw [treeEntry, entryAt_emptyTable]
    rfl

/-- Two tables. The first entry of the second one is not present, and has bit 7 set. -/
def bitSeven (a : ℕ) : BitVec 64 := if a = 0x1000 then 0x2007 else if a = 0x2000 then 0x80 else 0

theorem firstEntries_bitSeven : FirstEntries bitSeven := by
  have hset : ∀ d, present (bitSeven (0x1000 * (d + 1))) = true → d = 0 := by
    intro d hset
    by_contra hne
    rw [bitSeven, if_neg (by omega)] at hset
    split_ifs at hset
    · exact absurd hset (by decide)
    · exact absurd hset (by decide)
  refine ⟨fun _ hi hne ↦ ?_, fun {d} _ hpresent ↦ ?_, fun {d} _ hpresent ↦ ?_⟩
  · rw [bitSeven, if_neg (by omega), if_neg (by omega)]
  · obtain rfl := hset d hpresent
    rfl
  · obtain rfl := hset d hpresent
    rfl

/-- The entry becomes a large page: the table behind it, which is new, is on no walk. -/
theorem not_demand_mapping_exact :
    ¬ ∀ (pool : ℕ → Addr) (cr3 : Addr) (s : PagingState) (addr : Addr)
    (n : BitVec 32), (∀ i < n.toNat, pageNo addr + i < 2 ^ 35) → LowerTree s.mem cr3.toNat →
    ∃ s', setupPageMaps pool cr3 s addr n true = some s' ∧
      (Allocated pool s.mem cr3.toNat s.calls s'.calls →
        ExactlyMapped s.mem s'.mem cr3.toNat (pageNo addr) n.toNat) := by
  intro hall
  have hrange : ∀ i < (1 : BitVec 32).toNat, pageNo 0 + i < 2 ^ 35 := by
    have hpage : pageNo 0 = 0 := rfl
    intro i hi
    have hi : i < 1 := hi
    omega
  have htree : LowerTree bitSeven 0x1000 := firstEntries_bitSeven.lowerTree
  obtain ⟨s', hs', hexact⟩ := hall highPool 0x1000 ⟨bitSeven, 0⟩ 0 1 hrange htree
  obtain ⟨s'', hs'', hcalls, hrun⟩ := @setupPageMaps_run highPool 0x1000 ⟨bitSeven, 0⟩ 0 1
    (by decide) hrange htree
  obtain rfl := Option.some.inj (hs''.symm.trans hs')
  have hpages := firstEntries_bitSeven.allocated (hcalls.trans (by decide))
  have hserve := (hrun hpages).rights_iff.mp (hexact hpages).rights
  -- the entry is handled, and is not present
  have hhandled : HandledOn bitSeven 0x1000 0 1 2 0 :=
    ⟨by decide, by decide, 0, le_rfl, by decide, fun q _ hlt ↦ absurd hlt (Nat.not_lt_zero q),
      fun hleaf ↦ absurd hleaf (by decide), rfl⟩
  have hclear := (hserve 0 (by decide) 2 (by decide)).1 hhandled (by decide) (.inr rfl)
  revert hclear
  decide

end VimOS
