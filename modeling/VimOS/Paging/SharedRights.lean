import VimOS.Paging.DemandMapping

/-!
# The rights of other pages

`setupPageMap` assigns `rw` to every entry it passes and sets `us` in it, whether the entry is new
or leads to pages that were mapped before. So a call changes the rights of pages outside its range,
those that share a table with it: `SharingServes` says exactly of which, from the entries as they
are before the call. A page that is not mapped may besides become part of a large page, if an entry
on the way to it that is not present has bit 7 set.
-/

namespace VimOS

open PageWalk

/-- A page has the rights it had. -/
structure SameRights (mem mem' : Mem) (root q : ℕ) : Prop where
  writable : Allows writable mem' 4 root (4096 * q) ↔ Allows writable mem 4 root (4096 * q)
  user : Allows user mem' 4 root (4096 * q) ↔ Allows user mem 4 root (4096 * q)

/-- The page is mapped, and the entries on the way to it that a call leaves alone give a right. -/
def RestAllows (right : BitVec 64 → Bool) (mem : Mem) (root page n q : ℕ) : Prop :=
  ∀ level < 4, let e := treeEntry mem root (4 - level) (q / 512 ^ level)
    present e = true ∧ (¬ HandledOn mem root page n level q → right e = true)

/-- The entries on the way to a page that a call touches have given the right already. -/
def TouchedAllow (right : BitVec 64 → Bool) (mem : Mem) (root page n q : ℕ) : Prop :=
  ∀ level < 4, HandledOn mem root page n level q →
    right (treeEntry mem root (4 - level) (q / 512 ^ level)) = true

/-- The entries on the way to a page are fit for a call with rights `rw` for other pages. -/
structure SharingServes (rw : Bool) (mem : Mem) (root page n q : ℕ) : Prop where
  writable : (∃ level < 4, HandledOn mem root page n level q) →
    RestAllows writable mem root page n q →
    (rw = true ↔ TouchedAllow writable mem root page n q)
  user : RestAllows user mem root page n q → TouchedAllow user mem root page n q
  clear : ∀ level, level = 1 ∨ level = 2 → HandledOn mem root page n level q →
    present (treeEntry mem root (4 - level) (q / 512 ^ level)) = false →
    large (treeEntry mem root (4 - level) (q / 512 ^ level)) = false

section Handled

variable {mem : Mem} {root page n q level level' : ℕ}

/-- Above an entry that is handled, all entries are. -/
theorem HandledOn.up (h : HandledOn mem root page n level q) (hle : level ≤ level')
    (hlevel : level' < 4) : HandledOn mem root page n level' q := by
  rcases hle.eq_or_lt with rfl | hlt
  · exact h
  · obtain ⟨-, -, q', hge, hlt', hbefore, -, hq⟩ := h
    refine ⟨by omega, by omega, q', hge, hlt', hbefore, fun hleaf ↦ by omega, ?_⟩
    obtain ⟨k, rfl⟩ := Nat.exists_eq_add_of_le hle
    rw [show 4 - (4 - level) = level by omega] at hq
    rw [show 4 - (4 - (level + k)) = level + k by omega, pow_add, ← Nat.div_div_eq_div_mul,
      ← Nat.div_div_eq_div_mul, hq]

/-- The lowest entry of a page outside the range is not handled. -/
theorem not_handledOn_leaf (hout : ∀ i < n, q ≠ page + i) : ¬ HandledOn mem root page n 0 q := by
  rintro ⟨-, -, q', hge, hlt, -, -, hq⟩
  rw [Nat.sub_zero, Nat.sub_self, pow_zero, Nat.div_one, Nat.div_one] at hq
  exact hout (q' - page) (by omega) (by omega)

/-- On the way to a page that is mapped, all entries are present. -/
theorem present_of_leaf (hpresent : present (treeEntry mem root 4 q) = true) (hlevel : level < 4) :
    present (treeEntry mem root (4 - level) (q / 512 ^ level)) = true := by
  by_contra hnot
  obtain ⟨depth, hdepth⟩ : ∃ depth, 4 - level = depth + 1 := ⟨3 - level, by omega⟩
  have hnone : treePage mem root (4 - level) (q / 512 ^ level) = none := by
    rw [hdepth] at hnot ⊢
    exact treePage_none_of_entry (Bool.eq_false_iff.mpr hnot)
  have hpage := pageAt_none_below (by omega) hnone
  rw [← treePage, treePage_of_entry hpresent] at hpage
  cases hpage

end Handled

/-! ## After the call -/

namespace MapRun

variable {pool : ℕ → Addr} {rw : Bool} {root page n q : ℕ} {s s' : PagingState}
  {right : BitVec 64 → Bool} (h : MapRun pool rw root page n s s')

include h

theorem allows_before (hq : q < 2 ^ 35) : Allows right s.mem 4 root (4096 * q) ↔ ∀ level < 4,
    let e := treeEntry s.mem root (4 - level) (q / 512 ^ level)
    present e = true ∧ right e = true := by
  refine allows_iff le_rfl rfl fun level hlevel hpresent ↦ ?_
  exact h.large_of_present (by omega) (inLower_page level (by omega) hq) hpresent

/-- After the call too, if no new large page comes up. -/
theorem allows_after (hq : q < 2 ^ 35)
    (hclear : ∀ level, level = 1 ∨ level = 2 → HandledOn s.mem root page n level q →
      present (treeEntry s.mem root (4 - level) (q / 512 ^ level)) = false →
      large (treeEntry s.mem root (4 - level) (q / 512 ^ level)) = false) :
    Allows right s'.mem 4 root (4096 * q) ↔ ∀ level < 4,
      let e := treeEntry s'.mem root (4 - level) (q / 512 ^ level)
      present e = true ∧ right e = true := by
  refine allows_iff le_rfl rfl fun level hlevel hpresent ↦ ?_
  have hp := inLower_page level (by omega) hq
  rw [← treeEntry, h.large_eq (by omega) hp]
  cases hbefore : present (treeEntry s.mem root (4 - level) (q / 512 ^ level)) with
  | true => exact h.large_of_present (by omega) hp hbefore
  | false =>
    by_cases hhandled : HandledOn s.mem root page n level q
    · exact hclear level hlevel hhandled hbefore
    · rw [← treeEntry, h.not_handled (by omega) hp hhandled, hbefore] at hpresent
      cases hpresent

/-- A new large page gives the user's right. -/
theorem not_user_of_large (hq : q < 2 ^ 35) {level : ℕ} (hlevel : level = 1 ∨ level = 2)
    (hhandled : HandledOn s.mem root page n level q)
    (hpresent : present (treeEntry s.mem root (4 - level) (q / 512 ^ level)) = false)
    (hlarge : large (treeEntry s.mem root (4 - level) (q / 512 ^ level)) = true) :
    Allows user s'.mem 4 root (4096 * q) ∧ ¬ Allows user s.mem 4 root (4096 * q) := by
  constructor
  · refine allows_of_large hlevel (by omega) le_rfl rfl (fun l hge hl ↦ ?_) ?_
    · have hp := inLower_page l (by omega) hq
      obtain ⟨hpresent', huser, -⟩ := h.handled (by omega) hp (hhandled.up hge hl)
      exact ⟨hpresent', huser⟩
    · rw [← treeEntry, h.large_eq (by omega) (inLower_page level (by omega) hq), hlarge]
  · rw [h.allows_before hq]
    intro hall
    have htrue := (hall level (by omega)).1
    rw [hpresent] at htrue
    cases htrue

/-- The right of a page that is mapped comes from the entries that the call touches and from the
others. -/
theorem allows_before_iff (hq : q < 2 ^ 35) (hleaf : present (treeEntry s.mem root 4 q) = true) :
    Allows right s.mem 4 root (4096 * q) ↔
      TouchedAllow right s.mem root page n q ∧ RestAllows right s.mem root page n q := by
  rw [h.allows_before hq]
  constructor
  · intro hall
    exact ⟨fun level hlevel _ ↦ (hall level hlevel).2, fun level hlevel ↦
      ⟨(hall level hlevel).1, fun _ ↦ (hall level hlevel).2⟩⟩
  · rintro ⟨htouched, hrest⟩ level hlevel
    refine ⟨present_of_leaf hleaf hlevel, ?_⟩
    by_cases hhandled : HandledOn s.mem root page n level q
    · exact htouched level hlevel hhandled
    · exact (hrest level hlevel).2 hhandled

section Given

variable (hclear : ∀ level, level = 1 ∨ level = 2 → HandledOn s.mem root page n level q →
    present (treeEntry s.mem root (4 - level) (q / 512 ^ level)) = false →
    large (treeEntry s.mem root (4 - level) (q / 512 ^ level)) = false) (given : Bool)
  (hgiven : ∀ level < 4, HandledOn s.mem root page n level q →
    right (treeEntry s'.mem root (4 - level) (q / 512 ^ level)) = given)

include hclear hgiven

/-- The entries that the call touches give what the call gives. -/
theorem allows_after_iff (hq : q < 2 ^ 35) (hleaf : present (treeEntry s.mem root 4 q) = true) :
    Allows right s'.mem 4 root (4096 * q) ↔
      ((∃ level < 4, HandledOn s.mem root page n level q) → given = true) ∧
        RestAllows right s.mem root page n q := by
  rw [h.allows_after hq hclear]
  constructor
  · intro hall
    refine ⟨?_, fun level hlevel ↦ ⟨present_of_leaf hleaf hlevel, fun hnot ↦ ?_⟩⟩
    · rintro ⟨level, hlevel, hhandled⟩
      rw [← hgiven level hlevel hhandled]
      exact (hall level hlevel).2
    · rw [← h.not_handled (by omega) (inLower_page level (by omega) hq) hnot]
      exact (hall level hlevel).2
  · rintro ⟨hgiven', hrest⟩ level hlevel
    have hp := inLower_page level (by omega) hq
    dsimp only
    by_cases hhandled : HandledOn s.mem root page n level q
    · refine ⟨(h.handled (by omega) hp hhandled).1, ?_⟩
      rw [hgiven level hlevel hhandled]
      exact hgiven' ⟨level, hlevel, hhandled⟩
    · rw [h.not_handled (by omega) hp hhandled]
      exact ⟨(hrest level hlevel).1, (hrest level hlevel).2 hhandled⟩

/-- A right is as before if and only if what the call gives is what the entries it touches gave,
unless the page lacks it for another reason. -/
theorem right_iff (hq : q < 2 ^ 35) (hout : ∀ i < n, q ≠ page + i) :
    (Allows right s'.mem 4 root (4096 * q) ↔ Allows right s.mem 4 root (4096 * q)) ↔
      ((∃ level < 4, HandledOn s.mem root page n level q) → RestAllows right s.mem root page n q →
        (given = true ↔ TouchedAllow right s.mem root page n q)) := by
  by_cases hleaf : present (treeEntry s.mem root 4 q) = true
  · rw [h.allows_after_iff hclear given hgiven hq hleaf, h.allows_before_iff hq hleaf,
      and_congr_left_iff]
    by_cases htouched : ∃ level < 4, HandledOn s.mem root page n level q
    · simp only [htouched, true_imp_iff]
    · have hall : TouchedAllow right s.mem root page n q := fun level hlevel hhandled ↦
        absurd ⟨level, hlevel, hhandled⟩ htouched
      simp only [htouched, false_imp_iff, hall, iff_true, imp_true_iff]
  · -- the page is not mapped, and its own entry stays as it is
    have hzero : q / 512 ^ 0 = q := by rw [pow_zero, Nat.div_one]
    have hentry := h.not_handled le_rfl (inLower_four hq) (hzero ▸ not_handledOn_leaf hout)
    rw [h.allows_after hq hclear, h.allows_before hq]
    refine iff_of_true (iff_of_false (fun hall ↦ hleaf ?_) fun hall ↦ hleaf ?_) fun _ hrest ↦
      absurd ?_ hleaf
    · have hpresent := (hall 0 (by decide)).1
      rw [hzero] at hpresent
      rwa [← hentry]
    · have hpresent := (hall 0 (by decide)).1
      rwa [hzero] at hpresent
    · have hpresent := (hrest 0 (by decide)).1
      rwa [hzero] at hpresent

end Given

/-- **One page outside the range.** -/
theorem sameRights_iff (hq : q < 2 ^ 35) (hout : ∀ i < n, q ≠ page + i) :
    SameRights s.mem s'.mem root q ↔ SharingServes rw s.mem root page n q := by
  by_cases hclear : ∀ level, level = 1 ∨ level = 2 → HandledOn s.mem root page n level q →
      present (treeEntry s.mem root (4 - level) (q / 512 ^ level)) = false →
      large (treeEntry s.mem root (4 - level) (q / 512 ^ level)) = false
  · have hhandled := fun level (hlevel : level < 4) (hl : HandledOn s.mem root page n level q) ↦
      h.handled (by omega) (inLower_page level (by omega) hq) hl
    have hwritable := h.right_iff hclear rw
      (fun level hlevel hl ↦ (hhandled level hlevel hl).2.2) hq
      hout
    have huser := h.right_iff hclear true (fun level hlevel hl ↦ (hhandled level hlevel hl).2.1) hq
      hout
    constructor
    · rintro ⟨hsame, hsame'⟩
      refine ⟨hwritable.mp hsame, fun hrest level hlevel hhandled ↦ ?_, hclear⟩
      exact (huser.mp hsame' ⟨level, hlevel, hhandled⟩ hrest).mp rfl level hlevel hhandled
    · rintro ⟨hserves, hserves', -⟩
      exact ⟨hwritable.mpr hserves, huser.mpr fun _ hrest ↦ iff_of_true rfl (hserves' hrest)⟩
  · refine iff_of_false (fun hsame ↦ ?_) fun hserves ↦ hclear hserves.clear
    refine hclear fun level hlevel hhandled hpresent ↦ Bool.eq_false_iff.mpr fun hlarge ↦ ?_
    obtain ⟨hafter, hbefore⟩ := h.not_user_of_large hq hlevel hhandled hpresent hlarge
    exact hbefore (hsame.user.mp hafter)

/-- In the upper half no page is concerned. -/
theorem sameRights_upper (hge : 2 ^ 35 ≤ q) (hlt : q < 2 ^ 36) :
    SameRights s.mem s'.mem root q where
  writable := allows_congr le_rfl rfl fun _ _ _ hd hp htable ↦ h.upper_entry hge hlt hd hp htable
  user := allows_congr le_rfl rfl fun _ _ _ hd hp htable ↦ h.upper_entry hge hlt hd hp htable

end MapRun

/-! ## The pages outside the range -/

section Outside

variable {pool : ℕ → Addr} {cr3 : Addr} {s : PagingState} {addr : Addr} {n : BitVec 32}

theorem sharingServes_zero {rw : Bool} {mem : Mem} {root page q : ℕ} :
    SharingServes rw mem root page 0 q := by
  have hnone : ∀ level, ¬ HandledOn mem root page 0 level q := by
    rintro level ⟨-, -, q', hge, hlt, -⟩
    omega
  refine ⟨?_, fun _ level _ hhandled ↦ absurd hhandled (hnone level),
    fun level _ hhandled ↦ absurd hhandled (hnone level)⟩
  rintro ⟨level, -, hhandled⟩
  exact absurd hhandled (hnone level)

/-- **Rights outside the range.** If memory is allocated for a call, every page outside its range
has the rights it had if and only if the entries on the way to each such page serve for it. -/
theorem rights_kept_iff (rw : Bool) (hrange : ∀ i < n.toNat, pageNo addr + i < 2 ^ 35)
    (htree : LowerTree s.mem cr3.toNat) :
    ∃ s', setupPageMaps pool cr3 s addr n rw = some s' ∧
      (Allocated pool s.mem cr3.toNat s.calls s'.calls →
        ((∀ q < 2 ^ 36, (∀ i < n.toNat, q ≠ pageNo addr + i) →
          SameRights s.mem s'.mem cr3.toNat q) ↔
        ∀ q < 2 ^ 35, (∀ i < n.toNat, q ≠ pageNo addr + i) →
          SharingServes rw s.mem cr3.toNat (pageNo addr) n.toNat q)) := by
  by_cases hn : n = 0
  · obtain rfl := hn
    exact ⟨s, setupPageMaps_zero rw, fun _ ↦ iff_of_true (fun _ _ _ ↦ ⟨Iff.rfl, Iff.rfl⟩)
      fun _ _ _ ↦ sharingServes_zero⟩
  · obtain ⟨s', hs', -, hrun⟩ := setupPageMaps_mapRun rw hn hrange htree
    refine ⟨s', hs', fun hpages ↦ ?_⟩
    have hrun := hrun hpages
    constructor
    · intro hsame q hq hout
      exact (hrun.sameRights_iff hq hout).mp (hsame q (by omega) hout)
    · intro hserves q hq hout
      rcases Nat.lt_or_ge q (2 ^ 35) with hlow | hhigh
      · exact (hrun.sameRights_iff hlow hout).mpr (hserves q hlow hout)
      · exact hrun.sameRights_upper hhigh hq

/-! ### A page beside the range -/

/-- Four tables, in which page 0 is mapped, user and writable. -/
def onePage (a : ℕ) : BitVec 64 :=
  if a = 0x1000 then 0x2007 else if a = 0x2000 then 0x3007 else if a = 0x3000 then 0x4007
  else if a = 0x4000 then 0x5007 else 0

theorem firstEntries_onePage : FirstEntries onePage := by
  have hcases : ∀ {d}, d < 4 → d = 0 ∨ d = 1 ∨ d = 2 ∨ d = 3 := fun {d} hd ↦ by omega
  refine ⟨fun hd hi hne ↦ ?_, fun hd _ ↦ ?_, fun hd _ ↦ ?_⟩
  · rw [onePage, if_neg (by omega), if_neg (by omega), if_neg (by omega), if_neg (by omega)]
  · rcases hcases hd with rfl | rfl | rfl | rfl <;> rfl
  · rcases hcases hd with rfl | rfl | rfl | rfl <;> rfl

/-- The entries on the way to page 0. -/
theorem treeEntry_onePage : ∀ level < 4,
    present (treeEntry onePage 0x1000 (4 - level) (0 / 512 ^ level)) = true ∧
    writable (treeEntry onePage 0x1000 (4 - level) (0 / 512 ^ level)) = true ∧
    user (treeEntry onePage 0x1000 (4 - level) (0 / 512 ^ level)) = true := by
  decide

theorem large_onePage (a : ℕ) : large (onePage a) = false := by
  rw [onePage]
  split_ifs <;> rfl

theorem large_treeEntry_onePage (root d p : ℕ) : large (treeEntry onePage root d p) = false := by
  cases d with
  | zero =>
    rw [treeEntry, entryAt]
    rfl
  | succ d =>
    cases htable : treePage onePage root d (p / 512) with
    | none =>
      rw [treeEntry, entryAt_of_none htable]
      rfl
    | some table =>
      rw [treeEntry, entryAt_of_table htable]
      exact large_onePage _

/-- The two pages behind page 0 are mapped, with the rights it has: it shares three tables with
them, and keeps its rights. -/
theorem rights_kept_iff_two :
    ∃ s', setupPageMaps highPool 0x1000 ⟨onePage, 0⟩ 0x1000 2 true = some s' ∧
    ∀ q < 2 ^ 36, (∀ i < 2, q ≠ 1 + i) → SameRights onePage s'.mem 0x1000 q := by
  have hrange : ∀ i < (2 : BitVec 32).toNat, pageNo 0x1000 + i < 2 ^ 35 := by
    have hpage : pageNo 0x1000 = 1 := rfl
    intro i hi
    have hi : i < 2 := hi
    omega
  have htree : LowerTree onePage 0x1000 := firstEntries_onePage.lowerTree
  obtain ⟨s', hs', hiff⟩ := @rights_kept_iff highPool 0x1000 ⟨onePage, 0⟩ _ _ true hrange htree
  obtain ⟨s'', hs'', hcalls, -⟩ :=
    @setupPageMaps_mapRun highPool 0x1000 ⟨onePage, 0⟩ _ _ true (by decide) hrange htree
  obtain rfl := Option.some.inj (hs''.symm.trans hs')
  have hiff := hiff (firstEntries_onePage.allocated (hcalls.trans (by decide)))
  -- a page that is mapped is page 0
  have hzero : ∀ {right q}, q < 2 ^ 35 → RestAllows right onePage 0x1000 1 2 q → q = 0 := by
    intro right q hq hrest
    have hpresent := (hrest 0 (by decide)).1
    rw [pow_zero, Nat.div_one] at hpresent
    have hpage := treePage_of_entry hpresent
    exact (firstEntries_onePage.of_pageAt (fun _ _ ↦ id) le_rfl (by omega) hpage).1
  refine ⟨s'', hs', hiff.mpr fun q hq _ ↦ ⟨fun _ hrest ↦ ?_, fun hrest ↦ ?_, fun level _ _ _ ↦ ?_⟩⟩
  · obtain rfl := hzero hq hrest
    exact iff_of_true rfl fun level hlevel _ ↦ (treeEntry_onePage level hlevel).2.1
  · obtain rfl := hzero hq hrest
    exact fun level hlevel _ ↦ (treeEntry_onePage level hlevel).2.2
  · exact large_treeEntry_onePage _ _ _

/-- The page behind page 0 is mapped without the right to write: page 0 is written no more. -/
theorem not_rights_kept : ¬ ∀ (pool : ℕ → Addr) (cr3 : Addr) (s : PagingState) (addr : Addr)
    (n : BitVec 32) (rw : Bool), (∀ i < n.toNat, pageNo addr + i < 2 ^ 35) →
    LowerTree s.mem cr3.toNat →
    ∃ s', setupPageMaps pool cr3 s addr n rw = some s' ∧
      (Allocated pool s.mem cr3.toNat s.calls s'.calls →
        ∀ q < 2 ^ 36, (∀ i < n.toNat, q ≠ pageNo addr + i) →
          SameRights s.mem s'.mem cr3.toNat q) := by
  intro hall
  have hpage : pageNo 0x1000 = 1 := rfl
  have hn : (1 : BitVec 32).toNat = 1 := rfl
  have hrange : ∀ i < (1 : BitVec 32).toNat, pageNo 0x1000 + i < 2 ^ 35 := by
    intro i hi
    omega
  have htree : LowerTree onePage 0x1000 := firstEntries_onePage.lowerTree
  obtain ⟨s', hs', hsame⟩ := hall highPool 0x1000 ⟨onePage, 0⟩ 0x1000 1 false hrange htree
  obtain ⟨s'', hs'', hcalls, hrun⟩ :=
    @setupPageMaps_mapRun highPool 0x1000 ⟨onePage, 0⟩ 0x1000 1 false
    (by decide) hrange htree
  obtain rfl := Option.some.inj (hs''.symm.trans hs')
  rw [hpage, hn] at hrun hsame
  have hpages := firstEntries_onePage.allocated (hcalls.trans (by decide))
  have hout : ∀ i < 1, 0 ≠ 1 + i := fun i _ ↦ by omega
  have hserves := ((hrun hpages).sameRights_iff (by decide) hout).mp
      (hsame hpages 0 (by decide) hout)
  have hhandled : HandledOn onePage 0x1000 1 1 3 0 :=
    ⟨by decide, by decide, 1, le_rfl, by decide, fun q hge hlt ↦ by omega,
      fun hleaf ↦ by omega, by decide⟩
  have hwrite := (hserves.writable ⟨3, by decide, hhandled⟩ fun level hlevel ↦
    ⟨(treeEntry_onePage level hlevel).1, fun _ ↦ (treeEntry_onePage level hlevel).2.1⟩).mpr
      fun level hlevel _ ↦ (treeEntry_onePage level hlevel).2.1
  cases hwrite

end Outside

end VimOS
