import VimOS.Library.PageTree
import VimOS.Paging.PageCount

/-!
# The entries that `setupPageMap` changes

`setupPageMap` follows every entry that is present, whatever its other bits are. On the entries of
the lower half, as a tree (`Library/PageTree`), a call touches those on the way to the pages it
maps: an entry that is not present is linked to a new page, and each is given its rights
(`touchedEntry`). All else is left alone. `Touches` says this for any set of entries, so that the
body of the loop, the loop and the recursion are put together by unions of sets (`Touches.trans`).

What is kept besides (`Sound`): the lower half stays a tree, in tables it had at first or in pages
that were allocated since; memory is written nowhere else; and a page allocated since is a table, or
zero.
-/

namespace VimOS

open PageWalk

variable {pool : ℕ → Addr} {rw : Bool} {root : ℕ}

/-- The entry `p` of a depth, as `setupPageMap` finds it. -/
abbrev treeEntry (mem : Mem) (root depth p : ℕ) : BitVec 64 :=
  entryAt (fun _ ↦ present) mem root depth p

/-- The page an entry leads to, as `setupPageMap` finds it. -/
abbrev treePage (mem : Mem) (root depth p : ℕ) : Option ℕ :=
  pageAt (fun _ ↦ present) mem root depth p

theorem present_zero : present 0 = false := rfl

/-- What becomes of an entry on the way to a page, where `new` is the page for one that is not
present. -/
def touchedEntry (rw : Bool) (e : BitVec 64) (new : Addr) : BitVec 64 :=
  markEntry rw (if present e then e else linkEntry e new)

section Entries

variable (e : BitVec 64) (new new' : Addr)

@[simp] theorem present_touchedEntry : present (touchedEntry rw e new) = true := by
  rw [touchedEntry, present_markEntry]
  split_ifs with h
  · exact h
  · exact present_linkEntry e new

@[simp] theorem large_touchedEntry : large (touchedEntry rw e new) = large e := by
  rw [touchedEntry, large_markEntry]
  split_ifs
  · rfl
  · exact large_linkEntry e new

@[simp] theorem user_touchedEntry : user (touchedEntry rw e new) = true := user_markEntry rw _

@[simp] theorem writable_touchedEntry : writable (touchedEntry rw e new) = rw :=
  writable_markEntry rw _

theorem frame_touchedEntry_of_present {e : BitVec 64} (h : present e = true) :
    frame (touchedEntry rw e new) = frame e := by
  rw [touchedEntry, if_pos h, frame_markEntry]

/-- To touch an entry again changes nothing. -/
theorem touchedEntry_touchedEntry :
    touchedEntry rw (touchedEntry rw e new) new' = touchedEntry rw e new := by
  rw [touchedEntry, if_pos (present_touchedEntry e new)]
  apply BitVec.eq_of_toNat_eq
  rw [touchedEntry, toNat_markEntry, toNat_markEntry]
  cases rw
  · rw [Bool.toNat_false]
    omega
  · rw [Bool.toNat_true]
    omega

end Entries

/-! ## New pages -/

/-- The physical page that a call of `alloc_mem` returns. -/
def newPage (pool : ℕ → Addr) (call : ℕ) : ℕ := (pool call - pageOffset).toNat

/-- An address in a page that was returned by a call from `lo` on, before `hi`. -/
def InNewPage (pool : ℕ → Addr) (lo hi a : ℕ) : Prop :=
  ∃ call, lo ≤ call ∧ call < hi ∧ newPage pool call ≤ a ∧ a < newPage pool call + 4096

/-- The calls from `lo` on, before `hi`, return pages that are different, and no tables of the lower
half. -/
structure NewPages (pool : ℕ → Addr) (mem : Mem) (root lo hi : ℕ) : Prop where
  direct : ∀ {call}, lo ≤ call → call < hi → InDirectMap (newPage pool call)
  aligned : ∀ {call}, lo ≤ call → call < hi → newPage pool call % 4096 = 0
  distinct : ∀ {call call'}, lo ≤ call → call < hi → lo ≤ call' → call' < hi →
    newPage pool call = newPage pool call' → call = call'
  no_table : ∀ {call d p}, lo ≤ call → call < hi → d < 4 → InLower d p →
    treePage mem root d p ≠ some (newPage pool call)

theorem pool_eq (call : ℕ) : pool call = pagePointer (newPage pool call) := by
  rw [pagePointer, newPage, BitVec.ofNat_toNat, BitVec.setWidth_eq, p2v, BitVec.add_comm,
    BitVec.sub_add_cancel]

/-! ## Touched entries -/

/-- The entries of a set are touched, and no others. `call` is the call that returned the page of an
entry which was not present. -/
structure Touches (pool : ℕ → Addr) (rw : Bool) (root : ℕ) (S : ℕ → ℕ → Prop) (s s' : PagingState) :
    Prop where
  calls_le : s.calls ≤ s'.calls
  entries : ∃ call : ℕ → ℕ → ℕ,
    (∀ d p, d ≤ 4 → InLower d p → S d p → present (treeEntry s.mem root d p) = false →
      s.calls ≤ call d p ∧ call d p < s'.calls) ∧
    (∀ d p d' p', d ≤ 4 → d' ≤ 4 → InLower d p → InLower d' p' → S d p → S d' p' →
      present (treeEntry s.mem root d p) = false → present (treeEntry s.mem root d' p') = false →
      call d p = call d' p' → d = d' ∧ p = p') ∧
    ∀ d p, d ≤ 4 → InLower d p →
      (S d p → treeEntry s'.mem root d p =
        touchedEntry rw (treeEntry s.mem root d p) (pool (call d p))) ∧
      (¬ S d p → treeEntry s'.mem root d p = treeEntry s.mem root d p)

namespace Touches

variable {S S' : ℕ → ℕ → Prop} {s s₁ s₂ : PagingState}

theorem none_touched (s : PagingState) : Touches pool rw root (fun _ _ ↦ False) s s where
  calls_le := le_rfl
  entries := ⟨fun _ _ ↦ 0, fun _ _ _ _ h ↦ h.elim, fun _ _ _ _ _ _ _ _ h ↦ h.elim,
    fun _ _ _ _ ↦ ⟨fun h ↦ h.elim, fun _ ↦ rfl⟩⟩

theorem congr (h : Touches pool rw root S s s₁)
    (hS : ∀ d p, d ≤ 4 → InLower d p → (S d p ↔ S' d p)) : Touches pool rw root S' s s₁ where
  calls_le := h.calls_le
  entries := by
    obtain ⟨call, hcall, hdistinct, hentry⟩ := h.entries
    refine ⟨call, fun d p hd hp hS' ↦ hcall d p hd hp ((hS d p hd hp).mpr hS'), ?_, ?_⟩
    · intro d p d' p' hd hd' hp hp' h₁ h₂
      exact hdistinct d p d' p' hd hd' hp hp' ((hS d p hd hp).mpr h₁) ((hS d' p' hd' hp').mpr h₂)
    · intro d p hd hp
      rw [← hS d p hd hp]
      exact hentry d p hd hp

/-- What is touched first and what is touched then. -/
theorem trans (h : Touches pool rw root S s s₁) (h' : Touches pool rw root S' s₁ s₂) :
    Touches pool rw root (fun d p ↦ S d p ∨ S' d p) s s₂ where
  calls_le := h.calls_le.trans h'.calls_le
  entries := by
    classical
    obtain ⟨call, hcall, hdistinct, hentry⟩ := h.entries
    obtain ⟨call', hcall', hdistinct', hentry'⟩ := h'.entries
    -- an entry that is touched for the first time in the second part was not changed before
    have hlater : ∀ d p, d ≤ 4 → InLower d p → ¬ S d p →
        present (treeEntry s.mem root d p) = false →
          present (treeEntry s₁.mem root d p) = false := by
      intro d p hd hp hS hpresent
      rwa [(hentry d p hd hp).2 hS]
    refine ⟨fun d p ↦ if S d p then call d p else call' d p, ?_, ?_, ?_⟩
    · intro d p hd hp hS hpresent
      dsimp only
      split_ifs with hfirst
      · obtain ⟨hge, hlt⟩ := hcall d p hd hp hfirst hpresent
        exact ⟨hge, hlt.trans_le h'.calls_le⟩
      · obtain ⟨hge, hlt⟩ := hcall' d p hd hp (hS.resolve_left hfirst)
          (hlater d p hd hp hfirst hpresent)
        exact ⟨h.calls_le.trans hge, hlt⟩
    · intro d p d' p' hd hd' hp hp' hS hS' hpresent hpresent' heq
      dsimp only at heq
      split_ifs at heq with hfirst hfirst' hfirst'
      · exact hdistinct d p d' p' hd hd' hp hp' hfirst hfirst' hpresent hpresent' heq
      · have hlt := (hcall d p hd hp hfirst hpresent).2
        have hge := (hcall' d' p' hd' hp' (hS'.resolve_left hfirst')
          (hlater d' p' hd' hp' hfirst' hpresent')).1
        omega
      · have hlt := (hcall d' p' hd' hp' hfirst' hpresent').2
        have hge := (hcall' d p hd hp (hS.resolve_left hfirst) (hlater d p hd hp hfirst hpresent)).1
        omega
      · exact hdistinct' d p d' p' hd hd' hp hp' (hS.resolve_left hfirst)
          (hS'.resolve_left hfirst') (hlater d p hd hp hfirst hpresent)
          (hlater d' p' hd' hp' hfirst' hpresent') heq
    · intro d p hd hp
      dsimp only
      constructor
      · intro hS
        split_ifs with hfirst
        · have hmid := (hentry d p hd hp).1 hfirst
          by_cases hsecond : S' d p
          · rw [(hentry' d p hd hp).1 hsecond, hmid, touchedEntry_touchedEntry]
          · rw [(hentry' d p hd hp).2 hsecond, hmid]
        · rw [(hentry' d p hd hp).1 (hS.resolve_left hfirst), (hentry d p hd hp).2 hfirst]
      · intro hS
        rw [(hentry' d p hd hp).2 fun h ↦ hS (.inr h), (hentry d p hd hp).2 fun h ↦ hS (.inl h)]

end Touches

/-! ## What a step keeps -/

/-- The address of an entry of the lower half. -/
def IsEntry (mem : Mem) (root a : ℕ) : Prop :=
  ∃ d p table, d < 4 ∧ InLower (d + 1) p ∧ treePage mem root d (p / 512) = some table ∧
    a = table + 8 * (p % 512)

/-- What holds of every state that is reached from `s₀`. -/
structure Sound (pool : ℕ → Addr) (root : ℕ) (s₀ s : PagingState) : Prop where
  calls_le : s₀.calls ≤ s.calls
  tree : IsTree (fun _ ↦ present) s.mem root
  direct : ∀ {d p table}, d < 4 → InLower d p → treePage s.mem root d p = some table →
    InDirectMap table
  table : ∀ {d p table}, d < 4 → InLower d p → treePage s.mem root d p = some table →
    treePage s₀.mem root d p = some table ∨
      ∃ call, s₀.calls ≤ call ∧ call < s.calls ∧ table = newPage pool call
  kept : ∀ a, s.mem a ≠ s₀.mem a → IsEntry s₀.mem root a ∨ InNewPage pool s₀.calls s.calls a
  zero : ∀ call, s₀.calls ≤ call → call < s.calls →
    (∀ a, newPage pool call ≤ a → a < newPage pool call + 4096 → s.mem a = 0) ∨
      ∃ d p, d < 4 ∧ InLower d p ∧ treePage s.mem root d p = some (newPage pool call)

/-- A page is allocated that is no table. -/
theorem Sound.no_table {s₀ s : PagingState} (h : Sound pool root s₀ s) {K : ℕ}
    (hpool : NewPages pool s₀.mem root s₀.calls K) (hK : s.calls < K) {d p : ℕ} (hd : d < 4)
    (hp : InLower d p) : treePage s.mem root d p ≠ some (newPage pool s.calls) := by
  intro hpage
  rcases h.table hd hp hpage with hold | ⟨call, hge, hlt, heq⟩
  · exact hpool.no_table h.calls_le hK hd hp hold
  · have := hpool.distinct h.calls_le hK hge (hlt.trans hK) heq
    omega

/-! ## One entry -/

section Step

variable {s₀ s : PagingState} {K depth p table : ℕ}

/-- The pointer to an entry. -/
theorem load_entry (ht : InDirectMap table) {i : ℕ} (hi : i < 512) (s : PagingState) :
    s.load (pagePointer table + BitVec.ofNat 64 (8 * i)) = s.mem (table + 8 * i) := by
  rw [PagingState.load, toNat_pagePointer_add ht (by omega)]

theorem store_entry (ht : InDirectMap table) {i : ℕ} (hi : i < 512) (s : PagingState)
    (e : BitVec 64) : s.store (pagePointer table + BitVec.ofNat 64 (8 * i)) e =
      { s with mem := Function.update s.mem (table + 8 * i) e } := by
  rw [PagingState.store, toNat_pagePointer_add ht (by omega)]

@[simp] theorem PagingState.load_store (s : PagingState) (a : Addr) (e : BitVec 64) :
    (s.store a e).load a = e := Function.update_self _ _ _

@[simp] theorem PagingState.store_store (s : PagingState) (a : Addr) (e e' : BitVec 64) :
    (s.store a e).store a e' = s.store a e' := by
  rw [store, store, store, Function.update_idem]

/-- The two assignments to the rights. -/
theorem store_rights (s : PagingState) (a : Addr) :
    (s.store a (setField 1 1 (s.load a) rw.toNat)).store a
      (setField 2 1 ((s.store a (setField 1 1 (s.load a) rw.toNat)).load a) 1) =
      s.store a (markEntry rw (s.load a)) := by
  rw [PagingState.load_store, PagingState.store_store, markEntry]

/-- The memory in which the entry of a table is written: a new page is cleared before. -/
def cleared (pool : ℕ → Addr) (s : PagingState) (e : BitVec 64) : PagingState :=
  if present e then s
  else { mem := memsetZero (newPage pool s.calls) (8 * 512) s.mem, calls := s.calls + 1 }

/-- The body of the loop of `setupPageMap`, up to the rights. -/
theorem setNewPageMapIfNotPresent_eq {a : Addr} (ha : a ≠ 0)
    (hnull : present (s.load a) = false → pool s.calls ≠ 0)
    (hload : (cleared pool s (s.load a)).load a = s.load a) :
    let r := setNewPageMapIfNotPresent pool s a
    let s₁ := r.1.store a (setField 1 1 (r.1.load a) rw.toNat)
    r.2 = (if present (s.load a) then pointer (s.load a) else pool s.calls) ∧
      s₁.store a (setField 2 1 (s₁.load a) 1) =
        (cleared pool s (s.load a)).store a (touchedEntry rw (s.load a) (pool s.calls)) := by
  dsimp only
  rw [store_rights, setNewPageMapIfNotPresent, if_neg ha, touchedEntry]
  cases hpresent : present (s.load a) with
  | true =>
    rw [cleared, if_pos hpresent]
    exact ⟨rfl, rfl⟩
  | false =>
    have hnew : newPageMap pool s = (cleared pool s (s.load a), pool s.calls) := by
      rw [newPageMap, cleared]
      simp only [hpresent, if_neg (hnull hpresent), Bool.false_eq_true, if_false]
      rfl
    simp only [Bool.false_eq_true, if_false, hnew, if_neg (hnull hpresent), PagingState.load_store,
      PagingState.store_store, hload]
    exact ⟨trivial, rfl⟩

theorem cleared_calls_le (s : PagingState) (e : BitVec 64) :
    s.calls ≤ (cleared pool s e).calls := by
  rw [cleared]
  split_ifs
  · exact le_rfl
  · exact Nat.le_succ _

/-- The state after the entry `p` of a depth, in its table, is touched. -/
def touch (pool : ℕ → Addr) (rw : Bool) (root : ℕ) (s : PagingState) (depth p table : ℕ) :
    PagingState :=
  let e := treeEntry s.mem root depth p
  { cleared pool s e with
    mem := Function.update (cleared pool s e).mem (table + 8 * (p % 512))
      (touchedEntry rw e (pool s.calls)) }

theorem treePage_of_entry {mem : Mem} {d p : ℕ}
    (h : present (treeEntry mem root (d + 1) p) = true) :
    treePage mem root (d + 1) p = some (frame (treeEntry mem root (d + 1) p)) := by
  rw [treePage, pageAt_succ rfl, if_pos h]

theorem treePage_none_of_entry {mem : Mem} {d p : ℕ}
    (h : present (treeEntry mem root (d + 1) p) = false) : treePage mem root (d + 1) p = none := by
  rw [treePage, pageAt_succ rfl, h]
  rfl

theorem frame_touchedEntry_new {e : BitVec 64} {k : ℕ} (hpresent : present e = false)
    (hdirect : InDirectMap (newPage pool k)) (haligned : newPage pool k % 4096 = 0) :
    frame (touchedEntry rw e (pool k)) = newPage pool k := by
  rw [touchedEntry, hpresent, if_neg (by decide), frame_markEntry, @pool_eq pool k,
    frame_linkEntry hdirect haligned]

theorem touch_apply_self :
    (touch pool rw root s (depth + 1) p table).mem (table + 8 * (p % 512)) =
      touchedEntry rw (treeEntry s.mem root (depth + 1) p) (pool s.calls) :=
  Function.update_self _ _ _

/-- Outside the new page, memory is not cleared. -/
theorem cleared_apply {e : BitVec 64} {a : ℕ} (hnew : present e = false →
      a < newPage pool s.calls ∨ newPage pool s.calls + 4096 ≤ a) :
    (cleared pool s e).mem a = s.mem a := by
  rw [cleared]
  split_ifs with hpresent
  · rfl
  · have hout := hnew (Bool.eq_false_iff.mpr hpresent)
    exact if_neg (by omega)

/-- Outside the entry and the new page, memory is as before. -/
theorem touch_apply {a : ℕ} (ha : a ≠ table + 8 * (p % 512))
    (hnew : present (treeEntry s.mem root (depth + 1) p) = false →
      a < newPage pool s.calls ∨ newPage pool s.calls + 4096 ≤ a) :
    (touch pool rw root s (depth + 1) p table).mem a = s.mem a :=
  (Function.update_of_ne ha _ _).trans (cleared_apply hnew)

theorem calls_touch : s.calls ≤ (touch pool rw root s depth p table).calls :=
  cleared_calls_le _ _

theorem calls_touch_of_new (hpresent : present (treeEntry s.mem root depth p) = false) :
    s.calls < (touch pool rw root s depth p table).calls := by
  rw [touch, cleared, hpresent]
  exact Nat.lt_succ_self _

/-- An entry of the tree in its table, when there is a page for it if it needs one. -/
structure AtEntry (pool : ℕ → Addr) (root : ℕ) (s₀ : PagingState) (K : ℕ) (s : PagingState)
    (depth p table : ℕ) : Prop where
  sound : Sound pool root s₀ s
  pages : NewPages pool s₀.mem root s₀.calls K
  depth_lt : depth < 4
  lower : InLower (depth + 1) p
  page : treePage s.mem root depth (p / 512) = some table
  calls_le : (cleared pool s (treeEntry s.mem root (depth + 1) p)).calls ≤ K

namespace AtEntry

variable (h : AtEntry pool root s₀ K s depth p table)

include h

theorem table_direct : InDirectMap table := h.sound.direct h.depth_lt h.lower.parent h.page

theorem entry_eq : s.load (pagePointer table + BitVec.ofNat 64 (8 * (p % 512))) =
    treeEntry s.mem root (depth + 1) p := by
  rw [load_entry h.table_direct (Nat.mod_lt _ (by decide)), treeEntry, entryAt_of_table h.page]

theorem calls_lt (hpresent : present (treeEntry s.mem root (depth + 1) p) = false) :
    s.calls < K := by
  have hK := h.calls_le
  rw [cleared, hpresent] at hK
  exact hK

/-- The new page is none of the tables. -/
theorem ne_newPage (hpresent : present (treeEntry s.mem root (depth + 1) p) = false) {d q t : ℕ}
    (hd : d < 4) (hq : InLower d q) (ht : treePage s.mem root d q = some t) :
    t + 4096 ≤ newPage pool s.calls ∨ newPage pool s.calls + 4096 ≤ t := by
  have hnew := h.sound.no_table h.pages (h.calls_lt hpresent) hd hq
  have haligned := pageAt_aligned h.sound.tree.aligned ht
  have haligned' := h.pages.aligned h.sound.calls_le (h.calls_lt hpresent)
  have hne : t ≠ newPage pool s.calls := fun heq ↦ hnew (heq ▸ ht)
  omega

/-- The new page is zero. -/
theorem touch_newPage (hpresent : present (treeEntry s.mem root (depth + 1) p) = false) {a : ℕ}
    (hge : newPage pool s.calls ≤ a) (hlt : a < newPage pool s.calls + 4096) :
    (touch pool rw root s (depth + 1) p table).mem a = 0 := by
  have hapart := h.ne_newPage hpresent h.depth_lt h.lower.parent h.page
  have hindex : p % 512 < 512 := Nat.mod_lt _ (by decide)
  have hcleared : (cleared pool s (treeEntry s.mem root (depth + 1) p)).mem a = 0 := by
    rw [cleared, hpresent]
    exact if_pos ⟨hge, hlt⟩
  exact (Function.update_of_ne (by omega) _ _).trans hcleared

/-- A touched entry leads to the page it led to, or to a new page. -/
theorem changes : Changes (fun _ ↦ present) s.mem
    (touch pool rw root s (depth + 1) p table).mem root
    (depth + 1) p (touchedEntry rw (treeEntry s.mem root (depth + 1) p) (pool s.calls)) where
  follows_entry := present_touchedEntry _ _
  entry := by
    intro table' ht'
    obtain rfl := Option.some.inj (h.page.symm.trans ht')
    exact touch_apply_self
  others := by
    intro d' p' table' hd' hp' hne ht'
    have hlt : p' % 512 < 512 := Nat.mod_lt _ (by decide)
    refine touch_apply ?_ fun hpresent ↦ ?_
    · intro heq
      obtain ⟨rfl, rfl⟩ := h.sound.tree.entry_unique hd' h.depth_lt hp' h.lower ht' h.page heq
      exact hne rfl
    · have hapart := h.ne_newPage hpresent hd' hp'.parent ht'
      omega
  page := by
    cases hpresent : present (treeEntry s.mem root (depth + 1) p) with
    | true =>
      left
      rw [frame_touchedEntry_of_present _ hpresent]
      exact treePage_of_entry hpresent
    | false =>
      right
      refine ⟨treePage_none_of_entry hpresent, fun i hi ↦ ?_⟩
      rw [frame_touchedEntry_new hpresent (h.pages.direct h.sound.calls_le (h.calls_lt hpresent))
        (h.pages.aligned h.sound.calls_le (h.calls_lt hpresent))]
      exact h.touch_newPage hpresent (Nat.le_add_right _ _) (by omega)

theorem page_touch {d' p' : ℕ} (hd' : d' ≤ 4) (hp' : InLower d' p') :
    treePage (touch pool rw root s (depth + 1) p table).mem root d' p' =
      if d' = depth + 1 ∧ p' = p then
        some (frame (touchedEntry rw (treeEntry s.mem root (depth + 1) p) (pool s.calls)))
      else treePage s.mem root d' p' :=
  h.changes.pageAt_eq (fun _ ↦ present_zero) h.page hd' hp'

theorem entry_touch {d' p' : ℕ} (hd' : d' ≤ 4) (hp' : InLower d' p') :
    treeEntry (touch pool rw root s (depth + 1) p table).mem root d' p' =
      if d' = depth + 1 ∧ p' = p then
        touchedEntry rw (treeEntry s.mem root (depth + 1) p) (pool s.calls)
      else treeEntry s.mem root d' p' :=
  h.changes.entryAt_eq (fun _ ↦ present_zero) h.page hd' hp'

/-- A table stays where it is. -/
theorem table_touch {d' p' t : ℕ} (hd' : d' ≤ 4) (hp' : InLower d' p')
    (ht' : treePage s.mem root d' p' = some t) :
    treePage (touch pool rw root s (depth + 1) p table).mem root d' p' = some t := by
  rw [h.page_touch hd' hp']
  split_ifs with heq
  · obtain ⟨rfl, rfl⟩ := heq
    cases hpresent : present (treeEntry s.mem root (depth + 1) p') with
    | true =>
      rw [frame_touchedEntry_of_present _ hpresent, ← treePage_of_entry hpresent, ht']
    | false =>
      rw [treePage_none_of_entry hpresent] at ht'
      cases ht'
  · exact ht'

/-- A table is one that was there, or the new page. -/
theorem table_or_new {d' p' t : ℕ} (hd' : d' < 4) (hp' : InLower d' p')
    (ht' : treePage (touch pool rw root s (depth + 1) p table).mem root d' p' = some t) :
    treePage s.mem root d' p' = some t ∨
      s.calls < (touch pool rw root s (depth + 1) p table).calls ∧ t = newPage pool s.calls ∧
        InDirectMap t := by
  rw [h.page_touch (by omega) hp'] at ht'
  split_ifs at ht' with heq
  · obtain ⟨rfl, rfl⟩ := heq
    cases hpresent : present (treeEntry s.mem root (depth + 1) p') with
    | true =>
      left
      rw [← ht', frame_touchedEntry_of_present _ hpresent, treePage_of_entry hpresent]
    | false =>
      right
      have hdirect := h.pages.direct h.sound.calls_le (h.calls_lt hpresent)
      have haligned := h.pages.aligned h.sound.calls_le (h.calls_lt hpresent)
      rw [frame_touchedEntry_new hpresent hdirect haligned] at ht'
      obtain rfl := Option.some.inj ht'
      exact ⟨calls_touch_of_new hpresent, rfl, hdirect⟩
  · exact .inl ht'

/-- A page allocated before is still a table, or still zero. -/
theorem zero_touch {call : ℕ} (hge : s₀.calls ≤ call) (hlt : call < s.calls) :
    (∀ a, newPage pool call ≤ a → a < newPage pool call + 4096 →
      (touch pool rw root s (depth + 1) p table).mem a = 0) ∨
      ∃ d p', d < 4 ∧ InLower d p' ∧
        treePage (touch pool rw root s (depth + 1) p table).mem root d p' =
          some (newPage pool call) := by
  rcases h.sound.zero call hge hlt with hzero | ⟨d, p', hd, hp', hpage⟩
  · by_cases htable : table = newPage pool call
    · right
      refine ⟨depth, p / 512, h.depth_lt, h.lower.parent, ?_⟩
      rw [← htable]
      exact h.table_touch (by have := h.depth_lt; omega) h.lower.parent h.page
    · left
      intro a hage halt
      have haligned := pageAt_aligned h.sound.tree.aligned h.page
      have haligned' := h.pages.aligned hge
        (hlt.trans_le ((cleared_calls_le _ _).trans h.calls_le))
      have hindex : p % 512 < 512 := Nat.mod_lt _ (by decide)
      rw [touch_apply (by omega), hzero a hage halt]
      intro hpresent
      have hcalls := h.calls_lt hpresent
      have hnew := h.pages.aligned h.sound.calls_le hcalls
      have hne : newPage pool call ≠ newPage pool s.calls := fun heq ↦ hlt.ne
        (h.pages.distinct hge (hlt.trans hcalls) h.sound.calls_le hcalls heq)
      omega
  · exact .inr ⟨d, p', hd, hp', h.table_touch (by omega) hp' hpage⟩

/-- A step keeps what is kept. -/
theorem sound_touch : Sound pool root s₀ (touch pool rw root s (depth + 1) p table) where
  calls_le := h.sound.calls_le.trans calls_touch
  tree := by
    refine h.changes.isTree h.sound.tree (fun _ ↦ present_zero) h.page h.lower ?_
    intro hnone d' p' hd' hp' hpage
    cases hpresent : present (treeEntry s.mem root (depth + 1) p) with
    | true => exact absurd ((treePage_of_entry hpresent).symm.trans hnone) (by simp)
    | false =>
      have hcalls := h.calls_lt hpresent
      rw [frame_touchedEntry_new hpresent (h.pages.direct h.sound.calls_le hcalls)
        (h.pages.aligned h.sound.calls_le hcalls)] at hpage
      exact h.sound.no_table h.pages hcalls hd' hp' hpage
  direct := by
    intro d' p' t hd' hp' ht'
    rcases h.table_or_new hd' hp' ht' with hold | ⟨-, -, hdirect⟩
    · exact h.sound.direct hd' hp' hold
    · exact hdirect
  table := by
    intro d' p' t hd' hp' ht'
    rcases h.table_or_new hd' hp' ht' with hold | ⟨hcalls, hnew, -⟩
    · rcases h.sound.table hd' hp' hold with hfirst | ⟨call, hge, hlt, heq⟩
      · exact .inl hfirst
      · exact .inr ⟨call, hge, hlt.trans_le calls_touch, heq⟩
    · exact .inr ⟨s.calls, h.sound.calls_le, hcalls, hnew⟩
  kept := by
    intro a ha
    by_cases hentry : a = table + 8 * (p % 512)
    · -- the entry lies in a table of the old tree or in a new page
      have hlt : p % 512 < 512 := Nat.mod_lt _ (by decide)
      rcases h.sound.table h.depth_lt h.lower.parent h.page with hold | ⟨call, hge, hcall, rfl⟩
      · exact .inl ⟨depth, p, table, h.depth_lt, h.lower, hold, hentry⟩
      · exact .inr ⟨call, hge, hcall.trans_le calls_touch, by omega, by omega⟩
    · by_cases hnew : present (treeEntry s.mem root (depth + 1) p) = false ∧
          newPage pool s.calls ≤ a ∧ a < newPage pool s.calls + 4096
      · exact .inr ⟨s.calls, h.sound.calls_le, calls_touch_of_new hnew.1, hnew.2⟩
      · rw [touch_apply hentry fun hpresent ↦ by
          have hout := not_and.mp hnew hpresent
          omega] at ha
        rcases h.sound.kept a ha with hold | ⟨call, hge, hlt, ha⟩
        · exact .inl hold
        · exact .inr ⟨call, hge, hlt.trans_le calls_touch, ha⟩
  zero := by
    intro call hge hlt
    by_cases hbefore : call < s.calls
    · exact h.zero_touch hge hbefore
    · cases hpresent : present (treeEntry s.mem root (depth + 1) p) with
      | true =>
        rw [touch, cleared, hpresent] at hlt
        exact absurd hlt hbefore
      | false =>
        rw [touch, cleared, hpresent] at hlt
        obtain rfl : call = s.calls := by
          have hle : call ≤ s.calls := Nat.lt_succ_iff.mp hlt
          omega
        exact .inl fun a ha ha' ↦ h.touch_newPage hpresent ha ha'

/-- One entry is touched. -/
theorem touches : Touches pool rw root (fun d' p' ↦ d' = depth + 1 ∧ p' = p) s
    (touch pool rw root s (depth + 1) p table) where
  calls_le := calls_touch
  entries := by
    refine ⟨fun _ _ ↦ s.calls, ?_, ?_, ?_⟩
    · rintro d' p' - - ⟨rfl, rfl⟩ hpresent
      exact ⟨le_rfl, calls_touch_of_new hpresent⟩
    · rintro d p' d' p'' - - - - ⟨rfl, rfl⟩ ⟨rfl, rfl⟩ - - -
      exact ⟨rfl, rfl⟩
    · intro d' p' hd' hp'
      rw [h.entry_touch hd' hp']
      constructor
      · rintro ⟨rfl, rfl⟩
        exact if_pos ⟨rfl, rfl⟩
      · intro hne
        exact if_neg hne

end AtEntry

end Step

end VimOS
