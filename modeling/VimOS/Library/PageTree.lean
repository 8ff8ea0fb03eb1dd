import VimOS.Library.PageWalk

/-!
# Page tables as a tree of entries

The entries that a page table has for a page number are named by their *depth*, from 1 for the
highest table to 4 for the one that maps the page, and by the leading digits of the page number,
base 512: the entry of depth `d` for page `q` is `(d, q / 512 ^ (4 - d))`. `pageAt` is the page that
an entry leads to and `entryAt` what memory holds in it, zero when there is no table for it. They
are followed by a walk that may or may not know of large pages, so `follows` is a parameter.

A table is a tree when no two entries share a table. Then a change of one entry, which keeps the
page the entry leads to or leads to a page of zeros, changes this entry and no other
(`entryAt_update`). The lower half of the tree is what the lower half of the address space uses.
-/

namespace PageWalk

/-! ## Entries and the pages they lead to -/

section

variable (follows : ℕ → BitVec 64 → Bool) (mem : Mem) (root : ℕ)

/-- The page that the entry `p` of a depth leads to. -/
def pageAt : ℕ → ℕ → Option ℕ
  | 0, _ => some root
  | depth + 1, p =>
    (pageAt depth (p / 512)).bind fun table ↦
      let e := mem (table + 8 * (p % 512))
      if follows (depth + 1) e then some (frame e) else none

/-- The entry `p` of a depth, zero when it has no table. -/
def entryAt : ℕ → ℕ → BitVec 64
  | 0, _ => 0
  | depth + 1, p => ((pageAt follows mem root depth (p / 512)).map fun table ↦
      mem (table + 8 * (p % 512))).getD 0

end

/-- An entry of the lower half. -/
def InLower (depth p : ℕ) : Prop := 2 * p < 512 ^ depth

/-- A processor follows an entry that is present and maps no large page. -/
def leads (depth : ℕ) (e : BitVec 64) : Bool :=
  present e && !(large e && (depth == 2 || depth == 3))

variable {follows : ℕ → BitVec 64 → Bool} {mem mem' : Mem} {root depth p table : ℕ}

theorem present_of_leads {e : BitVec 64} (h : leads depth e = true) : present e = true :=
  ((Bool.and_eq_true _ _).mp h).1

theorem InLower.parent (h : InLower (depth + 1) p) : InLower depth (p / 512) := by
  rw [InLower, pow_succ] at h
  rw [InLower]
  omega

theorem entryAt_of_table (h : pageAt follows mem root depth (p / 512) = some table) :
    entryAt follows mem root (depth + 1) p = mem (table + 8 * (p % 512)) := by
  rw [entryAt, h]
  rfl

theorem entryAt_of_none (h : pageAt follows mem root depth (p / 512) = none) :
    entryAt follows mem root (depth + 1) p = 0 := by
  rw [entryAt, h]
  rfl

theorem pageAt_of_table (h : pageAt follows mem root depth (p / 512) = some table) :
    pageAt follows mem root (depth + 1) p =
      if follows (depth + 1) (entryAt follows mem root (depth + 1) p) then
        some (frame (entryAt follows mem root (depth + 1) p)) else none := by
  rw [pageAt, h, entryAt_of_table h]
  rfl

theorem pageAt_of_none (h : pageAt follows mem root depth (p / 512) = none) :
    pageAt follows mem root (depth + 1) p = none := by
  rw [pageAt, h]
  rfl

/-- Where no entry of zeros is followed, an entry that is followed has a table. -/
theorem pageAt_succ (hzero : follows (depth + 1) 0 = false) :
    pageAt follows mem root (depth + 1) p =
      if follows (depth + 1) (entryAt follows mem root (depth + 1) p) then
        some (frame (entryAt follows mem root (depth + 1) p)) else none := by
  cases h : pageAt follows mem root depth (p / 512) with
  | none =>
    rw [pageAt_of_none h, entryAt_of_none h, hzero]
    rfl
  | some table => exact pageAt_of_table h

/-! ## Trees -/

/-- The lower half is a tree of aligned pages. -/
structure IsTree (follows : ℕ → BitVec 64 → Bool) (mem : Mem) (root : ℕ) : Prop where
  aligned : root % 4096 = 0
  distinct : ∀ {d p d' p' page : ℕ}, d < 4 → d' < 4 → InLower d p → InLower d' p' →
    pageAt follows mem root d p = some page → pageAt follows mem root d' p' = some page →
    d = d' ∧ p = p'

theorem pageAt_aligned (hroot : root % 4096 = 0) {page : ℕ}
    (h : pageAt follows mem root depth p = some page) : page % 4096 = 0 := by
  cases depth with
  | zero => rwa [← Option.some.inj h]
  | succ depth =>
    cases htable : pageAt follows mem root depth (p / 512) with
    | none => exact absurd h (by simp [pageAt_of_none htable])
    | some table =>
      rw [pageAt_of_table htable] at h
      split_ifs at h
      rw [← Option.some.inj h]
      exact frame_mod _

/-- Two entries at one address are one. -/
theorem IsTree.entry_unique (h : IsTree follows mem root) {d p d' p' table table' : ℕ} (hd : d < 4)
    (hd' : d' < 4) (hp : InLower (d + 1) p) (hp' : InLower (d' + 1) p')
    (ht : pageAt follows mem root d (p / 512) = some table)
    (ht' : pageAt follows mem root d' (p' / 512) = some table')
    (haddr : table + 8 * (p % 512) = table' + 8 * (p' % 512)) : d = d' ∧ p = p' := by
  have htable := pageAt_aligned h.aligned ht
  have htable' := pageAt_aligned h.aligned ht'
  obtain rfl : table = table' := by omega
  obtain ⟨rfl, hparent⟩ := h.distinct hd hd' hp.parent hp'.parent ht ht'
  exact ⟨rfl, by omega⟩

/-! ## The change of one entry -/

/-- The entry `(depth, p)` of a tree becomes `e`, which is followed, to the page it led to or to a
page of zeros. -/
structure Changes (follows : ℕ → BitVec 64 → Bool) (mem mem' : Mem) (root depth p : ℕ)
    (e : BitVec 64) : Prop where
  follows_entry : follows depth e = true
  entry : ∀ table, pageAt follows mem root (depth - 1) (p / 512) = some table →
    mem' (table + 8 * (p % 512)) = e
  others : ∀ d' p' table, d' < 4 → InLower (d' + 1) p' → (d' + 1, p') ≠ (depth, p) →
    pageAt follows mem root d' (p' / 512) = some table →
    mem' (table + 8 * (p' % 512)) = mem (table + 8 * (p' % 512))
  page : pageAt follows mem root depth p = some (frame e) ∨
    pageAt follows mem root depth p = none ∧ ∀ i < 512, mem' (frame e + 8 * i) = 0

variable {e : BitVec 64}

private theorem Changes.entry_of_page (h : Changes follows mem mem' root (depth + 1) p e)
    (htable : pageAt follows mem root depth (p / 512) = some table) {d' p' : ℕ} (hd' : d' < 4)
    (hp' : InLower (d' + 1) p')
    (hpage : pageAt follows mem' root d' (p' / 512) =
      if d' = depth + 1 ∧ p' / 512 = p then some (frame e)
      else pageAt follows mem root d' (p' / 512)) :
    entryAt follows mem' root (d' + 1) p' =
      if d' + 1 = depth + 1 ∧ p' = p then e else entryAt follows mem root (d' + 1) p' := by
  by_cases hchild : d' = depth + 1 ∧ p' / 512 = p
  · -- the entry is in the table that the changed entry leads to
    rw [if_pos hchild] at hpage
    rw [if_neg (by omega), entryAt_of_table hpage]
    obtain ⟨rfl, rfl⟩ := hchild
    rcases h.page with hkept | ⟨hnone, hzero⟩
    · rw [entryAt_of_table hkept]
      refine h.others _ _ _ hd' hp' ?_ hkept
      rw [Ne, Prod.mk.injEq]
      omega
    · rw [entryAt_of_none hnone]
      exact hzero _ (Nat.mod_lt _ (by decide))
  · rw [if_neg hchild] at hpage
    by_cases heq : d' + 1 = depth + 1 ∧ p' = p
    · obtain ⟨hdepth, rfl⟩ := heq
      obtain rfl : d' = depth := Nat.succ.inj hdepth
      rw [if_pos ⟨rfl, rfl⟩]
      rw [htable] at hpage
      rw [entryAt_of_table hpage, h.entry _ htable]
    · rw [if_neg heq]
      cases htable' : pageAt follows mem root d' (p' / 512) with
      | none => rw [entryAt_of_none htable', entryAt_of_none (hpage.trans htable')]
      | some table' =>
        rw [entryAt_of_table htable', entryAt_of_table (hpage.trans htable')]
        refine h.others _ _ _ hd' hp' ?_ htable'
        rw [Ne, Prod.mk.injEq]
        exact heq

/-- The entry leads to its page, and no other entry leads elsewhere. -/
theorem Changes.pageAt_eq (h : Changes follows mem mem' root (depth + 1) p e)
    (hfollows : ∀ d, follows d 0 = false)
    (htable : pageAt follows mem root depth (p / 512) = some table) {d' p' : ℕ} (hd' : d' ≤ 4)
    (hp' : InLower d' p') :
    pageAt follows mem' root d' p' =
      if d' = depth + 1 ∧ p' = p then some (frame e) else pageAt follows mem root d' p' := by
  induction d' generalizing p' with
  | zero =>
    rw [if_neg (by omega)]
    rfl
  | succ d' ih =>
    have hentry := h.entry_of_page htable hd' hp' (ih (by omega) hp'.parent)
    rw [pageAt_succ (hfollows _), pageAt_succ (hfollows _), hentry]
    by_cases heq : d' + 1 = depth + 1 ∧ p' = p
    · rw [if_pos heq, if_pos heq, heq.1, if_pos h.follows_entry]
    · rw [if_neg heq, if_neg heq]

/-- The entry is changed, and no other entry. -/
theorem Changes.entryAt_eq (h : Changes follows mem mem' root (depth + 1) p e)
    (hfollows : ∀ d, follows d 0 = false)
    (htable : pageAt follows mem root depth (p / 512) = some table) {d' p' : ℕ} (hd' : d' ≤ 4)
    (hp' : InLower d' p') :
    entryAt follows mem' root d' p' =
      if d' = depth + 1 ∧ p' = p then e else entryAt follows mem root d' p' := by
  cases d' with
  | zero =>
    rw [if_neg (by omega)]
    rfl
  | succ d' =>
    exact h.entry_of_page htable (by omega) hp'
      (h.pageAt_eq hfollows htable (by omega) hp'.parent)

/-- The lower half stays a tree, if a page that is new in it was no table. -/
theorem Changes.isTree (h : Changes follows mem mem' root (depth + 1) p e)
    (htree : IsTree follows mem root) (hfollows : ∀ d, follows d 0 = false)
    (htable : pageAt follows mem root depth (p / 512) = some table) (hp : InLower (depth + 1) p)
    (hnew : pageAt follows mem root (depth + 1) p = none → ∀ d' p', d' < 4 → InLower d' p' →
      pageAt follows mem root d' p' ≠ some (frame e)) :
    IsTree follows mem' root where
  aligned := htree.aligned
  distinct := by
    -- a page that the changed entry leads to is the page it led to, or a new one
    have hsame : ∀ d' p', depth + 1 < 4 → d' < 4 → InLower d' p' →
        pageAt follows mem root d' p' = some (frame e) → d' = depth + 1 ∧ p' = p := by
      intro d' p' hdepth hd' hp' hpage
      rcases h.page with hkept | ⟨hnone, -⟩
      · exact htree.distinct hd' hdepth hp' hp hpage hkept
      · exact absurd hpage (hnew hnone d' p' hd' hp')
    intro d p₁ d' p₂ page hd hd' hp₁ hp₂ h₁ h₂
    rw [h.pageAt_eq hfollows htable (by omega) hp₁] at h₁
    rw [h.pageAt_eq hfollows htable (by omega) hp₂] at h₂
    split_ifs at h₁ h₂ with hc₁ hc₂ hc₂
    · exact ⟨hc₁.1.trans hc₂.1.symm, hc₁.2.trans hc₂.2.symm⟩
    · rw [← Option.some.inj h₁] at h₂
      exact absurd (hsame d' p₂ (by omega) hd' hp₂ h₂) hc₂
    · rw [← Option.some.inj h₂] at h₁
      exact absurd (hsame d p₁ (by omega) hd hp₁ h₁) hc₁
    · exact htree.distinct hd hd' hp₁ hp₂ h₁ h₂

/-! ## The walk of a page -/

/-- The entries for an address are present, user and writable at every level from a table on, and
map no large page. -/
def UserWritable (mem : Mem) : ℕ → ℕ → ℕ → Prop
  | 0, _, _ => True
  | level + 1, table, v =>
    let e := mem (entryAddr (level + 1) table v)
    present e = true ∧ user e = true ∧ writable e = true ∧
      ¬ (large e = true ∧ (level = 1 ∨ level = 2)) ∧ UserWritable mem level (frame e) v

theorem index_page (level q : ℕ) : index (level + 1) (4096 * q) = q / 512 ^ level % 512 := by
  have hspan : span (level + 1) = 4096 * 512 ^ level := by
    rw [span, show 512 = 2 ^ 9 by decide, ← pow_mul, show 4096 = 2 ^ 12 by decide, ← pow_add]
    congr 1
    omega
  rw [index, hspan, Nat.mul_div_mul_left _ _ (by decide)]

variable {level q : ℕ}

theorem entryAddr_page : entryAddr (level + 1) table (4096 * q) =
    table + 8 * (q / 512 ^ level % 512) := by
  rw [entryAddr, index_page]

/-- The entry that the walk of a page uses on a level. -/
theorem entryAt_page (hlevel : level < 4)
    (h : pageAt follows mem root (4 - (level + 1)) (q / 512 ^ (level + 1)) = some table) :
    entryAt follows mem root (4 - level) (q / 512 ^ level) =
      mem (entryAddr (level + 1) table (4096 * q)) := by
  rw [show 4 - level = 4 - (level + 1) + 1 by omega, entryAddr_page]
  refine entryAt_of_table ?_
  rwa [Nat.div_div_eq_div_mul, ← pow_succ]

theorem pageAt_page (hlevel : level < 4)
    (h : pageAt follows mem root (4 - (level + 1)) (q / 512 ^ (level + 1)) = some table) :
    pageAt follows mem root (4 - level) (q / 512 ^ level) =
      if follows (4 - level) (mem (entryAddr (level + 1) table (4096 * q))) then
        some (frame (mem (entryAddr (level + 1) table (4096 * q)))) else none := by
  have htable : pageAt follows mem root (4 - (level + 1)) (q / 512 ^ level / 512) = some table := by
    rwa [Nat.div_div_eq_div_mul, ← pow_succ]
  rw [← entryAt_page hlevel h, show 4 - level = 4 - (level + 1) + 1 by omega,
    pageAt_of_table htable]

/-- The entry of a walk is as before if the entries of the tables that the processor follows are. -/
theorem entryAddr_congr (hlevel : level < 4)
    (h : pageAt leads mem root (4 - (level + 1)) (q / 512 ^ (level + 1)) = some table)
    (hsame : ∀ d p page, d < 4 → q / 512 ^ (3 - d) = p →
      pageAt leads mem root d (p / 512) = some page →
      mem' (page + 8 * (p % 512)) = mem (page + 8 * (p % 512))) :
    mem' (entryAddr (level + 1) table (4096 * q)) =
      mem (entryAddr (level + 1) table (4096 * q)) := by
  rw [entryAddr_page]
  refine hsame (4 - (level + 1)) _ table (by omega) ?_ ?_
  · rw [show 3 - (4 - (level + 1)) = level by omega]
  · rwa [Nat.div_div_eq_div_mul, ← pow_succ]

/-- The processor follows an entry that is present and maps no large page. -/
theorem pageAt_leads (hlevel : level < 4)
    (h : pageAt leads mem root (4 - (level + 1)) (q / 512 ^ (level + 1)) = some table)
    (hpresent : present (mem (entryAddr (level + 1) table (4096 * q))) = true)
    (hlarge : ¬ (large (mem (entryAddr (level + 1) table (4096 * q))) = true ∧
      (level = 1 ∨ level = 2))) :
    pageAt leads mem root (4 - level) (q / 512 ^ level) =
      some (frame (mem (entryAddr (level + 1) table (4096 * q)))) := by
  refine (pageAt_page hlevel h).trans (if_pos ?_)
  rw [leads, hpresent, Bool.true_and, Bool.not_eq_true', Bool.and_eq_false_iff]
  by_cases hbit : large (mem (entryAddr (level + 1) table (4096 * q))) = true
  · right
    have hnot : ¬ (level = 1 ∨ level = 2) := fun hlevel ↦ hlarge ⟨hbit, hlevel⟩
    simp only [Bool.or_eq_false_iff, beq_eq_false_iff_ne]
    omega
  · exact .inl (Bool.eq_false_iff.mpr hbit)

/-- A walk reads the entries of the tables that the processor follows, and no others. -/
theorem walk_congr (hlevel : level ≤ 4) (h : pageAt leads mem root (4 - level) (q / 512 ^ level) =
      some table)
    (hsame : ∀ d p page, d < 4 → q / 512 ^ (3 - d) = p →
      pageAt leads mem root d (p / 512) = some page →
      mem' (page + 8 * (p % 512)) = mem (page + 8 * (p % 512))) :
    walk mem' level table (4096 * q) = walk mem level table (4096 * q) := by
  induction level generalizing table with
  | zero => rfl
  | succ level ih =>
    rw [walk, walk, entryAddr_congr hlevel h hsame]
    split_ifs with hpresent hlarge
    · rfl
    · exact ih (by omega) (pageAt_leads hlevel h hpresent hlarge)
    · rfl

/-- Below an entry that leads nowhere there is no page. -/
theorem pageAt_none_below (hlevel : level ≤ 4)
    (h : pageAt follows mem root (4 - level) (q / 512 ^ level) = none) :
    pageAt follows mem root 4 q = none := by
  induction level with
  | zero => rwa [pow_zero, Nat.div_one] at h
  | succ level ih =>
    refine ih (by omega) ?_
    rw [show 4 - level = 4 - (level + 1) + 1 by omega]
    refine pageAt_of_none ?_
    rwa [Nat.div_div_eq_div_mul, ← pow_succ]

/-- A walk that meets no large page ends at the page that the entries lead to. -/
theorem walk_page (hlevel : level ≤ 4)
    (h : pageAt (fun _ ↦ present) mem root (4 - level) (q / 512 ^ level) = some table)
    (hlarge : ∀ l, l = 1 ∨ l = 2 →
      present (entryAt (fun _ ↦ present) mem root (4 - l) (q / 512 ^ l)) = true →
      large (entryAt (fun _ ↦ present) mem root (4 - l) (q / 512 ^ l)) = false) :
    walk mem level table (4096 * q) = pageAt (fun _ ↦ present) mem root 4 q := by
  induction level generalizing table with
  | zero =>
    rw [pow_zero, Nat.div_one] at h
    rw [walk, h, Nat.mul_mod_right, Nat.add_zero]
  | succ level ih =>
    have hpage := pageAt_page hlevel h
    have hentry := entryAt_page hlevel h
    rw [walk]
    split_ifs with hpresent hbit
    · have hfalse := hlarge level hbit.2 (by rwa [hentry])
      rw [hentry, hbit.1] at hfalse
      cases hfalse
    · exact ih (by omega) (hpage.trans (if_pos hpresent))
    · exact (pageAt_none_below (by omega) (hpage.trans (if_neg hpresent))).symm

/-- The rights on the way to a page are those of its entries. -/
theorem userWritable_iff (hlevel : level ≤ 4)
    (h : pageAt (fun _ ↦ present) mem root (4 - level) (q / 512 ^ level) = some table) :
    UserWritable mem level table (4096 * q) ↔ ∀ l < level,
      let e := entryAt (fun _ ↦ present) mem root (4 - l) (q / 512 ^ l)
      present e = true ∧ user e = true ∧ writable e = true ∧
        ¬ (large e = true ∧ (l = 1 ∨ l = 2)) := by
  induction level generalizing table with
  | zero => exact iff_of_true trivial fun l hl ↦ absurd hl (Nat.not_lt_zero l)
  | succ level ih =>
    have hpage := pageAt_page hlevel h
    have hentry := entryAt_page hlevel h
    rw [UserWritable]
    constructor
    · rintro ⟨hpresent, huser, hwritable, hlarge, hbelow⟩ l hl
      rcases Nat.lt_succ_iff_lt_or_eq.mp hl with hl | rfl
      · exact (ih (by omega) (hpage.trans (if_pos hpresent))).mp hbelow l hl
      · simp only [hentry]
        exact ⟨hpresent, huser, hwritable, hlarge⟩
    · intro hall
      have htop := hall level (Nat.lt_succ_self level)
      simp only [hentry] at htop
      refine ⟨htop.1, htop.2.1, htop.2.2.1, htop.2.2.2, ?_⟩
      exact (ih (by omega) (hpage.trans (if_pos htop.1))).mpr fun l hl ↦
        hall l (Nat.lt_succ_of_lt hl)

/-! ## Rights of a page -/

/-- A right that the entries give at every level from a table on. An address that is not mapped has
none. -/
def Allows (right : BitVec 64 → Bool) (mem : Mem) : ℕ → ℕ → ℕ → Prop
  | 0, _, _ => True
  | level + 1, table, v =>
    let e := mem (entryAddr (level + 1) table v)
    present e = true ∧ right e = true ∧
      (¬ (large e = true ∧ (level = 1 ∨ level = 2)) → Allows right mem level (frame e) v)

variable {right : BitVec 64 → Bool}

theorem allows_congr (hlevel : level ≤ 4) (h : pageAt leads mem root (4 - level) (q / 512 ^ level) =
      some table)
    (hsame : ∀ d p page, d < 4 → q / 512 ^ (3 - d) = p →
      pageAt leads mem root d (p / 512) = some page →
      mem' (page + 8 * (p % 512)) = mem (page + 8 * (p % 512))) :
    Allows right mem' level table (4096 * q) ↔ Allows right mem level table (4096 * q) := by
  induction level generalizing table with
  | zero => exact Iff.rfl
  | succ level ih =>
    rw [Allows, Allows, entryAddr_congr hlevel h hsame]
    refine and_congr_right fun hpresent ↦ and_congr_right fun _ ↦ forall_congr' fun hlarge ↦ ?_
    exact ih (by omega) (pageAt_leads hlevel h hpresent hlarge)

/-- Where no large page is met, a right is given by all entries on the way. -/
theorem allows_iff (hlevel : level ≤ 4)
    (h : pageAt (fun _ ↦ present) mem root (4 - level) (q / 512 ^ level) = some table)
    (hlarge : ∀ l, l = 1 ∨ l = 2 →
      present (entryAt (fun _ ↦ present) mem root (4 - l) (q / 512 ^ l)) = true →
      large (entryAt (fun _ ↦ present) mem root (4 - l) (q / 512 ^ l)) = false) :
    Allows right mem level table (4096 * q) ↔ ∀ l < level,
      let e := entryAt (fun _ ↦ present) mem root (4 - l) (q / 512 ^ l)
      present e = true ∧ right e = true := by
  induction level generalizing table with
  | zero => exact iff_of_true trivial fun l hl ↦ absurd hl (Nat.not_lt_zero l)
  | succ level ih =>
    have hpage := pageAt_page hlevel h
    have hentry := entryAt_page hlevel h
    have hnot := hlarge level
    rw [hentry] at hnot
    rw [Allows]
    constructor
    · rintro ⟨hpresent, hright, hbelow⟩ l hl
      rcases Nat.lt_succ_iff_lt_or_eq.mp hl with hl | rfl
      · have hbelow := hbelow fun hbit ↦ by
          rw [hnot hbit.2 hpresent] at hbit
          exact Bool.false_ne_true hbit.1
        exact (ih (by omega) (hpage.trans (if_pos hpresent))).mp hbelow l hl
      · simp only [hentry]
        exact ⟨hpresent, hright⟩
    · intro hall
      have htop := hall level (Nat.lt_succ_self level)
      simp only [hentry] at htop
      refine ⟨htop.1, htop.2, fun _ ↦ ?_⟩
      exact (ih (by omega) (hpage.trans (if_pos htop.1))).mpr fun l hl ↦
        hall l (Nat.lt_succ_of_lt hl)

/-- Where a large page is met, it is given by the entries as far as there. -/
theorem allows_of_large {stop : ℕ} (hstop : stop = 1 ∨ stop = 2) (hlt : stop < level)
    (hlevel : level ≤ 4)
    (h : pageAt (fun _ ↦ present) mem root (4 - level) (q / 512 ^ level) = some table)
    (hall : ∀ l, stop ≤ l → l < level →
      let e := entryAt (fun _ ↦ present) mem root (4 - l) (q / 512 ^ l)
      present e = true ∧ right e = true)
    (hlarge : large (entryAt (fun _ ↦ present) mem root (4 - stop) (q / 512 ^ stop)) = true) :
    Allows right mem level table (4096 * q) := by
  induction level generalizing table with
  | zero => exact trivial
  | succ level ih =>
    have hpage := pageAt_page hlevel h
    have hentry := entryAt_page hlevel h
    have htop := hall level (Nat.le_of_lt_succ hlt) (Nat.lt_succ_self level)
    simp only [hentry] at htop
    rw [Allows]
    refine ⟨htop.1, htop.2, fun hnot ↦ ?_⟩
    rcases (Nat.le_of_lt_succ hlt).lt_or_eq with hbelow | rfl
    · exact ih hbelow (by omega) (hpage.trans (if_pos htop.1)) fun l hge hl ↦
        hall l hge (Nat.lt_succ_of_lt hl)
    · rw [hentry] at hlarge
      exact absurd ⟨hlarge, hstop⟩ hnot

end PageWalk
