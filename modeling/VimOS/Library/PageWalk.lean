import Mathlib.Tactic

/-!
# Page tables with four levels

A page table is a page of 512 entries in physical memory. An entry that is present leads to a page
of the level below, its *frame*, until at level 0 the page is the one a virtual address is mapped
to; an entry of level 2 or 3 may instead map a large page itself. Memory is read by 64-bit words, at
physical addresses.
-/

namespace PageWalk

/-- Physical memory, read at the addresses of 64-bit words. -/
abbrev Mem := ℕ → BitVec 64

/-- `memset(buf, 0, n)`. -/
def memsetZero (buf n : ℕ) (mem : Mem) : Mem := fun a ↦ if buf ≤ a ∧ a < buf + n then 0 else mem a

theorem memsetZero_out {buf n a : ℕ} {mem : Mem} (h : a < buf ∨ buf + n ≤ a) :
    memsetZero buf n mem a = mem a :=
  if_neg (by omega)

theorem memsetZero_in {buf n a : ℕ} {mem : Mem} (hge : buf ≤ a) (hlt : a < buf + n) :
    memsetZero buf n mem a = 0 :=
  if_pos ⟨hge, hlt⟩

/-! ## Entries -/

def present (e : BitVec 64) : Bool := e.getLsbD 0

def writable (e : BitVec 64) : Bool := e.getLsbD 1

def user (e : BitVec 64) : Bool := e.getLsbD 2

/-- The bit that makes an entry of level 2 or 3 map a large page. -/
def large (e : BitVec 64) : Bool := e.getLsbD 7

/-- The page an entry leads to. -/
def frame (e : BitVec 64) : ℕ := 4096 * (e.extractLsb' 12 40).toNat

theorem frame_eq (e : BitVec 64) : frame e = 4096 * (e.toNat / 4096 % 2 ^ 40) := by
  rw [frame, BitVec.extractLsb'_toNat, Nat.shiftRight_eq_div_pow]

theorem frame_mod (e : BitVec 64) : frame e % 4096 = 0 := Nat.mul_mod_right _ _

/-! ## The walk -/

/-- The number of bytes that an entry of a table of a level stands for. -/
def span (level : ℕ) : ℕ := 2 ^ (3 + 9 * level)

/-- The entry of a table of a level that is used for an address. -/
def index (level v : ℕ) : ℕ := v / span level % 512

/-- The address of that entry. -/
def entryAddr (level table v : ℕ) : ℕ := table + 8 * index level v

/-- Where an address is mapped, from a table of a level on. -/
def walk (mem : Mem) : ℕ → ℕ → ℕ → Option ℕ
  | 0, page, v => some (page + v % 4096)
  | level + 1, table, v =>
    let e := mem (entryAddr (level + 1) table v)
    if present e then
      if large e ∧ (level = 1 ∨ level = 2) then
        some (frame e / span (level + 1) * span (level + 1) + v % span (level + 1))
      else walk mem level (frame e) v
    else none

variable {mem : Mem} {level table v : ℕ} {e : BitVec 64}

theorem index_lt (level v : ℕ) : index level v < 512 := Nat.mod_lt _ (by decide)

theorem walk_not_present (he : mem (entryAddr (level + 1) table v) = e) (h : present e = false) :
    walk mem (level + 1) table v = none := by
  rw [walk, he, h]
  rfl

theorem walk_table (he : mem (entryAddr (level + 1) table v) = e) (h : present e = true)
    (hlarge : large e = false) : walk mem (level + 1) table v = walk mem level (frame e) v := by
  rw [walk, he, h, hlarge]
  simp

theorem walk_large (he : mem (entryAddr (level + 1) table v) = e) (h : present e = true)
    (hlarge : large e = true) (hlevel : level = 1 ∨ level = 2) :
    walk mem (level + 1) table v =
      some (frame e / span (level + 1) * span (level + 1) + v % span (level + 1)) := by
  rw [walk, he, h, hlarge]
  simp [hlevel]

/-! ## What a walk goes through -/

/-- The tables of a walk. -/
def walkTables (mem : Mem) : ℕ → ℕ → ℕ → List ℕ
  | 0, _, _ => []
  | level + 1, table, v =>
    let e := mem (entryAddr (level + 1) table v)
    table ::
      if present e ∧ ¬ (large e ∧ (level = 1 ∨ level = 2)) then walkTables mem level (frame e) v
      else []

/-- How many pages it takes to map an address: one for each level from the first entry that is not
present, or the large page that this entry is to map. -/
def missingPages (mem : Mem) : ℕ → ℕ → ℕ → ℕ
  | 0, _, _ => 0
  | level + 1, table, v =>
    let e := mem (entryAddr (level + 1) table v)
    if large e ∧ (level = 1 ∨ level = 2) then if present e then 0 else 1
    else if present e then missingPages mem level (frame e) v
    else level + 1

theorem mem_walkTables : table ∈ walkTables mem (level + 1) table v := List.mem_cons_self

theorem walkTables_table (he : mem (entryAddr (level + 1) table v) = e) (h : present e = true)
    (hlarge : ¬ (large e = true ∧ (level = 1 ∨ level = 2))) :
    walkTables mem (level + 1) table v = table :: walkTables mem level (frame e) v := by
  rw [walkTables, he]
  exact congrArg _ (if_pos ⟨h, hlarge⟩)

theorem walkTables_not_present (he : mem (entryAddr (level + 1) table v) = e)
    (h : present e = false) : walkTables mem (level + 1) table v = [table] := by
  rw [walkTables, he, h]
  rfl

theorem missingPages_large (he : mem (entryAddr (level + 1) table v) = e)
    (hlarge : large e = true ∧ (level = 1 ∨ level = 2)) :
    missingPages mem (level + 1) table v = if present e then 0 else 1 := by
  rw [missingPages, he]
  exact if_pos hlarge

theorem missingPages_table (he : mem (entryAddr (level + 1) table v) = e) (h : present e = true)
    (hlarge : ¬ (large e = true ∧ (level = 1 ∨ level = 2))) :
    missingPages mem (level + 1) table v = missingPages mem level (frame e) v := by
  rw [missingPages, he]
  exact (if_neg hlarge).trans (if_pos h)

theorem missingPages_not_present (he : mem (entryAddr (level + 1) table v) = e)
    (h : present e = false) (hlarge : ¬ (large e = true ∧ (level = 1 ∨ level = 2))) :
    missingPages mem (level + 1) table v = level + 1 := by
  rw [missingPages, he]
  exact (if_neg hlarge).trans (if_neg (Bool.eq_false_iff.mp h))

theorem missingPages_pos (he : mem (entryAddr (level + 1) table v) = e) (h : present e = false) :
    0 < missingPages mem (level + 1) table v := by
  have hnot := Bool.eq_false_iff.mp h
  rw [missingPages, he, if_neg hnot, if_neg hnot]
  split_ifs
  · exact Nat.one_pos
  · exact Nat.succ_pos level

theorem isSome_walk_iff :
    (walk mem level table v).isSome = true ↔ missingPages mem level table v = 0 := by
  induction level generalizing table with
  | zero => exact iff_of_true rfl rfl
  | succ level ih =>
    rw [walk, missingPages]
    split_ifs
    · exact iff_of_true rfl rfl
    · exact ih
    · exact iff_of_false Bool.false_ne_true (by decide)
    · exact iff_of_false Bool.false_ne_true not_false

/-- The entries lead a walk the same way. -/
def SameLink (e e' : BitVec 64) : Prop :=
  present e' = present e ∧ large e' = large e ∧ (present e = true → frame e' = frame e)

theorem SameLink.refl (e : BitVec 64) : SameLink e e := ⟨rfl, rfl, fun _ ↦ rfl⟩

/-- An entry that is present leads a walk the same way afterwards. -/
def Stays (e e' : BitVec 64) : Prop :=
  present e = true → present e' = true ∧ large e' = large e ∧ frame e' = frame e

theorem Stays.refl (e : BitVec 64) : Stays e e := fun h ↦ ⟨h, rfl, rfl⟩

theorem Stays.trans {e e' e'' : BitVec 64} (h : Stays e e') (h' : Stays e' e'') : Stays e e'' := by
  intro hpresent
  obtain ⟨hpresent', hlarge, hframe⟩ := h hpresent
  obtain ⟨hpresent'', hlarge', hframe'⟩ := h' hpresent'
  exact ⟨hpresent'', hlarge'.trans hlarge, hframe'.trans hframe⟩

theorem SameLink.stays {e e' : BitVec 64} (h : SameLink e e') : Stays e e' :=
  fun hpresent ↦ ⟨h.1.trans hpresent, h.2.1, h.2.2 hpresent⟩

section Congr

variable {mem' : Mem} (h : ∀ a, SameLink (mem a) (mem' a))

include h

theorem walkTables_congr : walkTables mem' level table v = walkTables mem level table v := by
  induction level generalizing table with
  | zero => rfl
  | succ level ih =>
    obtain ⟨hpresent, hlarge, hframe⟩ := h (entryAddr (level + 1) table v)
    rw [walkTables, walkTables]
    rw [hpresent, hlarge, ih]
    split_ifs with hleads
    · rw [hframe hleads.1]
    · rfl

theorem missingPages_congr : missingPages mem' level table v = missingPages mem level table v := by
  induction level generalizing table with
  | zero => rfl
  | succ level ih =>
    obtain ⟨hpresent, hlarge, hframe⟩ := h (entryAddr (level + 1) table v)
    rw [missingPages, missingPages]
    rw [hpresent, hlarge, ih]
    split_ifs with _ _ hleads
    · rfl
    · rfl
    · rw [hframe hleads]
    · rfl

end Congr

/-! ## The tables -/

/-- The entry of a table of a level leads to a table of the level below. -/
def Leads (level : ℕ) (e : BitVec 64) : Prop :=
  2 ≤ level ∧ present e = true ∧ (large e = true → ¬ (level = 2 ∨ level = 3))

/-- The tables that can be reached from the highest one, with their levels. -/
inductive IsTable (mem : Mem) (root : ℕ) : ℕ → ℕ → Prop
  | root : IsTable mem root 4 root
  | entry {level page i : ℕ} (hpage : IsTable mem root (level + 1) page) (hi : i < 512)
      (hleads : Leads (level + 1) (mem (page + 8 * i))) :
      IsTable mem root level (frame (mem (page + 8 * i)))

section Reads

variable {mem' : Mem} {root : ℕ}

/-- A step of the walk reads one entry, and goes on where this leads to a table. -/
theorem walk_succ_congr
    (he : mem' (entryAddr (level + 1) table v) = mem (entryAddr (level + 1) table v))
    (hnext : Leads (level + 1) (mem (entryAddr (level + 1) table v)) →
      walk mem' level (frame (mem (entryAddr (level + 1) table v))) v =
        walk mem level (frame (mem (entryAddr (level + 1) table v))) v) :
    walk mem' (level + 1) table v = walk mem (level + 1) table v := by
  rw [walk, walk, he]
  split_ifs with hpresent hlarge
  · rfl
  · rcases Nat.eq_zero_or_pos level with rfl | hpos
    · rfl
    · refine hnext ⟨Nat.succ_le_succ hpos, hpresent, fun hset hlevel ↦ hlarge ⟨hset, ?_⟩⟩
      exact hlevel.imp Nat.succ.inj Nat.succ.inj
  · rfl

/-- The walk from a table on reads no memory but the tables of its level and below. -/
theorem IsTable.walk_congr (h : IsTable mem root level table)
    (hsame : ∀ level' page i, level' < level → IsTable mem root (level' + 1) page → i < 512 →
      mem' (page + 8 * i) = mem (page + 8 * i)) :
    walk mem' level table v = walk mem level table v := by
  induction level generalizing table with
  | zero => rfl
  | succ level ih =>
    have hi := index_lt (level + 1) v
    refine walk_succ_congr (hsame level table _ level.lt_succ_self h hi) fun hleads ↦ ?_
    exact ih (.entry h hi hleads) fun level' page i hlt ↦ hsame level' page i (hlt.trans_le
      level.le_succ)

end Reads

/-! ## Entries made of an address and flags -/

/-- `addr | flags`. -/
def entry (addr : ℕ) (flags : BitVec 64) : BitVec 64 := BitVec.ofNat 64 addr ||| flags

theorem getLsbD_entry {addr i : ℕ} {flags : BitVec 64} (haddr : addr % 4096 = 0) (hi : i < 12) :
    (entry addr flags).getLsbD i = flags.getLsbD i := by
  have haddr : addr.testBit i = false := by
    rw [← Nat.div_add_mod addr 4096, haddr, Nat.add_zero, show 4096 = 2 ^ 12 by decide,
      Nat.testBit_two_pow_mul]
    simp
    omega
  rw [entry, BitVec.getLsbD_or, BitVec.getLsbD_ofNat, haddr, Bool.and_false, Bool.false_or]

theorem frame_entry {addr : ℕ} {flags : BitVec 64} (haddr : addr % 4096 = 0)
    (hlt : addr < 2 ^ 52) (hflags : flags.toNat < 4096) : frame (entry addr flags) = addr := by
  have hdiv : (entry addr flags).toNat / 4096 = addr / 4096 := by
    rw [entry, BitVec.toNat_or, BitVec.toNat_ofNat, Nat.mod_eq_of_lt (by omega),
      show 4096 = 2 ^ 12 by decide, ← Nat.shiftRight_eq_div_pow, ← Nat.shiftRight_eq_div_pow,
      Nat.shiftRight_or_distrib, Nat.shiftRight_eq_div_pow flags.toNat,
      Nat.div_eq_of_lt (by omega), Nat.or_zero]
  rw [frame_eq, hdiv]
  omega

end PageWalk
