import VimOS.Library.PageWalk

/-!
# The page tables of the boot loader

`BootMain` of `boot/boot.c` allocates nine blocks of pages and fills them with the page tables the
kernel is started with: physical memory one to one at address 0 and again at `PAGE_OFFSET`, by large
pages, and the kernel image at `KERNEL_MAPPING`, by pages of 4 KiB. The directories of one upper
table lie one after another in a block, so they are filled by loops over its whole length.

The stores are listed in their order. Blocks do not overlap, so a store is known by the block and
the index it goes to, and what is left in a cell is what was stored there (`execStores_eq`).
-/

namespace VimOS

open PageWalk

/-! ## The blocks -/

/-- The blocks of pages that hold tables, under the names of their pointers. -/
inductive Table : Type
  | pml4
  | pdp
  | pageDir
  | actualPageDir
  | actualPageDir2
  | kernelPdp
  | kernelPdp2
  | kernelPageDirectory
  | kernelPageTable
  deriving DecidableEq

/-- The number of pages asked of `AllocatePages`. -/
def Table.pages : Table → ℕ
  | .pml4 | .pdp | .kernelPdp | .kernelPdp2 | .kernelPageDirectory => 1
  | .pageDir | .actualPageDir => 128
  | .actualPageDir2 => 512
  | .kernelPageTable => 16

/-- All of them, in the order in which they are allocated. -/
def Table.all : List Table :=
  [.pml4, .pdp, .pageDir, .actualPageDir, .actualPageDir2, .kernelPdp, .kernelPdp2,
    .kernelPageDirectory, .kernelPageTable]

/-- What `AllocatePages` may return for the blocks. -/
structure TablesAllocated (base : Table → ℕ) : Prop where
  aligned : ∀ t, base t % 4096 = 0
  below : ∀ t, base t + 4096 * t.pages ≤ 2 ^ 52
  disjoint : ∀ t t', t ≠ t' →
    base t + 4096 * t.pages ≤ base t' ∨ base t' + 4096 * t'.pages ≤ base t

/-! ## The stores -/

/-- An entry of a block. -/
abbrev Cell := Table × ℕ

def cellAddr (base : Table → ℕ) (c : Cell) : ℕ := base c.1 + 8 * c.2

def execStores (base : Table → ℕ) (mem : Mem) (stores : List (Cell × BitVec 64)) : Mem :=
  stores.foldl (fun mem s ↦ Function.update mem (cellAddr base s.1) s.2) mem

/-- The loop that fills `count` entries of `upper` from `first` on and the tables in `lower` they
lead to: these map pages of `size` bytes from `addr` on. -/
def fillStores (base : Table → ℕ) (upper lower : Table) (first count addr size : ℕ)
    (flags : BitVec 64) : List (Cell × BitVec 64) :=
  (List.range count).flatMap fun i ↦
    ((upper, first + i), entry (base lower + 8 * (i * 512)) 0x003) ::
      (List.range 512).map fun j ↦
        ((lower, i * 512 + j), entry (addr + i * 512 * size + j * size) flags)

/-- The entries of the highest table. -/
def pml4Stores (base : Table → ℕ) : List (Cell × BitVec 64) :=
  [((.pml4, 0), entry (base .pdp) 0x003), ((.pml4, 256), entry (base .kernelPdp) 0x003),
    ((.pml4, 257), entry (base .kernelPdp2) 0x003)]

/-- "Physical mapping(128GB)", "kernel mapping(32MB)" and the two parts of "physical address
mapping". -/
def bootStores (base : Table → ℕ) : List (Cell × BitVec 64) :=
  pml4Stores base ++
    fillStores base .pdp .pageDir 0 128 0 (512 * 4096) 0x083 ++
    [((.kernelPdp, 0), entry (base .kernelPageDirectory) 0x003)] ++
    fillStores base .kernelPageDirectory .kernelPageTable 0 16 0x100000 4096 0x003 ++
    fillStores base .kernelPdp .actualPageDir (512 - 128) 128 0 (512 * 4096) 0x083 ++
    fillStores base .kernelPdp2 .actualPageDir2 0 512 (128 * (512 * 512 * 4096)) (512 * 4096) 0x083

/-- Memory when the tables have been filled. -/
def bootTables (base : Table → ℕ) (mem : Mem) : Mem :=
  execStores base (Table.all.foldl (fun mem t ↦ memsetZero (base t) (4096 * t.pages) mem) mem)
    (bootStores base)

/-! ## What they leave -/

variable {base : Table → ℕ} {mem : Mem} {c c' : Cell} {w : BitVec 64}

/-- The cell lies in its block. -/
def Cell.Valid (c : Cell) : Prop := c.2 < 512 * c.1.pages

theorem cellAddr_injective (h : TablesAllocated base) (hc : Cell.Valid c) (hc' : Cell.Valid c')
    (heq : cellAddr base c = cellAddr base c') : c = c' := by
  obtain ⟨t, i⟩ := c
  obtain ⟨t', i'⟩ := c'
  simp only [Cell.Valid] at hc hc'
  simp only [cellAddr] at heq
  by_cases ht : t = t'
  · subst ht
    rw [Prod.mk.injEq]
    exact ⟨rfl, by omega⟩
  · rcases h.disjoint t t' ht with hlt | hlt <;> omega

/-- A cell to which only one value is stored holds that value. -/
theorem execStores_eq (h : TablesAllocated base) {stores : List (Cell × BitVec 64)}
    (hvalid : ∀ s ∈ stores, Cell.Valid s.1) (hc : Cell.Valid c)
    (hall : ∀ s ∈ stores, s.1 = c → s.2 = w)
    (hsome : (∃ s ∈ stores, s.1 = c) ∨ mem (cellAddr base c) = w) :
    execStores base mem stores (cellAddr base c) = w := by
  induction stores generalizing mem with
  | nil =>
    rcases hsome with ⟨s, hs, -⟩ | hmem
    · exact absurd hs List.not_mem_nil
    · exact hmem
  | cons s stores ih =>
    refine ih (fun s' hs' ↦ hvalid s' (List.mem_cons_of_mem _ hs'))
      (fun s' hs' ↦ hall s' (List.mem_cons_of_mem _ hs')) ?_
    by_cases hs : s.1 = c
    · right
      show Function.update mem (cellAddr base s.1) s.2 (cellAddr base c) = w
      rw [hs, Function.update_self]
      exact hall s List.mem_cons_self hs
    · have hne : cellAddr base c ≠ cellAddr base s.1 := fun heq ↦
        hs (cellAddr_injective h hc (hvalid s List.mem_cons_self) heq).symm
      rcases hsome with ⟨s', hs', rfl⟩ | hmem
      · rcases List.mem_cons.mp hs' with rfl | hs'
        · exact absurd rfl hs
        · exact .inl ⟨s', hs', rfl⟩
      · exact .inr ((Function.update_of_ne hne _ _).trans hmem)

theorem mem_fillStores {upper lower : Table} {first count addr size : ℕ} {flags : BitVec 64}
    {s : Cell × BitVec 64} : s ∈ fillStores base upper lower first count addr size flags ↔
      (∃ i < count, s = ((upper, first + i), entry (base lower + 8 * (i * 512)) 0x003)) ∨
      ∃ i < count, ∃ j < 512,
        s = ((lower, i * 512 + j), entry (addr + i * 512 * size + j * size) flags) := by
  simp only [fillStores, List.mem_flatMap, List.mem_cons, List.mem_map, List.mem_range]
  constructor
  · rintro ⟨i, hi, rfl | ⟨j, hj, rfl⟩⟩
    · exact .inl ⟨i, hi, rfl⟩
    · exact .inr ⟨i, hi, j, hj, rfl⟩
  · rintro (⟨i, hi, rfl⟩ | ⟨i, hi, j, hj, rfl⟩)
    · exact ⟨i, hi, .inl rfl⟩
    · exact ⟨i, hi, .inr ⟨j, hj, rfl⟩⟩

theorem memsetZero_tables (hc : Cell.Valid c) (ts : List Table)
    (hmem : c.1 ∈ ts ∨ mem (cellAddr base c) = 0) :
    ts.foldl (fun mem t ↦ memsetZero (base t) (4096 * t.pages) mem) mem (cellAddr base c) = 0 := by
  induction ts generalizing mem with
  | nil =>
    rcases hmem with hmem | hmem
    · exact absurd hmem List.not_mem_nil
    · exact hmem
  | cons t ts ih =>
    refine ih ?_
    rcases hmem with hmem | hmem
    · rcases List.mem_cons.mp hmem with rfl | hmem
      · right
        refine if_pos ?_
        rw [Cell.Valid] at hc
        rw [cellAddr]
        omega
      · exact .inl hmem
    · right
      show (if _ then 0 else mem (cellAddr base c)) = 0
      rw [hmem, ite_self]

/-- The tables as they are meant to be: the entries of each block. -/
def tableEntry (base : Table → ℕ) : Table → ℕ → BitVec 64
  | .pml4, i =>
    if i = 0 then entry (base .pdp) 0x003
    else if i = 256 then entry (base .kernelPdp) 0x003
    else if i = 257 then entry (base .kernelPdp2) 0x003
    else 0
  | .pdp, i => if i < 128 then entry (base .pageDir + 4096 * i) 0x003 else 0
  | .pageDir, i => entry (0x200000 * i) 0x083
  | .actualPageDir, i => entry (0x200000 * i) 0x083
  | .actualPageDir2, i => entry (0x2000000000 + 0x200000 * i) 0x083
  | .kernelPdp, i =>
    if i = 0 then entry (base .kernelPageDirectory) 0x003
    else if 384 ≤ i then entry (base .actualPageDir + 4096 * (i - 384)) 0x003
    else 0
  | .kernelPdp2, i => entry (base .actualPageDir2 + 4096 * i) 0x003
  | .kernelPageDirectory, i =>
    if i < 16 then entry (base .kernelPageTable + 4096 * i) 0x003 else 0
  | .kernelPageTable, i => entry (0x100000 + 4096 * i) 0x003

theorem fillStores_entry {upper lower : Table} {first count addr size : ℕ} {flags : BitVec 64}
    {s : Cell × BitVec 64} (hs : s ∈ fillStores base upper lower first count addr size flags)
    (hupper : first + count ≤ 512 * upper.pages) (hlower : count ≤ lower.pages)
    (hfirst : ∀ i < count, tableEntry base upper (first + i) =
      entry (base lower + 8 * (i * 512)) 0x003)
    (hsecond : ∀ i < count, ∀ j < 512, tableEntry base lower (i * 512 + j) =
      entry (addr + i * 512 * size + j * size) flags) :
    Cell.Valid s.1 ∧ s.2 = tableEntry base s.1.1 s.1.2 := by
  rcases mem_fillStores.mp hs with ⟨i, hi, rfl⟩ | ⟨i, hi, j, hj, rfl⟩
  · exact ⟨Nat.lt_of_lt_of_le (Nat.add_lt_add_left hi first) hupper, (hfirst i hi).symm⟩
  · refine ⟨?_, (hsecond i hi j hj).symm⟩
    rw [Cell.Valid]
    simp only
    omega

theorem mem_bootStores {s : Cell × BitVec 64} : s ∈ bootStores base ↔ s ∈ pml4Stores base ∨
    s ∈ fillStores base .pdp .pageDir 0 128 0 (512 * 4096) 0x083 ∨
    s = ((.kernelPdp, 0), entry (base .kernelPageDirectory) 0x003) ∨
    s ∈ fillStores base .kernelPageDirectory .kernelPageTable 0 16 0x100000 4096 0x003 ∨
    s ∈ fillStores base .kernelPdp .actualPageDir (512 - 128) 128 0 (512 * 4096) 0x083 ∨
    s ∈ fillStores base .kernelPdp2 .actualPageDir2 0 512 (128 * (512 * 512 * 4096)) (512 * 4096)
      0x083 := by
  simp only [bootStores, List.mem_append, List.mem_singleton, or_assoc]

/-- Every store stores what is meant to be there, into its block. -/
theorem bootStores_entry {s : Cell × BitVec 64} (hs : s ∈ bootStores base) :
    Cell.Valid s.1 ∧ s.2 = tableEntry base s.1.1 s.1.2 := by
  have hentry : ∀ {a b : ℕ} {flags : BitVec 64}, a = b → entry a flags = entry b flags :=
    fun h ↦ by rw [h]
  rcases mem_bootStores.mp hs with hs | hs | rfl | hs | hs | hs
  · simp only [pml4Stores, List.mem_cons, List.not_mem_nil, or_false] at hs
    rcases hs with rfl | rfl | rfl
    · exact ⟨by simp [Cell.Valid, Table.pages], rfl⟩
    · exact ⟨by simp [Cell.Valid, Table.pages], rfl⟩
    · exact ⟨by simp [Cell.Valid, Table.pages], rfl⟩
  · refine fillStores_entry hs (by decide) le_rfl (fun i hi ↦ ?_) fun i hi j hj ↦ hentry ?_
    · rw [tableEntry, Nat.zero_add, if_pos hi]
      exact hentry (by ring)
    · omega
  · exact ⟨by simp [Cell.Valid, Table.pages], rfl⟩
  · refine fillStores_entry hs (by decide) le_rfl (fun i hi ↦ ?_) fun i hi j hj ↦ hentry ?_
    · rw [tableEntry, Nat.zero_add, if_pos hi]
      exact hentry (by ring)
    · omega
  · refine fillStores_entry hs (by decide) le_rfl (fun i hi ↦ ?_) fun i hi j hj ↦ hentry ?_
    · have hne : 512 - 128 + i ≠ 0 := by omega
      have hle : 384 ≤ 512 - 128 + i := by omega
      rw [tableEntry, if_neg hne, if_pos hle]
      exact hentry (by omega)
    · omega
  · refine fillStores_entry hs (by decide) le_rfl (fun i hi ↦ ?_) fun i hi j hj ↦ hentry ?_
    · rw [tableEntry, Nat.zero_add]
      exact hentry (by ring)
    · omega

theorem upper_mem_fillStores {upper lower : Table} {first count addr size k : ℕ}
    {flags : BitVec 64} (hle : first ≤ k) (hlt : k < first + count) :
    ∃ s ∈ fillStores base upper lower first count addr size flags, s.1 = (upper, k) := by
  have hk : first + (k - first) = k := by omega
  exact ⟨_, mem_fillStores.mpr (.inl ⟨k - first, by omega, rfl⟩), by rw [hk]⟩

theorem lower_mem_fillStores {upper lower : Table} {first count addr size k : ℕ}
    {flags : BitVec 64} (hlt : k < 512 * count) :
    ∃ s ∈ fillStores base upper lower first count addr size flags, s.1 = (lower, k) := by
  have hk : k / 512 * 512 + k % 512 = k := by omega
  exact ⟨_, mem_fillStores.mpr (.inr ⟨k / 512, by omega, k % 512, by omega, rfl⟩), by rw [hk]⟩

/-- Nothing else is left out. -/
theorem bootStores_complete (hc : Cell.Valid c) :
    (∃ s ∈ bootStores base, s.1 = c) ∨ tableEntry base c.1 c.2 = 0 := by
  obtain ⟨t, k⟩ := c
  rw [Cell.Valid] at hc
  simp only [mem_bootStores]
  cases t with
  | pml4 =>
    by_cases h : k = 0 ∨ k = 256 ∨ k = 257
    · left
      rcases h with rfl | rfl | rfl
      · exact ⟨_, .inl List.mem_cons_self, rfl⟩
      · exact ⟨_, .inl (List.mem_cons_of_mem _ List.mem_cons_self), rfl⟩
      · exact ⟨_, .inl (List.mem_cons_of_mem _ (List.mem_cons_of_mem _ List.mem_cons_self)), rfl⟩
    · rw [not_or, not_or] at h
      exact .inr (by simp only [tableEntry, if_neg h.1, if_neg h.2.1, if_neg h.2.2])
  | pdp =>
    by_cases hk : k < 128
    · obtain ⟨s, hs, hsc⟩ : ∃ s ∈ fillStores base .pdp .pageDir 0 128 0 (512 * 4096) 0x083,
          s.1 = (Table.pdp, k) := upper_mem_fillStores (Nat.zero_le k) (by rwa [Nat.zero_add])
      exact .inl ⟨s, .inr (.inl hs), hsc⟩
    · exact .inr (if_neg hk)
  | pageDir =>
    obtain ⟨s, hs, hsc⟩ := lower_mem_fillStores hc
    exact .inl ⟨s, .inr (.inl hs), hsc⟩
  | actualPageDir =>
    obtain ⟨s, hs, hsc⟩ := lower_mem_fillStores hc
    exact .inl ⟨s, .inr (.inr (.inr (.inr (.inl hs)))), hsc⟩
  | actualPageDir2 =>
    obtain ⟨s, hs, hsc⟩ := lower_mem_fillStores hc
    exact .inl ⟨s, .inr (.inr (.inr (.inr (.inr hs)))), hsc⟩
  | kernelPdp =>
    by_cases h0 : k = 0
    · exact .inl ⟨_, .inr (.inr (.inl rfl)), by rw [h0]⟩
    · by_cases hk : 384 ≤ k
      · obtain ⟨s, hs, hsc⟩ : ∃ s ∈ fillStores base .kernelPdp .actualPageDir (512 - 128) 128 0
            (512 * 4096) 0x083, s.1 = (Table.kernelPdp, k) := upper_mem_fillStores hk hc
        exact .inl ⟨s, .inr (.inr (.inr (.inr (.inl hs)))), hsc⟩
      · exact .inr (by simp only [tableEntry, if_neg h0, if_neg hk])
  | kernelPdp2 =>
    obtain ⟨s, hs, hsc⟩ := upper_mem_fillStores (Nat.zero_le k) hc
    exact .inl ⟨s, .inr (.inr (.inr (.inr (.inr hs)))), hsc⟩
  | kernelPageDirectory =>
    by_cases hk : k < 16
    · obtain ⟨s, hs, hsc⟩ :
          ∃ s ∈ fillStores base .kernelPageDirectory .kernelPageTable 0 16 0x100000
          4096 0x003, s.1 = (Table.kernelPageDirectory, k) :=
        upper_mem_fillStores (Nat.zero_le k) (by rwa [Nat.zero_add])
      exact .inl ⟨s, .inr (.inr (.inr (.inl hs))), hsc⟩
    · exact .inr (if_neg hk)
  | kernelPageTable =>
    obtain ⟨s, hs, hsc⟩ := lower_mem_fillStores hc
    exact .inl ⟨s, .inr (.inr (.inr (.inl hs))), hsc⟩

theorem mem_tableAll (t : Table) : t ∈ Table.all := by
  cases t <;> decide

/-- The tables are filled as they are meant to be. -/
theorem bootTables_eq (h : TablesAllocated base) (hc : Cell.Valid c) :
    bootTables base mem (cellAddr base c) = tableEntry base c.1 c.2 := by
  refine execStores_eq h (fun s hs ↦ (bootStores_entry hs).1) hc ?_ ?_
  · rintro s hs rfl
    exact (bootStores_entry hs).2
  · refine (bootStores_complete hc).imp_right fun hzero ↦ ?_
    rw [hzero]
    exact memsetZero_tables hc _ (.inl (mem_tableAll _))

end VimOS
