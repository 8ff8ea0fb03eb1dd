import VimOS.Library.PageWalk
import VimOS.Paging.Address

/-!
# Mapping pages on demand

`setupPageMaps` of `kernel/paging.c` maps a number of pages from a virtual address on. It calls
`setupPageMap` on the highest table, which handles the entries of its table one after another: it
gives an entry that is not present a new page, and calls itself on the table of the level below. The
address is one bit-field record that caller and callee both advance, and the callee returns how many
pages are left. `size_t` is `uint32_t` in this kernel.

Tables are reached through the mapping of physical memory at `PAGE_OFFSET`. `pool` is what the calls
of `alloc_mem(1)` return, in their order; `0` is `NULL`.
-/

namespace VimOS

open PageWalk

/-! ## Bit-fields -/

/-- The bit-field of a width at a position. -/
def getField (pos width : ℕ) (x : BitVec 64) : ℕ := x.toNat / 2 ^ pos % 2 ^ width

/-- An assignment to it. -/
def setField (pos width : ℕ) (x : BitVec 64) (value : ℕ) : BitVec 64 :=
  BitVec.ofNat 64 (x.toNat / 2 ^ (pos + width) * 2 ^ (pos + width) +
    value % 2 ^ width * 2 ^ pos + x.toNat % 2 ^ pos)

/-- `static int part(LinearAddress4L *l, int page_map_level)`. -/
def part (l : Addr) (pageMapLevel : ℕ) : ℕ :=
  match pageMapLevel with
  | 0 => getField 0 12 l
  | 1 => getField 12 9 l
  | 2 => getField 21 9 l
  | 3 => getField 30 9 l
  | 4 => getField 39 9 l
  | _ => 0

/-- `static void setPart(LinearAddress4L *l, int page_map_level, int value)`. -/
def setPart (l : Addr) (pageMapLevel value : ℕ) : Addr :=
  match pageMapLevel with
  | 0 => setField 0 12 l value
  | 1 => setField 12 9 l value
  | 2 => setField 21 9 l value
  | 3 => setField 30 9 l value
  | 4 => setField 39 9 l value
  | _ => l

/-- The loop that sets the parts of the levels from a level down to 1 to 0. -/
def clearParts (l : Addr) : ℕ → Addr
  | 0 => l
  | level + 1 => clearParts (setPart l (level + 1) 0) level

/-! ## Entries -/

/-- `static PML4E *pointer(PML4E *p)`. -/
def pointer (p : BitVec 64) : Addr := p2v (BitVec.ofNat 64 (getField 12 40 p) <<< 12)

/-- `static void setPointer(PML4E *p0, PML4E *p1)`. -/
def setPointer (p0 : BitVec 64) (p1 : Addr) : BitVec 64 :=
  setField 12 40 p0 (v2p p1 >>> 12).toNat

/-- Memory, and the number of calls of `alloc_mem` so far. -/
structure PagingState where
  mem : Mem
  calls : ℕ

namespace PagingState

/-- `*p`, where physical memory is mapped at `PAGE_OFFSET`. -/
def load (s : PagingState) (p : Addr) : BitVec 64 := s.mem (p - pageOffset).toNat

/-- `*p = e`. -/
def store (s : PagingState) (p : Addr) (e : BitVec 64) : PagingState :=
  { s with mem := Function.update s.mem (p - pageOffset).toNat e }

end PagingState

variable (pool : ℕ → Addr)

/-- `static PML4E *newPageMap(void)`. -/
def newPageMap (s : PagingState) : PagingState × Addr :=
  let e := pool s.calls
  if e = 0 then ({ s with calls := s.calls + 1 }, 0)
  else ({ mem := memsetZero (e - pageOffset).toNat (8 * 512) s.mem, calls := s.calls + 1 }, e)

/-- `static PML4E *setNewPageMapIfNotPresent(PML4E *entry)`. -/
def setNewPageMapIfNotPresent (s : PagingState) (entry : Addr) : PagingState × Addr :=
  if entry = 0 then (s, 0)
  else if present (s.load entry) then (s, pointer (s.load entry))
  else
    let new := newPageMap pool s
    let childMap := new.2
    if childMap = 0 then (new.1, 0)
    else
      -- `setPointer`, and then the bit `p`
      let s := new.1.store entry (setPointer (new.1.load entry) childMap)
      let s := s.store entry (setField 0 1 (s.load entry) 1)
      (s, childMap)

/-! ## The recursion over the levels -/

/-- What `setupPageMap` leaves and returns: the state, the address and the `int`. -/
abbrev PageMapReturn := PagingState × Addr × BitVec 32

/-- The loop body up to the assignment to `num_pages`: what `num_pages` is then, or `none` where the
body returns `-1`. `child` is `setupPageMap` for the level below. -/
def setupEntry (rw : Bool) (level : ℕ)
    (child : Addr → PagingState → Addr → BitVec 32 → Option PageMapReturn)
    (pageMap : Addr) (s : PagingState) (addr : Addr) (numPages : BitVec 32) :
    Option (PagingState × Addr × Option (BitVec 32)) :=
  let entry := pageMap + BitVec.ofNat 64 (8 * part addr level)
  let r := setNewPageMapIfNotPresent pool s entry
  let childMap := r.2
  if childMap = 0 then some (r.1, addr, none)
  else
    -- the bits `rw` and `us`, on every level
    let s := r.1.store entry (setField 1 1 (r.1.load entry) rw.toNat)
    let s := s.store entry (setField 2 1 (s.load entry) 1)
    if level = 1 then some (s, addr, some (numPages - 1))
    else
      -- `num_remain_pages` is an `int`, and `num_pages` takes its 32 bits
      (child childMap s addr numPages).map fun c ↦
        (c.1, c.2.1, if c.2.2 = -1 then none else some c.2.2)

/-- The loop of `setupPageMap`; `none` when the fuel runs out. -/
def setupLoop (rw : Bool) (level : ℕ)
    (child : Addr → PagingState → Addr → BitVec 32 → Option PageMapReturn) (pageMap : Addr) :
    ℕ → PagingState → Addr → BitVec 32 → Option PageMapReturn
  | 0, _, _, _ => none
  | fuel + 1, s, addr, numPages =>
    if numPages = 0 then some (s, addr, numPages)
    else
      let entryIndex := part addr level
      (setupEntry pool rw level child pageMap s addr numPages).bind fun
        | (s, addr, none) => some (s, addr, -1)
        | (s, addr, some numPages) =>
          if entryIndex = 511 then some (s, addr, numPages)
          else
            -- the address of the first page of the next entry
            setupLoop rw level child pageMap fuel s
              (clearParts (setPart addr level (entryIndex + 1)) (level - 1)) numPages

/-- `static int setupPageMap(PML4E *page_map, int page_map_level, LinearAddress4L *addr, size_t
num_pages, bool rw)`. There are 512 entries; level 1 makes no call. -/
def setupPageMap (rw : Bool) :
    ℕ → Addr → PagingState → Addr → BitVec 32 → Option PageMapReturn
  | 0, _, _, _, _ => none
  | level + 1, pageMap, s, addr, numPages =>
    setupLoop pool rw (level + 1) (setupPageMap rw level) pageMap 512 s addr numPages

/-- `void setupPageMaps(LinearAddress4L *addr, size_t num_pages, bool rw)`. -/
def setupPageMaps (cr3 : Addr) (s : PagingState) (addr : Addr) (numPages : BitVec 32) (rw : Bool) :
    Option PagingState :=
  (setupPageMap pool rw 4 (p2v cr3) s addr numPages).map Prod.fst

/-! ## Bit-fields as numbers -/

theorem toNat_setField {pos width : ℕ} (h : pos + width ≤ 64) (x : BitVec 64) (value : ℕ) :
    (setField pos width x value).toNat = x.toNat / 2 ^ (pos + width) * 2 ^ (pos + width) +
      value % 2 ^ width * 2 ^ pos + x.toNat % 2 ^ pos := by
  have hlow : value % 2 ^ width * 2 ^ pos + x.toNat % 2 ^ pos < 2 ^ (pos + width) := by
    have hvalue : value % 2 ^ width + 1 ≤ 2 ^ width := Nat.mod_lt _ (by positivity)
    have hx : x.toNat % 2 ^ pos < 2 ^ pos := Nat.mod_lt _ (by positivity)
    calc value % 2 ^ width * 2 ^ pos + x.toNat % 2 ^ pos
        < value % 2 ^ width * 2 ^ pos + 2 ^ pos := by omega
      _ = (value % 2 ^ width + 1) * 2 ^ pos := by ring
      _ ≤ 2 ^ width * 2 ^ pos := Nat.mul_le_mul_right _ hvalue
      _ = 2 ^ (pos + width) := by rw [pow_add, mul_comm]
  have hhigh : (x.toNat / 2 ^ (pos + width) + 1) * 2 ^ (pos + width) ≤ 2 ^ 64 := by
    have hpow : 2 ^ (64 - (pos + width)) * 2 ^ (pos + width) = 2 ^ 64 := by
      rw [← pow_add, Nat.sub_add_cancel h]
    rw [← hpow]
    refine Nat.mul_le_mul_right _ ((Nat.div_lt_iff_lt_mul (by positivity)).mpr ?_)
    rw [hpow]
    exact x.isLt
  rw [Nat.add_mul, Nat.one_mul] at hhigh
  rw [setField, BitVec.toNat_ofNat, Nat.mod_eq_of_lt]
  omega

theorem getLsbD_eq_decide (e : BitVec 64) (i : ℕ) :
    e.getLsbD i = decide (e.toNat / 2 ^ i % 2 = 1) := Nat.testBit_eq_decide_div_mod_eq

/-- `rw` and `us` are set. -/
def markEntry (rw : Bool) (e : BitVec 64) : BitVec 64 := setField 2 1 (setField 1 1 e rw.toNat) 1

/-- `addr` and `p` are set. -/
def linkEntry (e : BitVec 64) (childMap : Addr) : BitVec 64 :=
  setField 0 1 (setPointer e childMap) 1

section Entries

variable (rw : Bool) (e : BitVec 64)

theorem toNat_markEntry :
    (markEntry rw e).toNat = e.toNat / 8 * 8 + 4 + rw.toNat * 2 + e.toNat % 2 := by
  have hrw := Bool.toNat_lt rw
  rw [markEntry, toNat_setField (by decide), toNat_setField (by decide)]
  omega

@[simp] theorem present_markEntry : present (markEntry rw e) = present e := by
  simp only [present, getLsbD_eq_decide, toNat_markEntry]
  congr 1
  rw [eq_iff_iff]
  omega

@[simp] theorem large_markEntry : large (markEntry rw e) = large e := by
  have hrw := Bool.toNat_lt rw
  simp only [large, getLsbD_eq_decide, toNat_markEntry]
  congr 1
  rw [eq_iff_iff]
  omega

@[simp] theorem user_markEntry : user (markEntry rw e) = true := by
  have hrw := Bool.toNat_lt rw
  simp only [user, getLsbD_eq_decide, toNat_markEntry, decide_eq_true_eq]
  omega

@[simp] theorem writable_markEntry : writable (markEntry rw e) = rw := by
  simp only [writable, getLsbD_eq_decide, toNat_markEntry]
  cases rw
  · rw [decide_eq_false_iff_not, Bool.toNat_false]
    omega
  · rw [decide_eq_true_eq, Bool.toNat_true]
    omega

@[simp] theorem frame_markEntry : frame (markEntry rw e) = frame e := by
  have hrw := Bool.toNat_lt rw
  rw [frame_eq, frame_eq, toNat_markEntry]
  omega

theorem toNat_linkEntry (childMap : Addr) : (linkEntry e childMap).toNat =
    e.toNat / 2 ^ 52 * 2 ^ 52 + (v2p childMap).toNat / 2 ^ 12 % 2 ^ 40 * 2 ^ 12 +
      e.toNat % 2 ^ 12 / 2 * 2 + 1 := by
  rw [linkEntry, toNat_setField (by decide), setPointer, toNat_setField (by decide),
    BitVec.toNat_ushiftRight, Nat.shiftRight_eq_div_pow]
  omega

variable (childMap : Addr)

@[simp] theorem present_linkEntry : present (linkEntry e childMap) = true := by
  simp only [present, getLsbD_eq_decide, toNat_linkEntry, decide_eq_true_eq]
  omega

@[simp] theorem large_linkEntry : large (linkEntry e childMap) = large e := by
  simp only [large, getLsbD_eq_decide, toNat_linkEntry]
  congr 1
  rw [eq_iff_iff]
  omega

end Entries

/-- Physical memory that `P2V` reaches. -/
def InDirectMap (page : ℕ) : Prop := page < 2 ^ 64 - pageOffset.toNat

/-- The pointer to a physical page. -/
def pagePointer (page : ℕ) : Addr := p2v (BitVec.ofNat 64 page)

theorem p2v_eq_pagePointer (a : Addr) : p2v a = pagePointer a.toNat := by
  rw [pagePointer, BitVec.ofNat_toNat, BitVec.setWidth_eq]

variable {page : ℕ}

theorem InDirectMap.lt (h : InDirectMap page) : page < 2 ^ 52 := by
  rw [InDirectMap, show pageOffset.toNat = 0xffff806000000000 from rfl] at h
  omega

theorem toNat_pagePointer_add (h : InDirectMap page) {k : ℕ} (hk : k < 4096) :
    (pagePointer page + BitVec.ofNat 64 k - pageOffset).toNat = page + k := by
  have hlt := h.lt
  have hsub : pagePointer page + BitVec.ofNat 64 k - pageOffset = BitVec.ofNat 64 (page + k) := by
    rw [pagePointer, p2v, BitVec.ofNat_add, BitVec.add_assoc, BitVec.add_comm,
      BitVec.add_sub_cancel]
  rw [hsub, BitVec.toNat_ofNat, Nat.mod_eq_of_lt (by omega)]

theorem pagePointer_ne_zero (h : InDirectMap page) (hpage : page % 4096 = 0)
    {k : ℕ} (hk : k < 4096) :
    pagePointer page + BitVec.ofNat 64 k ≠ 0 := by
  intro hzero
  have h := h
  rw [InDirectMap] at h
  have hnat := toNat_pagePointer_add h hk
  rw [hzero, show (0 - pageOffset).toNat = 0x7fa000000000 by decide] at hnat
  rw [show pageOffset.toNat = 0xffff806000000000 from rfl] at h
  omega

theorem frame_linkEntry (h : InDirectMap page) (hpage : page % 4096 = 0) (e : BitVec 64) :
    frame (linkEntry e (pagePointer page)) = page := by
  have hlt := h.lt
  have hv2p : (v2p (pagePointer page)).toNat = page := by
    rw [pagePointer, v2p_p2v]
    · rw [BitVec.toNat_ofNat, Nat.mod_eq_of_lt (by omega)]
    · rw [BitVec.toNat_ofNat, Nat.mod_eq_of_lt (by omega)]
      exact h
  rw [frame_eq, toNat_linkEntry, hv2p]
  omega

/-- The pointer in an entry is the pointer to its frame. -/
theorem pointer_eq (e : BitVec 64) : pointer e = pagePointer (frame e) := by
  have h : getField 12 40 e < 2 ^ 40 := Nat.mod_lt _ (by decide)
  rw [pointer, pagePointer, frame_eq]
  congr 1
  apply BitVec.eq_of_toNat_eq
  rw [BitVec.toNat_shiftLeft, BitVec.toNat_ofNat, BitVec.toNat_ofNat, Nat.shiftLeft_eq,
    show e.toNat / 4096 % 2 ^ 40 = getField 12 40 e from rfl]
  omega

/-! ## Addresses as page numbers -/

/-- The number of the page of an address. -/
def pageNo (addr : Addr) : ℕ := addr.toNat / 4096

theorem part_eq (addr : Addr) {level : ℕ} (h : level < 4) :
    part addr (level + 1) = pageNo addr / 512 ^ level % 512 := by
  rw [pageNo]
  have hcases : level = 0 ∨ level = 1 ∨ level = 2 ∨ level = 3 := by omega
  rcases hcases with rfl | rfl | rfl | rfl <;> simp only [part, getField] <;> omega

theorem pageNo_setPart (addr : Addr) {level : ℕ} (h : level < 4)
    {value : ℕ} (hvalue : value < 512) :
    pageNo (setPart addr (level + 1) value) =
      pageNo addr / 512 ^ (level + 1) * 512 ^ (level + 1) + value * 512 ^ level +
        pageNo addr % 512 ^ level := by
  rw [pageNo, pageNo]
  have hcases : level = 0 ∨ level = 1 ∨ level = 2 ∨ level = 3 := by omega
  rcases hcases with rfl | rfl | rfl | rfl <;> simp only [setPart] <;>
    rw [toNat_setField (by decide)] <;> omega

theorem pageNo_clearParts (addr : Addr) {level : ℕ} (h : level ≤ 4) :
    pageNo (clearParts addr level) = pageNo addr / 512 ^ level * 512 ^ level := by
  induction level generalizing addr with
  | zero => rw [clearParts, pow_zero, Nat.div_one, Nat.mul_one]
  | succ level ih =>
    rw [clearParts, ih _ (by omega), pageNo_setPart addr (by omega) (by decide), Nat.zero_mul,
      Nat.add_zero, pow_succ', ← Nat.mul_assoc,
      Nat.add_comm, Nat.add_mul_div_right _ _ (by positivity),
      Nat.div_eq_of_lt (Nat.mod_lt _ (by positivity)), Nat.zero_add]

/-- The address is advanced to the first page of the next entry of a table. -/
theorem pageNo_advance (addr : Addr) {level index : ℕ} (h : level < 4) (hindex : index < 511) :
    pageNo (clearParts (setPart addr (level + 1) (index + 1)) level) =
      pageNo addr / 512 ^ (level + 1) * 512 ^ (level + 1) + (index + 1) * 512 ^ level := by
  rw [pageNo_clearParts _ (by omega), pageNo_setPart addr h (by omega), pow_succ' 512 level,
    ← Nat.mul_assoc, ← Nat.add_mul, Nat.add_comm, Nat.add_mul_div_right _ _ (by positivity),
    Nat.div_eq_of_lt (Nat.mod_lt _ (by positivity)), Nat.zero_add]

end VimOS
