import Mathlib.Logic.Function.Basic
import Mathlib.Tactic

/-!
# The page allocator

`alloc_mem` and `free_mem` of `kernel/mem.c`, statement by statement. Memory is seen as a map from
addresses to `struct memlist` nodes, next to the static header `memlist`; the list lives inside the
free blocks themselves, its nodes being the first bytes of each block. Nodes of distinct blocks are
whole pages apart, so no two of them overlap and the view loses nothing.

## Arithmetic

An address is a `uint64_t`, a page count a `uint32_t`. In `(uint64_t)m + 4096 * pages` the product
is formed in 32 bits before it is widened, so it wraps from `2 ^ 20` pages on; `bytesOf` and
`blockEnd` keep both moduli.

## Loops

The `for` loops follow pointers read from memory and need not end, so they take fuel. A call either
returns, or follows a null pointer, or runs out of fuel; the last says nothing about the call, and
results are stated for some amount of fuel. C leaves a call that follows a null pointer undefined,
so it counts as not returning.
-/

namespace VimOS

/-- `struct memlist`: a node of the free list. -/
structure MemList where
  /-- The address of the next node, `0` being `NULL`. -/
  next : ℕ
  /-- The number of pages of the block the node heads. -/
  pages : ℕ
  deriving DecidableEq

/-- What the loops keep in `prev`: the address of the static header (`none`) or of a node. -/
abbrev Place := Option ℕ

/-- The memory the allocator works on: the static `memlist` and the nodes by address. -/
structure Memory where
  memlist : MemList
  heap : ℕ → MemList

namespace Memory

def node (mem : Memory) : Place → MemList
  | none => mem.memlist
  | some a => mem.heap a

/-- `p->next`, as a function of the place. -/
def next (mem : Memory) (p : Place) : ℕ := (mem.node p).next

def set (mem : Memory) (p : Place) (n : MemList) : Memory :=
  match p with
  | none => { mem with memlist := n }
  | some a => { mem with heap := Function.update mem.heap a n }

/-- The assignment `p->next = v`. -/
def setNext (mem : Memory) (p : Place) (v : ℕ) : Memory := mem.set p { mem.node p with next := v }

/-- The assignment `p->pages = v`. -/
def setPages (mem : Memory) (p : Place) (v : ℕ) : Memory := mem.set p { mem.node p with pages := v }

variable (mem : Memory) (p q : Place) (a v : ℕ)

theorem node_set (n : MemList) : (mem.set p n).node q = if q = p then n else mem.node q := by
  cases p <;> cases q <;> simp [set, node, Function.update_apply]

@[simp] theorem next_setNext : (mem.setNext p v).next q = if q = p then v else mem.next q := by
  rw [next, setNext, node_set]
  split <;> rfl

@[simp] theorem next_setPages : (mem.setPages p v).next q = mem.next q := by
  rw [next, setPages, node_set]
  split_ifs with h
  · rw [h, next]
  · rfl

@[simp] theorem pages_setNext : ((mem.setNext p v).node q).pages = (mem.node q).pages := by
  rw [setNext, node_set]
  split_ifs with h
  · rw [h]
  · rfl

@[simp] theorem pages_setPages :
    ((mem.setPages p v).node q).pages = if q = p then v else (mem.node q).pages := by
  rw [setPages, node_set]
  split <;> rfl

end Memory

/-- Why a call does not return a value. -/
inductive Stop where
  /-- It followed a null pointer. -/
  | null
  /-- The fuel given to its loop ran out. -/
  | fuel
  deriving DecidableEq

/-! ## Address arithmetic -/

/-- `4096 * pages` for a `uint32_t pages`: the product is a `uint32_t`. -/
def bytesOf (pages : ℕ) : ℕ := 4096 * pages % 2 ^ 32

/-- `(uint64_t)m + 4096 * pages`. -/
def blockEnd (m pages : ℕ) : ℕ := (m + bytesOf pages) % 2 ^ 64

theorem bytesOf_eq {pages : ℕ} (h : pages < 2 ^ 20) : bytesOf pages = 4096 * pages := by
  rw [bytesOf, Nat.mod_eq_of_lt]
  omega

theorem bytesOf_le (pages : ℕ) : bytesOf pages ≤ 4096 * pages := Nat.mod_le _ _

theorem blockEnd_eq {m pages : ℕ} (hp : pages < 2 ^ 20) (hm : m + 4096 * pages < 2 ^ 64) :
    blockEnd m pages = m + 4096 * pages := by
  rw [blockEnd, bytesOf_eq hp, Nat.mod_eq_of_lt hm]

/-- Whatever the page count, a block that does not wrap the address space ends no lower than it
starts. -/
theorem le_blockEnd {m pages : ℕ} (hm : m + 4096 * pages < 2 ^ 64) : m ≤ blockEnd m pages := by
  have hle := bytesOf_le pages
  rw [blockEnd, Nat.mod_eq_of_lt (by omega)]
  omega

/-! ## `alloc_mem` -/

/-- The `for` loop of `alloc_mem`, standing on node `m` with its predecessor in `prev`. The result
is the memory after the loop and the value of `ptr`. -/
def allocLoop (pages : ℕ) : ℕ → Memory → Place → ℕ → Except Stop (Memory × ℕ)
  | 0, _, _, _ => .error .fuel
  | fuel + 1, mem, prev, m =>
    if m = 0 then .ok (mem, 0)
    else if (mem.node (some m)).pages = pages then
      .ok (mem.setNext prev (mem.next (some m)), m)
    else if pages ≤ (mem.node (some m)).pages then
      -- what is left of the node takes its place in the list
      let ml := blockEnd m pages
      let mem := mem.setNext prev ml
      let mem := mem.setNext (some ml) (mem.next (some m))
      let mem := mem.setPages (some ml) ((mem.node (some m)).pages - pages)
      .ok (mem, m)
    else allocLoop pages fuel mem (some m) (mem.next (some m))

/-- `void *alloc_mem(uint32_t pages)`; the pointer is `0` for `NULL`. -/
def allocMem (fuel : ℕ) (mem : Memory) (pages : ℕ) : Except Stop (Memory × ℕ) :=
  allocLoop pages fuel mem none (mem.next none)

/-- Once a call has returned or followed a null pointer, more fuel changes nothing. -/
theorem allocLoop_fuel {pages : ℕ} {fuel fuel' : ℕ} (hle : fuel ≤ fuel') {mem : Memory}
    {prev : Place} {m : ℕ} (h : allocLoop pages fuel mem prev m ≠ .error .fuel) :
    allocLoop pages fuel' mem prev m = allocLoop pages fuel mem prev m := by
  induction fuel generalizing fuel' mem prev m with
  | zero => exact absurd rfl h
  | succ fuel ih =>
    obtain ⟨fuel', rfl⟩ : ∃ n, fuel' = n + 1 := ⟨fuel' - 1, by omega⟩
    rw [allocLoop] at h
    rw [allocLoop, allocLoop]
    split_ifs at h ⊢
    · rfl
    · rfl
    · rfl
    · exact ih (by omega) h

/-! ## `free_mem` -/

/-- "Not merged any block (before all memlists)": link the block in front of the first node. -/
def freeFirst (ptr pages : ℕ) (mem : Memory) (prev : Place) (m : ℕ) : Memory × ℕ :=
  if prev = none ∧ ptr < m then
    let mem := mem.setNext prev ptr
    let mem := mem.setNext (some ptr) m
    let mem := mem.setPages (some ptr) pages
    (mem, ptr)
  else (mem, m)

/-- "Not merged any block": link the block behind a node that ends below it. -/
def freeBehind (ptr pages : ℕ) (mem : Memory) (prev : Place) (m : ℕ) : Memory × ℕ :=
  match prev with
  | none => (mem, m)
  | some a =>
    if blockEnd a (mem.node (some a)).pages < ptr then
      let mem := mem.setNext (some ptr) (mem.next (some a))
      let mem := mem.setNext (some a) ptr
      let mem := mem.setPages (some ptr) pages
      (mem, ptr)
    else (mem, m)

/-- "Merge next block": let the block take over the node that starts at its end. -/
def freeMergeNext (ptr pages : ℕ) (mem : Memory) (prev : Place) (m : ℕ) : Memory × ℕ :=
  if blockEnd ptr pages = m then
    let mem := mem.setNext prev ptr
    let mem := mem.setNext (some ptr) (mem.next (some m))
    let mem := mem.setPages (some ptr) ((pages + (mem.node (some m)).pages) % 2 ^ 32)
    (mem, mem.next prev)
  else (mem, m)

/-- "Merge prev block": let the node `m` that ends at the block take it over. The test reads
`m->pages`, and `m` may be null here. -/
def freeMergePrev (ptr pages : ℕ) (mem : Memory) (m : ℕ) : Except Stop (Memory × ℕ) :=
  if m = 0 then .error .null
  else if blockEnd m (mem.node (some m)).pages = ptr then
    .ok (mem.setPages (some m) (((mem.node (some m)).pages + pages) % 2 ^ 32), m)
  else .ok (mem, m)

/-- One execution of the body of the `for` loop of `free_mem`: its four tests in order, each seeing
what the ones before it left in memory and in `m`. -/
def freeBody (ptr pages : ℕ) (mem : Memory) (prev : Place) (m : ℕ) : Except Stop (Memory × ℕ) :=
  let (mem, m) := freeFirst ptr pages mem prev m
  let (mem, m) := freeBehind ptr pages mem prev m
  let (mem, m) := freeMergeNext ptr pages mem prev m
  freeMergePrev ptr pages mem m

/-- The `for` loop of `free_mem`; its step is `prev = m, m = m->next`. -/
def freeLoop (ptr pages : ℕ) : ℕ → Memory → Place → ℕ → Except Stop Memory
  | 0, _, _, _ => .error .fuel
  | fuel + 1, mem, prev, m =>
    if m = 0 then .ok mem
    else match freeBody ptr pages mem prev m with
      | .error e => .error e
      | .ok (mem, m) => freeLoop ptr pages fuel mem (some m) (mem.next (some m))

theorem freeLoop_fuel {ptr pages fuel fuel' : ℕ} (hle : fuel ≤ fuel') {mem : Memory} {prev : Place}
    {m : ℕ} (h : freeLoop ptr pages fuel mem prev m ≠ .error .fuel) :
    freeLoop ptr pages fuel' mem prev m = freeLoop ptr pages fuel mem prev m := by
  induction fuel generalizing fuel' mem prev m with
  | zero => exact absurd rfl h
  | succ fuel ih =>
    obtain ⟨fuel', rfl⟩ : ∃ n, fuel' = n + 1 := ⟨fuel' - 1, by omega⟩
    rw [freeLoop] at h
    rw [freeLoop, freeLoop]
    by_cases hm : m = 0
    · rw [if_pos hm, if_pos hm]
    · rw [if_neg hm] at h
      rw [if_neg hm, if_neg hm]
      cases hb : freeBody ptr pages mem prev m with
      | error e => rfl
      | ok r =>
        rw [hb] at h
        exact ih (by omega) h

/-- `void free_mem(void *ptr, uint32_t pages)`. -/
def freeMem (fuel : ℕ) (mem : Memory) (ptr pages : ℕ) : Except Stop Memory :=
  freeLoop ptr pages fuel mem none (mem.next none)

end VimOS
