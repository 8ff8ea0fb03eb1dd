import VimOS.Memory.Coalesced
import VimOS.Memory.FirstFit

/-!
# One call of `free_mem`

Two facts about a call whose block lies apart from the list. Unless it follows a null pointer, it
ends after two iterations a node at most and leaves a list that can be walked to its end
(`freeMem_returns`). And on an increasing list with gaps it follows a null pointer exactly if the
block ends where the last block of the list starts and was not taken over by the one below it
(`freeMem_touches`): it is linked in front of the last node then, takes it over from there, and `m`
becomes `prev->next`, which is behind the list.
-/

namespace VimOS

open Block LinkedChain

/-! ## The call ends -/

/-- A list that ends can be walked. -/
theorem allocLoop_ok {pages fuel m : ℕ} {mem : Memory} {prev : Place} {l : List ℕ}
    (h : Tail mem.next 0 m l) (hfuel : l.length < fuel) :
    ∃ r, allocLoop pages fuel mem prev m = .ok r := by
  induction l generalizing fuel prev m with
  | nil =>
    obtain ⟨fuel, rfl⟩ := Nat.exists_eq_add_of_lt hfuel
    rw [Tail] at h
    exact ⟨(mem, 0), by simp [allocLoop, h]⟩
  | cons a l ih =>
    obtain ⟨fuel, rfl⟩ : ∃ f, fuel = f + 1 := ⟨fuel - 1, by omega⟩
    obtain ⟨rfl, hne, hrest⟩ := h
    rw [allocLoop, if_neg hne]
    split_ifs
    · exact ⟨_, rfl⟩
    · exact ⟨_, rfl⟩
    · exact ih hrest (Nat.lt_of_succ_lt_succ hfuel)

/-- **`free_mem` ends**, and so does a walk through the list it leaves. Fuel for `2 * n + 1` tests
of the loop condition is enough for a list of `n` blocks. -/
theorem freeMem_returns {x : Block} {L : List Block} {mem : Memory} (h : FreeList mem L)
    (hf : Freed x L) (hs : x.pages < 2 ^ 20)
    (hnull : freeMem (2 * L.length + 1) mem x.addr x.pages ≠ .error .null) :
    ∃ mem' L', freeMem (2 * L.length + 1) mem x.addr x.pages = .ok mem' ∧ FreeList mem' L' ∧
      ∀ pages, ∃ r, allocMem (L'.length + 1) mem' pages = .ok r := by
  have hspec := freeMem_spec32 h hf hs (Nat.lt_succ_self _)
  cases hr : freeWalk32 x none [] L with
  | none =>
    rw [hr] at hspec
    exact absurd hspec.1 hnull
  | some L' =>
    rw [hr] at hspec
    obtain ⟨mem', hrun, hlist, -⟩ := hspec
    refine ⟨mem', L', hrun, hlist, fun pages ↦ allocLoop_ok hlist.chain ?_⟩
    rw [List.length_map]
    exact Nat.lt_succ_self _

private theorem freed_between :
    Freed ⟨0x8000, 1⟩ [⟨4096, 1⟩, ⟨0x100000, 1⟩] where
  valid := ⟨by decide, by decide, by decide⟩
  list_valid b hb := by
    rcases List.mem_pair.mp hb with rfl | rfl
    · exact ⟨by decide, by decide, by decide⟩
    · exact ⟨by decide, by decide, by decide⟩
  apart b hb := by
    rcases List.mem_pair.mp hb with rfl | rfl
    · exact .inl (by decide)
    · exact .inr (by decide)
  list_apart := List.pairwise_pair.mpr (.inl (by decide))

private theorem freeList_between :
    FreeList (twoNodes ⟨4096, 1⟩ ⟨0x100000, 1⟩) [⟨4096, 1⟩, ⟨0x100000, 1⟩] :=
  (initial_twoNodes ⟨by decide, by decide, by decide⟩ ⟨by decide, by decide, by decide⟩
    (by decide) (by decide) (by decide)).freeList

theorem freeMem_returns_between : ∃ mem' L',
    freeMem 5 (twoNodes ⟨4096, 1⟩ ⟨0x100000, 1⟩) 0x8000 1 = .ok mem' ∧ FreeList mem' L' ∧
      ∀ pages, ∃ r, allocMem (L'.length + 1) mem' pages = .ok r := by
  refine freeMem_returns freeList_between freed_between (by decide) fun hnull ↦ ?_
  have hok : ∃ mem', freeMem 5 (twoNodes ⟨4096, 1⟩ ⟨0x100000, 1⟩) 0x8000 1 = .ok mem' := ⟨_, rfl⟩
  obtain ⟨mem', hok⟩ := hok
  exact absurd (hok.symm.trans hnull) (by simp)

/-! ## Where it follows a null pointer -/

section Null

variable {x b : Block} {prev : Option Block} {done rest A : List Block}

/-- `m` becomes null at the last node only, where `x` ends at it. -/
theorem freeWalk32_none (h : freeWalk32 x prev done rest = none) :
    ∃ A b, rest = A ++ [b] ∧ x.stop = b.addr := by
  induction rest generalizing prev done with
  | nil => cases h
  | cons c rest ih =>
    have hcons : (∃ A b, rest = A ++ [b] ∧ x.stop = b.addr) →
        ∃ A b, c :: rest = A ++ [b] ∧ x.stop = b.addr := by
      rintro ⟨A, b, rfl, hstop⟩
      exact ⟨c :: A, b, rfl, hstop⟩
    rw [freeWalk32] at h
    split_ifs at h with hins hstop hnil hstop
    · exact ⟨[], c, by rw [hnil, List.nil_append], hstop⟩
    · exact hcons (ih h)
    · exact hcons (ih h)
    · exact hcons (ih h)
    · exact hcons (ih h)

/-- There the block is linked in front of the last node if the test on the node passed last
fires. -/
theorem freeWalk32_none_iff (hstop : x.stop = b.addr) (hA : ∀ a ∈ A, x.stop ≠ a.addr) :
    freeWalk32 x prev done (A ++ [b]) = none ↔
      InsertsAt32 x ((A.getLast?.map (absorb32 x)).or prev) b := by
  induction A generalizing prev done with
  | nil =>
    rw [List.nil_append, freeWalk32, if_pos hstop, if_pos hstop, if_pos rfl]
    simp only [freeWalk32, List.getLast?_nil, Option.map_none, Option.none_or]
    split_ifs with hins
    · exact iff_of_true rfl hins
    · exact iff_of_false (by simp) hins
  | cons a A ih =>
    have ha := hA a List.mem_cons_self
    have hlast : ((a :: A).getLast?.map (absorb32 x)).or prev =
        (A.getLast?.map (absorb32 x)).or (some (absorb32 x a)) := by
      rw [List.getLast?_cons]
      cases A.getLast? <;> rfl
    rw [List.cons_append, freeWalk32, if_neg ha, if_neg ha, hlast]
    split_ifs
    · exact ih fun c hc ↦ hA c (List.mem_cons_of_mem _ hc)
    · exact ih fun c hc ↦ hA c (List.mem_cons_of_mem _ hc)

/-- The test on a node below the block: its end has moved if it has taken the block over, and then
has wrapped if it has grown to 4 GiB. -/
theorem insertsAt32_below {a : Block} (ha : a.Valid) (hx : x.Valid) (has : a.pages < 2 ^ 20)
    (hxs : x.pages < 2 ^ 20) (hle : a.stop ≤ x.addr) :
    InsertsAt32 x (some (absorb32 x a)) b ↔
      (a.stop = x.addr → 2 ^ 20 ≤ a.pages + x.pages) := by
  have hxpos := hx.pages_pos
  have hxlt := hx.stop_lt
  have hend : blockEnd a.addr a.pages = a.stop := blockEnd_eq has ha.stop_lt
  rw [InsertsAt32, absorb32, hend]
  split_ifs with hstop
  · simp only [stop] at hstop hle hxlt
    simp only [blockEnd, bytesOf, stop, hstop, true_implies]
    omega
  · rw [hend]
    exact iff_of_true (lt_of_le_of_ne hle hstop) fun h ↦ absurd h hstop

end Null

/-- The freed block ends where the last block of the list starts, and the block that ends where it
starts, if there is one, has grown to 4 GiB when it has taken it over. -/
def LinkedLast (x : Block) (L : List Block) : Prop :=
  ∃ A b, L = A ++ [b] ∧ x.stop = b.addr ∧ ∀ a ∈ A, a.stop = x.addr → 2 ^ 20 ≤ a.pages + x.pages

theorem freeWalk32_none_iff_linkedLast {x : Block} {L : List Block} (hf : Freed x L)
    (hg : Coalesced L) (hs : x.pages < 2 ^ 20) (hL : ∀ b ∈ L, b.pages < 2 ^ 20) :
    freeWalk32 x none [] L = none ↔ LinkedLast x L := by
  -- the last block is the only one that `x` can end at
  have key : ∀ A b, L = A ++ [b] → x.stop = b.addr →
      (freeWalk32 x none [] L = none ↔
        ∀ a ∈ A, a.stop = x.addr → 2 ^ 20 ≤ a.pages + x.pages) := by
    rintro A b rfl hstop
    have hxpos := hf.valid.pages_pos
    have hbelow : ∀ a ∈ A, a.stop < b.addr := fun a ha ↦
      (List.pairwise_append.mp hg).2.2 a ha b (List.mem_singleton_self b)
    have hA : ∀ a ∈ A, x.stop ≠ a.addr := by
      intro a ha heq
      have hlt := hbelow a ha
      rw [← hstop, heq, stop] at hlt
      omega
    rw [freeWalk32_none_iff hstop hA]
    rcases List.eq_nil_or_concat A with rfl | ⟨A, a, rfl⟩
    · simp only [List.getLast?_nil, Option.map_none, Option.none_or, InsertsAt32]
      refine iff_of_true ?_ (by simp)
      rw [← hstop, stop]
      omega
    · rw [List.concat_eq_append] at *
      have ha : a ∈ A ++ [a] := by simp
      have haL := List.mem_append_left [b] ha
      have hav := hf.list_valid a haL
      have hapos := hav.pages_pos
      have hle : a.stop ≤ x.addr := by
        have hlt := hbelow a ha
        have hap := hf.apart a haL
        simp only [Apart, stop] at hap hlt hstop ⊢
        omega
      have hlast : ((A ++ [a]).getLast?.map (absorb32 x)).or none = some (absorb32 x a) := by simp
      rw [hlast, insertsAt32_below hav hf.valid (hL a haL) hs hle]
      refine ⟨fun h c hc hcx ↦ ?_, fun h ↦ h a ha⟩
      rcases List.mem_append.mp hc with hc' | hc'
      · -- a block further below ends below `a`
        have hlt : c.stop < a.addr := by
          have hpw := (List.pairwise_append.mp hg).1
          exact (List.pairwise_append.mp hpw).2.2 c hc' a (List.mem_singleton_self a)
        simp only [stop] at hlt hcx hle
        omega
      · rw [List.mem_singleton.mp hc'] at hcx ⊢
        exact h hcx
  constructor
  · intro hnone
    obtain ⟨A, b, hL', hstop⟩ := freeWalk32_none hnone
    exact ⟨A, b, hL', hstop, (key A b hL' hstop).mp hnone⟩
  · rintro ⟨A, b, hL', hstop, hgrown⟩
    exact (key A b hL' hstop).mpr hgrown

/-- **`free_mem` follows a null pointer** exactly if the block is `LinkedLast`. Otherwise the nodes
it touches are the header, those of the list and that of the freed block. -/
theorem freeMem_touches {x : Block} {L : List Block} {mem : Memory} {fuel : ℕ} (h : FreeList mem L)
    (hf : Freed x L) (hg : Coalesced L) (hs : x.pages < 2 ^ 20) (hL : ∀ b ∈ L, b.pages < 2 ^ 20)
    (hfuel : 2 * L.length < fuel) :
    (∀ q ∈ freeTouched x.addr x.pages fuel mem none (mem.next none),
      q ≠ some 0 ∧ (q = none ∨ (∃ b ∈ L, q = some b.addr) ∨ q = some x.addr)) ↔
    ¬LinkedLast x L := by
  have hspec := freeMem_spec32 h hf hs hfuel
  rw [← freeWalk32_none_iff_linkedLast hf hg hs hL]
  cases hr : freeWalk32 x none [] L with
  | none =>
    rw [hr] at hspec
    exact iff_of_false (fun hall ↦ (hall _ hspec.2).1 rfl) (not_not.mpr rfl)
  | some L' =>
    rw [hr] at hspec
    obtain ⟨mem', -, -, htouched⟩ := hspec
    refine iff_of_true (fun q hq ↦ ⟨?_, htouched q hq⟩) (by simp)
    rcases htouched q hq with rfl | ⟨b, hb, rfl⟩ | rfl
    · simp
    · simpa using (hf.list_valid b hb).addr_pos.ne'
    · simpa using hf.valid.addr_pos.ne'

theorem freeMem_touches_between :
    (∀ q ∈ freeTouched 0x8000 1 5 (twoNodes ⟨4096, 1⟩ ⟨0x100000, 1⟩) none 4096,
      q ≠ some 0 ∧
        (q = none ∨ (∃ b ∈ [⟨4096, 1⟩, ⟨0x100000, 1⟩], q = some (Block.addr b)) ∨
          q = some 0x8000)) ↔
    ¬LinkedLast ⟨0x8000, 1⟩ [⟨4096, 1⟩, ⟨0x100000, 1⟩] := by
  refine freeMem_touches freeList_between freed_between (List.pairwise_pair.mpr (by decide))
    (by decide) (fun b hb ↦ ?_) (by decide)
  rcases List.mem_pair.mp hb with rfl | rfl
  · decide
  · decide

/-- A block that is given back in front of the only block of the list. -/
theorem freeMem_null : FreeList (oneNode ⟨8192, 1⟩) [⟨8192, 1⟩] ∧ Coalesced [⟨8192, 1⟩] ∧
    Freed ⟨4096, 1⟩ [⟨8192, 1⟩] ∧
    freeMem 3 (oneNode ⟨8192, 1⟩) 4096 1 = .error .null ∧
    some 0 ∈ freeTouched 4096 1 3 (oneNode ⟨8192, 1⟩) none 8192 := by
  have hx : (⟨4096, 1⟩ : Block).Valid := ⟨by decide, by decide, by decide⟩
  have hb : (⟨8192, 1⟩ : Block).Valid := ⟨by decide, by decide, by decide⟩
  refine ⟨freeList_oneNode hb, List.pairwise_singleton _ _, ⟨hx, ?_, ?_, ?_⟩, rfl, by decide⟩
  · simpa using hb
  · intro b hb
    rw [List.mem_singleton.mp hb]
    exact .inr (by decide)
  · exact List.pairwise_singleton _ _

end VimOS
