import VimOS.Paging.SetupPageMaps

/-!
# How many pages `setupPageMap` counts

The number of pages that are left is a `size_t` on the way down and an `int` on the way back, both
of 32 bits, so no bit of it is lost. A call maps the pages that are asked for, up to the end of its
own table (`mappedPages`), and returns the number of the others (`returned`); as one page at least
is mapped, this is never `-1`, which stands for a failure (`returned_ne_neg_one`). The loop of
`setupPageMap` agrees with them one entry at a time (`mappedPages_last`, `mappedPages_next`), and
`setupPageMap_counted` follows by induction over the levels and the loop.
-/

namespace VimOS

open PageWalk

/-! ## The closed form -/

/-- The pages from a page up to the end of its table of a level. -/
def room (level page : ℕ) : ℕ := 512 ^ level - page % 512 ^ level

/-- The number of pages that a call on a level maps. -/
def mappedPages (level page n : ℕ) : ℕ := min n (room level page)

/-- What the call returns. -/
def returned (level page : ℕ) (n : BitVec 32) : BitVec 32 :=
  n - BitVec.ofNat 32 (mappedPages level page n.toNat)

/-! ## Entry by entry -/

variable {level page n : ℕ} {numPages : BitVec 32}

theorem room_pos : 0 < room level page :=
  Nat.sub_pos_of_lt (Nat.mod_lt _ (by positivity))

theorem room_succ (level page : ℕ) : room (level + 1) page =
    room level page + (511 - page / 512 ^ level % 512) * 512 ^ level := by
  have hmod := Nat.mod_pow_succ (b := 512) (k := level) (x := page)
  have hlt : page % 512 ^ level < 512 ^ level := Nat.mod_lt _ (by positivity)
  have hindex : page / 512 ^ level % 512 < 512 := Nat.mod_lt _ (by decide)
  obtain ⟨k, hk⟩ := Nat.exists_eq_add_of_lt hindex
  have hsub : 511 - page / 512 ^ level % 512 = k := by omega
  have hpow : 512 ^ (level + 1) =
      512 ^ level * (page / 512 ^ level % 512) + k * 512 ^ level + 512 ^ level :=
    calc 512 ^ (level + 1) = 512 ^ level * 512 := pow_succ _ _
      _ = 512 ^ level * (page / 512 ^ level % 512 + k + 1) := congrArg _ hk
      _ = _ := by ring
  rw [room, room, hmod, hpow, hsub]
  omega

/-- Through an entry all pages up to the next one are mapped. -/
theorem page_add_room (level page : ℕ) :
    page + room level page = (page / 512 ^ level + 1) * 512 ^ level := by
  have hdiv := Nat.div_add_mod' page (512 ^ level)
  have hlt : page % 512 ^ level < 512 ^ level := Nat.mod_lt _ (by positivity)
  rw [room, Nat.add_mul, Nat.one_mul]
  omega

theorem room_next (h : page / 512 ^ level % 512 < 511) : room (level + 1) page =
    room level page + room (level + 1) ((page / 512 ^ level + 1) * 512 ^ level) := by
  obtain ⟨k, hk⟩ := Nat.exists_eq_add_of_lt h
  have hfirst : room level ((page / 512 ^ level + 1) * 512 ^ level) = 512 ^ level := by
    rw [room, Nat.mul_mod_left, Nat.sub_zero]
  have hindex : 511 - (page / 512 ^ level + 1) % 512 = k := by omega
  have hindex' : 511 - page / 512 ^ level % 512 = k + 1 := by omega
  rw [room_succ, room_succ, hfirst, Nat.mul_div_cancel _ (by positivity), hindex, hindex']
  ring

/-- An entry of the lowest level is one page. -/
@[simp] theorem room_zero : room 0 page = 1 := by
  rw [room, pow_zero, Nat.mod_one, Nat.sub_zero]

theorem mappedPages_le_room : mappedPages level page n ≤ room level page := min_le_right _ _

theorem mappedPages_le : mappedPages level page n ≤ n := min_le_left _ _

@[simp] theorem mappedPages_zero : mappedPages level page 0 = 0 := Nat.zero_min _

@[simp] theorem returned_zero : returned level page 0 = 0 := by
  rw [returned, show (0 : BitVec 32).toNat = 0 from rfl, mappedPages_zero]
  rfl

theorem mappedPages_pos (h : numPages ≠ 0) : 0 < mappedPages level page numPages.toNat := by
  have hn : numPages.toNat ≠ 0 := fun heq ↦ h (BitVec.eq_of_toNat_eq heq)
  exact lt_min (Nat.pos_of_ne_zero hn) room_pos

theorem toNat_returned : (returned level page numPages).toNat =
    numPages.toNat - mappedPages level page numPages.toNat := by
  have hle : mappedPages level page numPages.toNat ≤ numPages.toNat := mappedPages_le
  have hlt := numPages.isLt
  have hcount : (BitVec.ofNat 32 (mappedPages level page numPages.toNat)).toNat =
      mappedPages level page numPages.toNat := by
    rw [BitVec.toNat_ofNat, Nat.mod_eq_of_lt (by omega)]
  rw [returned, BitVec.toNat_sub_of_le (by rwa [BitVec.le_def, hcount]), hcount]

/-- At least one page is mapped, so the number of the others is not taken for a failure. -/
theorem returned_ne_neg_one (h : numPages ≠ 0) : returned level page numPages ≠ -1 := by
  have hpos : 0 < mappedPages level page numPages.toNat := mappedPages_pos h
  have hlt := numPages.isLt
  intro heq
  have hnat := congrArg BitVec.toNat heq
  rw [toNat_returned, show (-1 : BitVec 32).toNat = 2 ^ 32 - 1 by decide] at hnat
  omega

/-- On the lowest level `num_pages` is decremented. -/
theorem returned_level_zero (h : numPages ≠ 0) : returned 0 page numPages = numPages - 1 := by
  have hn : numPages.toNat ≠ 0 := fun heq ↦ h (BitVec.eq_of_toNat_eq heq)
  rw [returned, mappedPages, room_zero, min_eq_right (by omega)]
  rfl

/-- After the last entry of a table the loop ends. -/
theorem mappedPages_last (hlast : page / 512 ^ level % 512 = 511) :
    mappedPages (level + 1) page n = mappedPages level page n := by
  rw [mappedPages, mappedPages, room_succ, hlast, Nat.sub_self, Nat.zero_mul, Nat.add_zero]

theorem returned_last (hlast : page / 512 ^ level % 512 = 511) :
    returned (level + 1) page numPages = returned level page numPages := by
  rw [returned, returned, mappedPages_last hlast]

/-- After any other entry it goes on, with the first page of the next entry. -/
theorem mappedPages_next (hnext : page / 512 ^ level % 512 < 511) :
    mappedPages (level + 1) page numPages.toNat = mappedPages level page numPages.toNat +
      mappedPages (level + 1) ((page / 512 ^ level + 1) * 512 ^ level)
        (returned level page numPages).toNat := by
  rw [toNat_returned, mappedPages, mappedPages, mappedPages, room_next hnext]
  omega

theorem returned_next (hnext : page / 512 ^ level % 512 < 511) :
    returned (level + 1) page numPages =
      returned (level + 1) ((page / 512 ^ level + 1) * 512 ^ level)
        (returned level page numPages) := by
  apply BitVec.eq_of_toNat_eq
  rw [toNat_returned, toNat_returned, mappedPages_next hnext, toNat_returned, Nat.sub_add_eq]

/-- The entry is filled, or all pages are mapped. -/
theorem returned_eq_zero_or (level page : ℕ) (numPages : BitVec 32) :
    returned level page numPages = 0 ∨
      page + mappedPages level page numPages.toNat = (page / 512 ^ level + 1) * 512 ^ level := by
  rcases le_total numPages.toNat (room level page) with hle | hle
  · left
    apply BitVec.eq_of_toNat_eq
    rw [toNat_returned, mappedPages, min_eq_left hle, Nat.sub_self]
    rfl
  · right
    rw [mappedPages, min_eq_right hle, page_add_room]

theorem mappedPages_le_succ : mappedPages level page n ≤ mappedPages (level + 1) page n := by
  rw [mappedPages, mappedPages, room_succ]
  exact min_le_min_left _ (Nat.le_add_right _ _)

/-! ## The runs -/

variable {pool : ℕ → Addr} {rw : Bool}
  {child : Addr → PagingState → Addr → BitVec 32 → Option PageMapReturn}

/-- What a call on a level leaves and returns, whatever the tables and the allocator are: it returns
the number of pages in closed form, or `-1` early. -/
structure Counted (level : ℕ) (s : PagingState) (addr : Addr) (numPages : BitVec 32)
    (r : PageMapReturn) : Prop where
  calls_le : s.calls ≤ r.1.calls
  calls_bound : r.1.calls ≤ s.calls + level * mappedPages level (pageNo addr) numPages.toNat
  high : pageNo r.2.1 / 512 ^ level = pageNo addr / 512 ^ level
  ret : r.2.2 = -1 ∨ r.2.2 = returned level (pageNo addr) numPages

/-- At most one page is allocated for an entry. -/
theorem setNewPageMapIfNotPresent_calls (s : PagingState) (entry : Addr) :
    s.calls ≤ (setNewPageMapIfNotPresent pool s entry).1.calls ∧
      (setNewPageMapIfNotPresent pool s entry).1.calls ≤ s.calls + 1 := by
  have hnew : (newPageMap pool s).1.calls = s.calls + 1 := by
    rw [newPageMap]
    split_ifs <;> rfl
  rw [setNewPageMapIfNotPresent]
  dsimp only
  split_ifs
  · exact ⟨le_rfl, Nat.le_succ _⟩
  · exact ⟨le_rfl, Nat.le_succ _⟩
  · exact ⟨hnew.ge.trans' (Nat.le_succ _), hnew.le⟩
  · exact ⟨hnew.ge.trans' (Nat.le_succ _), hnew.le⟩

theorem setupEntry_counted
    (hchild : 1 ≤ level → ∀ pageMap s addr numPages,
      ∃ r, child pageMap s addr numPages = some r ∧ Counted level s addr numPages r)
    (pageMap : Addr) (s : PagingState) (addr : Addr) (hn : numPages ≠ 0) :
    ∃ r, setupEntry pool rw (level + 1) child pageMap s addr numPages = some r ∧
      s.calls ≤ r.1.calls ∧
      r.1.calls ≤ s.calls + 1 + level * mappedPages level (pageNo addr) numPages.toNat ∧
      pageNo r.2.1 / 512 ^ level = pageNo addr / 512 ^ level ∧
      (r.2.2 = none ∨ r.2.2 = some (returned level (pageNo addr) numPages)) := by
  obtain ⟨hle, hbound⟩ := @setNewPageMapIfNotPresent_calls pool s
    (pageMap + BitVec.ofNat 64 (8 * part addr (level + 1)))
  rw [setupEntry]
  dsimp only
  split_ifs with hnull hlevel
  · exact ⟨_, rfl, hle, hbound.trans (Nat.le_add_right _ _), rfl, .inl rfl⟩
  · obtain rfl : level = 0 := by omega
    refine ⟨_, rfl, hle, hbound.trans (Nat.le_add_right _ _), rfl, .inr ?_⟩
    rw [returned_level_zero hn]
  · obtain ⟨r, hr, hcounted⟩ := hchild (by omega)
      (setNewPageMapIfNotPresent pool s
        (pageMap + BitVec.ofNat 64 (8 * part addr (level + 1)))).2 _ addr numPages
    rw [hr]
    refine ⟨_, rfl, hle.trans hcounted.calls_le,
      hcounted.calls_bound.trans (Nat.add_le_add_right hbound _), hcounted.high, ?_⟩
    rcases hcounted.ret with hret | hret
    · exact .inl (if_pos hret)
    · right
      simp only [hret]
      exact if_neg (returned_ne_neg_one hn)

/-- The address is advanced to the first page of the next entry. -/
theorem pageNo_next {addr addr' : Addr} (hlevel : level < 4)
    (hindex : part addr (level + 1) ≠ 511)
    (h : pageNo addr' / 512 ^ level = pageNo addr / 512 ^ level) :
    pageNo (clearParts (setPart addr' (level + 1) (part addr (level + 1) + 1)) level) =
      (pageNo addr / 512 ^ level + 1) * 512 ^ level := by
  have hlt : part addr (level + 1) < 512 := by
    rw [part_eq addr hlevel]
    exact Nat.mod_lt _ (by decide)
  have hdiv := Nat.div_add_mod' (pageNo addr / 512 ^ level) 512
  rw [pageNo_advance _ hlevel (by omega), part_eq addr hlevel, pow_succ,
    ← Nat.div_div_eq_div_mul, h,
    Nat.mul_comm (512 ^ level), ← Nat.mul_assoc, ← Nat.add_mul, ← Nat.add_assoc, hdiv]

/-- The loop still has enough entries. -/
theorem fuel_next {addr addr' : Addr} {fuel : ℕ} (hlevel : level < 4)
    (hindex : part addr (level + 1) ≠ 511)
    (h : pageNo addr' / 512 ^ level = pageNo addr / 512 ^ level)
    (hfuel : 512 ≤ fuel + 1 + part addr (level + 1)) :
    512 ≤ fuel + part (clearParts (setPart addr' (level + 1) (part addr (level + 1) + 1)) level)
      (level + 1) := by
  have hlt : pageNo addr / 512 ^ level % 512 < 512 := Nat.mod_lt _ (by decide)
  rw [part_eq _ hlevel, pageNo_next hlevel hindex h, Nat.mul_div_cancel _ (by positivity)]
  rw [part_eq addr hlevel] at hindex hfuel
  omega

/-- The next entry is one of the same table. -/
theorem next_div_table (hnext : page / 512 ^ level % 512 < 511) :
    (page / 512 ^ level + 1) * 512 ^ level / 512 ^ (level + 1) = page / 512 ^ (level + 1) := by
  rw [pow_succ, ← Nat.div_div_eq_div_mul, Nat.mul_div_cancel _ (by positivity),
    ← Nat.div_div_eq_div_mul]
  omega

theorem setupLoop_counted (hlevel : level < 4)
    (hchild : 1 ≤ level → ∀ pageMap s addr numPages,
      ∃ r, child pageMap s addr numPages = some r ∧ Counted level s addr numPages r)
    (pageMap : Addr) (fuel : ℕ) (s : PagingState) (addr : Addr) (numPages : BitVec 32)
    (hfuel : 512 ≤ fuel + part addr (level + 1)) :
    ∃ r, setupLoop pool rw (level + 1) child pageMap fuel s addr numPages = some r ∧
      Counted (level + 1) s addr numPages r := by
  induction fuel generalizing s addr numPages with
  | zero =>
    rw [part_eq addr hlevel] at hfuel
    omega
  | succ fuel ih =>
    rw [setupLoop]
    by_cases hn : numPages = 0
    · obtain rfl := hn
      rw [if_pos rfl]
      exact ⟨_, rfl, le_rfl, Nat.le_add_right _ _, rfl, .inr returned_zero.symm⟩
    · rw [if_neg hn]
      obtain ⟨⟨s', addr', left⟩, hentry, hle, hbound, haddr, hleft⟩ :=
        @setupEntry_counted _ _ pool rw _ hchild pageMap s addr hn
      simp only at hle hbound haddr hleft
      have hpos : 0 < mappedPages level (pageNo addr) numPages.toNat := mappedPages_pos hn
      have hpages : mappedPages level (pageNo addr) numPages.toNat ≤
          mappedPages (level + 1) (pageNo addr) numPages.toNat := mappedPages_le_succ
      have haddr' : pageNo addr' / 512 ^ (level + 1) = pageNo addr / 512 ^ (level + 1) := by
        rw [pow_succ, ← Nat.div_div_eq_div_mul, ← Nat.div_div_eq_div_mul, haddr]
      have hcalls : s.calls + 1 + level * mappedPages level (pageNo addr) numPages.toNat ≤
          s.calls + (level + 1) * mappedPages level (pageNo addr) numPages.toNat := by
        rw [Nat.add_mul, Nat.one_mul]
        omega
      simp only [hentry, Option.bind_some]
      cases left with
      | none =>
        exact ⟨_, rfl, hle,
          hbound.trans (hcalls.trans (Nat.add_le_add_left (Nat.mul_le_mul_left _ hpages) _)),
          haddr', .inl rfl⟩
      | some left =>
        obtain rfl : left = returned level (pageNo addr) numPages := by
          rcases hleft with hleft | hleft
          · cases hleft
          · exact Option.some.inj hleft
        simp only
        split_ifs with hindex
        · -- the last entry of the table
          rw [part_eq addr hlevel] at hindex
          refine ⟨_, rfl, hle, ?_, haddr', .inr (returned_last hindex).symm⟩
          rw [mappedPages_last hindex]
          exact hbound.trans hcalls
        · -- the next entry of the table
          have hnext := pageNo_next hlevel hindex haddr
          obtain ⟨r, hr, hcounted⟩ := ih s'
            (clearParts (setPart addr' (level + 1) (part addr (level + 1) + 1)) level)
            (returned level (pageNo addr) numPages) (fuel_next hlevel hindex haddr hfuel)
          rw [part_eq addr hlevel] at hindex
          have hlt : pageNo addr / 512 ^ level % 512 < 512 := Nat.mod_lt _ (by decide)
          refine ⟨r, hr, hle.trans hcounted.calls_le, ?_, ?_, ?_⟩
          · have hbound' := hcounted.calls_bound
            rw [hnext] at hbound'
            rw [mappedPages_next (by omega), Nat.mul_add]
            omega
          · rw [hcounted.high, hnext, next_div_table (by omega)]
          · rw [returned_next (by omega), ← hnext]
            exact hcounted.ret

/-- Every call returns. -/
theorem setupPageMap_counted (hlevel : level ≤ 4) (h : 1 ≤ level) (pageMap : Addr) (s : PagingState)
    (addr : Addr) (numPages : BitVec 32) :
    ∃ r, setupPageMap pool rw level pageMap s addr numPages = some r ∧
      Counted level s addr numPages r := by
  induction level, h using Nat.le_induction generalizing pageMap s addr numPages with
  | base =>
    exact setupLoop_counted (by decide) (fun h ↦ absurd h (by decide)) pageMap 512 s addr numPages
      (Nat.le_add_right _ _)
  | succ level hle ih =>
    exact setupLoop_counted (by omega) (fun _ ↦ ih (by omega)) pageMap 512 s addr numPages
      (Nat.le_add_right _ _)

end VimOS
