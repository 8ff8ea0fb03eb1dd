import VimOS.Library.IntervalList
import VimOS.Memory.FreeWalk

/-!
# Where `free_mem` links a block

The loop links the freed block at every node where one of its tests fires, not only at the first,
and each further link drops what stands between. So the outcome of a call is decided by the places
of the first and of the last link, together with the one node that may end at the block:
`freeWalk_eq_or` writes the resulting list in terms of the three.

Two conditions on the list before the call come out of it. `MergesApart` is what keeps the blocks
apart: the node that ends at the block takes it over and stays in the list, so the block must not
stand in the list as well. `KeepsPages` is what loses nothing: the block is linked at one place, or
taken over by one node, but not both and not twice.
-/

namespace VimOS

open Block

/-- The loop makes the node of `x` the predecessor of what follows at `b`. -/
def LinksAt (x : Block) (prev : Option Block) (b : Block) : Prop :=
  InsertsAt x prev b ∨ x.stop = b.addr

instance (x : Block) (prev : Option Block) (b : Block) : Decidable (LinksAt x prev b) := by
  unfold LinksAt
  infer_instance

/-- The number of nodes at which the loop links `x`. -/
def links (x : Block) : Option Block → List Block → ℕ
  | _, [] => 0
  | prev, b :: L => (if LinksAt x prev b then 1 else 0) + links x (some b) L

/-- The block passed last once the loop has passed `L`. -/
def passed (prev : Option Block) (L : List Block) : Option Block := L.getLast?.or prev

@[simp] theorem passed_nil (prev : Option Block) : passed prev [] = prev := rfl

@[simp] theorem passed_cons (prev : Option Block) (b : Block) (L : List Block) :
    passed prev (b :: L) = passed (some b) L := by
  cases L with
  | nil => rfl
  | cons c L =>
    rw [passed, passed, List.getLast?_cons_cons]
    cases h : (c :: L).getLast? with
    | none => simp at h
    | some d => rfl

theorem passed_append (prev : Option Block) (A B : List Block) :
    passed prev (A ++ B) = passed (passed prev A) B := by
  induction A generalizing prev with
  | nil => rfl
  | cons a A ih => rw [List.cons_append, passed_cons, passed_cons, ih]

theorem links_append (x : Block) (prev : Option Block) (A B : List Block) :
    links x prev (A ++ B) = links x prev A + links x (passed prev A) B := by
  induction A generalizing prev with
  | nil => simp [links]
  | cons b A ih => rw [List.cons_append, links, links, ih, passed_cons, add_assoc]

theorem links_pos {x : Block} {prev : Option Block} {t : Block} {A B : List Block}
    (h : LinksAt x (passed prev A) t) : 0 < links x prev (A ++ t :: B) := by
  rw [links_append, links, if_pos h]
  omega

/-- The list from the node of `x` on, when `t` is the last node it is linked at and `T` follows. -/
def joined (x t : Block) (T : List Block) : List Block :=
  if x.stop = t.addr then ⟨x.addr, x.pages + t.pages⟩ :: T.map (absorb x)
  else x :: (t :: T).map (absorb x)

section Walk

variable {x : Block} {prev : Option Block} {done rest L : List Block}

/-- One step of `freeWalk` at a node where it links `x`: what stood from the node of `x` on is
dropped, and only what stands in front of it matters later. -/
private theorem freeWalk_link {b : Block} (hl : LinksAt x prev b)
    (h : freeWalk x prev done (b :: rest) = some L) : ∃ (q : ℕ) (mid : List Block),
      freeWalk x (some b) (front x done ++ ⟨x.addr, q⟩ :: mid) rest = some L ∧
      ⟨x.addr, q⟩ :: mid ++ rest.map (absorb x) = joined x b rest := by
  rw [freeWalk] at h
  rw [joined]
  by_cases hstop : x.stop = b.addr
  · rw [if_pos hstop] at h ⊢
    split at h
    · exact absurd h (by simp)
    · refine ⟨x.pages + b.pages, [], ?_, rfl⟩
      rw [← h]
      split
      · simp only [relinkBlock, front_append]
      · rfl
  · rw [if_neg hstop] at h ⊢
    have hins : InsertsAt x prev b := hl.resolve_right hstop
    simp only [if_pos hins] at h
    refine ⟨x.pages, [absorb x b], ?_, rfl⟩
    rw [← h, relinkBlock, List.append_assoc]
    rfl

/-- One step of `freeWalk` at a node where it does not link. -/
private theorem freeWalk_pass {b : Block} (hl : ¬LinksAt x prev b) :
    freeWalk x prev done (b :: rest) = freeWalk x (some b) (done ++ [absorb x b]) rest := by
  rw [LinksAt, not_or] at hl
  rw [freeWalk, if_neg hl.2]
  simp only [if_neg hl.1]

/-- Once the node of `x` is in the list: either it stays where it is, or it is linked again, and
then only the last time counts. -/
private theorem freeWalk_linked {q : ℕ} {mid A : List Block} (hA : front x A = A)
    (h : freeWalk x prev (A ++ ⟨x.addr, q⟩ :: mid) rest = some L) :
    (links x prev rest = 0 ∧ L = A ++ ⟨x.addr, q⟩ :: mid ++ rest.map (absorb x)) ∨
      ∃ M t T, rest = M ++ t :: T ∧ LinksAt x (passed prev M) t ∧ links x (some t) T = 0 ∧
        L = A ++ joined x t T := by
  induction rest generalizing prev q mid with
  | nil =>
    rw [freeWalk, Option.some.injEq] at h
    exact .inl ⟨rfl, by simpa using h.symm⟩
  | cons b rest ih =>
    have hfront : front x (A ++ ⟨x.addr, q⟩ :: mid) = A := by
      rw [← hA]
      exact front_append
    by_cases hl : LinksAt x prev b
    · right
      obtain ⟨q', mid', hstep, hjoin⟩ := freeWalk_link hl h
      rw [hfront] at hstep
      rcases ih hstep with ⟨hzero, rfl⟩ | ⟨M, t, T, rfl, hlast, hzero, rfl⟩
      · exact ⟨[], b, rest, rfl, hl, hzero, by rw [← hjoin, List.append_assoc]⟩
      · exact ⟨b :: M, t, T, rfl, by rwa [passed_cons], hzero, rfl⟩
    · rw [freeWalk_pass hl, List.append_assoc, List.cons_append] at h
      rcases ih h with ⟨hzero, rfl⟩ | ⟨M, t, T, rfl, hlast, hzero, rfl⟩
      · refine .inl ⟨?_, by simp⟩
        rw [links, if_neg hl, hzero]
      · exact .inr ⟨b :: M, t, T, rfl, by rwa [passed_cons], hzero, rfl⟩

/-- **The shape of the result.** Either `x` is linked nowhere, or the list is what stands in front
of the first place, the node of `x`, and what follows the last place; `M`, between the two, is
dropped. -/
private theorem freeWalk_shape (hdone : ∀ b ∈ done, b.addr ≠ x.addr)
    (hrest : ∀ b ∈ rest, b.addr ≠ x.addr) (h : freeWalk x prev done rest = some L) :
    (links x prev rest = 0 ∧ L = done ++ rest.map (absorb x)) ∨
      ∃ P M t T, rest = P ++ M ++ t :: T ∧ links x prev P = 0 ∧
        (M ≠ [] → 0 < links x (passed prev P) M) ∧ LinksAt x (passed prev (P ++ M)) t ∧
        links x (some t) T = 0 ∧ L = done ++ P.map (absorb x) ++ joined x t T := by
  induction rest generalizing prev done with
  | nil =>
    rw [freeWalk, Option.some.injEq] at h
    exact .inl ⟨rfl, by simpa using h.symm⟩
  | cons b rest ih =>
    by_cases hl : LinksAt x prev b
    · right
      have hfront := front_eq_self hdone
      obtain ⟨q, mid, hstep, hjoin⟩ := freeWalk_link hl h
      rw [hfront] at hstep
      rcases freeWalk_linked hfront hstep with ⟨hzero, rfl⟩ | ⟨M, t, T, rfl, hlast, hzero, rfl⟩
      · refine ⟨[], [], b, rest, rfl, rfl, by simp, hl, hzero, ?_⟩
        rw [List.map_nil, List.append_nil, ← hjoin, List.append_assoc]
      · refine ⟨[], b :: M, t, T, rfl, rfl, fun _ ↦ ?_, ?_, hzero, by simp⟩
        · rw [passed_nil, links, if_pos hl]
          omega
        · rwa [List.nil_append, passed_cons]
    · have hbx : b.addr ≠ x.addr := hrest b List.mem_cons_self
      have hdone' : ∀ c ∈ done ++ [absorb x b], c.addr ≠ x.addr := by
        intro c hc
        rcases List.mem_append.mp hc with hc | hc
        · exact hdone c hc
        · rw [List.mem_singleton.mp hc, absorb_addr]
          exact hbx
      rw [freeWalk_pass hl] at h
      rcases ih hdone' (fun c hc ↦ hrest c (List.mem_cons_of_mem _ hc)) h with
        ⟨hzero, rfl⟩ | ⟨P, M, t, T, rfl, hP, hM, hlast, hzero, rfl⟩
      · refine .inl ⟨?_, by simp⟩
        rw [links, if_neg hl, hzero]
      · refine .inr ⟨b :: P, M, t, T, rfl, ?_, ?_, ?_, hzero, by simp⟩
        · rw [links, if_neg hl, hP]
        · rwa [passed_cons]
        · rwa [List.cons_append, passed_cons]

end Walk

/-! ## Conditions on a call -/

/-- If a block of the list ends at `x`, the loop links `x` up to that block exactly if it links `x`
once more behind it. -/
def MergesApart (x : Block) (L : List Block) : Prop :=
  ∀ A b B, L = A ++ b :: B → b.stop = x.addr →
    (0 < links x none (A ++ [b]) ↔ 0 < links x (some b) B)

/-- The loop links `x` nowhere if a block of the list ends at `x`, and at exactly one node if none
does. -/
def KeepsPages (x : Block) (L : List Block) : Prop :=
  links x none L = if ∃ b ∈ L, b.stop = x.addr then 0 else 1

instance (x : Block) (L : List Block) : Decidable (KeepsPages x L) := by
  unfold KeepsPages
  infer_instance

theorem KeepsPages.mergesApart {x : Block} {L : List Block} (h : KeepsPages x L) :
    MergesApart x L := by
  rintro A b B rfl hb
  have hzero : links x none (A ++ b :: B) = 0 := by
    rw [h, if_pos ⟨b, by simp, hb⟩]
  rw [show A ++ b :: B = (A ++ [b]) ++ B by simp, links_append, Nat.add_eq_zero_iff] at hzero
  have hpassed : passed none (A ++ [b]) = some b := by simp [passed]
  rw [hpassed] at hzero
  rw [hzero.1, hzero.2]

/-! ## What a call keeps -/

/-- The interval of the block's addresses. -/
def Block.extent (b : Block) : ℕ × ℕ := (b.addr, b.stop)

/-- The addresses of the pages of the blocks of a list. -/
def cover (L : List Block) : Set ℕ := IntervalList.cover (L.map extent)

theorem mem_cover {q : ℕ} {L : List Block} : q ∈ cover L ↔ ∃ b ∈ L, q ∈ b.bytes := by
  rw [cover, IntervalList.cover, Set.mem_ofPred_eq]
  constructor
  · rintro ⟨_, hi, hq⟩
    obtain ⟨b, hb, rfl⟩ := List.mem_map.mp hi
    exact ⟨b, hb, hq⟩
  · rintro ⟨b, hb, hq⟩
    exact ⟨_, List.mem_map_of_mem hb, hq⟩

theorem cover_append (L M : List Block) : cover (L ++ M) = cover L ∪ cover M := by
  ext q
  simp [mem_cover, or_and_right, exists_or]

theorem cover_cons (b : Block) (L : List Block) : cover (b :: L) = b.bytes ∪ cover L := by
  ext q
  simp [mem_cover]

/-- Two blocks that touch, as one. -/
def Block.glue (a b : Block) : Block := ⟨a.addr, a.pages + b.pages⟩

section Glue

variable {a b c x : Block}

theorem bytes_glue (h : a.stop = b.addr) : (a.glue b).bytes = a.bytes ∪ b.bytes := by
  have hle : a.addr ≤ b.addr := h ▸ Nat.le_add_right _ _
  have hle' : b.addr ≤ b.stop := Nat.le_add_right _ _
  have hstop : (a.glue b).stop = b.stop := by
    simp only [glue, stop] at h ⊢
    omega
  rw [bytes, bytes, bytes, hstop, h, Set.Ico_union_Ico_eq_Ico hle hle']
  rfl

theorem glue_valid (h : a.stop = b.addr) (ha : a.Valid) (hb : b.Valid) : (a.glue b).Valid where
  addr_pos := ha.addr_pos
  pages_pos := Nat.add_pos_left ha.pages_pos _
  stop_lt := by
    have hstop := hb.stop_lt
    simp only [glue, stop] at h hstop ⊢
    omega

theorem absorb_of_eq (h : b.stop = x.addr) : absorb x b = b.glue x := if_pos h

theorem absorb_valid (hb : b.Valid) (hx : x.Valid) : (absorb x b).Valid := by
  by_cases h : b.stop = x.addr
  · rw [absorb_of_eq h]
    exact glue_valid h hb hx
  · rwa [absorb_of_ne h]

theorem bytes_absorb_subset : (absorb x b).bytes ⊆ b.bytes ∪ x.bytes := by
  by_cases h : b.stop = x.addr
  · rw [absorb_of_eq h, bytes_glue h]
  · rw [absorb_of_ne h]
    exact Set.subset_union_left

theorem subset_bytes_absorb : b.bytes ⊆ (absorb x b).bytes := by
  by_cases h : b.stop = x.addr
  · rw [absorb_of_eq h, bytes_glue h]
    exact Set.subset_union_left
  · rw [absorb_of_ne h]

theorem joined_of_eq {T : List Block} (h : x.stop = b.addr) :
    joined x b T = x.glue b :: T.map (absorb x) := if_pos h

theorem joined_of_ne {T : List Block} (h : x.stop ≠ b.addr) :
    joined x b T = x :: (b :: T).map (absorb x) := if_neg h

/-- A block that lies apart from two that touch lies apart from both as one. -/
theorem Block.Apart.glue (h : a.stop = b.addr) (hc : c.Valid) (ha : Apart c a) (hb : Apart c b) :
    Apart c (a.glue b) := by
  have hpos := hc.pages_pos
  simp only [Apart, Block.glue, stop] at h ha hb ⊢
  omega

theorem cover_map_absorb_subset (L : List Block) :
    cover (L.map (absorb x)) ⊆ cover L ∪ x.bytes := by
  intro q hq
  obtain ⟨_, hmem, hq⟩ := mem_cover.mp hq
  obtain ⟨b, hb, rfl⟩ := List.mem_map.mp hmem
  exact (bytes_absorb_subset hq).imp_left fun h ↦ mem_cover.mpr ⟨b, hb, h⟩

theorem subset_cover_map_absorb (L : List Block) : cover L ⊆ cover (L.map (absorb x)) := by
  intro q hq
  obtain ⟨b, hb, hq⟩ := mem_cover.mp hq
  exact mem_cover.mpr ⟨_, List.mem_map_of_mem hb, subset_bytes_absorb hq⟩

/-- The list from the node of `x` on has the pages of `x`, of the last node and of what follows. -/
theorem cover_joined_subset (T : List Block) :
    cover (joined x b T) ⊆ x.bytes ∪ cover (b :: T) := by
  have hmap : ∀ M : List Block, cover (M.map (absorb x)) ⊆ x.bytes ∪ cover M := fun M ↦
    (cover_map_absorb_subset M).trans (Set.union_comm _ _).subset
  by_cases h : x.stop = b.addr
  · rw [joined_of_eq h, cover_cons, bytes_glue h, cover_cons, ← Set.union_assoc]
    exact Set.union_subset (Set.subset_union_left)
      ((hmap T).trans (Set.union_subset_union_left _ Set.subset_union_left))
  · rw [joined_of_ne h, cover_cons]
    exact Set.union_subset Set.subset_union_left (hmap (b :: T))

theorem subset_cover_joined (T : List Block) :
    x.bytes ∪ cover (b :: T) ⊆ cover (joined x b T) := by
  by_cases h : x.stop = b.addr
  · rw [joined_of_eq h, cover_cons, cover_cons, bytes_glue h, ← Set.union_assoc]
    exact Set.union_subset_union_right _ (subset_cover_map_absorb T)
  · rw [joined_of_ne h, cover_cons x]
    exact Set.union_subset_union_right _ (subset_cover_map_absorb _)

end Glue

section Kept

variable {x : Block} {L L' : List Block}

private theorem freeWalk_or (hf : Freed x L) (h : freeWalk x none [] L = some L') :
    (links x none L = 0 ∧ L' = L.map (absorb x)) ∨
      ∃ P M t T, L = P ++ M ++ t :: T ∧ links x none P = 0 ∧
        (M ≠ [] → 0 < links x (passed none P) M) ∧ LinksAt x (passed none (P ++ M)) t ∧
        links x (some t) T = 0 ∧ L' = P.map (absorb x) ++ joined x t T := by
  simpa using freeWalk_shape (by simp) hf.addr_ne h

private theorem mem_joined {b t : Block} {T : List Block} (hb : b ∈ joined x t T) :
    b = x ∨ (∃ c ∈ t :: T, b = absorb x c) ∨ (x.stop = t.addr ∧ b = x.glue t) := by
  by_cases hstop : x.stop = t.addr
  · rw [joined_of_eq hstop] at hb
    rcases List.mem_cons.mp hb with rfl | hb
    · exact .inr (.inr ⟨hstop, rfl⟩)
    · obtain ⟨c, hc, rfl⟩ := List.mem_map.mp hb
      exact .inr (.inl ⟨c, List.mem_cons_of_mem _ hc, rfl⟩)
  · rw [joined_of_ne hstop] at hb
    rcases List.mem_cons.mp hb with rfl | hb
    · exact .inl rfl
    · obtain ⟨c, hc, rfl⟩ := List.mem_map.mp hb
      exact .inr (.inl ⟨c, hc, rfl⟩)

/-- A block of the list after the call is the freed one, one of the list, or a merge of the two. -/
theorem mem_freeWalk (hf : Freed x L) (h : freeWalk x none [] L = some L') {b : Block}
    (hb : b ∈ L') :
    b = x ∨ (∃ c ∈ L, b = absorb x c) ∨ ∃ c ∈ L, x.stop = c.addr ∧ b = x.glue c := by
  rcases freeWalk_or hf h with ⟨-, rfl⟩ | ⟨P, M, t, T, rfl, -, -, -, -, rfl⟩
  · obtain ⟨c, hc, rfl⟩ := List.mem_map.mp hb
    exact .inr (.inl ⟨c, hc, rfl⟩)
  · rcases List.mem_append.mp hb with hb | hb
    · obtain ⟨c, hc, rfl⟩ := List.mem_map.mp hb
      exact .inr (.inl ⟨c, by simp [hc], rfl⟩)
    · rcases mem_joined hb with rfl | ⟨c, hc, rfl⟩ | ⟨hstop, rfl⟩
      · exact .inl rfl
      · exact .inr (.inl ⟨c, List.mem_append_right _ hc, rfl⟩)
      · exact .inr (.inr ⟨t, by simp, hstop, rfl⟩)

/-- The blocks of the list after the call are blocks. -/
theorem freeWalk_valid (hf : Freed x L) (h : freeWalk x none [] L = some L') :
    ∀ b ∈ L', b.Valid := by
  intro b hb
  rcases mem_freeWalk hf h hb with rfl | ⟨c, hc, rfl⟩ | ⟨c, hc, hstop, rfl⟩
  · exact hf.valid
  · exact absorb_valid (hf.list_valid c hc) hf.valid
  · exact glue_valid hstop hf.valid (hf.list_valid c hc)

theorem freeWalk_pages_lt (hf : Freed x L) (hs : SizesOk x L)
    (h : freeWalk x none [] L = some L') : ∀ b ∈ L', b.pages < 2 ^ 20 := by
  intro b hb
  rcases mem_freeWalk hf h hb with rfl | ⟨c, hc, rfl⟩ | ⟨c, hc, hstop, rfl⟩
  · exact hs.1
  · obtain ⟨hlt, htouch⟩ := hs.2 c hc
    by_cases hstop : c.stop = x.addr
    · rw [absorb_of_eq hstop]
      exact htouch (.inl hstop)
    · rwa [absorb_of_ne hstop]
  · have hlt := (hs.2 c hc).2 (.inr hstop)
    simp only [glue]
    omega

/-- What lies apart from the freed block and from the list lies apart from the list afterwards. -/
theorem freeWalk_apart (hf : Freed x L) (h : freeWalk x none [] L = some L') {c : Block}
    (hc : c.Valid) (hcx : Apart c x) (hcL : ∀ b ∈ L, Apart c b) : ∀ b ∈ L', Apart c b := by
  intro b hb
  rcases mem_freeWalk hf h hb with rfl | ⟨d, hd, rfl⟩ | ⟨d, hd, hstop, rfl⟩
  · exact hcx
  · by_cases hstop : d.stop = x.addr
    · rw [absorb_of_eq hstop]
      exact Apart.glue hstop hc (hcL d hd) hcx
    · rw [absorb_of_ne hstop]
      exact hcL d hd
  · exact Apart.glue hstop hc hcx (hcL d hd)

/-- A call adds no pages to the list but those of the freed block. -/
theorem cover_freeWalk_subset (hf : Freed x L) (h : freeWalk x none [] L = some L') :
    cover L' ⊆ cover L ∪ x.bytes := by
  rcases freeWalk_or hf h with ⟨-, rfl⟩ | ⟨P, M, t, T, rfl, -, -, -, -, rfl⟩
  · exact cover_map_absorb_subset L
  · rw [cover_append, cover_append, cover_append]
    intro q hq
    rcases hq with hq | hq
    · exact (cover_map_absorb_subset P hq).imp_left fun h ↦ .inl (.inl h)
    · exact (cover_joined_subset T hq).symm.imp_left .inr

/-- **No page is lost** where the block is linked once or taken over once. -/
theorem subset_cover_freeWalk (hf : Freed x L) (hk : KeepsPages x L)
    (h : freeWalk x none [] L = some L') : cover L ∪ x.bytes ⊆ cover L' := by
  rw [KeepsPages] at hk
  rcases freeWalk_or hf h with ⟨hzero, rfl⟩ | ⟨P, M, t, T, rfl, hP, hM, ht, hT, rfl⟩
  · have hex : ∃ b ∈ L, b.stop = x.addr := by
      by_contra hno
      rw [if_neg hno, hzero] at hk
      exact absurd hk (by decide)
    obtain ⟨b, hb, hstop⟩ := hex
    refine Set.union_subset (subset_cover_map_absorb L) fun q hq ↦ ?_
    refine mem_cover.mpr ⟨_, List.mem_map_of_mem hb, ?_⟩
    rw [absorb_of_eq hstop, bytes_glue hstop]
    exact .inr hq
  · -- two places would be two links
    have hMnil : M = [] := by
      by_contra hne
      have hpos := hM hne
      rw [links_append, links_append, links, hP, if_pos ht, hT] at hk
      split at hk <;> omega
    subst hMnil
    rw [List.append_nil, cover_append, cover_append, Set.union_assoc, Set.union_comm _ x.bytes]
    exact Set.union_subset_union (subset_cover_map_absorb P) (subset_cover_joined T)

private theorem apart_absorb {a b : Block} (ha : a.Valid) (hb : b.Valid)
    (hab : Apart a b) (hax : Apart a x) (hbx : Apart b x) : Apart (absorb x a) (absorb x b) := by
  by_cases hastop : a.stop = x.addr
  · have hbstop : b.stop ≠ x.addr := by
      have hapos := ha.pages_pos
      have hbpos := hb.pages_pos
      simp only [Apart, stop] at hab hastop ⊢
      omega
    rw [absorb_of_eq hastop, absorb_of_ne hbstop]
    exact symm (Apart.glue hastop hb (symm hab) hbx)
  · rw [absorb_of_ne hastop]
    by_cases hbstop : b.stop = x.addr
    · rw [absorb_of_eq hbstop]
      exact Apart.glue hbstop ha hab hax
    · rwa [absorb_of_ne hbstop]

/-- If `x` is linked at all and a taken over block is not linked as well, then no block that stays
in the list ends at `x`: one in front of the first place would be linked behind, one from the last
place on would be linked up to it. -/
private theorem stop_ne_of_mergesApart {P M T : List Block} {t : Block}
    (hm : MergesApart x (P ++ M ++ t :: T)) (hP : links x none P = 0)
    (ht : LinksAt x (passed none (P ++ M)) t) (hT : links x (some t) T = 0) :
    ∀ b ∈ P ++ t :: T, b.stop ≠ x.addr := by
  intro b hb hstop
  rcases List.mem_append.mp hb with hb | hb
  · obtain ⟨A, B, rfl⟩ := List.append_of_mem hb
    have hiff := hm A b (B ++ M ++ t :: T) (by simp) hstop
    rw [show A ++ b :: B = (A ++ [b]) ++ B by simp, links_append, Nat.add_eq_zero_iff] at hP
    rw [hP.1] at hiff
    refine absurd (hiff.mpr (links_pos ?_)) (lt_irrefl 0)
    rwa [List.append_assoc, List.cons_append, passed_append, passed_cons] at ht
  · rcases List.mem_cons.mp hb with rfl | hb
    · have hiff := hm (P ++ M) b T rfl hstop
      rw [hT] at hiff
      exact absurd (hiff.mp (links_pos ht)) (lt_irrefl 0)
    · obtain ⟨A, B, rfl⟩ := List.append_of_mem hb
      have hiff := hm (P ++ M ++ t :: A) b B (by simp) hstop
      rw [show A ++ b :: B = (A ++ [b]) ++ B by simp, links_append, Nat.add_eq_zero_iff] at hT
      have hpassed : passed (some t) (A ++ [b]) = some b := by simp [passed_append]
      rw [hpassed] at hT
      rw [hT.2, List.append_assoc (P ++ M), List.cons_append] at hiff
      exact absurd (hiff.mp (links_pos ht)) (lt_irrefl 0)

private theorem map_absorb_eq_self {M : List Block} (h : ∀ b ∈ M, b.stop ≠ x.addr) :
    M.map (absorb x) = M := by
  rw [List.map_congr_left fun b hb ↦ absorb_of_ne (h b hb), List.map_id']

/-- **The blocks stay apart** where a taken over block is not linked as well. -/
theorem freeWalk_pairwise (hf : Freed x L) (hm : MergesApart x L)
    (h : freeWalk x none [] L = some L') : L'.Pairwise Apart := by
  rcases freeWalk_or hf h with ⟨-, rfl⟩ | ⟨P, M, t, T, rfl, hP, -, ht, hT, rfl⟩
  · rw [List.pairwise_map]
    refine hf.list_apart.imp_of_mem fun ha hb hab ↦ ?_
    exact apart_absorb (hf.list_valid _ ha) (hf.list_valid _ hb) hab (hf.apart _ ha) (hf.apart _ hb)
  · have hstop := stop_ne_of_mergesApart hm hP ht hT
    have hsub : (P ++ t :: T).Sublist (P ++ M ++ t :: T) :=
      (List.sublist_append_left P M).append (List.Sublist.refl _)
    have hpw : (P ++ t :: T).Pairwise Apart := hf.list_apart.sublist hsub
    have hx : ∀ b ∈ P ++ t :: T, Apart b x := fun b hb ↦ hf.apart b (hsub.subset hb)
    have hv : ∀ b ∈ P ++ t :: T, b.Valid := fun b hb ↦ hf.list_valid b (hsub.subset hb)
    rw [List.pairwise_append, List.pairwise_cons] at hpw
    obtain ⟨hPpw, ⟨htT, hTpw⟩, hPT⟩ := hpw
    rw [map_absorb_eq_self fun b hb ↦ hstop b (List.mem_append_left _ hb), List.pairwise_append]
    have htail : ∀ b ∈ t :: T, b.stop ≠ x.addr := fun b hb ↦ hstop b (List.mem_append_right _ hb)
    refine ⟨hPpw, ?_, ?_⟩
    · by_cases hxt : x.stop = t.addr
      · rw [joined_of_eq hxt, map_absorb_eq_self fun b hb ↦ htail b (List.mem_cons_of_mem _ hb),
          List.pairwise_cons]
        refine ⟨fun b hb ↦ symm (Apart.glue hxt (hv b (by simp [hb])) (hx b (by simp [hb])) ?_),
          hTpw⟩
        exact symm (htT b hb)
      · rw [joined_of_ne hxt, map_absorb_eq_self htail, List.pairwise_cons, List.pairwise_cons]
        exact ⟨fun b hb ↦ symm (hx b (List.mem_append_right _ hb)), htT, hTpw⟩
    · intro a ha b hb
      by_cases hxt : x.stop = t.addr
      · rw [joined_of_eq hxt,
          map_absorb_eq_self fun b hb ↦ htail b (List.mem_cons_of_mem _ hb)] at hb
        rcases List.mem_cons.mp hb with rfl | hb
        · exact Apart.glue hxt (hv a (by simp [ha])) (hx a (by simp [ha]))
            (hPT a ha t List.mem_cons_self)
        · exact hPT a ha b (List.mem_cons_of_mem _ hb)
      · rw [joined_of_ne hxt, map_absorb_eq_self htail] at hb
        rcases List.mem_cons.mp hb with rfl | hb
        · exact hx a (List.mem_append_left _ ha)
        · exact hPT a ha b hb

end Kept

end VimOS
