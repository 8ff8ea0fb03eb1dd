import VimOS.Memory.Links

/-!
# Where `free_mem` keeps a list coalesced

A free list is coalesced when it is increasing and no two neighbours touch. Such a list is the only
one with its pages, so a sequence of calls that keeps the list coalesced and the pages in it gives
back the list it started from.

`Restores` is the condition on a call: the freed block lies in front of the first node, or between
the first two, or (the list having one node) ends up merged into it. Behind the second node the loop
links the block once at each node it passes, and behind the last one it does not link it at all.
-/

namespace VimOS

open Block

/-- Increasing, with a gap between neighbours. -/
def Coalesced (L : List Block) : Prop := L.Pairwise fun a b ↦ a.stop < b.addr

instance (L : List Block) : Decidable (Coalesced L) := by
  unfold Coalesced
  infer_instance

namespace Coalesced

variable {b c : Block} {L M : List Block}

theorem gapped (h : Coalesced L) (hv : ∀ b ∈ L, b.Valid) :
    IntervalList.Gapped (L.map extent) where
  nonempty := by
    intro i hi
    obtain ⟨b, hb, rfl⟩ := List.mem_map.mp hi
    have hpos := (hv b hb).pages_pos
    simp only [extent, stop]
    omega
  gaps := List.pairwise_map.mpr h

theorem extent_injective : Function.Injective extent := by
  rintro ⟨a, p⟩ ⟨a', p'⟩ h
  simp only [extent, stop, Prod.mk.injEq] at h
  obtain ⟨rfl, h⟩ := h
  obtain rfl : p = p' := by omega
  rfl

/-- **A coalesced list is determined by its pages.** -/
theorem eq_of_cover_eq (hL : Coalesced L) (hM : Coalesced M) (hLv : ∀ b ∈ L, b.Valid)
    (hMv : ∀ b ∈ M, b.Valid) (h : cover L = cover M) : L = M :=
  List.map_injective_iff.mpr extent_injective ((hL.gapped hLv).eq_of_cover_eq (hM.gapped hMv) h)

theorem pairwise_apart (h : Coalesced L) : L.Pairwise Apart := h.imp fun hab ↦ .inl hab.le

theorem tail (h : Coalesced (b :: L)) : Coalesced L := List.Pairwise.of_cons h

theorem stop_lt (h : Coalesced (b :: L)) (hc : c ∈ L) : b.stop < c.addr :=
  List.rel_of_pairwise_cons h hc

/-- A block in front of a coalesced list, with a gap. -/
theorem cons (h : Coalesced (b :: L)) (hc : c.stop < b.addr) : Coalesced (c :: b :: L) := by
  refine List.pairwise_cons.mpr ⟨fun d hd ↦ ?_, h⟩
  rcases List.mem_cons.mp hd with rfl | hd
  · exact hc
  · have hbd := h.stop_lt hd
    simp only [stop] at hc hbd ⊢
    omega

/-- The first block may be replaced by one that ends at the same place. -/
theorem of_stop_eq (h : Coalesced (b :: L)) (hc : c.stop = b.stop) : Coalesced (c :: L) := by
  refine List.pairwise_cons.mpr ⟨fun d hd ↦ ?_, h.tail⟩
  rw [hc]
  exact h.stop_lt hd

end Coalesced

/-- The call leaves a coalesced list coalesced, with the pages of `x` in it. -/
def Restores (x : Block) : List Block → Prop
  | [] => False
  | [b] => b.stop = x.addr ∨ x.stop < b.addr
  | b :: c :: L => x.addr < b.addr ∨
      b.addr < x.addr ∧ x.addr < c.addr ∧ ¬(b.stop = x.addr ∧ x.stop = c.addr) ∧
        (x.stop = c.addr → L ≠ [])

instance (x : Block) : (L : List Block) → Decidable (Restores x L)
  | [] => isFalse id
  | [_] => inferInstanceAs (Decidable (_ ∨ _))
  | _ :: _ :: _ => inferInstanceAs (Decidable (_ ∨ _))

section FreeWalk

variable {x b c : Block} {done rest L : List Block}

theorem glue_stop {a b : Block} (h : a.stop = b.addr) : (a.glue b).stop = b.stop := by
  simp only [stop, Block.glue] at h ⊢
  omega

/-- Once the loop stands above `x`, nothing more happens. -/
theorem freeWalk_above (hb : x.addr ≤ b.stop) (hrest : ∀ d ∈ rest, x.addr < d.addr)
    (hstop : ∀ d ∈ rest, x.stop ≠ d.addr) :
    freeWalk x (some b) done rest = some (done ++ rest) := by
  induction rest generalizing b done with
  | nil => rw [freeWalk, List.append_nil]
  | cons d rest ih =>
    have hd : x.addr < d.addr := hrest d List.mem_cons_self
    have hdx : x.addr ≤ d.stop := hd.le.trans (Nat.le_add_right _ _)
    have hins : ¬InsertsAt x (some b) d := not_lt.mpr hb
    have habs : absorb x d = d := by
      refine absorb_of_ne ?_
      simp only [stop]
      omega
    rw [freeWalk, if_neg (hstop d List.mem_cons_self)]
    simp only [if_neg hins]
    rw [habs, ih hdx (fun e he ↦ hrest e (List.mem_cons_of_mem _ he))
      fun e he ↦ hstop e (List.mem_cons_of_mem _ he), List.append_assoc, List.singleton_append]

/-- The blocks behind one that is above `x` neither lie below `x` nor touch it. -/
private theorem above_tail (hg : Coalesced (b :: L)) (hbx : x.stop ≤ b.stop) :
    (∀ d ∈ L, x.addr < d.addr) ∧ ∀ d ∈ L, x.stop ≠ d.addr := by
  constructor
  all_goals
    intro d hd
    have hbd := hg.stop_lt hd
    simp only [stop] at hbx hbd ⊢
    omega

/-- `x` linked in front of `b`, with a gap or touching it. -/
private theorem freeWalk_insert {prev : Option Block} (hins : InsertsAt x prev b)
    (hxb : x.addr < b.addr) (hap : Apart b x) (hdone : ∀ d ∈ done, d.addr ≠ x.addr)
    (hg : Coalesced (b :: L)) (hL : x.stop = b.addr → ¬(InsertsAt x prev b ∧ L = [])) :
    freeWalk x prev done (b :: L) =
      some (done ++ if x.stop = b.addr then x.glue b :: L else x :: b :: L) := by
  have hle : x.stop ≤ b.addr := by
    simp only [Apart, stop] at hap ⊢
    omega
  have hbx : x.stop ≤ b.stop := hle.trans (Nat.le_add_right _ _)
  have hxaddr : x.addr ≤ b.stop := hxb.le.trans (Nat.le_add_right _ _)
  obtain ⟨habove, hne⟩ := above_tail hg hbx
  have habs : absorb x b = b := by
    refine absorb_of_ne ?_
    simp only [stop] at hxb ⊢
    omega
  have hfront := front_eq_self hdone
  rw [freeWalk]
  simp only [if_pos hins]
  by_cases hstop : x.stop = b.addr
  · rw [if_pos hstop, if_neg (hL hstop), if_pos hstop, freeWalk_above hxaddr habove hne]
    rw [relinkBlock, relinkBlock, front_append, hfront, List.append_assoc]
    rfl
  · rw [if_neg hstop, if_neg hstop, freeWalk_above hxaddr habove hne, habs, relinkBlock, hfront,
      List.append_assoc, List.append_assoc]
    rfl

/-- `x` behind the first block, not touching it: the loop goes on to the second. -/
private theorem freeWalk_past (hbx : b.addr < x.addr) (hgap : b.stop ≠ x.addr) :
    freeWalk x none [] (b :: L) = freeWalk x (some b) [b] L := by
  have hins : ¬InsertsAt x none b := hbx.not_gt
  have hne : x.stop ≠ b.addr := by
    simp only [stop]
    omega
  rw [freeWalk, if_neg hne]
  simp only [if_neg hins]
  rw [absorb_of_ne hgap]
  rfl

/-- `x` behind the first block, which takes it over. -/
private theorem freeWalk_touch (hbx : b.stop = x.addr) (hv : b.Valid)
    (hL : ∀ d ∈ L, x.stop < d.addr) :
    freeWalk x none [] (b :: L) = some (b.glue x :: L) := by
  have hpos := hv.pages_pos
  have hlt : b.addr < x.addr := by
    simp only [stop] at hbx
    omega
  have hins : ¬InsertsAt x none b := hlt.not_gt
  have hne : x.stop ≠ b.addr := by
    simp only [stop]
    omega
  rw [freeWalk, if_neg hne]
  simp only [if_neg hins]
  rw [absorb_of_eq hbx, freeWalk_above hbx.ge
    (fun d hd ↦ lt_of_le_of_lt (Nat.le_add_right _ _) (hL d hd)) fun d hd ↦ (hL d hd).ne]
  rfl

/-- A call that inserts `x` in front of a coalesced list, or merges it with the first block, leaves
the list coalesced. -/
private theorem insert_coalesced (hap : Apart b x) (hxb : x.addr < b.addr)
    (hg : Coalesced (b :: L)) :
    Coalesced (if x.stop = b.addr then x.glue b :: L else x :: b :: L) := by
  by_cases hstop : x.stop = b.addr
  · rw [if_pos hstop]
    exact hg.of_stop_eq (glue_stop hstop)
  · rw [if_neg hstop]
    refine hg.cons ?_
    simp only [Apart, stop] at hap hstop ⊢
    omega

private theorem cover_insert :
    cover (if x.stop = b.addr then x.glue b :: L else x :: b :: L) = cover (b :: L) ∪ x.bytes := by
  by_cases hstop : x.stop = b.addr
  · rw [if_pos hstop, cover_cons, cover_cons, bytes_glue hstop, Set.union_assoc, Set.union_comm]
  · rw [if_neg hstop, cover_cons, Set.union_comm]

/-- **A call that meets `Restores`** returns, and leaves the list coalesced with the pages of the
freed block in it. -/
theorem freeWalk_restores (hf : Freed x L) (hg : Coalesced L) (hr : Restores x L) :
    ∃ L', freeWalk x none [] L = some L' ∧ Coalesced L' ∧ cover L' = cover L ∪ x.bytes := by
  have hap : ∀ {b : Block}, b ∈ L → Apart b x := fun hb ↦ hf.apart _ hb
  rcases L with _ | ⟨b, _ | ⟨c, L⟩⟩
  · exact hr.elim
  · have hb : Apart b x := hap List.mem_cons_self
    rcases hr with hbx | hxb
    · -- behind the only node, which takes the block over
      refine ⟨_, freeWalk_touch hbx (hf.list_valid b List.mem_cons_self) (by simp),
        List.pairwise_singleton _ _, ?_⟩
      rw [cover_cons, cover_cons, bytes_glue hbx, Set.union_right_comm]
    · -- in front of the only node
      have hlt : x.addr < b.addr := lt_of_le_of_lt (Nat.le_add_right _ _) hxb
      refine ⟨_, freeWalk_insert hlt hlt hb (by simp) hg fun h ↦ absurd h hxb.ne, ?_, ?_⟩
      · exact insert_coalesced hb hlt hg
      · exact cover_insert
  · have hb : Apart b x := hap List.mem_cons_self
    have hc : Apart c x := hap (List.mem_cons_of_mem b List.mem_cons_self)
    rcases hr with hxb | ⟨hbx, hxc, hone, hlast⟩
    · -- in front of the first node
      refine ⟨_, freeWalk_insert hxb hxb hb (by simp) hg fun _ h ↦ absurd h.2 (by simp), ?_, ?_⟩
      · exact insert_coalesced hb hxb hg
      · exact cover_insert
    · have hbv := hf.list_valid b List.mem_cons_self
      by_cases htouch : b.stop = x.addr
      · -- the first node takes the block over, and does not touch the second
        have hxc' : x.stop < c.addr := by
          have hne : x.stop ≠ c.addr := fun h ↦ hone ⟨htouch, h⟩
          simp only [Apart, stop] at hc hne ⊢
          omega
        have hcL : Coalesced (x :: c :: L) := hg.tail.cons hxc'
        refine ⟨_, freeWalk_touch htouch hbv fun d hd ↦ hcL.stop_lt hd, ?_, ?_⟩
        · exact hcL.of_stop_eq (glue_stop htouch)
        · rw [cover_cons, bytes_glue htouch, cover_cons b, Set.union_right_comm]
      · -- between the first node and the second
        have hgap : b.stop < x.addr := by
          simp only [Apart, stop] at hb htouch ⊢
          omega
        have hdone : ∀ d ∈ [b], d.addr ≠ x.addr := by simpa using hbx.ne
        refine ⟨_, (freeWalk_past hbx htouch).trans (freeWalk_insert hgap hxc hc hdone hg.tail
          fun h hl ↦ hlast h hl.2), ?_, ?_⟩
        · have hins := insert_coalesced hc hxc hg.tail
          by_cases hstop : x.stop = c.addr
          · rw [if_pos hstop] at hins ⊢
            exact hins.cons hgap
          · rw [if_neg hstop] at hins ⊢
            exact hins.cons hgap
        · rw [List.singleton_append, cover_cons, cover_insert, cover_cons b, Set.union_assoc]

end FreeWalk

end VimOS
