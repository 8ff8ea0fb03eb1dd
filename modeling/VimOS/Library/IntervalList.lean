import Mathlib.Order.Interval.Set.Basic
import Mathlib.Tactic

/-!
# Lists of intervals as a representation of sets

A finite union of half-open intervals has many representations as a list of intervals; the ones
that are increasing and leave a gap between neighbours are canonical. `Gapped.eq_of_cover_eq` is the
statement that makes this useful: two gapped lists of the same points are the same list, so an
operation on such lists is determined by what it does to the points.
-/

namespace IntervalList

variable {α : Type*} [LinearOrder α] {L M : List (α × α)} {i j : α × α} {x : α}

/-- The points of the intervals `[i.1, i.2)`. -/
def cover (L : List (α × α)) : Set α := {x | ∃ i ∈ L, x ∈ Set.Ico i.1 i.2}

/-- Nonempty intervals in increasing order, no two of them touching. -/
structure Gapped (L : List (α × α)) : Prop where
  nonempty : ∀ i ∈ L, i.1 < i.2
  gaps : L.Pairwise fun i j ↦ i.2 < j.1

theorem mem_cover_cons : x ∈ cover (i :: L) ↔ x ∈ Set.Ico i.1 i.2 ∨ x ∈ cover L := by
  simp [cover]

theorem Gapped.tail (h : Gapped (i :: L)) : Gapped L :=
  ⟨fun j hj ↦ h.nonempty j (List.mem_cons_of_mem _ hj), h.gaps.of_cons⟩

/-- Everything in a gapped list lies at or above the start of its first interval. -/
theorem Gapped.start_le (h : Gapped (i :: L)) (hx : x ∈ cover (i :: L)) : i.1 ≤ x := by
  obtain ⟨j, hj, hx⟩ := hx
  rcases List.mem_cons.mp hj with rfl | hj
  · exact hx.1
  · have hgap := List.rel_of_pairwise_cons h.gaps hj
    exact ((h.nonempty i List.mem_cons_self).le.trans hgap.le).trans hx.1

/-- What follows the first interval lies behind its end, with a gap. -/
theorem Gapped.stop_lt (h : Gapped (i :: L)) (hx : x ∈ cover L) : i.2 < x := by
  obtain ⟨j, hj, hx⟩ := hx
  exact (List.rel_of_pairwise_cons h.gaps hj).trans_le hx.1

/-- The first interval is found from the points: it ends at the first point above its start that is
not covered. -/
private theorem Gapped.stop_le (hM : Gapped (j :: M)) (hstart : i.1 = j.1)
    (h : cover (i :: L) = cover (j :: M)) : i.2 ≤ j.2 := by
  by_contra hlt
  push Not at hlt
  have hmem : j.2 ∈ cover (i :: L) := by
    refine mem_cover_cons.mpr (.inl ⟨?_, hlt⟩)
    rw [hstart]
    exact (hM.nonempty j List.mem_cons_self).le
  rw [h, mem_cover_cons] at hmem
  rcases hmem with hmem | hmem
  · exact absurd hmem.2 (lt_irrefl _)
  · exact absurd (hM.stop_lt hmem) (lt_irrefl _)

/-- **Canonicity.** A gapped list is determined by its points. -/
theorem Gapped.eq_of_cover_eq (hL : Gapped L) (hM : Gapped M) (h : cover L = cover M) : L = M := by
  induction L generalizing M with
  | nil =>
    cases M with
    | nil => rfl
    | cons j M =>
      have hj : j.1 ∈ cover (j :: M) :=
        mem_cover_cons.mpr (.inl ⟨le_rfl, hM.nonempty j List.mem_cons_self⟩)
      rw [← h] at hj
      simp [cover] at hj
  | cons i L ih =>
    have hi : i.1 ∈ cover (i :: L) :=
      mem_cover_cons.mpr (.inl ⟨le_rfl, hL.nonempty i List.mem_cons_self⟩)
    cases M with
    | nil =>
      rw [h] at hi
      simp [cover] at hi
    | cons j M =>
      have hj : j.1 ∈ cover (j :: M) :=
        mem_cover_cons.mpr (.inl ⟨le_rfl, hM.nonempty j List.mem_cons_self⟩)
      have hstart : i.1 = j.1 :=
        le_antisymm (hL.start_le (h ▸ hj)) (hM.start_le (h ▸ hi))
      have hstop : i.2 = j.2 :=
        le_antisymm (hM.stop_le hstart h) (hL.stop_le hstart.symm h.symm)
      obtain rfl : i = j := Prod.ext hstart hstop
      -- behind the common first interval the points agree as well
      have hrest : cover L = cover M := by
        ext x
        have hx := Set.ext_iff.mp h x
        rw [mem_cover_cons, mem_cover_cons] at hx
        constructor
        · intro hxL
          exact (hx.mp (.inr hxL)).resolve_left fun hc ↦ absurd (hL.stop_lt hxL) hc.2.not_gt
        · intro hxM
          exact (hx.mpr (.inr hxM)).resolve_left fun hc ↦ absurd (hM.stop_lt hxM) hc.2.not_gt
      rw [ih hL.tail hM.tail hrest]

/-- An interval of covered points lies in one interval of a gapped list. -/
theorem Gapped.exists_superset (h : Gapped L) {u v : α} (huv : u < v)
    (hsub : Set.Ico u v ⊆ cover L) : ∃ i ∈ L, i.1 ≤ u ∧ v ≤ i.2 := by
  obtain ⟨i, hi, hu⟩ := hsub ⟨le_rfl, huv⟩
  refine ⟨i, hi, hu.1, ?_⟩
  by_contra hlt
  push Not at hlt
  -- the end of `i` would be covered by another interval, on one of its sides
  obtain ⟨j, hj, hij⟩ := hsub ⟨hu.2.le, hlt⟩
  have hne : i ≠ j := by
    rintro rfl
    exact absurd hij.2 (lt_irrefl _)
  have hsymm : i.2 < j.1 ∨ j.2 < i.1 := by
    have hpw : L.Pairwise fun i j ↦ i.2 < j.1 ∨ j.2 < i.1 := h.gaps.imp .inl
    have : Std.Symm fun i j : α × α ↦ i.2 < j.1 ∨ j.2 < i.1 := ⟨fun _ _ ↦ Or.symm⟩
    exact hpw.forall hi hj hne
  rcases hsymm with hgap | hgap
  · exact absurd (hgap.trans_le hij.1) (lt_irrefl _)
  · exact absurd ((hgap.trans (h.nonempty i hi)).trans hij.2) (lt_irrefl _)

end IntervalList
