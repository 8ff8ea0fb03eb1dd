import Mathlib.Data.List.Nodup
import Mathlib.Data.List.TakeWhile
import Mathlib.Tactic

/-!
# Singly linked chains in a store

A store of cells is seen through one function, `next`, from a cell to the address it points to.
Cells are named by `Option ι`: `some a` is the cell at address `a`, and `none` is a header cell
that has no address of its own, so that code walking a list with a pointer to the previous cell
needs no special case. One address, `null`, ends a chain.

Two predicates describe a walk in progress. `Seg` is the part already walked, from a cell to a
cell; it says nothing about the pointer leaving its last cell. `Tail` is the part still to come,
from a pointer to `null`. `Seg.relink` is the one update such a walk makes behind itself: the
cell the walk stands on is made to point to a cell `x`, wherever `x` was before.
-/

namespace LinkedChain

variable {ι : Type*} {next next' : Option ι → ι} {null : ι} {p q r : Option ι} {l m : List ι}

/-- Following `next` from the cell `p` leads through the cells `l`, in order, to the cell `q`. -/
def Seg (next : Option ι → ι) : Option ι → List ι → Option ι → Prop
  | p, [], q => p = q
  | p, a :: l, q => next p = a ∧ Seg next (some a) l q

/-- Following `next` from the pointer `a` leads through the cells `l`, in order, to `null`. -/
def Tail (next : Option ι → ι) (null : ι) : ι → List ι → Prop
  | a, [] => a = null
  | a, b :: l => a = b ∧ a ≠ null ∧ Tail next null (next (some b)) l

theorem Seg.snoc {a : ι} (h : Seg next p l q) (hq : next q = a) :
    Seg next p (l ++ [a]) (some a) := by
  induction l generalizing p with
  | nil =>
    rw [Seg] at h
    subst h
    exact ⟨hq, rfl⟩
  | cons b l ih => exact ⟨h.1, ih h.2⟩

/-- The cell a segment ends at is one of its cells. -/
theorem Seg.mem (h : Seg next p l q) : q ∈ p :: l.map some := by
  induction l generalizing p with
  | nil =>
    rw [Seg] at h
    simp [h]
  | cons b l ih =>
    rw [List.map_cons]
    exact List.mem_cons_of_mem _ (ih h.2)

/-- **Frame.** A segment depends only on its cells before the last. -/
theorem Seg.congr (h : Seg next p l q) (hnd : (p :: l.map some).Nodup)
    (hsame : ∀ r ∈ p :: l.map some, r ≠ q → next' r = next r) : Seg next' p l q := by
  induction l generalizing p with
  | nil => exact h
  | cons b l ih =>
    obtain ⟨hb, hrest⟩ := h
    rw [List.map_cons, List.nodup_cons] at hnd
    have hpq : p ≠ q := fun hpq ↦ hnd.1 (hpq ▸ hrest.mem)
    refine ⟨?_, ih hrest hnd.2 fun r hr ↦ hsame r (List.mem_cons_of_mem _ hr)⟩
    rw [hsame p List.mem_cons_self hpq, hb]

theorem Seg.tail_append (h : Seg next p l q) (hl : ∀ a ∈ l, a ≠ null)
    (hm : Tail next null (next q) m) : Tail next null (next p) (l ++ m) := by
  induction l generalizing p with
  | nil =>
    rw [Seg] at h
    rwa [h]
  | cons b l ih =>
    obtain ⟨hb, hrest⟩ := h
    refine ⟨hb, ?_, ih hrest fun a ha ↦ hl a (List.mem_cons_of_mem _ ha)⟩
    rw [hb]
    exact hl b List.mem_cons_self

/-- A segment that ends in `null` is a chain, as far as none of its own cells is `null`. -/
theorem Seg.tail_takeWhile [DecidableEq ι] (h : Seg next p l q) (hq : next q = null) :
    Tail next null (next p) (l.takeWhile (· ≠ null)) := by
  induction l generalizing p with
  | nil =>
    rw [Seg] at h
    rwa [h]
  | cons b l ih =>
    obtain ⟨hb, hrest⟩ := h
    by_cases hnull : b = null
    · rw [List.takeWhile_cons_of_neg (by simpa using hnull)]
      exact hb.trans hnull
    · rw [List.takeWhile_cons_of_pos (by simpa using hnull)]
      exact ⟨hb, hb ▸ hnull, ih hrest⟩

/-- **Frame.** A chain depends only on its own cells. -/
theorem Tail.congr {a : ι} (h : Tail next null a l)
    (hsame : ∀ b ∈ l, next' (some b) = next (some b)) : Tail next' null a l := by
  induction l generalizing a with
  | nil => exact h
  | cons b l ih =>
    obtain ⟨hab, hnull, hrest⟩ := h
    refine ⟨hab, hnull, ?_⟩
    rw [hsame b List.mem_cons_self]
    exact ih hrest fun c hc ↦ hsame c (List.mem_cons_of_mem _ hc)

/-- A pointer is the start of at most one chain. -/
theorem Tail.unique {a : ι} (h : Tail next null a l) (h' : Tail next null a m) : l = m := by
  induction l generalizing a m with
  | nil =>
    cases m with
    | nil => rfl
    | cons b m => exact absurd h h'.2.1
  | cons b l ih =>
    cases m with
    | nil => exact absurd h' h.2.1
    | cons c m =>
      obtain ⟨rfl, -, hl⟩ := h
      obtain ⟨rfl, -, hm⟩ := h'
      rw [ih hl hm]

/-! ## Chains whose last cell is marked -/

section Walk

variable {succ succ' : ι → Option ι} {a b : ι}

/-- Following `succ` from the cell `a` leads through the cells `l`, in order; the last one has no
successor. -/
inductive Walk (succ : ι → Option ι) : ι → List ι → Prop
  | last {a : ι} (h : succ a = none) : Walk succ a [a]
  | step {a b : ι} {l : List ι} (h : succ a = some b) (hw : Walk succ b l) : Walk succ a (a :: l)

theorem Walk.unique (h : Walk succ a l) (h' : Walk succ a m) : l = m := by
  induction h generalizing m with
  | last hnone =>
    cases h' with
    | last => rfl
    | step hsome => exact absurd (hnone.symm.trans hsome) nofun
  | step hsome _ ih =>
    cases h' with
    | last hnone => exact absurd (hnone.symm.trans hsome) nofun
    | step hsome' hw' =>
      obtain rfl := Option.some.inj (hsome.symm.trans hsome')
      rw [ih hw']

/-- A second successor function has the same walk exactly if it agrees with the first on the cells
of the walk. -/
theorem Walk.iff_eq_on (h : Walk succ a l) : Walk succ' a l ↔ ∀ b ∈ l, succ' b = succ b := by
  induction h with
  | @last a hnone =>
    rw [List.forall_mem_singleton, hnone]
    refine ⟨fun h' ↦ ?_, Walk.last⟩
    cases h' with
    | last hnone' => exact hnone'
    | step _ hw => cases hw
  | @step a b l hsome hw ih =>
    rw [List.forall_mem_cons, hsome, ← ih]
    refine ⟨fun h' ↦ ?_, fun h' ↦ .step h'.1 h'.2⟩
    cases h' with
    | last => cases hw
    | @step _ b' _ hsome' hw' =>
      have hb : b' = b := by
        cases hw <;> cases hw' <;> rfl
      exact ⟨hb ▸ hsome', hb ▸ hw'⟩

theorem Walk.exists_of_mem (h : Walk succ a l) (hb : b ∈ l) :
    ∃ m, Walk succ b m ∧ m.length ≤ l.length := by
  induction h with
  | last hnone =>
    rw [List.mem_singleton.mp hb]
    exact ⟨_, .last hnone, le_refl _⟩
  | step hsome hw ih =>
    rcases List.mem_cons.mp hb with rfl | hb
    · exact ⟨_, .step hsome hw, le_refl _⟩
    · obtain ⟨m, hm, hle⟩ := ih hb
      exact ⟨m, hm, hle.trans (Nat.le_succ _)⟩

/-- No cell comes twice in a walk: it would lead round in a circle. -/
theorem Walk.nodup (h : Walk succ a l) : l.Nodup := by
  induction h with
  | last => exact List.nodup_singleton _
  | @step a b l hsome hw ih =>
    refine List.nodup_cons.mpr ⟨fun ha ↦ ?_, ih⟩
    obtain ⟨m, hm, hle⟩ := hw.exists_of_mem ha
    have hcircle : m = a :: l := hm.unique (.step hsome hw)
    rw [hcircle, List.length_cons] at hle
    exact Nat.not_succ_le_self _ hle

end Walk

/-! ## Relinking -/

variable [DecidableEq ι]

/-- The walked part of a chain after its last cell has been made to point to `x`: whatever stood
from `x` on is no longer reached. -/
def relink (x : ι) (l : List ι) : List ι := l.takeWhile (· ≠ x) ++ [x]

/-- **Relinking behind the walk.** If only the pointers out of `q` and `x` change, and the one out
of `q` now leads to `x`, the walk from `p` reaches `x` directly from where it first met it. -/
theorem Seg.relink {x : ι} (h : Seg next p l q) (hnd : (p :: l.map some).Nodup)
    (hp : p ≠ some x) (hq : next' q = x ∨ q = some x)
    (hsame : ∀ r, r ≠ q → r ≠ some x → next' r = next r) :
    Seg next' p (relink x l) (some x) := by
  induction l generalizing p with
  | nil =>
    rw [Seg] at h
    subst h
    exact ⟨hq.resolve_right hp, rfl⟩
  | cons b l ih =>
    obtain ⟨hb, hrest⟩ := h
    rw [List.map_cons, List.nodup_cons] at hnd
    have hpq : p ≠ q := fun hpq ↦ hnd.1 (hpq ▸ hrest.mem)
    have hpb : next' p = b := by rw [hsame p hpq hp, hb]
    by_cases hbx : b = x
    · subst hbx
      simpa [LinkedChain.relink, Seg] using hpb
    · have hcons : LinkedChain.relink x (b :: l) = b :: LinkedChain.relink x l := by
        simp [LinkedChain.relink, hbx]
      rw [hcons]
      exact ⟨hpb, ih hrest hnd.2 (by simpa using hbx)⟩

end LinkedChain
