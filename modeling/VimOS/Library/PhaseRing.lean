import Mathlib.Logic.Function.Basic
import Mathlib.Tactic

/-!
# Rings whose slots carry a phase tag

A producer writes items `0, 1, 2, …` into `N` slots in turn and tags each with a bit that toggles
with every lap; a consumer reads the slots in the same order and takes a slot to be filled when its
tag is the one it expects on its own lap. Neither side tells the other how far it is, so the tags
must do: `Holds.ready_iff` says they do exactly as long as the producer is no more than `N` items
ahead.
-/

namespace PhaseRing

variable {N r w j n q i : ℕ}

/-- The tag of item `n`: `true` on the first lap, and toggled with each lap. -/
def phase (N n : ℕ) : Bool := n / N % 2 == 0

/-- The tag in slot `j` once `w` items are written, all tags being `false` at the start. -/
def tagAfter (N w j : ℕ) : Bool := if j < w % N then phase N w else !phase N w

theorem phase_lap (hi : i < N) : phase N (N * q + i) = (q % 2 == 0) := by
  rw [phase, Nat.mul_add_div (by omega), Nat.div_eq_of_lt hi, Nat.add_zero]

theorem phase_next_lap {i' : ℕ} (hi : i < N) (hi' : i' < N) :
    phase N (N * (q + 1) + i') = !phase N (N * q + i) := by
  rw [phase_lap hi, phase_lap hi']
  rcases Nat.mod_two_eq_zero_or_one q with h | h
  · simp [h, Nat.add_mod]
  · simp [h, Nat.add_mod]

/-- Every number is a lap and a slot. -/
theorem exists_lap (hN : 0 < N) (n : ℕ) : ∃ q i, i < N ∧ n = N * q + i :=
  ⟨n / N, n % N, Nat.mod_lt n hN, (Nat.div_add_mod n N).symm⟩

/-- The tag toggles behind the last slot. -/
theorem phase_succ (hN : 0 < N) (n : ℕ) :
    phase N (n + 1) = if n % N + 1 = N then !phase N n else phase N n := by
  obtain ⟨q, i, hi, rfl⟩ := exists_lap hN n
  rw [Nat.mul_add_mod, Nat.mod_eq_of_lt hi]
  split_ifs with h
  · rw [show N * q + i + 1 = N * (q + 1) + 0 by rw [Nat.mul_add, ← h]; omega,
      phase_next_lap hi hN]
  · rw [Nat.add_assoc, phase_lap hi, phase_lap (by omega)]

theorem tagAfter_lap (hi : i < N) :
    tagAfter N (N * q + i) j = if j < i then q % 2 == 0 else !(q % 2 == 0) := by
  rw [tagAfter, Nat.mul_add_mod, Nat.mod_eq_of_lt hi, phase_lap hi]

@[simp] theorem tagAfter_zero : tagAfter N 0 j = false := by
  simp [tagAfter, phase]

/-- Writing an item sets the tag of its slot and no other. -/
theorem tagAfter_succ (hj : j < N) :
    tagAfter N (w + 1) j = if j = w % N then phase N w else tagAfter N w j := by
  obtain ⟨q, i, hi, rfl⟩ := exists_lap (Nat.zero_lt_of_lt hj) w
  rw [Nat.mul_add_mod, Nat.mod_eq_of_lt hi, phase_lap hi, tagAfter_lap hi]
  by_cases hlast : i + 1 = N
  · rw [show N * q + i + 1 = N * (q + 1) + 0 by rw [Nat.mul_add, ← hlast]; omega,
      tagAfter_lap (by omega), if_neg (Nat.not_lt_zero j)]
    have hparity : (!((q + 1) % 2 == 0)) = (q % 2 == 0) := by
      rcases Nat.mod_two_eq_zero_or_one q with h | h
      · simp [h, Nat.add_mod]
      · simp [h, Nat.add_mod]
    rw [hparity]
    split_ifs with h h'
    · rfl
    · rfl
    · omega
  · rw [show N * q + i + 1 = N * q + (i + 1) by omega, tagAfter_lap (by omega)]
    split_ifs with h h' h''
    · rfl
    · rfl
    · omega
    · omega
    · omega
    · rfl

/-- The expected tag is found exactly where an item is waiting. -/
theorem tagAfter_eq_phase_iff (hN : 0 < N) (hrw : r ≤ w) (hwr : w ≤ r + N) :
    tagAfter N w (r % N) = phase N r ↔ r < w := by
  obtain ⟨q, i, hi, rfl⟩ := exists_lap hN r
  obtain ⟨q', i', hi', rfl⟩ := exists_lap hN w
  have hq : q ≤ q' := by
    by_contra hlt
    have hle : N * (q' + 1) ≤ N * q := Nat.mul_le_mul_left N (by omega)
    rw [Nat.mul_add] at hle
    omega
  have hq' : q' ≤ q + 1 := by
    by_contra hlt
    have hle : N * (q + 2) ≤ N * q' := Nat.mul_le_mul_left N (by omega)
    rw [Nat.mul_add] at hle
    omega
  rw [Nat.mul_add_mod, Nat.mod_eq_of_lt hi]
  rcases Nat.eq_or_lt_of_le hq with rfl | hlt
  · -- both on one lap
    rw [tagAfter_lap hi', phase_lap hi]
    split_ifs with h
    · simp [h]
    · simp [h]
  · -- the producer is a lap ahead, and has not yet come back to the consumer's slot
    obtain rfl : q' = q + 1 := by omega
    rw [Nat.mul_add] at hwr ⊢
    rw [show N * q + N * 1 + i' = N * (q + 1) + i' by rw [Nat.mul_add], tagAfter_lap hi',
      if_neg (by omega), ← phase_lap hi', phase_next_lap hi hi', Bool.not_not]
    simp only [true_iff]
    rw [Nat.mul_add]
    omega

/-! ## The invariant -/

variable {β : Type*} {tag tag' : ℕ → Bool} {payload payload' : ℕ → β} {item : ℕ → β}

/-- `w` of the items are written and `r` of them read. -/
structure Holds (N : ℕ) (tag : ℕ → Bool) (payload item : ℕ → β) (r w : ℕ) : Prop where
  read_le : r ≤ w
  written_le : w ≤ r + N
  tag_eq : ∀ j < N, tag j = tagAfter N w j
  payload_eq : ∀ n, r ≤ n → n < w → payload (n % N) = item n

namespace Holds

theorem start (htag : ∀ j < N, tag j = false) : Holds N tag payload item 0 0 where
  read_le := le_rfl
  written_le := Nat.zero_le _
  tag_eq := by simpa using htag
  payload_eq := fun n _ hn ↦ absurd hn (Nat.not_lt_zero n)

/-- **The tags are right**: the consumer finds its tag exactly where an item is waiting. -/
theorem ready_iff (h : Holds N tag payload item r w) (hN : 0 < N) :
    tag (r % N) = phase N r ↔ r < w := by
  rw [h.tag_eq _ (Nat.mod_lt r hN)]
  exact tagAfter_eq_phase_iff hN h.read_le h.written_le

theorem consume (h : Holds N tag payload item r w) (hrw : r < w) :
    Holds N tag payload item (r + 1) w where
  read_le := hrw
  written_le := h.written_le.trans (by omega)
  tag_eq := h.tag_eq
  payload_eq := fun n hn hnw ↦ h.payload_eq n (by omega) hnw

/-- Two items that are both in the ring have different slots. -/
theorem mod_ne (hrn : r ≤ n) (hnw : n < w) (hw : w < r + N) : n % N ≠ w % N := by
  intro heq
  have hdvd : N ∣ w - n := (Nat.modEq_iff_dvd' hnw.le).mp heq
  have hle := Nat.le_of_dvd (by omega) hdvd
  omega

/-- Anything may be done to the slot that is written next, as long as its tag stays. -/
theorem congr (h : Holds N tag payload item r w) (hw : w < r + N)
    (htag : ∀ j < N, tag' j = tag j)
    (hpayload : ∀ j < N, j ≠ w % N → payload' j = payload j) :
    Holds N tag' payload' item r w where
  read_le := h.read_le
  written_le := h.written_le
  tag_eq := fun j hj ↦ (htag j hj).trans (h.tag_eq j hj)
  payload_eq := fun n hrn hnw ↦
    (hpayload _ (Nat.mod_lt n (by omega)) (mod_ne hrn hnw hw)).trans (h.payload_eq n hrn hnw)

/-- Setting the tag of that slot publishes the item in it. -/
theorem publish (h : Holds N tag payload item r w) (hw : w < r + N)
    (htag : ∀ j < N, tag' j = if j = w % N then phase N w else tag j)
    (hpayload : ∀ j < N, j ≠ w % N → payload' j = payload j)
    (hitem : payload' (w % N) = item w) :
    Holds N tag' payload' item r (w + 1) where
  read_le := h.read_le.trans (Nat.le_succ w)
  written_le := hw
  tag_eq := by
    intro j hj
    rw [htag j hj, tagAfter_succ hj, h.tag_eq j hj]
  payload_eq := by
    intro n hrn hnw
    rcases Nat.lt_succ_iff_lt_or_eq.mp hnw with hnw | rfl
    · exact (hpayload _ (Nat.mod_lt n (by omega)) (mod_ne hrn hnw hw)).trans
        (h.payload_eq n hrn hnw)
    · exact hitem

/-- Items still to be written may change. -/
theorem congr_item {item' : ℕ → β} (h : Holds N tag payload item r w)
    (hitem : ∀ n < w, item' n = item n) : Holds N tag payload item' r w where
  read_le := h.read_le
  written_le := h.written_le
  tag_eq := h.tag_eq
  payload_eq := fun n hrn hnw ↦ (h.payload_eq n hrn hnw).trans (hitem n hnw).symm

end Holds

end PhaseRing
