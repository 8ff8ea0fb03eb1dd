import VimOS.Xhci.InputContext

/-!
# The bytes that the descriptor loop reads

The loop of `usb_process_events` over the descriptors of a configuration stops at `wTotalLength`,
which the device has sent, and not at the end of the buffer of 512 bytes. It reads the type of a
descriptor before it looks at the length, and the fields of an interface or endpoint descriptor
without looking at the length at all. So a descriptor that begins close before the end of the
buffer, or behind it, is read beyond the buffer, whatever its own length says.

What is behind the buffer may be anything: `buf` gives the memory from the buffer's first byte on.
-/

namespace VimOS

open Relation

/-! ## Reads -/

/-- The ring of an endpoint cannot be made. -/
def RingFails (alloc : ℕ → Addr) (allocs : ℕ) : Prop := alloc allocs = 0 ∨ alloc (allocs + 1) = 0

instance (alloc : ℕ → Addr) (allocs : ℕ) : Decidable (RingFails alloc allocs) :=
  inferInstanceAs (Decidable (_ ∨ _))

/-- The offsets that are read for the descriptor at `p`. A panic, if the ring of an endpoint fails,
comes before `wMaxPacketSize` is read. -/
def descriptorReads (buf : ℕ → Byte) (fails : Prop) [Decidable fails] (p : ℕ) : List ℕ :=
  [p + 1, p] ++
    if buf p = 0 then []
    else if buf (p + 1) = 4 then [p + 5, p + 6, p + 7]
    else if buf (p + 1) = 5 then [p + 2, p + 3] ++ if fails then [] else [p + 4, p + 5, p + 6]
    else []

/-- The offsets that the loop reads, from `p` on; `none` if it has not come to its end. -/
def loopReads (buf : ℕ → Byte) (totalLength : ℕ) (alloc : ℕ → Addr) :
    ℕ → ℕ → ℕ → Option (List ℕ)
  | 0, _, _ => none
  | fuel + 1, allocs, p =>
    if p < totalLength then
      let reads := descriptorReads buf (RingFails alloc allocs) p
      if buf p = 0 ∨ buf (p + 1) = 5 ∧ RingFails alloc allocs then some reads
      else
        let allocs := if buf (p + 1) = 5 then allocs + 2 else allocs
        (loopReads buf totalLength alloc fuel allocs (p + (buf p).toNat)).map (reads ++ ·)
    else some []

/-- The loop comes to its end, with reads of the buffer only. -/
def ReadsInside (buf : ℕ → Byte) (alloc : ℕ → Addr) (allocs : ℕ) : Prop :=
  ∃ fuel reads, loopReads buf (wTotalLength buf) alloc fuel allocs (buf 0).toNat = some reads ∧
    ∀ i ∈ reads, i < 512

/-! ## Places -/

/-- A descriptor follows another one. -/
def Follows (buf : ℕ → Byte) (totalLength p q : ℕ) : Prop :=
  p < totalLength ∧ buf p ≠ 0 ∧ q = p + (buf p).toNat

/-- The lengths of the descriptors lead from one offset to another. -/
def Leads (buf : ℕ → Byte) (totalLength : ℕ) : ℕ → ℕ → Prop :=
  ReflTransGen (Follows buf totalLength)

/-- The bytes from a descriptor's first to the last one that is looked at. -/
def span (buf : ℕ → Byte) (p : ℕ) : ℕ :=
  if buf p = 0 then 2 else if buf (p + 1) = 4 then 8 else if buf (p + 1) = 5 then 7 else 2

/-- Every descriptor of the configuration begins far enough before the end of the buffer, also the
one of length 0 at which the loop stops. -/
def DescriptorsFit (buf : ℕ → Byte) : Prop :=
  ∀ p, Leads buf (wTotalLength buf) (buf 0).toNat p → p < wTotalLength buf → p + span buf p ≤ 512

section Loop

variable {buf : ℕ → Byte} {totalLength fuel allocs p q i : ℕ} {alloc : ℕ → Addr} {reads : List ℕ}
  {fails : Prop} [Decidable fails]

theorem two_le_span : 2 ≤ span buf p := by
  rw [span]
  split_ifs <;> decide

/-- What is read for a descriptor. -/
theorem lt_of_mem_descriptorReads (hi : i ∈ descriptorReads buf fails p) : i < p + span buf p := by
  simp only [descriptorReads, List.cons_append, List.nil_append, List.mem_cons] at hi
  rw [span]
  split_ifs at hi ⊢ <;> simp at hi <;> omega

/-- The last of it, when nothing fails. -/
theorem mem_descriptorReads_last (buf : ℕ → Byte) (p : ℕ) (hfails : ¬ fails) :
    p + span buf p - 1 ∈ descriptorReads buf fails p := by
  simp only [descriptorReads, span, if_neg hfails]
  split_ifs <;> simp

theorem loopReads_end (h : totalLength ≤ p) :
    loopReads buf totalLength alloc (fuel + 1) allocs p = some [] := if_neg (Nat.not_lt.mpr h)

/-- The loop at a descriptor: it ends there, or goes on with the one that follows. -/
theorem loopReads_descriptor (fuel allocs : ℕ) (h : p < totalLength) :
    loopReads buf totalLength alloc (fuel + 1) allocs p =
        some (descriptorReads buf (RingFails alloc allocs) p) ∧
      (buf p = 0 ∨ RingFails alloc allocs) ∨
    ∃ allocs', loopReads buf totalLength alloc (fuel + 1) allocs p =
        (loopReads buf totalLength alloc fuel allocs' (p + (buf p).toNat)).map
          (descriptorReads buf (RingFails alloc allocs) p ++ ·) ∧
      Follows buf totalLength p (p + (buf p).toNat) := by
  rw [loopReads, if_pos h]
  dsimp only
  split_ifs with hend
  · exact .inl ⟨rfl, hend.imp_right And.right⟩
  · exact .inr ⟨_, rfl, h, fun hzero ↦ hend (.inl hzero), rfl⟩
  · exact .inr ⟨_, rfl, h, fun hzero ↦ hend (.inl hzero), rfl⟩

/-- A descriptor has at least one byte. -/
theorem Follows.lt (h : Follows buf totalLength p q) : p < q := by
  obtain ⟨-, hne, rfl⟩ := h
  have hpos : 0 < (buf p).toNat := by bv_omega
  omega

/-- **Termination.** The offset grows with each descriptor. -/
theorem exists_loopReads (h : totalLength ≤ fuel + p) :
    ∃ reads, loopReads buf totalLength alloc (fuel + 1) allocs p = some reads := by
  induction fuel generalizing allocs p with
  | zero => exact ⟨[], loopReads_end (by omega)⟩
  | succ fuel ih =>
    by_cases hp : p < totalLength
    · rcases loopReads_descriptor (fuel + 1) allocs hp with
        ⟨hreads, -⟩ | ⟨allocs', hreads, hnext⟩
      · exact ⟨_, hreads⟩
      · have hlt := hnext.lt
        obtain ⟨rest, hrest⟩ := @ih allocs' (p + (buf p).toNat) (by omega)
        exact ⟨_, by rw [hreads, hrest]; rfl⟩
    · exact ⟨[], loopReads_end (Nat.not_lt.mp hp)⟩

/-- Whatever is read belongs to a descriptor that the lengths lead to. -/
theorem exists_leads_of_mem (h : loopReads buf totalLength alloc fuel allocs p = some reads)
    (hi : i ∈ reads) : ∃ q, Leads buf totalLength p q ∧ q < totalLength ∧ i < q + span buf q := by
  induction fuel generalizing allocs p reads with
  | zero => cases h
  | succ fuel ih =>
    by_cases hp : p < totalLength
    · rcases loopReads_descriptor fuel allocs hp with
        ⟨hreads, -⟩ | ⟨allocs', hreads, hnext⟩
      · obtain rfl := Option.some.inj (h.symm.trans hreads)
        exact ⟨p, .refl, hp, lt_of_mem_descriptorReads hi⟩
      · obtain ⟨rest, hrest, rfl⟩ := Option.map_eq_some_iff.mp (hreads.symm.trans h)
        rcases List.mem_append.mp hi with hi | hi
        · exact ⟨p, .refl, hp, lt_of_mem_descriptorReads hi⟩
        · obtain ⟨q, hq, hlt, hspan⟩ := ih hrest hi
          exact ⟨q, .head hnext hq, hlt, hspan⟩
    · obtain rfl := Option.some.inj (h.symm.trans (loopReads_end (Nat.not_lt.mp hp)))
      exact absurd hi List.not_mem_nil

/-- Every descriptor that the lengths lead to is read to its last byte, unless a ring fails. -/
theorem mem_of_leads (halloc : ∀ n, ¬ RingFails alloc n)
    (h : loopReads buf totalLength alloc fuel allocs p = some reads)
    (hq : Leads buf totalLength p q) (hlt : q < totalLength) : q + span buf q - 1 ∈ reads := by
  induction fuel generalizing allocs p reads with
  | zero => cases h
  | succ fuel ih =>
    have hp : p < totalLength := by
      rcases hq.cases_head with rfl | ⟨_, hnext, -⟩
      · exact hlt
      · exact hnext.1
    have hlast := mem_descriptorReads_last buf p (halloc allocs)
    rcases loopReads_descriptor fuel allocs hp with
      ⟨hreads, hend⟩ | ⟨allocs', hreads, -⟩
    · obtain rfl := Option.some.inj (h.symm.trans hreads)
      rcases hq.cases_head with rfl | ⟨_, hnext, -⟩
      · exact hlast
      · exact absurd (hend.resolve_right (halloc allocs)) hnext.2.1
    · obtain ⟨rest, hrest, rfl⟩ := Option.map_eq_some_iff.mp (hreads.symm.trans h)
      rcases hq.cases_head with rfl | ⟨p', ⟨-, -, rfl⟩, hq⟩
      · exact List.mem_append_left _ hlast
      · exact List.mem_append_right _ (ih hrest hq)

/-- The walk over the descriptors goes where the lengths lead. -/
theorem mem_descriptorsFrom (h : totalLength ≤ fuel + p) :
    q ∈ descriptorsFrom buf totalLength fuel p ↔
      Leads buf totalLength p q ∧ q < totalLength ∧ buf q ≠ 0 := by
  induction fuel generalizing p with
  | zero =>
    refine iff_of_false List.not_mem_nil ?_
    rintro ⟨hq, hlt, -⟩
    rcases hq.cases_head with rfl | ⟨_, hnext, -⟩
    · omega
    · have := hnext.1
      omega
  | succ fuel ih =>
    rw [descriptorsFrom]
    by_cases hp : p < totalLength ∧ buf p ≠ 0
    · have hnext : Follows buf totalLength p (p + (buf p).toNat) := ⟨hp.1, hp.2, rfl⟩
      have hlt := hnext.lt
      rw [if_pos hp, List.mem_cons, ih (by omega)]
      constructor
      · rintro (rfl | ⟨hq, hq'⟩)
        · exact ⟨.refl, hp⟩
        · exact ⟨.head hnext hq, hq'⟩
      · rintro ⟨hq, hq'⟩
        rcases hq.cases_head with rfl | ⟨_, ⟨-, -, rfl⟩, hq⟩
        · exact .inl rfl
        · exact .inr ⟨hq, hq'⟩
    · rw [if_neg hp]
      refine iff_of_false List.not_mem_nil ?_
      rintro ⟨hq, hq'⟩
      rcases hq.cases_head with rfl | ⟨_, hnext, -⟩
      · exact hp hq'
      · exact hp ⟨hnext.1, hnext.2.1⟩

theorem mem_descriptors : q ∈ descriptors buf ↔
    Leads buf (wTotalLength buf) (buf 0).toNat q ∧ q < wTotalLength buf ∧ buf q ≠ 0 :=
  mem_descriptorsFrom (by
    have hlt : wTotalLength buf < 2 ^ 16 := (buf 3 ++ buf 2).isLt
    omega)

end Loop

/-- Allocations that succeed. -/
theorem not_ringFails (allocs : ℕ) : ¬ RingFails (fun _ ↦ 1) allocs :=
  (by decide : ¬((1 : Addr) = 0 ∨ (1 : Addr) = 0))

theorem DescriptorsFit.of_readsInside {buf : ℕ → Byte} {allocs : ℕ}
    (h : ReadsInside buf (fun _ ↦ 1) allocs) : DescriptorsFit buf := by
  obtain ⟨fuel, reads, hreads, hinside⟩ := h
  intro p hp hlt
  have hlast := hinside _ (mem_of_leads not_ringFails hreads hp hlt)
  omega

/-- **Bounds of the descriptor loop.** For every content of the buffer and of the memory behind it,
the loop ends and reads bytes of the buffer only, whatever `alloc_mem` returns, if and only if every
descriptor begins far enough before the end of the buffer. -/
theorem reads_inside_iff (buf : ℕ → Byte) (allocs : ℕ) :
    (∀ alloc, ReadsInside buf alloc allocs) ↔ DescriptorsFit buf := by
  refine ⟨fun h ↦ .of_readsInside (h _), fun h alloc ↦ ?_⟩
  obtain ⟨reads, hreads⟩ :
      ∃ reads, loopReads buf (wTotalLength buf) alloc (wTotalLength buf + 1) allocs
      (buf 0).toNat = some reads := exists_loopReads (Nat.le_add_right _ _)
  refine ⟨_, reads, hreads, fun i hi ↦ ?_⟩
  obtain ⟨p, hp, hlt, hspan⟩ := exists_leads_of_mem hreads hi
  exact hspan.trans_le (h p hp hlt)

/-- A configuration of 600 bytes, with descriptors of the greatest length. -/
def longConfiguration : ℕ → Byte := fun i ↦ [0x09, 0x02, 0x58, 0x02].getD i 0xff

/-- The third descriptor is at offset 519. -/
theorem not_reads_inside : ¬∀ (buf : ℕ → Byte) (alloc : ℕ → Addr) (allocs : ℕ),
    ReadsInside buf alloc allocs := by
  intro h
  have hfit := DescriptorsFit.of_readsInside (h longConfiguration (fun _ ↦ 1) 0)
  have hfirst : Follows longConfiguration 600 9 264 := ⟨by decide, by decide, by decide⟩
  have hsecond : Follows longConfiguration 600 264 519 := ⟨by decide, by decide, by decide⟩
  have hbeyond := hfit 519 (.head hfirst (.single hsecond)) (by decide)
  have hspan : 2 ≤ span longConfiguration 519 := two_le_span
  omega

end VimOS
