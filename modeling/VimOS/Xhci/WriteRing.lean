import VimOS.Xhci.RingInv

/-!
# `write_ring` keeps the invariant

Each store of a call goes to the slot that is written next, and only the one of the last word sets a
cycle bit; so between two stores the invariant stands, and a call moves it on by one item, or by two
where the Link TRB is rewritten. `wp_writeRing` says so for a call begun with room for what it
writes, whatever the consumer does meanwhile.
-/

namespace VimOS

open Machine PhaseRing

/-! ## A call in progress -/

/-- A store that does not hit a TRB the consumer is not through with. -/
def Spares (base : Addr) : RingOp → RingState → Prop
  | .store a _, s => ¬s.Pending ((v2p a - base).toNat / 16)
  | _, _ => True

/-- What is asked of the driver, for the runs `guard` admits. -/
def ringContract (base : Addr) (guard : RingState → Act RingOp Consume → Prop) :
    Contract RingOp Consume RingState where
  guard := guard
  inv := Delivered
  pre := Spares base

/-- The last TRB of `L` is being written: `W` items are in the ring, and there is room for `need`
more. -/
structure Filling (base : Addr) (L : List Trb) (W need : ℕ) (s : RingState) : Prop where
  passed_eq : s.passed = L
  returned_eq : s.returned + 1 = L.length
  inv : ∃ R, RingInv base s R W ∧ W + need ≤ R + 256

/-- With `n` calls ended, the next item to be written is the TRB of the following call, or the Link
TRB behind it. -/
def NextPlace (n W : ℕ) : Prop := W = n + n / 255 ∨ W = n + n / 255 + 1 ∧ n % 255 = 254

section Filling

variable {base : Addr} {L : List Trb} {W need : ℕ} {s s' : RingState} {mem : PhysMem} {t : Trb}

theorem RingInv.step {R : ℕ} (h : RingInv base s R W) {i : Consume}
    (hstep : ringMachine.env s i s') :
    RingInv base s' (R + 1) W ∧ s'.passed = s.passed ∧ s'.returned = s.returned ∧
      s'.mem = s.mem := by
  cases i with
  | take =>
    obtain ⟨hready, htype, rfl⟩ := hstep
    exact ⟨h.take hready htype, rfl, rfl, rfl⟩
  | follow =>
    obtain ⟨hready, htype, rfl⟩ := hstep
    exact ⟨h.follow hready htype, rfl, rfl, rfl⟩

/-- The consumer does not get in the way of a call. -/
theorem stable_filling {guard : RingState → Act RingOp Consume → Prop} (F : Trb → Prop) :
    Stable ringMachine guard fun s ↦
      Filling base L W need s ∧ F (slotTrb base s.mem (W % 256)) := by
  rintro s i s' ⟨⟨hpassed, hreturned, R, hinv, hroom⟩, hF⟩ - hstep
  obtain ⟨hinv', hpassed', hreturned', hmem⟩ := hinv.step hstep
  refine ⟨⟨hpassed'.trans hpassed, by rw [hreturned', hreturned], R + 1, hinv', by omega⟩, ?_⟩
  rwa [hmem]

theorem NextPlace.le {n : ℕ} (h : NextPlace n W) : n + n / 255 ≤ W := by
  rw [NextPlace] at h
  omega

theorem Filling.delivered (h : Filling base L W need s)
    (hle : L.length - 1 + (L.length - 1) / 255 ≤ W) : Delivered s := by
  obtain ⟨-, hreturned, R, hinv, -⟩ := h
  refine hinv.delivered ?_
  omega

/-- The slot that is written next is free. -/
theorem Filling.not_pending (h : Filling base L W (need + 1) s)
    (hplace : NextPlace (L.length - 1) W) : ¬s.Pending (W % 256) := by
  obtain ⟨-, hreturned, R, hinv, hroom⟩ := h
  have hconsumed := hinv.consumed_length
  have hfollowed := hinv.followed_eq
  rw [NextPlace] at hplace
  rw [RingState.Pending]
  split_ifs with hslot
  · omega
  · rintro ⟨i, hi, hi', himod⟩
    omega

/-- A store to that slot that leaves its last word. -/
theorem Filling.store (h : Filling base L W (need + 1) s)
    (hother : ∀ j < 256, j ≠ W % 256 → slotTrb base mem j = slotTrb base s.mem j)
    (hw3 : (slotTrb base mem (W % 256)).w3 = (slotTrb base s.mem (W % 256)).w3) :
    Filling base L W (need + 1) { s with mem := mem } := by
  obtain ⟨hpassed, hreturned, R, hinv, hroom⟩ := h
  refine ⟨hpassed, hreturned, R, ⟨?_, hinv.written_le, hinv.passed_data, hinv.deq_eq, hinv.ccs_eq,
    hinv.followed_eq, hinv.consumed_length, hinv.consumed_eq⟩, hroom⟩
  refine hinv.holds.congr (by omega) (fun j hj ↦ ?_) fun j hj hne ↦ by
    simp only [hother j hj hne]
  by_cases hslot : j = W % 256
  · rw [hslot]
    simp only [Trb.c, hw3]
  · simp only [hother j hj hslot]

/-- The store of its last word puts the TRB into the ring. -/
theorem Filling.publish (h : Filling base L W (need + 1) s) (hplace : NextPlace (L.length - 1) W)
    (hother : ∀ j < 256, j ≠ W % 256 → slotTrb base mem j = slotTrb base s.mem j)
    (hslot : slotTrb base mem (W % 256) = t.withCycle (phase 256 W)) (ht : t.c = false)
    (hitem : item base L W = t) : Filling base L (W + 1) need { s with mem := mem } := by
  obtain ⟨rfl, hreturned, R, hinv, hroom⟩ := h
  refine ⟨rfl, hreturned, R, ⟨?_, ?_, hinv.passed_data, hinv.deq_eq, hinv.ccs_eq,
    hinv.followed_eq, hinv.consumed_length, hinv.consumed_eq⟩, by omega⟩
  · refine hinv.holds.publish (by omega) (fun j hj ↦ ?_)
      (fun j hj hne ↦ by simp only [hother j hj hne]) ?_
    · split_ifs with hjW
      · rw [hjW, hslot, Trb.c_withCycle ht]
      · rw [hother j hj hjW]
    · rw [hslot, Trb.clearCycle_withCycle ht, hitem]
  · rw [NextPlace] at hplace
    simp only
    omega

end Filling

/-! ## `write_ring_static` -/

section WriteRingStatic

variable {buf : Addr} {L : List Trb} {W need : ℕ} {s : RingState} {t : Trb}
variable {guard : RingState → Act RingOp Consume → Prop}

theorem writeRingStatic_eq (index : ℕ) (cycleBit : Bool) :
    writeRingStatic buf index t cycleBit =
      .op (.store (buf + BitVec.ofNat 64 (16 * index)) t.w0) fun _ ↦
      .op (.store (buf + BitVec.ofNat 64 (16 * index) + 4) t.w1) fun _ ↦
      .op (.store (buf + BitVec.ofNat 64 (16 * index) + 8) t.w2) fun _ ↦
      .op (.store (buf + BitVec.ofNat 64 (16 * index) + 12) (t.withCycle cycleBit).w3) fun _ ↦
      .ret () := rfl

/-- A store to the slot that is written next spares what is in the ring. -/
theorem Filling.spares (h : Filling (v2p buf) L W (need + 1) s)
    (hplace : NextPlace (L.length - 1) W)
    {a o : Addr} (v : Word) (ho : o.toNat < 16)
    (ha : v2p a = v2p buf + BitVec.ofNat 64 (16 * (W % 256)) + o) :
    Spares (v2p buf) (.store a v) s := by
  have hslot : (v2p a - v2p buf).toNat / 16 = W % 256 := by
    rw [ha]
    have hlt := Nat.mod_lt W (y := 256) (by decide)
    generalize W % 256 = j at hlt ⊢
    generalize v2p buf = base
    bv_omega
  rw [Spares, hslot]
  exact h.not_pending hplace

/-- One of the stores in front of the last: it may rely on what the stores before it left in the
slot (`F`), and adds its word to it (`G`). -/
private theorem wp_store {F G : Trb → Prop} {a : Addr} {v : Word} {o : Addr} {k : RingProg Unit}
    {Q : Unit → RingState → Prop} (hplace : NextPlace (L.length - 1) W) (ho : o.toNat < 16)
    (ha : v2p a = v2p buf + BitVec.ofNat 64 (16 * (W % 256)) + o)
    (hF : ∀ mem : PhysMem, F (slotTrb (v2p buf) mem (W % 256)) →
      G (slotTrb (v2p buf) (Function.update mem (v2p a) v) (W % 256)) ∧
      (slotTrb (v2p buf) (Function.update mem (v2p a) v) (W % 256)).w3 =
        (slotTrb (v2p buf) mem (W % 256)).w3)
    (hk : ∀ s, Filling (v2p buf) L W (need + 1) s ∧ G (slotTrb (v2p buf) s.mem (W % 256)) →
      ringMachine.wp (ringContract (v2p buf) guard) k Q s)
    (h : Filling (v2p buf) L W (need + 1) s ∧ F (slotTrb (v2p buf) s.mem (W % 256))) :
    ringMachine.wp (ringContract (v2p buf) guard) (.op (.store a v) fun _ ↦ k) Q s := by
  refine wp_op (stable_filling F) (fun s hs ↦ hs.1.delivered hplace.le) ?_ h
  rintro s ⟨hs, hFs⟩ -
  refine ⟨hs.spares hplace v ho ha, ?_⟩
  rintro r _ rfl
  obtain ⟨hF', hw3⟩ := hF s.mem hFs
  refine hk _ ⟨hs.store (fun j hj hne ↦ ?_) hw3, hF'⟩
  rw [ha]
  exact slotTrb_store_ne (Nat.mod_lt W (by decide)) hj hne ho

variable (guard) in
/-- **`write_ring_static`** puts its TRB into the ring, if that is the next item and has room. -/
theorem wp_writeRingStatic (hbuf : buf.toNat % 4096 = 0) (hplace : NextPlace (L.length - 1) W)
    (ht : t.c = false) (hitem : item (v2p buf) L W = t)
    (h : Filling (v2p buf) L W (need + 1) s) :
    ringMachine.wp (ringContract (v2p buf) guard) (writeRingStatic buf (W % 256) t (phase 256 W))
      (fun _ s ↦ Filling (v2p buf) L (W + 1) need s) s := by
  have hj : W % 256 < 256 := Nat.mod_lt W (by decide)
  have ha0 := v2p_slot_start hbuf hj
  have ha1 := v2p_slot (o := 4) hbuf hj (by decide)
  have ha2 := v2p_slot (o := 8) hbuf hj (by decide)
  have ha3 := v2p_slot (o := 12) hbuf hj (by decide)
  rw [writeRingStatic_eq]
  refine wp_store (F := fun _ ↦ True) (G := fun x ↦ x.w0 = t.w0) (o := 0) hplace (by decide)
    (by simpa using ha0) ?_ (fun s₁ h₁ ↦ ?_) ⟨h, trivial⟩
  · intro mem _
    rw [ha0, slotTrb_store_w0]
    exact ⟨rfl, rfl⟩
  refine wp_store (F := fun x ↦ x.w0 = t.w0) (G := fun x ↦ x.w0 = t.w0 ∧ x.w1 = t.w1) hplace
    (by decide) ha1 ?_ (fun s₂ h₂ ↦ ?_) h₁
  · intro mem hmem
    rw [ha1, slotTrb_store_w1]
    exact ⟨⟨hmem, rfl⟩, rfl⟩
  refine wp_store (F := fun x ↦ x.w0 = t.w0 ∧ x.w1 = t.w1)
    (G := fun x ↦ x.w0 = t.w0 ∧ x.w1 = t.w1 ∧ x.w2 = t.w2) hplace (by decide) ha2 ?_
    (fun s₃ h₃ ↦ ?_) h₂
  · intro mem hmem
    rw [ha2, slotTrb_store_w2]
    exact ⟨⟨hmem.1, hmem.2, rfl⟩, rfl⟩
  -- the last store publishes the TRB
  refine wp_op (stable_filling fun x ↦ x.w0 = t.w0 ∧ x.w1 = t.w1 ∧ x.w2 = t.w2)
    (fun s hs ↦ hs.1.delivered hplace.le) ?_ h₃
  rintro s ⟨hs, hw0, hw1, hw2⟩ -
  refine ⟨hs.spares hplace (t.withCycle (phase 256 W)).w3 (by decide) ha3, ?_⟩
  rintro r _ rfl
  have hpub : Filling (v2p buf) L (W + 1) need
      (RingOp.effect s (.store (buf + BitVec.ofNat 64 (16 * (W % 256)) + 12)
        (t.withCycle (phase 256 W)).w3)) := by
    rw [RingOp.effect, ha3]
    refine hs.publish hplace (fun j hjlt hne ↦ ?_) ?_ ht hitem
    · exact slotTrb_store_ne hj hjlt hne (by decide)
    · rw [slotTrb_store_w3]
      simp only [hw0, hw1, hw2]
      rfl
  exact wp_ret (stable_filling fun _ ↦ True)
    (fun s hs ↦ hs.1.delivered (hplace.le.trans (Nat.le_succ W))) (fun s hs ↦ hs.1) ⟨hpub, trivial⟩

end WriteRingStatic

/-! ## `write_ring` -/

/-- `*ring` after `n` calls. -/
def ringAfter (buf : Addr) (n : ℕ) : Ring := ⟨buf, phase 255 n, 256, n % 255⟩

/-- No call is in progress, and the TRBs of `L` have been passed. -/
structure Quiet (base : Addr) (L : List Trb) (s : RingState) : Prop where
  passed_eq : s.passed = L
  returned_eq : s.returned = L.length
  inv : ∃ R, RingInv base s R (L.length + L.length / 255)

/-- There is room for one more call: not 255 TRBs are waiting, nor 254 with the Link TRB still to be
followed. -/
def RingState.Room (s : RingState) : Prop :=
  s.outstanding ≤ 254 ∧ (s.AtLink → s.outstanding ≤ 253)

section Calls

variable {base buf : Addr} {L : List Trb} {s : RingState} {t : Trb} {n : ℕ}
variable {guard : RingState → Act RingOp Consume → Prop}

/-- `n` calls fill the slots of `n` TRBs and one for each full lap. -/
theorem slot_of_calls (n : ℕ) : (n + n / 255) % 256 = n % 255 := by omega

theorem phase_of_calls (n : ℕ) : phase 256 (n + n / 255) = phase 255 n := by
  have hlap : n + n / 255 = 256 * (n / 255) + n % 255 := by omega
  rw [hlap, phase_lap (by omega), phase]

theorem stable_quiet : Stable ringMachine guard (Quiet base L) := by
  rintro s i s' ⟨hpassed, hreturned, R, hinv⟩ - hstep
  obtain ⟨hinv', hpassed', hreturned', -⟩ := hinv.step hstep
  exact ⟨hpassed'.trans hpassed, hreturned'.trans hreturned, R + 1, hinv'⟩

theorem Quiet.delivered (h : Quiet base L s) : Delivered s := by
  obtain ⟨-, hreturned, R, hinv⟩ := h
  exact hinv.delivered (by rw [hreturned])

theorem RingInv.atLink_iff {R W : ℕ} (h : RingInv base s R W) : s.AtLink ↔ R % 256 = 255 := by
  have hconsumed := h.consumed_length
  have hfollowed := h.followed_eq
  rw [RingState.AtLink]
  omega

/-- A call is begun: what is in the ring stays, and there is room for what the call writes. -/
theorem Quiet.call (h : Quiet base L s) (ht : t.c = false ∧ t.type ≠ 6) (hroom : s.Room) :
    Filling base (L ++ [t]) (L.length + L.length / 255)
      (L.length + 1 + (L.length + 1) / 255 - (L.length + L.length / 255))
      (RingOp.effect s (.call t)) := by
  obtain ⟨rfl, hreturned, R, hinv⟩ := h
  have hconsumed := hinv.consumed_length
  have hread := hinv.holds.read_le
  have hle := hinv.consumed_le
  refine ⟨rfl, by simp [RingOp.effect, hreturned], R, ?_, ?_⟩
  · refine ⟨hinv.holds.congr_item fun m hm ↦ ?_, ?_, ?_, hinv.deq_eq, hinv.ccs_eq,
      hinv.followed_eq, hinv.consumed_length, ?_⟩
    · simp only [RingOp.effect, item]
      split_ifs with hslot
      · rfl
      · rw [List.getD_eq_getElem?_getD, List.getD_eq_getElem?_getD,
          List.getElem?_append_left (by omega)]
    · simp only [RingOp.effect, List.length_append, List.length_singleton]
      omega
    · intro x hx
      rcases List.mem_append.mp hx with hx | hx
      · exact hinv.passed_data x hx
      · rwa [List.mem_singleton.mp hx]
    · simp only [RingOp.effect]
      rw [List.take_append_of_le_length hle]
      exact hinv.consumed_eq
  · obtain ⟨hmany, hlink⟩ := hroom
    rw [hinv.atLink_iff] at hlink
    rw [RingState.outstanding] at hmany hlink
    omega

theorem item_last (n : ℕ) (hn : n = L.length) : item base (L ++ [t]) (n + n / 255) = t := by
  subst hn
  have hindex : L.length + L.length / 255 - (L.length + L.length / 255) / 256 = L.length := by
    omega
  rw [item, if_neg (by omega), hindex, List.getD_eq_getElem?_getD]
  simp

/-- The call is over. -/
theorem Filling.finish (h : Filling base (L ++ [t]) (L.length + 1 + (L.length + 1) / 255) 0 s) :
    Quiet base (L ++ [t]) (RingOp.effect s .returned) := by
  obtain ⟨hpassed, hreturned, R, hinv, -⟩ := h
  refine ⟨hpassed, ?_, R, ?_⟩
  · rw [← hreturned]
    rfl
  · rw [List.length_append, List.length_singleton]
    exact ⟨hinv.holds, hinv.written_le, hinv.passed_data, hinv.deq_eq, hinv.ccs_eq,
      hinv.followed_eq, hinv.consumed_length, hinv.consumed_eq⟩

private theorem wp_returned {ring : Ring}
    (hring : ring = ringAfter buf (L.length + 1))
    (h : Filling (v2p buf) (L ++ [t]) (L.length + 1 + (L.length + 1) / 255) 0 s) :
    ringMachine.wp (ringContract (v2p buf) guard) (.op .returned fun _ ↦ .ret ring)
      (fun ring s ↦ ring = ringAfter buf (L.length + 1) ∧ Quiet (v2p buf) (L ++ [t]) s) s := by
  have hle : (L ++ [t]).length - 1 + ((L ++ [t]).length - 1) / 255 ≤
      L.length + 1 + (L.length + 1) / 255 := by
    rw [List.length_append, List.length_singleton]
    omega
  refine wp_op (stable_filling fun _ ↦ True) (fun s hs ↦ hs.1.delivered hle) ?_ ⟨h, trivial⟩
  rintro s ⟨hs, -⟩ -
  refine ⟨trivial, ?_⟩
  rintro r _ rfl
  exact wp_ret stable_quiet (fun s hs ↦ hs.delivered) (fun s hs ↦ ⟨hring, hs⟩) hs.finish

theorem writeRing_eq (ring : Ring) (t : Trb) :
    writeRing ring t = .op (.call t) fun _ ↦
      writeRingStatic ring.buf ring.ringIndex t ring.cycleBit >>= fun _ ↦
      if ring.ringIndex + 1 = ring.ringSize - 1 then
        writeRingStatic ring.buf (ring.ringIndex + 1) (linkTrb (v2p ring.buf)) ring.cycleBit >>=
          fun _ ↦ .op .returned fun _ ↦ .ret ⟨ring.buf, !ring.cycleBit, ring.ringSize, 0⟩
      else .op .returned fun _ ↦ .ret ⟨ring.buf, ring.cycleBit, ring.ringSize,
        ring.ringIndex + 1⟩ :=
  rfl

/-- **`write_ring`** begun with room passes its TRB on. -/
theorem wp_writeRing (hbuf : buf.toNat % 4096 = 0) (ht : t.c = false ∧ t.type ≠ 6)
    (hguard : ∀ s : RingState, s.passed = L → guard s (.own (.call t)) → s.Room)
    (h : Quiet (v2p buf) L s) :
    ringMachine.wp (ringContract (v2p buf) guard) (writeRing (ringAfter buf L.length) t)
      (fun ring s ↦ ring = ringAfter buf (L.length + 1) ∧ Quiet (v2p buf) (L ++ [t]) s) s := by
  rw [writeRing_eq]
  refine wp_op stable_quiet (fun s hs ↦ hs.delivered) ?_ h
  intro s hs hg
  refine ⟨trivial, ?_⟩
  rintro r _ rfl
  have hlen : (L ++ [t]).length - 1 = L.length := by simp
  have hfill := hs.call ht (hguard s hs.passed_eq hg)
  have hindex : (ringAfter buf L.length).ringIndex = (L.length + L.length / 255) % 256 :=
    (slot_of_calls _).symm
  have hcycle : (ringAfter buf L.length).cycleBit = phase 256 (L.length + L.length / 255) :=
    (phase_of_calls _).symm
  have hdata : ∀ k, L.length + 1 + (L.length + 1) / 255 - (L.length + L.length / 255) = k + 1 →
      ringMachine.wp (ringContract (v2p buf) guard)
        (writeRingStatic buf (ringAfter buf L.length).ringIndex t (ringAfter buf L.length).cycleBit)
        (fun _ s ↦ Filling (v2p buf) (L ++ [t]) (L.length + L.length / 255 + 1) k s)
        (RingOp.effect s (.call t)) := by
    intro k hneed
    rw [hneed] at hfill
    rw [hindex, hcycle]
    exact wp_writeRingStatic guard hbuf (hlen.symm ▸ .inl rfl) ht.1 (item_last _ rfl) hfill
  refine wp_bind ?_
  by_cases hlast : L.length % 255 = 254
  · -- the TRB goes to the last slot but one, and the Link TRB is written behind it
    refine (hdata 1 (by omega)).mono fun _ s₁ hs₁ ↦ ?_
    have hfull : (ringAfter buf L.length).ringIndex + 1 =
        (ringAfter buf L.length).ringSize - 1 := by
      simp only [ringAfter]
      omega
    have hslot : (L.length + L.length / 255 + 1) % 256 = 255 := by omega
    have hindex' : (ringAfter buf L.length).ringIndex + 1 =
        (L.length + L.length / 255 + 1) % 256 := hfull.trans hslot.symm
    have hcycle' : (ringAfter buf L.length).cycleBit =
        phase 256 (L.length + L.length / 255 + 1) := by
      rw [phase_succ (by decide), if_neg (by omega), hcycle]
    have hplace : NextPlace ((L ++ [t]).length - 1) (L.length + L.length / 255 + 1) :=
      hlen.symm ▸ .inr ⟨rfl, hlast⟩
    rw [if_pos hfull]
    refine wp_bind ?_
    have hlink := wp_writeRingStatic guard hbuf hplace (linkTrb_c _)
      (item_of_eq hslot) hs₁
    rw [← hindex', ← hcycle'] at hlink
    refine hlink.mono fun _ s₂ hs₂ ↦ wp_returned ?_ ?_
    · have hmod : (L.length + 1) % 255 = 0 := by omega
      rw [ringAfter, ringAfter, phase_succ (by decide), if_pos (by omega), hmod]
    · rwa [show L.length + 1 + (L.length + 1) / 255 = L.length + L.length / 255 + 1 + 1 by omega]
  · refine (hdata 0 (by omega)).mono fun _ s₁ hs₁ ↦ ?_
    have hnot : (ringAfter buf L.length).ringIndex + 1 ≠ (ringAfter buf L.length).ringSize - 1 := by
      simp only [ringAfter]
      omega
    rw [if_neg hnot]
    refine wp_returned ?_ ?_
    · have hmod : (L.length + 1) % 255 = L.length % 255 + 1 := by omega
      rw [ringAfter, ringAfter, phase_succ (by decide), if_neg (by omega), hmod]
    · rwa [show L.length + 1 + (L.length + 1) / 255 = L.length + L.length / 255 + 1 by omega]

/-- Any number of calls, each begun with room. -/
theorem wp_writeAll (hbuf : buf.toNat % 4096 = 0) {ts : List Trb}
    (hts : ∀ t ∈ ts, t.c = false ∧ t.type ≠ 6)
    (hguard : ∀ (t : Trb) (s : RingState), s.passed.length < L.length + ts.length →
      guard s (.own (.call t)) → s.Room) (h : Quiet (v2p buf) L s) :
    ringMachine.wp (ringContract (v2p buf) guard) (writeAll (ringAfter buf L.length) ts)
      (fun ring s ↦ ring = ringAfter buf (L ++ ts).length ∧ Quiet (v2p buf) (L ++ ts) s) s := by
  induction ts generalizing L s with
  | nil =>
    rw [List.append_nil]
    exact wp_ret stable_quiet (fun s hs ↦ hs.delivered) (fun s hs ↦ ⟨rfl, hs⟩) h
  | cons t ts ih =>
    rw [List.length_cons] at hguard
    refine wp_bind ((wp_writeRing hbuf (hts t List.mem_cons_self)
      (fun s hs ↦ hguard t s (by rw [hs]; omega)) h).mono ?_)
    rintro ring s' ⟨rfl, hs'⟩
    have hlen : L.length + 1 = (L ++ [t]).length := by simp
    rw [hlen, show L ++ t :: ts = L ++ [t] ++ ts by simp]
    refine ih (fun x hx ↦ hts x (List.mem_cons_of_mem _ hx)) (fun x s hlt ↦ hguard x s ?_) hs'
    rw [← hlen] at hlt
    omega

end Calls

end VimOS
