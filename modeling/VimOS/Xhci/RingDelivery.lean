import VimOS.Xhci.WriteRing

/-!
# Delivery through a TRB ring

A consumer gets what was passed to `write_ring`, in order and once, in every run in which no call is
begun without room (`consumer_gets_passed`). Room is 255 TRBs, and one less while the Link TRB is
still to be followed: with 255 behind it, the call that fills the lap has rewritten it for the next,
and the consumer stands before it for ever (`consumer_stuck`).
-/

namespace VimOS

open Machine PhaseRing GuardedRun

/-- The runs in which every call is begun with room. -/
def RoomFor : RingState → Act RingOp Consume → Prop
  | s, .own (.call _) => s.Room
  | _, _ => True

/-- The runs in which no more than 255 TRBs are passed and not consumed. -/
def AtMost255 : RingState → Act RingOp Consume → Prop
  | s, .own (.call _) => s.outstanding + 1 ≤ 255
  | _, _ => True

section Delivery

variable {buf : Addr} {mem : PhysMem} {ts : List Trb} {s : RingState} {p : RingProg Ring}

/-- A ring set up by `new_ring`. -/
theorem quiet_start (buf : Addr) (mem : PhysMem) : Quiet (v2p buf) [] (.start buf mem) := by
  refine ⟨rfl, rfl, 0, ⟨Holds.start fun j hj ↦ ?_, le_rfl, by simp [RingState.start], ?_, rfl, rfl,
    rfl, rfl⟩⟩
  · simp only [RingState.start]
    rw [slotTrb_newRing hj]
    rfl
  · simp [RingState.start]

/-- **Delivery**, in every state of every run in which each call is begun with room. -/
theorem consumer_gets_passed (hbuf : buf.toNat % 4096 = 0)
    (hts : ∀ t ∈ ts, t.c = false ∧ t.type ≠ 6)
    (hrun : ringMachine.Runs RoomFor (writeAll (newRing buf mem).2 ts, .start buf mem) (p, s)) :
    Delivered s ∧ ∀ ring, p = .ret ring → s.passed = ts ∧ s.returned = ts.length := by
  have hwp : ringMachine.wp (ringContract (v2p buf) RoomFor) (writeAll (newRing buf mem).2 ts)
      (fun _ s ↦ Quiet (v2p buf) ts s) (.start buf mem) :=
    (wp_writeAll hbuf hts (fun _ _ _ h ↦ h) (quiet_start buf mem)).mono fun _ _ h ↦ h.2
  have hend := hwp.run hrun
  refine ⟨hend.inv, ?_⟩
  rintro ring rfl
  have hquiet := hend.post
  exact ⟨hquiet.passed_eq, hquiet.returned_eq⟩

end Delivery

/-! ## Runs of the driver alone -/

/-- The consumer's part of the state. -/
def RingState.consumer (s : RingState) : Addr × Bool × List Trb × ℕ :=
  (s.deq, s.ccs, s.consumed, s.followed)

@[simp] theorem consumer_effect (s : RingState) (e : RingOp) :
    (e.effect s).consumer = s.consumer := by
  cases e <;> rfl

@[simp] theorem consumer_mem (s : RingState) (mem : PhysMem) :
    ({ s with mem := mem } : RingState).consumer = s.consumer := by
  rw [RingState.consumer, RingState.consumer]

section Alone

variable {t : Trb} {s : RingState} {guard : RingState → Act RingOp Consume → Prop}

/-- The guard restricts only when a call may begin. -/
def OnlyCalls (guard : RingState → Act RingOp Consume → Prop) : Prop :=
  ∀ s e, (∀ t, e ≠ .call t) → guard s (.own e)

theorem mayReturn_writeRingStatic (hguard : OnlyCalls guard) (buf : Addr) (index : ℕ)
    (cycleBit : Bool) :
    ringMachine.mayReturn guard (writeRingStatic buf index t cycleBit)
      (fun _ s' ↦ ∃ mem : PhysMem, s' = RingOp.effect { s with mem := mem }
        (.store (buf + BitVec.ofNat 64 (16 * index) + 12) (t.withCycle cycleBit).w3)) s := by
  rw [writeRingStatic_eq]
  refine ⟨hguard _ _ (by simp), (), _, rfl, ?_⟩
  refine ⟨hguard _ _ (by simp), (), _, rfl, ?_⟩
  refine ⟨hguard _ _ (by simp), (), _, rfl, ?_⟩
  exact ⟨hguard _ _ (by simp), (), _, rfl, _, rfl⟩

theorem mayReturn_writeRing (ring : Ring) (hguard : OnlyCalls guard)
    (hcall : guard s (.own (.call t))) :
    ringMachine.mayReturn guard (writeRing ring t)
      (fun _ s' ↦ s'.passed = s.passed ++ [t] ∧
        s'.returned = s.returned + 1 ∧ s'.consumer = s.consumer ∧
        (ring.ringIndex + 1 = ring.ringSize - 1 → s'.mem
          (v2p (ring.buf + BitVec.ofNat 64 (16 * (ring.ringIndex + 1)) + 12)) =
            ((linkTrb (v2p ring.buf)).withCycle ring.cycleBit).w3)) s := by
  rw [writeRing_eq]
  refine ⟨hcall, (), _, rfl, mayReturn_bind ?_⟩
  refine (mayReturn_writeRingStatic hguard _ _ _).mono ?_
  rintro _ _ ⟨mem, rfl⟩
  by_cases hlast : ring.ringIndex + 1 = ring.ringSize - 1
  · rw [if_pos hlast]
    refine mayReturn_bind ((mayReturn_writeRingStatic hguard _ _ _).mono ?_)
    rintro _ _ ⟨mem', rfl⟩
    refine ⟨hguard _ _ (by simp), (), _, rfl, rfl, rfl, ?_, fun _ ↦ ?_⟩
    · simp only [consumer_effect, consumer_mem]
    · simp only [RingOp.effect, Function.update_self]
  · rw [if_neg hlast]
    refine ⟨hguard _ _ (by simp), (), _, rfl, rfl, rfl, ?_, fun h ↦ absurd h hlast⟩
    simp only [consumer_effect, consumer_mem]

/-- A call under another reading of the ring, one in which only its beginning has an effect. -/
theorem mayReturn_writeRing_only {σ ι : Type} {M : Machine RingOp RingOp.Answer σ ι}
    {guard : σ → Act RingOp ι → Prop} (hguard : ∀ s e, e ≠ .getEvent → guard s (.own e)) (f : σ → σ)
    (hcall : ∀ t s, M.exec (.call t) s () (f s)) (hstore : ∀ a v s, M.exec (.store a v) s () s)
    (hreturned : ∀ s, M.exec .returned s () s) (ring : Ring) (t : Trb) (s : σ) :
    M.mayReturn guard (writeRing ring t) (fun _ s' ↦ s' = f s) s := by
  have hstatic : ∀ (index : ℕ) (data : Trb) (c : Bool), M.mayReturn guard
      (writeRingStatic ring.buf index data c) (fun _ s' ↦ s' = f s) (f s) := fun _ _ _ ↦
    ⟨hguard _ _ nofun, (), _, hstore _ _ _, hguard _ _ nofun, (), _, hstore _ _ _,
      hguard _ _ nofun, (), _, hstore _ _ _, hguard _ _ nofun, (), _, hstore _ _ _, rfl⟩
  rw [writeRing_eq]
  refine ⟨hguard _ _ nofun, (), _, hcall t s, mayReturn_bind ((hstatic _ _ _).mono ?_)⟩
  rintro _ _ rfl
  refine mayReturn_ite (fun _ ↦ ?_) fun _ ↦ ⟨hguard _ _ nofun, (), _, hreturned _, rfl⟩
  refine mayReturn_bind ((hstatic _ _ _).mono ?_)
  rintro _ _ rfl
  exact ⟨hguard _ _ nofun, (), _, hreturned _, rfl⟩

theorem onlyCalls_roomFor : OnlyCalls RoomFor := by
  intro s e he
  cases e with
  | call t => exact absurd rfl (he t)
  | _ => trivial

theorem onlyCalls_atMost255 : OnlyCalls AtMost255 := by
  intro s e he
  cases e with
  | call t => exact absurd rfl (he t)
  | _ => trivial

/-- There is room for a lap from the start. -/
theorem room_of_consumed_nil (hconsumed : s.consumed = []) (hpassed : s.passed.length < 255) :
    s.Room := by
  refine ⟨?_, fun hlink ↦ ?_⟩
  · rw [RingState.outstanding, hconsumed, List.length_nil]
    omega
  · rw [RingState.AtLink, hconsumed] at hlink
    exact absurd hlink (Nat.not_lt_zero _)

/-- Calls with room, the consumer doing nothing. -/
theorem mayReturn_writeAll {buf : Addr} {L : List Trb} (ts : List Trb)
    (hbuf : buf.toNat % 4096 = 0) (hts : ∀ t ∈ ts, t.c = false ∧ t.type ≠ 6)
    (h : Quiet (v2p buf) L s)
    (hroom : ∀ s' : RingState, s'.consumer = s.consumer →
      s'.passed.length < L.length + ts.length → s'.Room) :
    ringMachine.mayReturn RoomFor (writeAll (ringAfter buf L.length) ts)
      (fun ring s' ↦ ring = ringAfter buf (L ++ ts).length ∧ Quiet (v2p buf) (L ++ ts) s' ∧
        s'.consumer = s.consumer) s := by
  induction ts generalizing L s with
  | nil =>
    rw [List.append_nil]
    exact ⟨rfl, h, rfl⟩
  | cons t ts ih =>
    have hcall : RoomFor s (.own (.call t)) := hroom s rfl (by rw [h.passed_eq]; simp)
    have hmay := mayReturn.and_wp (C := ringContract (v2p buf) RoomFor)
      (mayReturn_writeRing (ringAfter buf L.length) onlyCalls_roomFor hcall)
      (wp_writeRing hbuf (hts t List.mem_cons_self) (fun _ _ h ↦ h) h)
    refine mayReturn_bind (hmay.mono ?_)
    rintro _ s₁ ⟨⟨-, -, hconsumer, -⟩, rfl, hquiet⟩
    have hlen : L.length + 1 = (L ++ [t]).length := by simp
    rw [hlen, show L ++ t :: ts = L ++ [t] ++ ts by simp, ← hconsumer]
    refine ih (fun x hx ↦ hts x (List.mem_cons_of_mem _ hx)) hquiet fun s' hs' hlt ↦
      hroom s' (hs'.trans hconsumer) ?_
    rw [List.length_append, List.length_singleton] at hlt
    rw [List.length_cons]
    omega

theorem writeAll_append (ring : Ring) (ts us : List Trb) :
    writeAll ring (ts ++ us) = writeAll ring ts >>= fun ring ↦ writeAll ring us := by
  induction ts generalizing ring with
  | nil => rfl
  | cons t ts ih =>
    rw [List.cons_append, writeAll, writeAll, Prog.bind_assoc]
    exact congrArg _ (funext ih)

theorem exists_writeAll {buf : Addr} {L : List Trb} (ts us : List Trb)
    (hbuf : buf.toNat % 4096 = 0) (hts : ∀ t ∈ ts, t.c = false ∧ t.type ≠ 6)
    (h : Quiet (v2p buf) L s)
    (hroom : ∀ s' : RingState, s'.consumer = s.consumer →
      s'.passed.length < L.length + ts.length → s'.Room) :
    ∃ s', ringMachine.Runs RoomFor (writeAll (ringAfter buf L.length) (ts ++ us), s)
        (writeAll (ringAfter buf (L ++ ts).length) us, s') ∧
      Quiet (v2p buf) (L ++ ts) s' ∧ s'.consumer = s.consumer := by
  obtain ⟨_, s', hrun, rfl, hquiet⟩ :=
    (mayReturn_writeAll ts hbuf hts h hroom).exists_run fun ring ↦ writeAll ring us
  rw [writeAll_append]
  exact ⟨s', hrun, hquiet⟩

/-- Takes, as many as there are TRBs before the Link TRB. -/
theorem exists_takes {base : Addr} {R W : ℕ} (h : RingInv base s R W) (k : ℕ)
    (hk : R % 256 + k ≤ 255) (hW : R + k ≤ W) :
    ∃ s', ringMachine.Others RoomFor s s' ∧ RingInv base s' (R + k) W ∧
      s'.passed = s.passed ∧ s'.returned = s.returned := by
  induction k with
  | zero => exact ⟨s, .refl _, h, rfl, rfl⟩
  | succ k ih =>
    obtain ⟨s₁, hs₁, hinv, hpassed, hreturned⟩ := ih (by omega) (by omega)
    have hready : s₁.Ready := hinv.ready_iff.mpr (by omega)
    have htype : (readTrb s₁.mem s₁.deq).type ≠ 6 := by
      rw [Ne, hinv.type_iff (by omega)]
      omega
    have hstep : ringMachine.env s₁ .take s₁.take := ⟨hready, htype, rfl⟩
    exact ⟨_, hs₁.tail trivial hstep, hinv.take hready htype, hpassed, hreturned⟩

end Alone

/-! ## A run with room, and one without -/

theorem normalTrb_data (n : ℕ) :
    ∀ t ∈ List.replicate n (initNormalTrb 0), t.c = false ∧ t.type ≠ 6 := by
  intro t ht
  rw [List.eq_of_mem_replicate ht]
  decide

/-- The first lap, of which nothing has been read. -/
theorem exists_lap_written {n : ℕ} (hn : n ≤ 255) (us : List Trb) :
    ∃ s, ringMachine.Runs RoomFor (writeAll (newRing ringPage fun _ ↦ 0).2
        (List.replicate n (initNormalTrb 0) ++ us), .start ringPage fun _ ↦ 0)
        (writeAll (ringAfter ringPage n) us, s) ∧
      Quiet (v2p ringPage) (List.replicate n (initNormalTrb 0)) s ∧
      RingInv (v2p ringPage) s 0 (n + n / 255) := by
  obtain ⟨s, hrun, hquiet, hcons⟩ := exists_writeAll (List.replicate n (initNormalTrb 0)) us
    (by decide) (normalTrb_data n) (quiet_start ringPage fun _ ↦ 0) (by
      intro s' hs' hlt
      rw [List.length_replicate, List.length_nil, Nat.zero_add] at hlt
      exact room_of_consumed_nil (congrArg (·.2.2.1) hs') (by omega))
  rw [List.nil_append] at hrun hquiet
  obtain ⟨R, hinv⟩ := hquiet.inv
  have hlen := hinv.consumed_length
  rw [show s.consumed = [] from congrArg (·.2.2.1) hcons, List.length_nil] at hlen
  obtain rfl : R = 0 := by omega
  rw [List.length_replicate] at hrun hinv
  exact ⟨s, hrun, hquiet, hinv⟩

theorem consumer_gets_passed_three : ∃ ring s,
    ringMachine.Runs RoomFor (writeAll (newRing ringPage fun _ ↦ 0).2
      (List.replicate 3 (initNormalTrb 0)), .start ringPage fun _ ↦ 0) (.ret ring, s) ∧
    s.consumed.length = 2 ∧ Delivered s ∧ s.passed = List.replicate 3 (initNormalTrb 0) := by
  obtain ⟨s₁, hrun₁, -, hinv₁⟩ := exists_lap_written (n := 3) (by decide) []
  obtain ⟨s₂, hothers, hinv₂, -, -⟩ := exists_takes hinv₁ 2 (by decide) (by decide)
  rw [List.append_nil] at hrun₁
  have hrun := hrun₁.trans (runs_of_others hothers)
  have hdelivered := consumer_gets_passed (by decide) (normalTrb_data 3) hrun
  exact ⟨_, s₂, hrun, hinv₂.consumed_length, hdelivered.1, (hdelivered.2 _ rfl).1⟩

theorem roomFor_le (s : RingState) (i : Act RingOp Consume) (h : RoomFor s i) :
    AtMost255 s i := by
  rcases i with e | i
  · cases e with
    | call t => exact Nat.succ_le_succ h.1
    | _ => trivial
  · trivial

/-- One lap is written and read, and then the next is written before the consumer has followed the
Link TRB: it sees an empty ring, and 255 TRBs are in it. -/
theorem consumer_stuck : ∃ ring s,
    ringMachine.Runs AtMost255 (writeAll (newRing ringPage fun _ ↦ 0).2
      (List.replicate 255 (initNormalTrb 0) ++
        (List.replicate 254 (initNormalTrb 0) ++ [initNormalTrb 0])),
      .start ringPage fun _ ↦ 0) (.ret ring, s) ∧
    s.peek = none ∧ s.consumed.length = 255 ∧ s.returned = 510 := by
  have hbuf : ringPage.toNat % 4096 = 0 := by decide
  obtain ⟨s₁, hrun₁, hquiet₁, hinv₁⟩ := exists_lap_written (n := 255) le_rfl
    (List.replicate 254 (initNormalTrb 0) ++ [initNormalTrb 0])
  -- read up to the Link TRB
  obtain ⟨s₂, hothers, hinv₂, hpassed₂, hreturned₂⟩ := exists_takes hinv₁ 255 (by decide)
    (by decide)
  have hlen₂ : s₂.consumed.length = 255 := hinv₂.consumed_length
  have hquiet₂ : Quiet (v2p ringPage) (List.replicate 255 (initNormalTrb 0)) s₂ := by
    refine ⟨hpassed₂.trans hquiet₁.passed_eq, hreturned₂.trans hquiet₁.returned_eq, 255, ?_⟩
    rw [List.length_replicate]
    exact hinv₂
  -- the second lap but for one TRB
  have hsame : ∀ s' : RingState, s'.consumer = s₂.consumer → s'.consumed.length = 255 := by
    intro s' hs'
    rw [show s'.consumed = s₂.consumed from congrArg (·.2.2.1) hs', hlen₂]
  obtain ⟨s₃, hrun₃, hquiet₃, hcons₃⟩ := exists_writeAll
    (List.replicate 254 (initNormalTrb 0)) [initNormalTrb 0] hbuf (normalTrb_data 254) hquiet₂ (by
      intro s' hs' hlt
      rw [List.length_replicate, List.length_replicate] at hlt
      refine ⟨?_, fun _ ↦ ?_⟩
      all_goals
        rw [RingState.outstanding, hsame s' hs']
        omega)
  have hlen₃ := hsame s₃ hcons₃
  have hpassed₃ : s₃.passed.length = 509 := by
    rw [hquiet₃.passed_eq, List.length_append, List.length_replicate, List.length_replicate]
  have hreturned₃ : s₃.returned = 509 := by
    rw [hquiet₃.returned_eq, ← hquiet₃.passed_eq, hpassed₃]
  rw [← hquiet₃.passed_eq, hpassed₃, List.length_replicate] at hrun₃
  -- the last call rewrites the Link TRB the consumer stands at
  have hcall : AtMost255 s₃ (.own (.call (initNormalTrb 0))) := by
    rw [AtMost255, RingState.outstanding, hpassed₃, hlen₃]
  obtain ⟨ring, s₄, hrun₄, -, hreturned₄, hcons₄, hlink⟩ :=
    (mayReturn_writeRing (ringAfter ringPage 509) onlyCalls_atMost255 hcall).exists_run
      fun ring ↦ writeAll ring []
  have hdeq₄ : s₄.deq = v2p ringPage + BitVec.ofNat 64 (16 * 255) := by
    rw [show s₄.deq = s₂.deq from congrArg (·.1) (hcons₄.trans hcons₃), hinv₂.deq_eq]
  have hccs₄ : s₄.ccs = true := by
    rw [show s₄.ccs = s₂.ccs from congrArg (·.2.1) (hcons₄.trans hcons₃), hinv₂.ccs_eq]
    decide
  have hnot : ¬s₄.Ready := by
    have hw3 := hlink rfl
    have haddr : v2p (ringPage + BitVec.ofNat 64 (16 * 255) + 12) = s₄.deq + 12 := by
      rw [v2p_slot hbuf (by decide) (by decide), hdeq₄]
    have hmem : s₄.mem (s₄.deq + 12) = ((linkTrb (v2p ringPage)).withCycle false).w3 := by
      rw [← haddr]
      exact hw3
    rw [RingState.Ready, hccs₄, Trb.c, readTrb]
    simp only [hmem]
    have hc := Trb.c_withCycle (c := false) (linkTrb_c (v2p ringPage))
    rw [Trb.c] at hc
    rw [hc]
    decide
  have hmono := fun (c : RingProg Ring × RingState) i ↦ roomFor_le c.2 i
  have hrun := ((hrun₁.mono hmono).trans ((runs_of_others hothers).mono hmono)).trans
    (hrun₃.mono hmono)
  refine ⟨ring, s₄, hrun.trans hrun₄, if_neg hnot, hsame s₄ (hcons₄.trans hcons₃), ?_⟩
  rw [hreturned₄, hreturned₃]

end VimOS
