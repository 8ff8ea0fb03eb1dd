import VimOS.Library.Fifo
import VimOS.Xhci.EventInv

/-!
# Delivery through the event ring

`get_eventring` returns a pointer to the slot of the next event and moves ERDP on before it does, so
the slot is free for the controller while the caller reads it. The caller finds the events of the
controller's stream in order and once each if the controller leaves one slot free, as it must to
tell a full ring from an empty one, and `er_isQueued` says whether there is one that was not
returned (`events_in_order`). A controller that fills the last slot as well writes a new event
over the one that was returned (`not_events_in_order`).
-/

namespace VimOS

open Machine PhaseRing

/-- The first `n` events, their cycle bits cleared. -/
def eventsUpTo (stream : ℕ → Trb) (n : ℕ) : List Trb :=
  (List.range n).map fun i ↦ (stream i).clearCycle

/-- The TRBs that `get_eventring` has returned are the first events of the stream. -/
structure EventsDelivered (stream : ℕ → Trb) (s : EventState) : Prop where
  returned_eq : s.returned.map Trb.clearCycle = eventsUpTo stream s.returned.length
  returned_le : s.returned.length ≤ s.written

/-- `get_eventring` has returned `n` times, and with a free slot each time the next event. -/
structure Account (stream : ℕ → Trb) (spare n : ℕ) (s : EventState) : Prop where
  returned_length : s.returned.length = n
  returned_eq : 1 ≤ spare → s.returned.map Trb.clearCycle = eventsUpTo stream n

/-- With a free slot, the TRBs returned are the first events of the stream. -/
def EventsInOrder (stream : ℕ → Trb) (spare : ℕ) (s : EventState) : Prop :=
  1 ≤ spare → EventsDelivered stream s

/-- The controller leaves `spare` slots free. -/
def LeavesFree (spare : ℕ) : EventState → Act EventOp Unit → Prop
  | s, .env _ => spare < s.free
  | _, .own _ => True

/-- What is asked of the driver. -/
def eventContract (stream : ℕ → Trb) (spare : ℕ) : Contract EventOp Unit EventState where
  guard := LeavesFree spare
  inv := EventsInOrder stream spare
  pre
    | .answered queued, s => queued = s.waiting
    | _, _ => True

/-! ## Assertions -/

/-- ERDP has been moved on `d` times and `get_eventring` has returned `n` times; `F` adds to it. -/
structure Stage (base : Addr) (stream : ℕ → Trb) (spare d n : ℕ) (F : EventState → Prop)
    (s : EventState) : Prop where
  inv : EventInv base stream d s
  account : Account stream spare n s
  le : n ≤ d
  extra : F s

section Stage

variable {base buf : Addr} {stream : ℕ → Trb} {spare d n : ℕ} {s : EventState}
variable {F G : EventState → Prop}

theorem Stage.inOrder (h : Stage base stream spare d n F s) : EventsInOrder stream spare s := by
  intro hone
  refine ⟨?_, ?_⟩
  · rw [h.account.returned_length]
    exact h.account.returned_eq hone
  · rw [h.account.returned_length]
    exact h.le.trans h.inv.holds.read_le

theorem Stage.mono (h : Stage base stream spare d n F s) (hFG : F s → G s) :
    Stage base stream spare d n G s := ⟨h.inv, h.account, h.le, hFG h.extra⟩

theorem Account.post (h : Account stream spare n s) : Account stream spare n (s.post stream) := by
  refine ⟨?_, ?_⟩
  · rw [post_returned]
    exact h.returned_length
  · rw [post_returned]
    exact h.returned_eq

/-- `F` is not about what the controller changes. -/
def Steady (base : Addr) (stream : ℕ → Trb) (spare d : ℕ) (F : EventState → Prop) : Prop :=
  ∀ s, EventInv base stream d s → spare < s.free → F s → F (s.post stream)

theorem stable_stage (hF : Steady base stream spare d F) :
    Stable (eventMachine stream) (LeavesFree spare) (Stage base stream spare d n F) := by
  rintro s i s' ⟨hinv, haccount, hle, hextra⟩ hspare ⟨hfree, rfl⟩
  exact ⟨hinv.post hfree, haccount.post, hle, hF s hinv hspare hextra⟩

/-- The driver has looked at the ring, and found an event or none. -/
def Looked (d : ℕ) (queued : Bool) (s : EventState) : Prop :=
  s.waiting = queued ∧ (queued = true → d < s.written)

/-- The driver has moved ERDP over the event it has seen, and not yet returned it. -/
def Taken (base : Addr) (stream : ℕ → Trb) (spare d : ℕ) (s : EventState) : Prop :=
  1 ≤ spare → (slotTrb base s.mem (d % 256)).clearCycle = (stream d).clearCycle

theorem steady_true : Steady base stream spare d fun _ ↦ True := fun _ _ _ _ ↦ trivial

theorem steady_looked (queued : Bool) : Steady base stream spare d (Looked d queued) := by
  rintro s - - ⟨hwaiting, hqueued⟩
  exact ⟨post_waiting.trans hwaiting, fun hq ↦ (hqueued hq).trans_le written_le_post⟩

/-- With a slot left free, the slot behind ERDP is not written. -/
theorem steady_taken : Steady base stream spare (d + 1) (Taken base stream spare d) := by
  intro s hinv hspare hslot hone
  have hread := hinv.holds.read_le
  have hfree := hinv.free_eq
  have hne : d % 256 ≠ s.written % 256 := Holds.mod_ne le_rfl hread (by omega)
  rw [hinv.slotTrb_post (Nat.mod_lt d (by decide)) hne]
  exact hslot hone

end Stage

/-! ## The driver's functions -/

section Driver

variable {base : Addr} {stream : ℕ → Trb} {spare d n : ℕ} {s : EventState} {ring : Ring}
variable {F : EventState → Prop} {α : Type} {Q : α → EventState → Prop}

/-- `event_ring`, ERDP having been moved on `d` times. -/
def eventRingAfter (base : Addr) (d : ℕ) : Ring := ⟨p2v base, phase 256 d, 4096 / 16, 0⟩

theorem wp_getTRB {f : Addr → EventProg α} (hF : Steady base stream spare d F)
    (hf : ∀ s, Stage base stream spare d n F s →
      (eventMachine stream).wp (eventContract stream spare) (f (p2v (slotAddr base d))) Q s)
    (h : Stage base stream spare d n F s) :
    (eventMachine stream).wp (eventContract stream spare) (getTRB >>= f) Q s := by
  refine wp_op (stable_stage hF) (fun s hs ↦ hs.inOrder) ?_ h
  intro s₁ h₁ _
  refine ⟨trivial, ?_⟩
  rintro (lo : Word) s₁' ⟨hlo, hs₁'⟩
  rw [hs₁']
  -- the lower half is still there when the upper half is read
  have hF' : Steady base stream spare d fun s ↦ F s ∧ maskFlags lo = maskFlags s.erdpLo := by
    rintro s hinv hspare ⟨hs, hmask⟩
    exact ⟨hF s hinv hspare hs, by rwa [post_erdpLo]⟩
  refine wp_op (stable_stage hF') (fun s hs ↦ hs.inOrder) ?_ (h₁.mono fun hs ↦ ⟨hs, hlo⟩)
  intro s₂ h₂ _
  refine ⟨trivial, ?_⟩
  rintro (hi : Word) s₂' ⟨hhi, hs₂'⟩
  rw [hs₂', hhi]
  have hmask : maskFlags lo = maskFlags s₂.erdpLo := h₂.extra.2
  have hpointer : (lo.setWidth 64 ||| s₂.erdpHi.setWidth 64 <<< 32) &&& ~~~0x0f#64 =
      slotAddr base d := by
    rw [or_shiftLeft_eq_append, append_mask, hmask, ← EventState.erdp_eq_append, h₂.inv.erdp_eq]
  have hres := hf s₂ (h₂.mono And.left)
  rw [← hpointer] at hres
  exact hres

theorem slotAddr_lt (hbase : base.toNat % 4096 = 0) (hlt : base.toNat < 2 ^ 64 - pageOffset.toNat)
    (n : ℕ) : (slotAddr base n).toNat < 2 ^ 64 - pageOffset.toNat := by
  have hpage := (slotAddr_page hbase n).1
  have hoffset : pageOffset.toNat = 0xffff806000000000 := rfl
  omega

/-- **`er_isQueued`** finds an event exactly if one is written and not returned. -/
theorem wp_erIsQueued {f : Bool → EventProg α} (hbase : base.toNat % 4096 = 0)
    (hlt : base.toNat < 2 ^ 64 - pageOffset.toNat)
    (hf : ∀ queued s, Stage base stream spare d d (Looked d queued) s →
      (eventMachine stream).wp (eventContract stream spare) (f queued) Q s)
    (h : Stage base stream spare d d (fun _ ↦ True) s) :
    (eventMachine stream).wp (eventContract stream spare)
      (erIsQueued (eventRingAfter base d) >>= f) Q s := by
  refine wp_getTRB steady_true (f := fun trb ↦ .op (.loadCycle trb) fun (c : Bool) ↦
    f (c == (eventRingAfter base d).cycleBit)) (fun s₁ h₁ ↦ ?_) h
  refine wp_op (stable_stage steady_true) (fun s hs ↦ hs.inOrder) ?_ h₁
  intro s₂ h₂ _
  refine ⟨trivial, ?_⟩
  rintro (c : Bool) s₃ ⟨hc, hs₃⟩
  have hread : readTrb s₂.mem (v2p (p2v (slotAddr base d))) = slotTrb base s₂.mem (d % 256) := by
    rw [v2p_p2v (slotAddr_lt hbase hlt d)]
    rfl
  have hqueued : (c == (eventRingAfter base d).cycleBit) = decide (d < s₂.written) := by
    rw [hc, hread, eventRingAfter, Bool.beq_eq_decide_eq]
    exact decide_eq_decide.mpr (h₂.inv.holds.ready_iff (by decide))
  rw [hqueued]
  refine hf _ s₃ ?_
  rw [hs₃]
  refine ⟨h₂.inv.account _ _, ⟨h₂.account.returned_length, h₂.account.returned_eq⟩, le_rfl, ?_,
    of_decide_eq_true⟩
  simp only [h₂.account.returned_length]

theorem wp_waitQueued {f : Bool → EventProg α} (hbase : base.toNat % 4096 = 0)
    (hlt : base.toNat < 2 ^ 64 - pageOffset.toNat) (rounds : ℕ)
    (htrue : ∀ s, Stage base stream spare d d (Looked d true) s →
      (eventMachine stream).wp (eventContract stream spare) (f true) Q s)
    (hfalse : ∀ s, Stage base stream spare d d (fun _ ↦ True) s →
      (eventMachine stream).wp (eventContract stream spare) (f false) Q s)
    (h : Stage base stream spare d d (fun _ ↦ True) s) :
    (eventMachine stream).wp (eventContract stream spare)
      (waitQueued rounds (eventRingAfter base d) >>= f) Q s := by
  induction rounds generalizing s with
  | zero => exact hfalse s h
  | succ rounds ih =>
    refine wp_erIsQueued hbase hlt (f := fun queued ↦ (if queued then pure true
      else waitQueued rounds (eventRingAfter base d)) >>= f) (fun queued s₁ h₁ ↦ ?_) h
    cases queued with
    | true => exact htrue s₁ h₁
    | false => exact ih (h₁.mono fun _ ↦ trivial)

/-- The two writes to ERDP take the event the driver has seen. -/
theorem wp_writeErdp {f : Unit → EventProg α} {a : Addr} (hbase : base.toNat % 4096 = 0)
    (ha : a = slotAddr base (d + 1))
    (hf : ∀ s, Stage base stream spare (d + 1) d (Taken base stream spare d) s →
      (eventMachine stream).wp (eventContract stream spare) (f ()) Q s)
    (h : Stage base stream spare d d (Looked d true) s) :
    (eventMachine stream).wp (eventContract stream spare)
      (.op (.writeErdpLo ((a >>> 0 ||| 0x08#64).setWidth 32)) fun _ ↦
        .op (.writeErdpHi ((a >>> 32).setWidth 32)) f) Q s := by
  subst ha
  refine wp_op (stable_stage (steady_looked true)) (fun s hs ↦ hs.inOrder) ?_ h
  intro s₁ h₁ _
  refine ⟨trivial, ?_⟩
  rintro _ s₁' hs₁'
  have hwritten := h₁.extra.2 rfl
  have htaken : Stage base stream spare (d + 1) d (Taken base stream spare d) s₁' := by
    rw [hs₁']
    exact ⟨h₁.inv.setErdp (h₁.inv.pointer_eq hbase _) (Nat.le_succ d) le_rfl hwritten,
      ⟨h₁.account.returned_length, h₁.account.returned_eq⟩, Nat.le_succ d,
      fun _ ↦ h₁.inv.holds.payload_eq d le_rfl hwritten⟩
  refine wp_op (stable_stage steady_taken) (fun s hs ↦ hs.inOrder) ?_ htaken
  intro s₂ h₂ _
  refine ⟨trivial, ?_⟩
  rintro _ s₂' hs₂'
  have hpointer : (slotAddr base (d + 1) >>> 32).setWidth 32 ++ maskFlags s₂.erdpLo =
      slotAddr base (d + 1) := by
    rw [← h₂.inv.erdpHi_eq hbase, ← EventState.erdp_eq_append, h₂.inv.erdp_eq]
  refine hf s₂' ?_
  rw [hs₂']
  exact ⟨h₂.inv.setErdp hpointer le_rfl (Nat.le_succ _) h₂.inv.holds.read_le,
    ⟨h₂.account.returned_length, h₂.account.returned_eq⟩, Nat.le_succ d, h₂.extra⟩

theorem writeEventRing_bind (ring : Ring) (f : Ring → EventProg α) :
    writeEventRing ring >>= f = getTRB >>= fun trb ↦
      if trb + 16 = ring.buf + 4096 then
        .op (.writeErdpLo ((v2p ring.buf >>> 0 ||| 0x08#64).setWidth 32)) fun _ ↦
          .op (.writeErdpHi ((v2p ring.buf >>> 32).setWidth 32)) fun _ ↦
            f { ring with cycleBit := !ring.cycleBit }
      else
        .op (.writeErdpLo ((v2p (trb + 16) >>> 0 ||| 0x08#64).setWidth 32)) fun _ ↦
          .op (.writeErdpHi ((v2p (trb + 16) >>> 32).setWidth 32)) fun _ ↦ f ring := by
  refine congrArg (Prog.op EventOp.readErdpLo) (funext fun lo ↦ ?_)
  refine congrArg (Prog.op EventOp.readErdpHi) (funext fun hi ↦ ?_)
  exact apply_ite (fun p : EventProg Ring ↦ p >>= f) _ _ _

/-- The slot behind the one ERDP points to; behind the last one it is the first. -/
theorem next_slot (hbase : base.toNat % 4096 = 0) (hlt : base.toNat < 2 ^ 64 - pageOffset.toNat)
    (d : ℕ) :
    if p2v (slotAddr base d) + 16 = p2v base + 4096 then
      d % 256 + 1 = 256 ∧ v2p (p2v base) = slotAddr base (d + 1)
    else d % 256 + 1 ≠ 256 ∧ v2p (p2v (slotAddr base d) + 16) = slotAddr base (d + 1) := by
  have hd : d % 256 < 256 := Nat.mod_lt d (by decide)
  have hiff : p2v (slotAddr base d) + 16 = p2v base + 4096 ↔ d % 256 + 1 = 256 := by
    rw [p2v, p2v, slotAddr]
    generalize d % 256 = j at hd
    bv_omega
  simp only [hiff]
  split_ifs with hwrap
  · refine ⟨hwrap, ?_⟩
    rw [v2p_p2v hlt, slotAddr, show (d + 1) % 256 = 0 by omega]
    simp
  · refine ⟨hwrap, ?_⟩
    have hslot : slotAddr base (d + 1) = slotAddr base d + 16 := by
      rw [slotAddr, slotAddr, show (d + 1) % 256 = d % 256 + 1 by omega]
      bv_omega
    have hp2v : p2v (slotAddr base d) + 16 = p2v (slotAddr base (d + 1)) := by
      rw [hslot, p2v, p2v, BitVec.add_assoc]
    rw [hp2v, v2p_p2v (slotAddr_lt hbase hlt _)]

/-- **`write_event_ring`** takes the event the driver has seen. -/
theorem wp_writeEventRing {f : Ring → EventProg α} (hbase : base.toNat % 4096 = 0)
    (hlt : base.toNat < 2 ^ 64 - pageOffset.toNat)
    (hf : ∀ s, Stage base stream spare (d + 1) d (Taken base stream spare d) s →
      (eventMachine stream).wp (eventContract stream spare) (f (eventRingAfter base (d + 1))) Q s)
    (h : Stage base stream spare d d (Looked d true) s) :
    (eventMachine stream).wp (eventContract stream spare)
      (writeEventRing (eventRingAfter base d) >>= f) Q s := by
  rw [writeEventRing_bind]
  refine wp_getTRB (steady_looked true) (fun s₁ h₁ ↦ ?_) h
  have hnext := next_slot hbase hlt d
  have hcycle := phase_succ (N := 256) (by decide) d
  refine wp_ite (fun hwrap ↦ ?_) fun hwrap ↦ ?_
  · obtain ⟨hlast, hslot⟩ := (if_pos hwrap).mp hnext
    rw [if_pos hlast] at hcycle
    refine wp_writeErdp hbase hslot (fun s₂ h₂ ↦ ?_) h₁
    have hres := hf s₂ h₂
    rw [eventRingAfter, hcycle] at hres
    exact hres
  · obtain ⟨hlast, hslot⟩ := (if_neg hwrap).mp hnext
    rw [if_neg hlast] at hcycle
    refine wp_writeErdp hbase hslot (fun s₂ h₂ ↦ ?_) h₁
    have hres := hf s₂ h₂
    rw [eventRingAfter, hcycle] at hres
    exact hres

/-- `get_eventring` has returned the next event, or has been cut off. -/
def Fetched (base : Addr) (stream : ℕ → Trb) (spare d : ℕ) :
    Option (Ring × Addr) → EventState → Prop
  | some (ring, _), s =>
    ring = eventRingAfter base (d + 1) ∧ Stage base stream spare (d + 1) (d + 1) (fun _ ↦ True) s
  | none, s => Stage base stream spare d d (fun _ ↦ True) s

theorem eventsUpTo_succ (n : ℕ) :
    eventsUpTo stream (n + 1) = eventsUpTo stream n ++ [(stream n).clearCycle] := by
  rw [eventsUpTo, eventsUpTo, List.range_succ, List.map_append, List.map_singleton]

/-- The return of the TRB. -/
theorem Stage.returned (hbase : base.toNat % 4096 = 0)
    (hlt : base.toNat < 2 ^ 64 - pageOffset.toNat)
    (h : Stage base stream spare (d + 1) d (Taken base stream spare d) s) :
    Stage base stream spare (d + 1) (d + 1) (fun _ ↦ True)
      { s with returned := s.returned ++ [readTrb s.mem (v2p (p2v (slotAddr base d)))] } := by
  have hread : readTrb s.mem (v2p (p2v (slotAddr base d))) = slotTrb base s.mem (d % 256) := by
    rw [v2p_p2v (slotAddr_lt hbase hlt d)]
    rfl
  refine ⟨h.inv.account _ _, ⟨?_, fun hone ↦ ?_⟩, le_rfl, trivial⟩
  · simp only [List.length_append, h.account.returned_length, List.length_singleton]
  · simp only [List.map_append, h.account.returned_eq hone, List.map_singleton, hread,
      h.extra hone, eventsUpTo_succ]

/-- **`get_eventring`** returns the next event. -/
theorem wp_getEventring (hbase : base.toNat % 4096 = 0)
    (hlt : base.toNat < 2 ^ 64 - pageOffset.toNat) (rounds : ℕ)
    (h : Stage base stream spare d d (fun _ ↦ True) s) :
    (eventMachine stream).wp (eventContract stream spare)
      (getEventring rounds (eventRingAfter base d)) (Fetched base stream spare d) s := by
  refine wp_getTRB steady_true (fun s₁ h₁ ↦ ?_) h
  refine wp_waitQueued hbase hlt rounds (fun s₂ h₂ ↦ ?_) (fun s₂ h₂ ↦ ?_) h₁
  · refine wp_writeEventRing hbase hlt (fun s₃ h₃ ↦ ?_) h₂
    refine wp_op (stable_stage steady_taken) (fun s hs ↦ hs.inOrder) ?_ h₃
    rintro s₄ h₄ -
    refine ⟨trivial, ?_⟩
    rintro _ s₅ hs₅
    have h₅ : Stage base stream spare (d + 1) (d + 1) (fun _ ↦ True) s₅ := by
      rw [hs₅]
      exact h₄.returned hbase hlt
    exact wp_ret (stable_stage steady_true) (fun s hs ↦ hs.inOrder) (fun s hs ↦ ⟨rfl, hs⟩) h₅
  · exact wp_ret (stable_stage steady_true) (fun s hs ↦ hs.inOrder) (fun s hs ↦ hs) h₂

theorem wp_callAll (hbase : base.toNat % 4096 = 0)
    (hlt : base.toNat < 2 ^ 64 - pageOffset.toNat) (calls : List EventCall)
    (h : Stage base stream spare d d (fun _ ↦ True) s) :
    (eventMachine stream).wp (eventContract stream spare)
      (callAll calls (eventRingAfter base d)) (fun _ _ ↦ True) s := by
  induction calls generalizing d s with
  | nil => exact wp_ret (stable_stage steady_true) (fun s hs ↦ hs.inOrder) (fun _ _ ↦ trivial) h
  | cons call calls ih =>
    cases call with
    | erIsQueued =>
      refine wp_erIsQueued hbase hlt (fun queued s₁ h₁ ↦ ?_) h
      refine wp_op (stable_stage (steady_looked queued)) (fun s hs ↦ hs.inOrder) ?_ h₁
      intro s₂ h₂ _
      refine ⟨h₂.extra.1.symm, ?_⟩
      rintro _ s₃ hs₃
      rw [hs₃]
      exact ih (h₂.mono fun _ ↦ trivial)
    | getEventring rounds =>
      refine wp_bind ((wp_getEventring hbase hlt rounds h).mono ?_)
      rintro (_ | ⟨ring, trb⟩) s₁ h₁
      · exact wp_ret (stable_stage steady_true) (fun s hs ↦ hs.inOrder) (fun _ _ ↦ trivial) h₁
      · obtain ⟨rfl, h₁⟩ := h₁
        exact ih h₁

end Driver

/-! ## Every run -/

section Runs

variable {buf : Addr} {stream : ℕ → Trb} {spare : ℕ} {mem : PhysMem} {s : EventState}

theorem v2p_of_mapped (hbuf : buf.toNat % 4096 = 0) (hmap : pageOffset ≤ buf) :
    (v2p buf).toNat % 4096 = 0 ∧ (v2p buf).toNat < 2 ^ 64 - pageOffset.toNat ∧
      p2v (v2p buf) = buf := by
  rw [v2p, if_pos ((sub_pageOffset_lt_iff buf).mpr hmap), p2v]
  rw [pageOffset] at hmap ⊢
  bv_omega

theorem stage_start (hbuf : buf.toNat % 4096 = 0) (hmap : pageOffset ≤ buf) :
    Stage (v2p buf) stream spare 0 0 (fun _ ↦ True) (.start buf mem) := by
  have hbase := (v2p_of_mapped hbuf hmap).1
  have herdp : (EventState.start buf mem).erdp = slotAddr (v2p buf) 0 := by
    rw [EventState.erdp_eq_append, EventState.start]
    simp only [BitVec.ushiftRight_zero]
    rw [maskFlags_setWidth_self (by omega), halves_append, slotAddr]
    simp
  have hpcs : true = phase 256 0 := by decide
  refine ⟨⟨Holds.start fun j hj ↦ ?_, rfl, herdp, rfl, rfl, hpcs,
    fun h0 ↦ absurd h0 (Nat.not_lt_zero _), fun h1 ↦ absurd h1 (Nat.not_lt_zero _),
    fun h2 ↦ absurd h2 (Nat.not_lt_zero _), Nat.zero_le 3⟩, ⟨rfl, fun _ ↦ rfl⟩,
      le_rfl, trivial⟩
  simp only [EventState.start]
  rw [slotTrb_newRing hj]
  rfl

/-- The contract is kept from the start on. -/
theorem wp_start {calls : List EventCall} (hbuf : buf.toNat % 4096 = 0) (hmap : pageOffset ≤ buf) :
    (eventMachine stream).wp (eventContract stream spare) (callAll calls (newRing buf mem).2)
      (fun _ _ ↦ True) (.start buf mem) := by
  obtain ⟨hbase, hlt, hbuf'⟩ := v2p_of_mapped hbuf hmap
  have hring : (newRing buf mem).2 = eventRingAfter (v2p buf) 0 := by
    rw [eventRingAfter, hbuf']
    rfl
  rw [hring]
  exact wp_callAll hbase hlt calls (stage_start hbuf hmap)

/-- **Delivery**, in every state of every run in which the controller leaves a slot free. The second
part is about the moment `er_isQueued` looks at the ring: `queued` is what it makes of the cycle bit
that stands there. -/
theorem events_in_order {calls : List EventCall} {p : EventProg Unit} (hbuf : buf.toNat % 4096 = 0)
    (hmap : pageOffset ≤ buf)
    (hrun : (eventMachine stream).Runs (LeavesFree 1)
      (callAll calls (newRing buf mem).2, .start buf mem) (p, s)) :
    EventsDelivered stream s ∧
      ∀ a k queued k', p = .op (.loadCycle a) k →
        k (readTrb s.mem (v2p a)).c = .op (.answered queued) k' →
        (queued = true ↔ s.returned.length < s.written) := by
  have hwp : (eventMachine stream).wp (eventContract stream 1) (callAll calls (newRing buf mem).2)
      (fun _ _ ↦ True) (.start buf mem) := wp_start hbuf hmap
  have hend := hwp.run hrun
  refine ⟨hend.inv le_rfl, ?_⟩
  rintro a k queued k' rfl hk
  have hnext := ((hend s (.refl s)).2 trivial).2 (readTrb s.mem (v2p a)).c
    { s with waiting := s.returned.length < s.written } ⟨rfl, rfl⟩
  rw [hk] at hnext
  have hqueued : queued = decide (s.returned.length < s.written) := hnext.pre trivial
  rw [hqueued, decide_eq_true_iff]

/-! ### The ring is a queue -/

/-- The events written and not yet returned, and those returned. -/
def EventState.fifo (stream : ℕ → Trb) (s : EventState) : FifoQueue.Fifo Trb :=
  ⟨(eventsUpTo stream s.written).drop s.returned.length, s.returned.map Trb.clearCycle⟩

theorem length_eventsUpTo (n : ℕ) : (eventsUpTo stream n).length = n := by
  rw [eventsUpTo, List.length_map, List.length_range]

/-- A store of the controller queues an event or none. -/
theorem fifo_post (hle : s.returned.length ≤ s.written) :
    FifoQueue.Step (s.fifo stream) ((s.post stream).fifo stream) := by
  have hwritten : (s.post stream).written = s.written ∨
      (s.post stream).written = s.written + 1 := by
    rw [EventState.post]
    split <;> simp
  rw [EventState.fifo, EventState.fifo, post_returned]
  rcases hwritten with heq | heq
  · rw [heq]
    exact .idle _
  · rw [heq, eventsUpTo_succ, List.drop_append_of_le_length (by rwa [length_eventsUpTo])]
    exact .put _ _ _

/-- An event that is returned is the oldest one. -/
theorem fifo_returned {s' : EventState} {t : Trb} (hreturned : s'.returned = s.returned ++ [t])
    (hwritten : s'.written = s.written) (h : EventsDelivered stream s)
    (h' : EventsDelivered stream s') :
    FifoQueue.Step (s.fifo stream) (s'.fifo stream) := by
  have hlen : s'.returned.length = s.returned.length + 1 := by
    rw [hreturned, List.length_append, List.length_singleton]
  have hle := h'.returned_le
  have hlt : s.returned.length < (eventsUpTo stream s.written).length := by
    rw [length_eventsUpTo]
    omega
  have hnext : s'.returned.map Trb.clearCycle =
      s.returned.map Trb.clearCycle ++ [(stream s.returned.length).clearCycle] := by
    rw [h'.returned_eq, hlen, eventsUpTo_succ, ← h.returned_eq]
  have hget : (eventsUpTo stream s.written)[s.returned.length] =
      (stream s.returned.length).clearCycle := by
    simp [eventsUpTo]
  rw [EventState.fifo, EventState.fifo, hlen, hwritten, hnext, List.drop_eq_getElem_cons hlt, hget]
  exact .take _ _ _

/-- An operation of the driver writes no event, and returns one at most. -/
theorem exec_account {e : EventOp} {r : e.Answer} {s' : EventState} (h : e.exec s r s') :
    s'.written = s.written ∧
      (s'.returned = s.returned ∨ ∃ t, s'.returned = s.returned ++ [t]) := by
  cases e with
  | readErdpLo =>
    obtain ⟨-, rfl⟩ := h
    exact ⟨rfl, .inl rfl⟩
  | readErdpHi =>
    obtain ⟨-, rfl⟩ := h
    exact ⟨rfl, .inl rfl⟩
  | writeErdpLo lo =>
    obtain rfl : s' = s.setErdp lo s.erdpHi := h
    exact ⟨rfl, .inl rfl⟩
  | writeErdpHi hi =>
    obtain rfl : s' = s.setErdp s.erdpLo hi := h
    exact ⟨rfl, .inl rfl⟩
  | loadCycle a =>
    obtain ⟨-, rfl⟩ := h
    exact ⟨rfl, .inl rfl⟩
  | answered queued =>
    obtain rfl : s' = s := h
    exact ⟨rfl, .inl rfl⟩
  | returned trb =>
    obtain rfl : s' = { s with returned := s.returned ++ [readTrb s.mem (v2p trb)] } := h
    exact ⟨rfl, .inr ⟨_, rfl⟩⟩

/-- With a slot left free, every run is one of a queue to which the controller adds its events and
from which `get_eventring` takes them. -/
theorem eventRing_queue {calls : List EventCall} {p : EventProg Unit} (hbuf : buf.toNat % 4096 = 0)
    (hmap : pageOffset ≤ buf)
    (hrun : (eventMachine stream).Runs (LeavesFree 1)
      (callAll calls (newRing buf mem).2, .start buf mem) (p, s)) :
    FifoQueue.Steps ⟨[], []⟩ (s.fifo stream) := by
  have hwp : (eventMachine stream).wp (eventContract stream 1) (callAll calls (newRing buf mem).2)
      (fun _ _ ↦ True) (.start buf mem) := wp_start hbuf hmap
  have hdelivered : ∀ c : EventProg Unit × EventState, (eventMachine stream).Runs (LeavesFree 1)
      (callAll calls (newRing buf mem).2, .start buf mem) c → EventsDelivered stream c.2 :=
    fun c hc ↦ (hwp.run hc).inv le_rfl
  -- the invariant is that the state has been reached
  refine FifoQueue.Steps.of_run (fun c : EventProg Unit × EventState ↦ c.2.fifo stream) hrun
    (GuardedRun.Run.refl _) fun c i c' hc hguard hstep ↦ ⟨hc.tail hguard hstep, ?_⟩
  have h := hdelivered c hc
  have h' := hdelivered c' (hc.tail hguard hstep)
  cases hstep with
  | own hexec =>
    obtain ⟨hwritten, hreturned | ⟨t, hreturned⟩⟩ := exec_account hexec
    · rw [EventState.fifo, EventState.fifo, hwritten, hreturned]
      exact .idle _
    · exact fifo_returned hreturned hwritten h h'
  | env henv =>
    obtain ⟨-, rfl⟩ := henv
    exact fifo_post h.returned_le

end Runs

/-! ## Runs -/

section Returns

variable {base : Addr} {stream : ℕ → Trb} {spare d : ℕ} {s : EventState} {ring : Ring}

/-- The controller writes an event. -/
theorem exists_post (hstored : s.stored = 0) (hfree : spare < s.free) :
    ∃ s', (eventMachine stream).Others (LeavesFree spare) s s' ∧
      s'.stored = 0 ∧ s'.written = s.written + 1 ∧ s'.free + 1 = s.free := by
  have hstep : ∀ {s₀ s₁ : EventState}, (eventMachine stream).Others (LeavesFree spare) s₀ s₁ →
      spare < s₁.free → (eventMachine stream).Others (LeavesFree spare) s₀ (s₁.post stream) :=
    fun hs hlt ↦ hs.tail (i := ()) hlt ⟨Nat.zero_lt_of_lt hlt, rfl⟩
  obtain ⟨hstored₁, hwritten₁, hfree₁⟩ := @post_word stream s (by omega)
  obtain ⟨hstored₂, hwritten₂, hfree₂⟩ := @post_word stream (s.post stream) (by omega)
  obtain ⟨hstored₃, hwritten₃, hfree₃⟩ := @post_word stream ((s.post stream).post stream) (by omega)
  obtain ⟨hstored₄, hwritten₄, hfree₄⟩ :=
    @post_last stream (((s.post stream).post stream).post stream) (by omega)
  exact ⟨_, hstep (hstep (hstep (hstep (.refl s) hfree) (by omega)) (by omega)) (by omega),
    hstored₄, by omega, by omega⟩

/-- The controller writes some events. -/
theorem exists_posts (n : ℕ) (hstored : s.stored = 0) (hfree : spare + n ≤ s.free) :
    ∃ s', (eventMachine stream).Others (LeavesFree spare) s s' ∧
      s'.stored = 0 ∧ s'.written = s.written + n := by
  induction n generalizing s with
  | zero => exact ⟨s, .refl s, hstored, rfl⟩
  | succ n ih =>
    obtain ⟨s₁, hothers, hstored₁, hwritten₁, hfree₁⟩ :=
      @exists_post stream spare s hstored (by omega)
    obtain ⟨s₂, hothers₂, hstored₂, hwritten₂⟩ := ih hstored₁ (by omega)
    exact ⟨s₂, hothers.trans hothers₂, hstored₂, by omega⟩

theorem mayReturn_getTRB (hinv : EventInv base stream d s) :
    (eventMachine stream).mayReturn (LeavesFree spare) getTRB
      (fun trb s' ↦ trb = p2v (slotAddr base d) ∧ s' = s) s := by
  have htrb : (s.erdpLo.setWidth 64 ||| s.erdpHi.setWidth 64 <<< 32) &&& ~~~0x0f#64 =
      slotAddr base d := by
    rw [or_shiftLeft_eq_append, append_mask, ← EventState.erdp_eq_append, hinv.erdp_eq]
  exact ⟨trivial, s.erdpLo, s, ⟨rfl, rfl⟩, trivial, s.erdpHi, s, ⟨rfl, rfl⟩, congrArg p2v htrb, rfl⟩

/-- With an event waiting, the loop of `get_eventring` need not be gone through twice. -/
theorem mayReturn_waitQueued (hbase : base.toNat % 4096 = 0)
    (hlt : base.toNat < 2 ^ 64 - pageOffset.toNat)
    (h : Stage base stream spare d d (fun _ ↦ True) s) (hd : d < s.written) :
    (eventMachine stream).mayReturn (LeavesFree spare) (waitQueued 1 (eventRingAfter base d))
      (fun queued s' ↦ queued = true ∧ s'.written = s.written ∧ s'.stored = s.stored ∧
        Stage base stream spare d d (Looked d true) s') s := by
  have hready : (readTrb s.mem (v2p (p2v (slotAddr base d)))).c = phase 256 d := by
    rw [v2p_p2v (slotAddr_lt hbase hlt d)]
    exact (h.inv.holds.ready_iff (by decide)).mpr hd
  have hlooked : Stage base stream spare d d (Looked d true)
      { s with waiting := s.returned.length < s.written } := by
    refine ⟨h.inv.account _ _, ⟨h.account.returned_length, h.account.returned_eq⟩, le_rfl, ?_,
      fun _ ↦ hd⟩
    simp only [h.account.returned_length, hd, decide_true]
  rw [waitQueued, erIsQueued, Prog.bind_assoc]
  refine mayReturn_bind ((mayReturn_getTRB h.inv).mono ?_)
  rintro _ _ ⟨rfl, rfl⟩
  refine ⟨trivial, phase 256 d, _, ⟨hready.symm, rfl⟩, ?_⟩
  exact mayReturn_ite (fun _ ↦ ⟨rfl, rfl, rfl, hlooked⟩)
    fun hnot ↦ absurd (beq_self_eq_true (phase 256 d)) hnot

theorem mayReturn_writeEventRing (hbase : base.toNat % 4096 = 0)
    (hlt : base.toNat < 2 ^ 64 - pageOffset.toNat)
    (h : Stage base stream spare d d (Looked d true) s) :
    (eventMachine stream).mayReturn (LeavesFree spare) (writeEventRing (eventRingAfter base d))
      (fun ring s' ↦ (s'.written = s.written ∧ s'.stored = s.stored) ∧
        ring = eventRingAfter base (d + 1) ∧
          Stage base stream spare (d + 1) d (Taken base stream spare d) s') s := by
  have hwp := wp_writeEventRing (f := Prog.ret) (Q := fun ring s' ↦
    ring = eventRingAfter base (d + 1) ∧
      Stage base stream spare (d + 1) d (Taken base stream spare d) s') hbase hlt
    (fun s hs ↦ wp_ret (stable_stage steady_taken) (fun s hs ↦ hs.inOrder)
      (fun s hs ↦ ⟨rfl, hs⟩) hs) h
  rw [Prog.bind_ret] at hwp
  refine mayReturn.and_wp (C := eventContract stream spare) ?_ hwp
  refine mayReturn_bind (p := getTRB) ((mayReturn_getTRB h.inv).mono ?_)
  rintro _ _ ⟨rfl, rfl⟩
  refine mayReturn_ite (fun _ ↦ ?_) fun _ ↦ ?_
  · exact ⟨trivial, (), _, rfl, trivial, (), _, rfl, rfl, rfl⟩
  · exact ⟨trivial, (), _, rfl, trivial, (), _, rfl, rfl, rfl⟩

/-- The steps of a call of `get_eventring`. -/
theorem callAll_getEventring (rounds : ℕ) (calls : List EventCall) (ring : Ring) :
    callAll (.getEventring rounds :: calls) ring = getTRB >>= fun trb ↦
      waitQueued rounds ring >>= fun queued ↦
        if queued then writeEventRing ring >>= fun ring ↦
          .op (.returned trb) fun _ ↦ callAll calls ring
        else .ret () := by
  rw [callAll, getEventring, Prog.bind_assoc]
  refine congrArg _ (funext fun trb ↦ ?_)
  rw [Prog.bind_assoc]
  refine congrArg _ (funext fun queued ↦ ?_)
  cases queued with
  | false => rfl
  | true =>
    simp only [if_true]
    rw [Prog.bind_assoc]
    rfl

/-- The driver takes the events that are waiting. -/
theorem mayReturn_callAll (hbase : base.toNat % 4096 = 0)
    (hlt : base.toNat < 2 ^ 64 - pageOffset.toNat) (n : ℕ)
    (h : Stage base stream spare d d (fun _ ↦ True) s) (hn : d + n ≤ s.written) :
    (eventMachine stream).mayReturn (LeavesFree spare)
      (callAll (List.replicate n (.getEventring 1)) (eventRingAfter base d))
      (fun _ s' ↦ s'.returned.length = d + n) s := by
  induction n generalizing d s with
  | zero => exact h.account.returned_length
  | succ n ih =>
    rw [List.replicate_succ, callAll_getEventring]
    refine mayReturn_bind (p := getTRB) ((mayReturn_getTRB h.inv).mono ?_)
    rintro _ _ ⟨rfl, rfl⟩
    refine mayReturn_bind ((mayReturn_waitQueued hbase hlt h (by omega)).mono ?_)
    rintro _ s₁ ⟨rfl, hwritten₁, -, h₁⟩
    refine mayReturn_ite (fun _ ↦ ?_) fun hnot ↦ absurd rfl hnot
    refine mayReturn_bind ((mayReturn_writeEventRing hbase hlt h₁).mono ?_)
    rintro _ s₂ ⟨⟨hwritten₂, -⟩, rfl, h₂⟩
    have h₃ : Stage base stream spare (d + 1) (d + 1) (fun _ ↦ True)
        { s₂ with returned := s₂.returned ++ [readTrb s₂.mem (v2p (p2v (slotAddr base d)))] } :=
      h₂.returned hbase hlt
    refine ⟨trivial, (), _, rfl, (ih h₃ ?_).mono fun _ s' hs' ↦ by omega⟩
    show d + 1 + n ≤ s₂.written
    omega

/-- Transfer Events for the TRBs of a ring, one after another. -/
def ringEvents (n : ℕ) : Trb := ⟨BitVec.ofNat 32 (16 * n), 0, 1#32 <<< 24, 32#32 <<< 10⟩

/-- The controller fills the ring but for one slot, and the driver takes all events. -/
theorem events_in_order_full : ∃ s, (eventMachine ringEvents).Runs (LeavesFree 1)
      (callAll (List.replicate 255 (.getEventring 1)) (newRing ringPage fun _ ↦ 0).2,
        .start ringPage fun _ ↦ 0) (.ret (), s) ∧
    s.returned.length = 255 ∧ EventsDelivered ringEvents s := by
  have hpage : ringPage.toNat % 4096 = 0 := by decide
  obtain ⟨hbase, hlt, hbuf⟩ := v2p_of_mapped hpage (by decide)
  have hring : (newRing ringPage fun _ ↦ 0).2 = eventRingAfter (v2p ringPage) 0 := by
    rw [eventRingAfter, hbuf]
    rfl
  have h₀ : Stage (v2p ringPage) ringEvents 1 0 0 (fun _ ↦ True)
      (.start ringPage fun _ ↦ 0) := stage_start (by decide) (by decide)
  obtain ⟨s₁, hothers, -, hwritten⟩ := @exists_posts ringEvents 1
    (.start ringPage fun _ ↦ 0) 255 rfl (by decide)
  have h₁ := (stable_stage steady_true).others (C := eventContract ringEvents 1) h₀ hothers
  have hwritten : 0 + 255 ≤ s₁.written := hwritten.ge
  obtain ⟨⟨⟩, s₂, hrun, hreturned⟩ := (mayReturn_callAll hbase hlt 255 h₁ hwritten).returns
  rw [← hring] at hrun
  have hall := (runs_of_others hothers).trans hrun
  exact ⟨s₂, hall, hreturned, (events_in_order (by decide) (by decide) hall).1⟩

/-- The controller fills all slots, as ERDP allows. Before `get_eventring` returns the first one,
it writes the next event there. -/
theorem not_events_in_order : ¬ ∀ (stream : ℕ → Trb) (buf : Addr) (mem : PhysMem)
    (calls : List EventCall) (p : EventProg Unit) (s : EventState), buf.toNat % 4096 = 0 →
    pageOffset ≤ buf → (eventMachine stream).Runs (LeavesFree 0)
      (callAll calls (newRing buf mem).2, .start buf mem) (p, s) → EventsDelivered stream s := by
  intro hall
  have hpage : ringPage.toNat % 4096 = 0 := by decide
  obtain ⟨hbase, hlt, hbuf⟩ := v2p_of_mapped hpage (by decide)
  have hring : (newRing ringPage fun _ ↦ 0).2 = eventRingAfter (v2p ringPage) 0 := by
    rw [eventRingAfter, hbuf]
    rfl
  have h₀ : Stage (v2p ringPage) ringEvents 0 0 0 (fun _ ↦ True)
      (.start ringPage fun _ ↦ 0) := stage_start (by decide) (by decide)
  obtain ⟨s₁, hothers, hstored₁, hwritten₁⟩ := @exists_posts ringEvents 0
    (.start ringPage fun _ ↦ 0) 256 rfl (by decide)
  have hwritten₁ : s₁.written = 256 := hwritten₁
  have h₁ := (stable_stage steady_true).others (C := eventContract ringEvents 0) h₀ hothers
  -- the driver looks at the ring and moves ERDP on
  obtain ⟨_, _, hrun₁, rfl, rfl⟩ := (@mayReturn_getTRB _ _ 0 _ _ h₁.inv).exists_run fun trb ↦
    waitQueued 1 (eventRingAfter (v2p ringPage) 0) >>= fun queued ↦
      if queued then writeEventRing (eventRingAfter (v2p ringPage) 0) >>= fun ring ↦
        .op (.returned trb) fun _ ↦ callAll [] ring
      else .ret ()
  obtain ⟨_, s₂, hrun₂, rfl, hwritten₂, hstored₂, h₂⟩ :=
    (mayReturn_waitQueued hbase hlt h₁ (by omega)).exists_run fun queued ↦
      if queued then writeEventRing (eventRingAfter (v2p ringPage) 0) >>= fun ring ↦
        .op (.returned (p2v (slotAddr (v2p ringPage) 0))) fun _ ↦ callAll [] ring
      else .ret ()
  rw [if_pos rfl] at hrun₂
  obtain ⟨_, s₃, hrun₃, ⟨hwritten₃, hstored₃⟩, rfl, h₃⟩ :=
    (mayReturn_writeEventRing hbase hlt h₂).exists_run fun ring ↦
      .op (.returned (p2v (slotAddr (v2p ringPage) 0))) fun _ ↦ callAll [] ring
  -- there is a free slot for event 256, which is the one the driver is about to return
  have hfree := h₃.inv.free_eq
  obtain ⟨s₄, hothers₄, -, hwritten₄, -⟩ := @exists_post ringEvents 0 s₃ (by omega)
    (by omega)
  have h₄ := (stable_stage steady_taken).others (C := eventContract ringEvents 0) h₃ hothers₄
  have hslot := h₄.inv.holds.payload_eq 256 (by omega) (by omega)
  have hreturned := List.length_eq_zero_iff.mp h₄.account.returned_length
  have hread : readTrb s₄.mem (v2p (p2v (slotAddr (v2p ringPage) 0))) =
      slotTrb (v2p ringPage) s₄.mem (256 % 256) := by
    rw [v2p_p2v (slotAddr_lt hbase hlt 0)]
    rfl
  have hrun := (((runs_of_others hothers).trans hrun₁).trans hrun₂).trans
    (hrun₃.trans (runs_of_others hothers₄))
  have hexec : (eventMachine ringEvents).exec (.returned (p2v (slotAddr (v2p ringPage) 0))) s₄ ()
      { s₄ with returned := s₄.returned ++
        [readTrb s₄.mem (v2p (p2v (slotAddr (v2p ringPage) 0)))] } := rfl
  have hguard : LeavesFree 0 s₄ (.own (.returned (p2v (slotAddr (v2p ringPage) 0)))) := trivial
  have hlast := hrun.tail hguard (.own hexec)
  rw [← callAll_getEventring, ← hring] at hlast
  have heq := (hall _ _ _ _ _ _ hpage (by decide) hlast).returned_eq
  simp only [hreturned, List.nil_append, List.map_singleton, hread, hslot,
    List.length_singleton] at heq
  revert heq
  decide

end Returns

end VimOS
