import VimOS.Xhci.RingDelivery

/-!
# The keyboard polling loop

`read_usb_keyboard` of `kernel/usb_keyboard.c` queues one Normal TRB on the ring of the keyboard's
interrupt endpoint and rings the doorbell; then it looks at the event ring once, and returns whether
or not there was an event for it. `vMain` calls it for ever. Nothing makes it wait for the
controller to take what it has queued.
-/

namespace VimOS

open Machine GuardedRun

/-! ## The driver -/

/-- `keytable0`, to be filled up with zeros. -/
def keytable0 : List Byte :=
  [0x00, 0x00, 0x00, 0x00, 0x61, 0x62, 0x63, 0x64, 0x65, 0x66, 0x67, 0x68, 0x69, 0x6a, 0x6b, 0x6c,
   0x6d, 0x6e, 0x6f, 0x70, 0x71, 0x72, 0x73, 0x74, 0x75, 0x76, 0x77, 0x78, 0x79, 0x7a, 0x31, 0x32,
   0x33, 0x34, 0x35, 0x36, 0x37, 0x38, 0x39, 0x30, 0x0a, 0x08, 0x08, 0x09, 0x20, 0x2d, 0x3d, 0x5b,
   0x5d, 0x5c, 0x23, 0x3b, 0x27, 0x60, 0x2c, 0x2e, 0x2f, 0x00, 0x00, 0x00, 0x00, 0x00, 0x00, 0x00,
   0x00, 0x00, 0x00, 0x00, 0x00, 0x00, 0x00, 0x00, 0x00, 0x00, 0x00, 0x00, 0x00, 0x00, 0x00, 0x00,
   0x00, 0x00, 0x00, 0x00, 0x2f, 0x2a, 0x2d, 0x2b, 0x0a, 0x31, 0x32, 0x33, 0x34, 0x35, 0x36, 0x37,
   0x38, 0x39, 0x30, 0x2e, 0x5c, 0x00, 0x00, 0x3d, 0x00, 0x00, 0x00, 0x00, 0x00, 0x00, 0x00, 0x00,
   0x00, 0x00, 0x00, 0x00, 0x00, 0x00, 0x00, 0x00, 0x00, 0x00, 0x00, 0x00, 0x00, 0x00, 0x00, 0x00,
   0x00, 0x00, 0x00, 0x00, 0x00, 0x00, 0x00, 0x00, 0x00, 0x5c, 0x00, 0x00, 0x00, 0x00, 0x00, 0x00]

/-- `keytable1`, used with a Shift key. -/
def keytable1 : List Byte :=
  [0x00, 0x00, 0x00, 0x00, 0x41, 0x42, 0x43, 0x44, 0x45, 0x46, 0x47, 0x48, 0x49, 0x4a, 0x4b, 0x4c,
   0x4d, 0x4e, 0x4f, 0x50, 0x51, 0x52, 0x53, 0x54, 0x55, 0x56, 0x57, 0x58, 0x59, 0x5a, 0x21, 0x40,
   0x23, 0x24, 0x25, 0x5e, 0x26, 0x2a, 0x28, 0x29, 0x0a, 0x08, 0x08, 0x09, 0x20, 0x5f, 0x2b, 0x7b,
   0x7d, 0x7c, 0x7e, 0x3a, 0x22, 0x7e, 0x3c, 0x3e, 0x3f, 0x00, 0x00, 0x00, 0x00, 0x00, 0x00, 0x00,
   0x00, 0x00, 0x00, 0x00, 0x00, 0x00, 0x00, 0x00, 0x00, 0x00, 0x00, 0x00, 0x00, 0x00, 0x00, 0x00,
   0x00, 0x00, 0x00, 0x00, 0x2f, 0x2a, 0x2d, 0x2b, 0x0a, 0x31, 0x32, 0x33, 0x34, 0x35, 0x36, 0x37,
   0x38, 0x39, 0x30, 0x2e, 0x5c, 0x00, 0x00, 0x3d, 0x00, 0x00, 0x00, 0x00, 0x00, 0x00, 0x00, 0x00,
   0x00, 0x00, 0x00, 0x00, 0x00, 0x00, 0x00, 0x00, 0x00, 0x00, 0x00, 0x00, 0x00, 0x00, 0x00, 0x00,
   0x00, 0x00, 0x00, 0x00, 0x00, 0x00, 0x00, 0x00, 0x00, 0x7c, 0x00, 0x00, 0x00, 0x00, 0x00, 0x00]

/-- `s_endpoint_ring`, `s_slot_id`, `s_dci` and the address of `keybuf`. -/
structure Keyboard where
  ring : Ring
  slotId : Byte
  dci : Byte
  keybuf : Addr

/-- The TRB of `read_usb_keyboard`: `length = 8`, `isp = 1`. -/
def keyTrb (keybuf : Addr) : Trb :=
  let normal := initNormalTrb (v2p keybuf)
  { normal with w2 := 8, w3 := normal.w3 ||| 1#32 <<< 2 }

/-- `read_usb_keyboard`. Its loop is left in the first round on every path. -/
def readUsbKeyboard (kb : Keyboard) : RingProg (Keyboard × Byte) := do
  let ring ← writeRing kb.ring (keyTrb kb.keybuf)
  let kb := { kb with ring := ring }
  writeXhciDoorbell kb.slotId (kb.dci.setWidth 32)
  let queued ← callErIsQueued
  if queued then
    let trb ← callGetEventring
    let head ← loadTrb trb
    -- a Transfer Event
    if head.type = 32 then
      let event ← loadTrb trb
      if event.ptr ≠ 0 then
        let trb2 ← loadTrb (p2v event.ptr)
        -- for a Normal TRB, with the code Success or Short Packet
        if trb2.type = 1 ∧ (event.code = 1 ∨ event.code = 13) then
          let modifiers ← loadByte kb.keybuf
          let code ← loadByte (kb.keybuf + 2)
          -- either of the shift keys
          let key := if modifiers &&& 0x22 ≠ 0 then keytable1 else keytable0
          pure (kb, key.getD code.toNat 0)
        else pure (kb, 0)
      else pure (kb, 0)
    else pure (kb, 0)
  else pure (kb, 0)

/-- The loop of `vMain`, gone through `n` times. -/
def pollKeyboard : ℕ → Keyboard → RingProg Keyboard
  | 0, kb => pure kb
  | n + 1, kb => do
    let (kb, c) ← readUsbKeyboard kb
    printChar c
    pollKeyboard n kb

/-! ## What is not overwritten -/

section Polling

variable {buf : Addr} {L : List Trb} {s : RingState} {kb : Keyboard}
variable {guard : RingState → Act RingOp Consume → Prop}

theorem keyTrb_data (keybuf : Addr) : (keyTrb keybuf).c = false ∧ (keyTrb keybuf).type ≠ 6 := by
  have h : (1#32 <<< 10 ||| 1#32 <<< 5 ||| 1#32 <<< 2).getLsbD 0 = false ∧
      (1#32 <<< 10 ||| 1#32 <<< 5 ||| 1#32 <<< 2).extractLsb' 10 6 ≠ 6 := by decide
  exact h

/-- Operations that leave the ring alone. -/
theorem wp_silent {α : Type} {e : RingOp} {f : e.Answer → RingProg α} {Q : α → RingState → Prop}
    (hspares : ∀ s, Spares (v2p buf) e s) (heffect : ∀ s, e.effect s = s)
    (hf : ∀ r s, Quiet (v2p buf) L s → ringMachine.wp (ringContract (v2p buf) guard) (f r) Q s)
    (h : Quiet (v2p buf) L s) :
    ringMachine.wp (ringContract (v2p buf) guard) (Prog.perform e >>= f) Q s := by
  refine wp_op stable_quiet (fun s hs ↦ hs.delivered) ?_ h
  intro s hs _
  refine ⟨hspares s, ?_⟩
  rintro r _ rfl
  rw [heffect]
  exact hf r s hs

theorem wp_readUsbKeyboard (hbuf : buf.toNat % 4096 = 0)
    (hguard : ∀ t s, guard s (.own (.call t)) → s.Room) (hring : kb.ring = ringAfter buf L.length)
    (h : Quiet (v2p buf) L s) :
    ringMachine.wp (ringContract (v2p buf) guard) (readUsbKeyboard kb)
      (fun r s ↦ r.1.ring = ringAfter buf (L.length + 1) ∧
        Quiet (v2p buf) (L ++ [keyTrb kb.keybuf]) s) s := by
  rw [readUsbKeyboard, hring]
  refine wp_bind ((wp_writeRing hbuf (keyTrb_data _) (fun s _ ↦ hguard _ s) h).mono ?_)
  rintro ring s₁ ⟨rfl, hs₁⟩
  generalize L ++ [keyTrb kb.keybuf] = L' at hs₁ ⊢
  have hret : ∀ (kb' : Keyboard) (c : Byte) s, kb'.ring = ringAfter buf (L.length + 1) →
      Quiet (v2p buf) L' s → ringMachine.wp (ringContract (v2p buf) guard) (.ret (kb', c))
        (fun r s ↦ r.1.ring = ringAfter buf (L.length + 1) ∧ Quiet (v2p buf) L' s) s :=
    fun kb' c s hkb' hs ↦
      wp_ret stable_quiet (fun _ hs ↦ hs.delivered) (fun _ hs ↦ ⟨hkb', hs⟩) hs
  refine wp_silent (fun _ ↦ trivial) (fun _ ↦ rfl) (fun _ s hs ↦ ?_) hs₁
  refine wp_silent (fun _ ↦ trivial) (fun _ ↦ rfl) (fun queued s hs ↦ ?_) hs
  split_ifs
  · refine wp_silent (fun _ ↦ trivial) (fun _ ↦ rfl) (fun trb s hs ↦ ?_) hs
    refine wp_silent (fun _ ↦ trivial) (fun _ ↦ rfl) (fun head s hs ↦ ?_) hs
    split_ifs
    · refine wp_silent (fun _ ↦ trivial) (fun _ ↦ rfl) (fun event s hs ↦ ?_) hs
      split_ifs
      · refine wp_silent (fun _ ↦ trivial) (fun _ ↦ rfl) (fun trb2 s hs ↦ ?_) hs
        split_ifs
        · refine wp_silent (fun _ ↦ trivial) (fun _ ↦ rfl) (fun modifiers s hs ↦ ?_) hs
          refine wp_silent (fun _ ↦ trivial) (fun _ ↦ rfl) (fun code s hs ↦ ?_) hs
          exact hret _ _ _ rfl hs
        · exact hret _ _ _ rfl hs
      · exact hret _ _ _ rfl hs
    · exact hret _ _ _ rfl hs
  · exact hret _ _ _ rfl hs

theorem wp_pollKeyboard (hbuf : buf.toNat % 4096 = 0)
    (hguard : ∀ t s, guard s (.own (.call t)) → s.Room) (n : ℕ)
    (hring : kb.ring = ringAfter buf L.length) (h : Quiet (v2p buf) L s) :
    ringMachine.wp (ringContract (v2p buf) guard) (pollKeyboard n kb) (fun _ _ ↦ True) s := by
  induction n generalizing kb L s with
  | zero => exact wp_ret stable_quiet (fun _ hs ↦ hs.delivered) (fun _ _ ↦ trivial) h
  | succ n ih =>
    refine wp_bind ((wp_readUsbKeyboard hbuf hguard hring h).mono ?_)
    rintro ⟨kb', c⟩ s' ⟨hring', hs'⟩
    have hlen : L.length + 1 = (L ++ [keyTrb kb.keybuf]).length := by simp
    rw [hlen] at hring'
    exact wp_silent (fun _ ↦ trivial) (fun _ ↦ rfl) (fun _ s hs ↦ ih hring' hs) hs'

/-- **Nothing queued is overwritten** in a run of the polling loop whose calls are begun with
room. -/
theorem pollKeyboard_spares {mem : PhysMem} {a : Addr} {v : Word} {n : ℕ}
    {k : Unit → RingProg Keyboard} (hbuf : buf.toNat % 4096 = 0)
    (hring : kb.ring = (newRing buf mem).2)
    (hrun : ringMachine.Runs RoomFor (pollKeyboard n kb, .start buf mem) (.op (.store a v) k, s)) :
    ¬s.Pending ((v2p a - v2p buf).toNat / 16) := by
  have hroom : ∀ t s, RoomFor s (.own (.call t)) → s.Room := fun _ _ h ↦ h
  have hwp := wp_pollKeyboard hbuf hroom n hring (quiet_start buf mem)
  exact (hwp.run hrun).pre trivial

end Polling

/-! ## A controller that does not keep up -/

section Alone

variable {kb : Keyboard} {s : RingState} {guard : RingState → Act RingOp Consume → Prop}

theorem mayReturn_readUsbKeyboard (hguard : OnlyCalls guard)
    (hcall : guard s (.own (.call (keyTrb kb.keybuf)))) :
    ringMachine.mayReturn guard (readUsbKeyboard kb)
      (fun r s' ↦ r.1.keybuf = kb.keybuf ∧ s'.consumer = s.consumer) s := by
  refine mayReturn_bind ((mayReturn_writeRing _ hguard hcall).mono ?_)
  rintro ring s₁ ⟨-, -, hconsumer, -⟩
  refine ⟨hguard _ _ (by simp), (), _, rfl, ?_⟩
  exact ⟨hguard _ _ (by simp), false, _, rfl, rfl, hconsumer⟩

/-- Rounds of the loop, the controller doing nothing. -/
theorem exists_polls {buf : Addr} {L : List Trb} (m n : ℕ) (hbuf : buf.toNat % 4096 = 0)
    (hring : kb.ring = ringAfter buf L.length) (h : Quiet (v2p buf) L s)
    (hroom : ∀ s' : RingState, s'.consumer = s.consumer →
      s'.passed.length < L.length + m → s'.Room) :
    ∃ kb' L' s', ringMachine.Runs RoomFor (pollKeyboard (m + n) kb, s) (pollKeyboard n kb', s') ∧
      kb'.ring = ringAfter buf L'.length ∧ Quiet (v2p buf) L' s' ∧ L'.length = L.length + m ∧
      s'.consumer = s.consumer := by
  induction m generalizing kb L s with
  | zero =>
    rw [Nat.zero_add]
    exact ⟨kb, L, s, .refl _, hring, h, rfl, rfl⟩
  | succ m ih =>
    have hcall : RoomFor s (.own (.call (keyTrb kb.keybuf))) :=
      hroom s rfl (by rw [h.passed_eq]; omega)
    have hmay := (mayReturn_readUsbKeyboard onlyCalls_roomFor hcall).and_wp
      (C := ringContract (v2p buf) RoomFor) (wp_readUsbKeyboard hbuf (fun _ _ h ↦ h) hring h)
    obtain ⟨⟨kb', c⟩, s₁, hrun, ⟨-, hconsumer⟩, hring', hquiet⟩ := hmay.exists_run
      fun r ↦ printChar r.2 >>= fun _ ↦ pollKeyboard (m + n) r.1
    have hprint : ringMachine.Runs RoomFor (printChar c >>= fun _ ↦ pollKeyboard (m + n) kb', s₁)
        (pollKeyboard (m + n) kb', s₁) :=
      (GuardedRun.Run.refl _).tail (i := .own (RingOp.print c)) trivial
        (.own (r := ()) rfl)
    have hlen : (L ++ [keyTrb kb.keybuf]).length = L.length + 1 := by simp
    rw [← hlen] at hring'
    obtain ⟨kb₂, L₂, s₂, hrun₂, hring₂, hquiet₂, hlen₂, hconsumer₂⟩ := ih hring' hquiet
      fun s' hs' hlt ↦ hroom s' (hs'.trans hconsumer) (by omega)
    refine ⟨kb₂, L₂, s₂, ?_, hring₂, hquiet₂, by omega, hconsumer₂.trans hconsumer⟩
    rw [Nat.succ_add]
    exact (hrun.trans hprint).trans hrun₂

end Alone

/-- A keyboard in slot 1, its interrupt endpoint the third context. -/
def slotOneKeyboard : Keyboard where
  ring := (newRing ringPage fun _ ↦ 0).2
  slotId := 1
  dci := 3
  keybuf := 0xffff800000200000

theorem slotOneKeyboard_ring :
    slotOneKeyboard.ring = ringAfter ringPage ([] : List Trb).length := rfl

/-- The controller takes nothing for a lap, and the next call is begun. -/
theorem exists_polls_idle {m : ℕ} (hm : m ≤ 255) : ∃ (kb : Keyboard) (s : RingState),
    ringMachine.Runs RoomFor (pollKeyboard (m + 1) slotOneKeyboard, .start ringPage fun _ ↦ 0)
      (pollKeyboard 1 kb, s) ∧
    kb.ring = ringAfter ringPage m ∧ s.consumed = [] ∧ s.passed.length = m ∧ s.returned = m := by
  obtain ⟨kb, L, s, hrun, hring, hquiet, hlen, hconsumer⟩ := exists_polls
    m 1 (by decide) slotOneKeyboard_ring (quiet_start ringPage fun _ ↦ 0) fun s' hs' hlt ↦
      room_of_consumed_nil (congrArg (·.2.2.1) hs') (by
        rw [List.length_nil, Nat.zero_add] at hlt
        omega)
  rw [List.length_nil, Nat.zero_add] at hlen
  refine ⟨kb, s, hrun, hlen ▸ hring, congrArg (·.2.2.1) hconsumer, ?_, ?_⟩
  · rw [hquiet.passed_eq, hlen]
  · rw [hquiet.returned_eq, hlen]

/-- The first store of a call. -/
theorem exists_first_store {s : RingState} (guard : RingState → Act RingOp Consume → Prop)
    (kb : Keyboard) (n : ℕ) (hcall : guard s (.own (.call (keyTrb kb.keybuf)))) :
    ∃ v k, ringMachine.Runs guard (pollKeyboard (n + 1) kb, s)
      (.op (.store (kb.ring.buf + BitVec.ofNat 64 (16 * kb.ring.ringIndex)) v) k,
        RingOp.effect s (.call (keyTrb kb.keybuf))) :=
  ⟨_, _, (GuardedRun.Run.refl _).tail (i := .own (RingOp.call (keyTrb kb.keybuf))) hcall
    (.own (r := ()) rfl)⟩

theorem pollKeyboard_spares_second : ∃ (a : Addr) (v : Word) (k : Unit → RingProg Keyboard)
    (s : RingState),
    ringMachine.Runs RoomFor (pollKeyboard 2 slotOneKeyboard, .start ringPage fun _ ↦ 0)
      (.op (.store a v) k, s) ∧
    s.Pending 0 ∧ ¬s.Pending ((v2p a - v2p ringPage).toNat / 16) := by
  obtain ⟨kb, s, hrun, -, hconsumed, hpassed, hreturned⟩ := exists_polls_idle (m := 1) (by decide)
  obtain ⟨v, k, hstore⟩ := exists_first_store RoomFor kb 0
    (room_of_consumed_nil hconsumed (by omega))
  refine ⟨_, v, k, _, hrun.trans hstore, ⟨0, ?_, ?_, rfl⟩,
    pollKeyboard_spares (by decide) rfl (hrun.trans hstore)⟩
  · simp [RingOp.effect, hconsumed]
  · simp [RingOp.effect, hreturned]

/-- The controller takes nothing, and the loop goes on: its 256th call stores into the slot of the
first TRB. -/
theorem pollKeyboard_overwrites : ∃ (a : Addr) (v : Word) (k : Unit → RingProg Keyboard)
    (s : RingState),
    ringMachine.Runs (fun _ _ ↦ True) (pollKeyboard 256 slotOneKeyboard, .start ringPage fun _ ↦ 0)
      (.op (.store a v) k, s) ∧
    s.Pending ((v2p a - v2p ringPage).toNat / 16) := by
  obtain ⟨kb, s, hrun, hring, hconsumed, -, hreturned⟩ := exists_polls_idle (m := 255) le_rfl
  obtain ⟨v, k, hstore⟩ := exists_first_store (s := s) (fun _ _ ↦ True) kb 0 trivial
  refine ⟨_, v, k, _, (hrun.mono fun _ _ _ ↦ trivial).trans hstore, ?_⟩
  have hslot : kb.ring.buf + BitVec.ofNat 64 (16 * kb.ring.ringIndex) = ringPage := by
    rw [hring, ringAfter]
    simp
  rw [hslot, BitVec.sub_self]
  refine ⟨0, ?_, ?_, rfl⟩
  · simp [RingOp.effect, hconsumed]
  · simp [RingOp.effect, hreturned]

end VimOS
