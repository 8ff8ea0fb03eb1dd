import VimOS.Library.Fifo
import VimOS.Xhci.Keyboard

/-!
# The reports of the keyboard

Every TRB that `read_usb_keyboard` queues points to one buffer, `keybuf`, and many of them are
outstanding at a time. The controller completes them in order: it stores the eight bytes of a report
there, one after another, and posts a Transfer Event. When the driver gets to the event it looks at
the buffer, whatever has been stored there since.

So a report may be looked up twice and the one before it not at all (`key_report_lost`). The
look-ups are those of the reports, in their order, if the controller begins to store a report only
when the one before has been looked up (`key_reports_in_order`).
-/

namespace VimOS

open Machine GuardedRun

/-- What `read_usb_keyboard` makes of a report. -/
def lookUp (report : ℕ → Byte) : Byte :=
  (if report 0 &&& 0x22 ≠ 0 then keytable1 else keytable0).getD (report 2).toNat 0

/-- The buffer, the number of TRBs queued, and the controller's progress: the bytes it has `stored`
of a report and the reports it has `completed`. `taken` counts the events taken from the event ring,
the last of them from the slot `slot`. The rest keeps account: the reports that have been `looked`
up, whether a look-up was begun that has not been printed, and the `results` printed. -/
structure ReportState where
  keybuf : ℕ → Byte
  queued : ℕ
  stored : ℕ
  completed : ℕ
  taken : ℕ
  slot : Addr
  looked : ℕ
  fresh : Bool
  results : List Byte

namespace ReportState

def start : ReportState where
  keybuf := fun _ ↦ 0
  queued := 0
  stored := 0
  completed := 0
  taken := 0
  slot := 0
  looked := 0
  fresh := false
  results := []

/-- The controller stores a byte of a report. -/
def store (reports : ℕ → ℕ → Byte) (s : ReportState) : ReportState :=
  { s with
    keybuf := Function.update s.keybuf s.stored (reports s.completed s.stored)
    stored := s.stored + 1 }

/-- The controller posts the event for a report. -/
def post (s : ReportState) : ReportState := { s with stored := 0, completed := s.completed + 1 }

end ReportState

/-- A Transfer Event that reports success, or a short packet. -/
def Trb.Succeeded (t : Trb) : Prop := t.type = 32 ∧ (t.code = 1 ∨ t.code = 13) ∧ t.ptr ≠ 0

/-- The effect of an operation, `buf` being the address of `keybuf`. The event leads to a Normal
TRB. -/
def RingOp.report (buf : Addr) : (e : RingOp) → ReportState → e.Answer → ReportState → Prop
  | .call _, s, _, s' => s' = { s with queued := s.queued + 1 }
  | .isQueued, s, queued, s' => queued = decide (s.taken < s.completed) ∧ s' = s
  | .getEvent, s, trb, s' => s.taken < s.completed ∧
    s' = { s with taken := s.taken + 1, slot := trb, fresh := true }
  | .loadTrb a, s, t, s' => s' = s ∧
    if a = s.slot then t.Succeeded ∧ p2v t.ptr ≠ s.slot else t.type = 1
  | .loadByte a, s, v, s' => v = s.keybuf (a - buf).toNat ∧
    s' = if a = buf + 2 then { s with looked := s.looked + 1 } else s
  | .print c, s, _, s' => s' =
    { s with fresh := false, results := if s.fresh then s.results ++ [c] else s.results }
  | _, s, _, s' => s' = s

/-- The steps of the controller. -/
inductive Complete : Type
  | store
  | post

/-- The polling loop and the controller. -/
def reportMachine (reports : ℕ → ℕ → Byte) (buf : Addr) :
    Machine RingOp RingOp.Answer ReportState Complete where
  exec := RingOp.report buf
  env
    | s, .store, s' => s.completed < s.queued ∧ s.stored < 8 ∧ s' = s.store reports
    | s, .post, s' => s.stored = 8 ∧ s' = s.post

/-- The events on the ring and those taken from it, by the numbers of their reports. -/
def ReportState.fifo (s : ReportState) : FifoQueue.Fifo ℕ :=
  ⟨List.range' s.taken (s.completed - s.taken), List.range s.taken⟩

/-- Every step is one of the queue that the event ring is with a slot left free. -/
theorem reportMachine_queue {reports : ℕ → ℕ → Byte} {buf : Addr} {α : Type}
    {c c' : RingProg α × ReportState} {i : Act RingOp Complete}
    (h : (reportMachine reports buf).Step c i c') (hle : c.2.taken ≤ c.2.completed) :
    c'.2.taken ≤ c'.2.completed ∧ FifoQueue.Step c.2.fifo c'.2.fifo := by
  have hsame : ∀ {s s' : ReportState}, s.taken ≤ s.completed → s'.taken = s.taken →
      s'.completed = s.completed → s'.taken ≤ s'.completed ∧ FifoQueue.Step s.fifo s'.fifo := by
    intro s s' hle htaken hcompleted
    rw [ReportState.fifo, ReportState.fifo, htaken, hcompleted]
    exact ⟨hle, .idle _⟩
  cases h with
  | @own e k s s' r h =>
    cases e with
    | getEvent =>
      obtain ⟨hlt, rfl⟩ := h
      obtain ⟨n, hn⟩ : ∃ n, s.completed - s.taken = n + 1 := ⟨s.completed - s.taken - 1, by omega⟩
      have hn' : s.completed - (s.taken + 1) = n := by omega
      refine ⟨hlt, ?_⟩
      simp only [ReportState.fifo, hn, hn', List.range'_succ, List.range_succ]
      exact .take _ _ _
    | isQueued =>
      obtain ⟨-, rfl⟩ := h
      exact hsame hle rfl rfl
    | loadTrb a =>
      obtain ⟨rfl, -⟩ := h
      exact hsame hle rfl rfl
    | loadByte a =>
      obtain ⟨-, rfl⟩ := h
      refine hsame hle ?_ ?_
      · split_ifs <;> rfl
      · split_ifs <;> rfl
    | call t =>
      obtain rfl : s' = { s with queued := s.queued + 1 } := h
      exact hsame hle rfl rfl
    | print c =>
      obtain rfl : s' = { s with
        fresh := false, results := if s.fresh then s.results ++ [c] else s.results } := h
      exact hsame hle rfl rfl
    | _ =>
      obtain rfl : s' = s := h
      exact hsame hle rfl rfl
  | @env p s s' i h =>
    cases i with
    | store =>
      obtain ⟨-, -, rfl⟩ := h
      exact hsame hle rfl rfl
    | post =>
      obtain ⟨-, rfl⟩ := h
      have hsucc : s.completed + 1 - s.taken = s.completed - s.taken + 1 := Nat.succ_sub hle
      refine ⟨Nat.le_succ_of_le hle, ?_⟩
      simp only [ReportState.fifo, ReportState.post, hsucc, List.range'_concat]
      exact .put _ _ _

/-- The results are the look-ups of the first reports, in their order. -/
def ReportState.InOrder (reports : ℕ → ℕ → Byte) (s : ReportState) : Prop :=
  s.results = (List.range s.results.length).map fun k ↦ lookUp (reports k)

/-- The controller begins to store a report only when the one before has been looked up. -/
def ReportsSpaced (s : ReportState) : Act RingOp Complete → Prop
  | .env .store => s.stored = 0 → s.looked = s.completed
  | _ => True

def reportContract (reports : ℕ → ℕ → Byte) : Contract RingOp Complete ReportState where
  guard := ReportsSpaced
  inv := ReportState.InOrder reports
  pre := fun _ _ ↦ True

section Reports

variable {reports : ℕ → ℕ → Byte} {buf : Addr} {s : ReportState} {kb : Keyboard}

/-! ## The buffer -/

/-- The buffer holds as much of the next report as has been stored, or the whole of the report that
is to be looked up. -/
def ReportState.Holds (reports : ℕ → ℕ → Byte) (s : ReportState) : Prop :=
  s.completed = s.looked ∧ (∀ j < s.stored, s.keybuf j = reports s.completed j) ∨
    s.completed = s.looked + 1 ∧ s.stored = 0 ∧ ∀ j < 8, s.keybuf j = reports s.looked j

theorem ReportState.Holds.env {i : Complete} {s' : ReportState} (h : s.Holds reports)
    (hguard : ReportsSpaced s (.env i)) (hstep : (reportMachine reports buf).env s i s') :
    s'.Holds reports := by
  cases i with
  | store =>
    obtain ⟨-, -, rfl⟩ := hstep
    rcases h with ⟨hcompleted, hstored⟩ | ⟨hcompleted, hzero, -⟩
    · refine .inl ⟨hcompleted, fun j hj ↦ ?_⟩
      rcases Nat.lt_succ_iff_lt_or_eq.mp hj with hlt | rfl
      · exact (Function.update_of_ne hlt.ne _ _).trans (hstored j hlt)
      · exact Function.update_self _ _ _
    · have := hguard hzero
      omega
  | post =>
    obtain ⟨hfull, rfl⟩ := hstep
    rcases h with ⟨hcompleted, hstored⟩ | ⟨-, hzero, -⟩
    · refine .inr ⟨congrArg (· + 1) hcompleted, rfl, fun j hj ↦ ?_⟩
      rw [← hfull] at hj
      exact (hstored j hj).trans (by rw [hcompleted]; rfl)
    · omega

theorem ReportState.Holds.keybuf_eq (h : s.Holds reports) (hlt : s.looked < s.completed) {j : ℕ}
    (hj : j < 8) : s.keybuf j = reports s.looked j := by
  rcases h with ⟨hcompleted, -⟩ | ⟨-, -, hwhole⟩
  · omega
  · exact hwhole j hj

/-- Where the driver is: it has begun the look-up of so many reports more than it has printed, and
ended the look-up of so many. -/
structure ReportState.Round (reports : ℕ → ℕ → Byte) (fresh : Bool) (begun ended : ℕ)
    (s : ReportState) : Prop where
  holds : s.Holds reports
  inOrder : s.InOrder reports
  fresh_eq : s.fresh = fresh
  taken_eq : s.taken = s.results.length + begun
  looked_eq : s.looked = s.results.length + ended
  le : s.taken ≤ s.completed

theorem stable_round (fresh : Bool) (begun ended : ℕ) (G : Addr → ℕ → Prop) :
    (reportMachine reports buf).Stable ReportsSpaced fun s ↦
      s.Round reports fresh begun ended ∧ G s.slot s.results.length := by
  rintro s i s' ⟨h, hG⟩ hguard hstep
  have hholds := h.holds.env hguard hstep
  cases i with
  | store =>
    obtain ⟨-, -, rfl⟩ := hstep
    exact ⟨⟨hholds, h.inOrder, h.fresh_eq, h.taken_eq, h.looked_eq, h.le⟩, hG⟩
  | post =>
    obtain ⟨-, rfl⟩ := hstep
    exact ⟨⟨hholds, h.inOrder, h.fresh_eq, h.taken_eq, h.looked_eq, Nat.le_succ_of_le h.le⟩, hG⟩

theorem ReportState.Round.keybuf_eq (h : s.Round reports true 1 0) {j : ℕ} (hj : j < 8) :
    s.keybuf j = reports s.results.length j := by
  have hlooked := h.looked_eq
  have htaken := h.taken_eq
  have hle := h.le
  rw [h.holds.keybuf_eq (by omega) hj, hlooked, Nat.add_zero]

/-- The look-up ends. -/
theorem ReportState.Round.look (h : s.Round reports true 1 0) :
    ReportState.Round reports true 1 1 { s with looked := s.looked + 1 } := by
  have hlooked := h.looked_eq
  have htaken := h.taken_eq
  have hle := h.le
  refine ⟨?_, h.inOrder, h.fresh_eq, htaken, congrArg (· + 1) hlooked, hle⟩
  rcases h.holds with ⟨hcompleted, -⟩ | ⟨hcompleted, hzero, -⟩
  · omega
  · refine .inl ⟨hcompleted, fun j hj ↦ ?_⟩
    simp only [hzero] at hj
    exact absurd hj (Nat.not_lt_zero j)

/-- The result is printed. -/
theorem ReportState.Round.print (h : s.Round reports true 1 1) {c : Byte}
    (hc : c = lookUp (reports s.results.length)) : ReportState.Round reports false 0 0
      { s with fresh := false, results := s.results ++ [c] } := by
  have hlength : (s.results ++ [c]).length = s.results.length + 1 := by simp
  refine ⟨h.holds, ?_, rfl, h.taken_eq.trans hlength.symm, h.looked_eq.trans hlength.symm, h.le⟩
  rw [ReportState.InOrder]
  simp only
  rw [hlength, List.range_succ, List.map_append, List.map_singleton, ← hc, ← h.inOrder]

/-! ## A round of the loop -/

/-- Queueing a TRB changes nothing that has been read. -/
theorem wp_writeRing_report (ring : Ring) (t : Trb) (h : s.Round reports false 0 0) :
    (reportMachine reports buf).wp (reportContract reports) (writeRing ring t)
      (fun _ s ↦ s.Round reports false 0 0) s := by
  have hstable : (reportMachine reports buf).Stable (reportContract reports).guard
      fun s ↦ s.Round reports false 0 0 :=
    fun s i s' h hg hstep ↦ (stable_round false 0 0 (fun _ _ ↦ True) s i s' ⟨h, trivial⟩ hg hstep).1
  refine wp_of_only hstable (fun s h ↦ h.inOrder) ?_ (writeRing_only ring t) h
  intro e s he h _
  refine ⟨trivial, ?_⟩
  cases e with
  | call t =>
    rintro _ _ rfl
    exact ⟨h.holds, h.inOrder, h.fresh_eq, h.taken_eq, h.looked_eq, h.le⟩
  | store a v =>
    rintro _ _ rfl
    exact h
  | returned =>
    rintro _ _ rfl
    exact h
  | _ => exact he.elim

/-- `read_usb_keyboard` from the event on. -/
def takeReport (kb : Keyboard) (trb : Addr) : RingProg (Keyboard × Byte) := do
  let head ← loadTrb trb
  if head.type = 32 then
    let event ← loadTrb trb
    if event.ptr ≠ 0 then
      let trb2 ← loadTrb (p2v event.ptr)
      if trb2.type = 1 ∧ (event.code = 1 ∨ event.code = 13) then
        let modifiers ← loadByte kb.keybuf
        let code ← loadByte (kb.keybuf + 2)
        let key := if modifiers &&& 0x22 ≠ 0 then keytable1 else keytable0
        pure (kb, key.getD code.toNat 0)
      else pure (kb, 0)
    else pure (kb, 0)
  else pure (kb, 0)

/-- The event leads to the buffer, and the buffer holds the report. -/
theorem wp_takeReport {trb : Addr} (hbuf : kb.keybuf = buf) (h : s.Round reports true 1 0)
    (hslot : s.slot = trb) :
    (reportMachine reports buf).wp (reportContract reports) (takeReport kb trb)
      (fun r s ↦ r.1.keybuf = buf ∧ (s.Round reports false 0 0 ∨
        s.Round reports true 1 1 ∧ r.2 = lookUp (reports s.results.length))) s := by
  -- the type of the event
  refine wp_op (stable_round true 1 0 fun a _ ↦ a = trb) (fun _ h ↦ h.1.inOrder) ?_ ⟨h, hslot⟩
  rintro s ⟨h, hslot⟩ -
  refine ⟨trivial, ?_⟩
  rintro (head : Trb) _ ⟨rfl, hhead⟩
  rw [if_pos hslot.symm] at hhead
  refine wp_ite (fun _ ↦ ?_) fun htype ↦ absurd hhead.1.1 htype
  -- the whole event
  refine wp_op (stable_round true 1 0 fun a _ ↦ a = trb) (fun _ h ↦ h.1.inOrder) ?_ ⟨h, hslot⟩
  rintro s ⟨h, hslot⟩ -
  refine ⟨trivial, ?_⟩
  rintro (event : Trb) _ ⟨rfl, hevent⟩
  rw [if_pos hslot.symm] at hevent
  obtain ⟨⟨-, hcode, hptr⟩, hne⟩ := hevent
  refine wp_ite (fun _ ↦ ?_) fun hnull ↦ absurd hptr hnull
  -- the TRB it leads to
  refine wp_op (stable_round true 1 0 fun a _ ↦ p2v event.ptr ≠ a)
    (fun _ h ↦ h.1.inOrder) ?_ ⟨h, hne⟩
  rintro s ⟨h, hne⟩ -
  refine ⟨trivial, ?_⟩
  rintro (trb2 : Trb) _ ⟨rfl, htrb2⟩
  rw [if_neg hne] at htrb2
  refine wp_ite (fun _ ↦ ?_) fun hother ↦ absurd ⟨htrb2, hcode⟩ hother
  -- the modifiers
  refine wp_op (stable_round true 1 0 fun _ _ ↦ True) (fun _ h ↦ h.1.inOrder) ?_ ⟨h, trivial⟩
  rintro s ⟨h, -⟩ -
  refine ⟨trivial, ?_⟩
  rintro (modifiers : Byte) s' ⟨hmodifiers, hs'⟩
  have hfirst : buf ≠ buf + 2 := by bv_omega
  rw [hbuf, BitVec.sub_self, h.keybuf_eq (by decide)] at hmodifiers
  rw [hbuf, if_neg hfirst] at hs'
  subst hs'
  -- the code of the key
  refine wp_op (stable_round true 1 0 fun _ k ↦ modifiers = reports k 0) (fun _ h ↦ h.1.inOrder) ?_
    ⟨h, hmodifiers⟩
  rintro s ⟨h, hmodifiers⟩ -
  refine ⟨trivial, ?_⟩
  rintro (code : Byte) s' ⟨hcode, hs'⟩
  have hsecond : (buf + 2 - buf).toNat = 2 := by bv_omega
  rw [hbuf, hsecond, h.keybuf_eq (by decide)] at hcode
  rw [hbuf, if_pos rfl] at hs'
  subst hs'
  refine wp_ret (stable_round true 1 1 fun _ k ↦ modifiers = reports k 0 ∧ code = reports k 2)
    (fun _ h ↦ h.1.inOrder) ?_ ⟨h.look, hmodifiers, hcode⟩
  rintro s ⟨h, rfl, rfl⟩
  exact ⟨hbuf, .inr ⟨h, rfl⟩⟩

theorem wp_readUsbKeyboard_report (hbuf : kb.keybuf = buf) (h : s.Round reports false 0 0) :
    (reportMachine reports buf).wp (reportContract reports) (readUsbKeyboard kb)
      (fun r s ↦ r.1.keybuf = buf ∧ (s.Round reports false 0 0 ∨
        s.Round reports true 1 1 ∧ r.2 = lookUp (reports s.results.length))) s := by
  refine wp_bind ((wp_writeRing_report _ _ h).mono ?_)
  intro ring s h
  -- the doorbell
  refine wp_op (stable_round false 0 0 fun _ _ ↦ True) (fun _ h ↦ h.1.inOrder) ?_ ⟨h, trivial⟩
  rintro s h -
  refine ⟨trivial, ?_⟩
  rintro _ _ rfl
  -- `er_isQueued`
  refine wp_op (stable_round false 0 0 fun _ _ ↦ True) (fun _ h ↦ h.1.inOrder) ?_ h
  rintro s h -
  refine ⟨trivial, ?_⟩
  rintro (queued : Bool) _ ⟨-, rfl⟩
  refine wp_ite (fun _ ↦ ?_) fun _ ↦ ?_
  · -- `get_eventring`
    refine wp_op (stable_round false 0 0 fun _ _ ↦ True) (fun _ h ↦ h.1.inOrder) ?_ h
    rintro s ⟨h, -⟩ -
    refine ⟨trivial, ?_⟩
    rintro (trb : Addr) _ ⟨hlt, rfl⟩
    have htaken : ReportState.Round reports true 1 0
        { s with taken := s.taken + 1, slot := trb, fresh := true } :=
      ⟨h.holds, h.inOrder, rfl, congrArg (· + 1) h.taken_eq, h.looked_eq, hlt⟩
    exact wp_takeReport hbuf htaken rfl
  · refine wp_ret (stable_round false 0 0 fun _ _ ↦ True) (fun _ h ↦ h.1.inOrder) ?_ h
    exact fun s h ↦ ⟨hbuf, .inl h.1⟩

theorem wp_pollKeyboard_report (n : ℕ) (hbuf : kb.keybuf = buf) (h : s.Round reports false 0 0) :
    (reportMachine reports buf).wp (reportContract reports) (pollKeyboard n kb)
      (fun _ _ ↦ True) s := by
  induction n generalizing kb s with
  | zero =>
    exact wp_ret (stable_round false 0 0 fun _ _ ↦ True) (fun _ h ↦ h.1.inOrder)
      (fun _ _ ↦ trivial) ⟨h, trivial⟩
  | succ n ih =>
    refine wp_bind ((wp_readUsbKeyboard_report hbuf h).mono ?_)
    rintro ⟨kb', c⟩ s ⟨hbuf', h | ⟨h, hc⟩⟩
    · refine wp_op (stable_round false 0 0 fun _ _ ↦ True) (fun _ h ↦ h.1.inOrder) ?_ ⟨h, trivial⟩
      rintro s ⟨h, -⟩ -
      refine ⟨trivial, ?_⟩
      rintro _ _ rfl
      refine ih hbuf' ⟨h.holds, ?_, rfl, ?_, ?_, h.le⟩
      · simp only [ReportState.InOrder, h.fresh_eq, Bool.false_eq_true, if_false]
        exact h.inOrder
      · simp only [h.fresh_eq, Bool.false_eq_true, if_false]
        exact h.taken_eq
      · simp only [h.fresh_eq, Bool.false_eq_true, if_false]
        exact h.looked_eq
    · refine wp_op (stable_round true 1 1 fun _ k ↦ c = lookUp (reports k))
        (fun _ h ↦ h.1.inOrder) ?_ ⟨h, hc⟩
      rintro s ⟨h, hc⟩ -
      refine ⟨trivial, ?_⟩
      rintro _ _ rfl
      simp only [h.fresh_eq, if_true]
      exact ih hbuf' (h.print hc)

/-- **Reports are looked up once each, in their order**, if none is begun before the one before has
been looked up. -/
theorem key_reports_in_order {n : ℕ} {p : RingProg Keyboard}
    (hrun : (reportMachine reports kb.keybuf).Runs ReportsSpaced (pollKeyboard n kb, .start)
      (p, s)) : s.InOrder reports := by
  have hstart : ReportState.start.Round reports false 0 0 :=
    ⟨.inl ⟨rfl, nofun⟩, rfl, rfl, rfl, rfl, le_rfl⟩
  exact ((wp_pollKeyboard_report n rfl hstart).run hrun).inv

/-! ## Runs that exist -/

theorem exec_loadByte_zero (s : ReportState) :
    (reportMachine reports buf).exec (.loadByte buf) s (s.keybuf 0) s := by
  have hne : buf ≠ buf + 2 := by bv_omega
  refine ⟨?_, ?_⟩
  · rw [BitVec.sub_self]
    rfl
  · rw [if_neg hne]

theorem exec_loadByte_two (s : ReportState) :
    (reportMachine reports buf).exec (.loadByte (buf + 2)) s (s.keybuf 2)
      { s with looked := s.looked + 1 } := by
  have htwo : (buf + 2 - buf).toNat = 2 := by bv_omega
  refine ⟨?_, ?_⟩
  · rw [htwo]
  · rw [if_pos rfl]

variable (reports kb) (guard : ReportState → Act RingOp Complete → Prop)

theorem mayReturn_idle (hguard : ∀ s e, guard s (.own e)) (hempty : s.taken = s.completed) :
    (reportMachine reports kb.keybuf).mayReturn guard (readUsbKeyboard kb)
      (fun r s' ↦ r.1.keybuf = kb.keybuf ∧ s' = { s with queued := s.queued + 1 }) s := by
  refine mayReturn_bind ((mayReturn_writeRing_only (M := reportMachine reports kb.keybuf)
    (fun s e _ ↦ hguard s e)
    (fun s ↦ { s with queued := s.queued + 1 }) (fun _ _ ↦ rfl) (fun _ _ _ ↦ rfl) (fun _ ↦ rfl)
    _ _ s).mono ?_)
  rintro ring _ rfl
  refine ⟨hguard _ _, (), _, rfl, hguard _ _, false, _, ⟨?_, rfl⟩, rfl, rfl⟩
  exact (decide_eq_false (by simp [hempty])).symm

/-- A Transfer Event that reports success, for the TRB at 16. -/
def successEvent : Trb := ⟨16, 0, 1#32 <<< 24, 32#32 <<< 10⟩

theorem mayReturn_key (hguard : ∀ s e, guard s (.own e)) (hqueued : s.taken < s.completed) :
    (reportMachine reports kb.keybuf).mayReturn guard (readUsbKeyboard kb)
      (fun r s' ↦ r.1.keybuf = kb.keybuf ∧ r.2 = lookUp s.keybuf ∧ s' = { s with
        queued := s.queued + 1, taken := s.taken + 1, slot := 0, looked := s.looked + 1,
        fresh := true }) s := by
  refine mayReturn_bind ((mayReturn_writeRing_only (M := reportMachine reports kb.keybuf)
    (fun s e _ ↦ hguard s e)
    (fun s ↦ { s with queued := s.queued + 1 }) (fun _ _ ↦ rfl) (fun _ _ _ ↦ rfl) (fun _ ↦ rfl)
    _ _ s).mono ?_)
  rintro ring _ rfl
  obtain ⟨event, hevent⟩ : ∃ t : Trb, t.Succeeded ∧ p2v t.ptr ≠ 0 := by
    refine ⟨successEvent, ⟨?_, ?_, ?_⟩, ?_⟩ <;> decide
  have hload : ∀ s : ReportState, s.slot = 0 → (reportMachine reports kb.keybuf).exec
      (.loadTrb 0) s event s := fun s hs ↦ ⟨rfl, by
        rw [hs, if_pos rfl]
        exact hevent⟩
  refine ⟨hguard _ _, (), _, rfl, hguard _ _, true, _, ⟨(decide_eq_true hqueued).symm, rfl⟩, ?_⟩
  refine ⟨hguard _ _, (0 : Addr), _, ⟨hqueued, rfl⟩, hguard _ _, event, _, hload _ rfl, ?_⟩
  refine mayReturn_ite (fun _ ↦ ?_) fun h ↦ absurd hevent.1.1 h
  refine ⟨hguard _ _, event, _, hload _ rfl, ?_⟩
  refine mayReturn_ite (fun _ ↦ ?_) fun h ↦ absurd hevent.1.2.2 h
  obtain ⟨trb2, htrb2⟩ : ∃ t : Trb, t.type = 1 := ⟨initNormalTrb 0, by decide⟩
  refine ⟨hguard _ _, trb2, _, ⟨rfl, ?_⟩, ?_⟩
  · rw [if_neg hevent.2]
    exact htrb2
  refine mayReturn_ite (fun _ ↦ ?_) fun h ↦ absurd ⟨htrb2, hevent.1.2.1⟩ h
  exact ⟨hguard _ _, _, _, exec_loadByte_zero _, hguard _ _, _, _, exec_loadByte_two _, rfl, rfl,
    rfl⟩

/-- The controller completes a report. -/
theorem exists_report (buf : Addr) (guard : ReportState → Act RingOp Complete → Prop)
    (hqueued : s.completed < s.queued) (hstored : s.stored = 0)
    (hguard : ∀ s' : ReportState, s'.completed = s.completed → s'.looked = s.looked →
      ∀ i, guard s' (.env i)) :
    ∃ keybuf, (reportMachine reports buf).Others guard s
        { s with keybuf := keybuf, completed := s.completed + 1 } ∧
      ∀ j < 8, keybuf j = reports s.completed j := by
  have hstores : ∀ m ≤ 8, ∃ keybuf, (reportMachine reports buf).Others guard s
      { s with keybuf := keybuf, stored := m } ∧ ∀ j < m, keybuf j = reports s.completed j := by
    intro m hm
    induction m with
    | zero =>
      refine ⟨s.keybuf, ?_, nofun⟩
      rw [← hstored]
      exact .refl s
    | succ m ih =>
      obtain ⟨keybuf, hothers, hkeybuf⟩ := ih (by omega)
      refine ⟨Function.update keybuf m (reports s.completed m), hothers.tail (i := .store)
        (hguard { s with keybuf := keybuf, stored := m } rfl rfl _) ⟨hqueued, hm, rfl⟩,
        fun j hj ↦ ?_⟩
      rcases Nat.lt_succ_iff_lt_or_eq.mp hj with hlt | rfl
      · rw [Function.update_of_ne hlt.ne]
        exact hkeybuf j hlt
      · exact Function.update_self _ _ _
  obtain ⟨keybuf, hothers, hkeybuf⟩ := hstores 8 le_rfl
  refine ⟨keybuf, hothers.tail (i := .post)
    (hguard { s with keybuf := keybuf, stored := 8 } rfl rfl _) ⟨rfl, ?_⟩, hkeybuf⟩
  rw [ReportState.post, hstored]

/-- A round of the loop that finds no event. -/
theorem exists_idle_round (hguard : ∀ s e, guard s (.own e)) (hempty : s.taken = s.completed)
    (hfresh : s.fresh = false) (n : ℕ) : ∃ kb' : Keyboard, kb'.keybuf = kb.keybuf ∧
      (reportMachine reports kb.keybuf).Runs guard (pollKeyboard (n + 1) kb, s)
        (pollKeyboard n kb', { s with queued := s.queued + 1 }) := by
  obtain ⟨⟨kb', c⟩, s', hrun, hkb', rfl⟩ := (mayReturn_idle reports kb guard
    hguard hempty).exists_run fun r ↦ printChar r.2 >>= fun _ ↦ pollKeyboard n r.1
  refine ⟨kb', hkb', hrun.tail (i := .own (.print c)) (hguard _ _) (.own (r := ()) ?_)⟩
  show _ = { s with queued := s.queued + 1, fresh := false, results := if s.fresh then _ else _ }
  rw [hfresh]
  rfl

/-- A round that finds one. -/
theorem exists_key_round (hguard : ∀ s e, guard s (.own e)) (hqueued : s.taken < s.completed)
    (n : ℕ) : ∃ kb' : Keyboard, kb'.keybuf = kb.keybuf ∧
      (reportMachine reports kb.keybuf).Runs guard (pollKeyboard (n + 1) kb, s)
        (pollKeyboard n kb', { s with
          queued := s.queued + 1, taken := s.taken + 1, slot := 0, looked := s.looked + 1,
          fresh := false, results := s.results ++ [lookUp s.keybuf] }) := by
  obtain ⟨⟨kb', c⟩, s', hrun, hkb', rfl, rfl⟩ := (mayReturn_key reports kb guard
    hguard hqueued).exists_run fun r ↦ printChar r.2 >>= fun _ ↦ pollKeyboard n r.1
  exact ⟨kb', hkb', hrun.tail (i := .own (.print (lookUp s.keybuf))) (hguard _ _)
    (.own (r := ()) rfl)⟩

end Reports

/-- The keys a, b, … one after another. -/
def typedKeys (k j : ℕ) : Byte := if j = 2 then BitVec.ofNat 8 (4 + k) else 0

theorem lookUp_typedKeys {keybuf : ℕ → Byte} {k : ℕ} (h : ∀ j < 8, keybuf j = typedKeys k j) :
    lookUp keybuf = lookUp (typedKeys k) := by
  rw [lookUp, lookUp, h 0 (by decide), h 2 (by decide)]

/-- TRBs have been queued and reports completed, and nothing has been looked up. -/
def ReportState.waiting (keybuf : ℕ → Byte) (queued completed : ℕ) : ReportState :=
  { start with keybuf := keybuf, queued := queued, completed := completed }

/-- The controller may begin a report when all completed ones have been looked up. -/
theorem reportsSpaced_env {s s' : ReportState} (hlooked : s.looked = s.completed)
    (h : s'.completed = s.completed) (h' : s'.looked = s.looked) (i : Complete) :
    ReportsSpaced s' (.env i) := by
  cases i with
  | store => exact fun _ ↦ (h'.trans hlooked).trans h.symm
  | post => trivial

/-- Two keys, the second one when the first has been looked up. -/
theorem key_reports_in_order_two : ∃ (kb : Keyboard) (s : ReportState),
    (reportMachine typedKeys slotOneKeyboard.keybuf).Runs ReportsSpaced
      (pollKeyboard 3 slotOneKeyboard, .start) (pollKeyboard 0 kb, s) ∧
    s.results = [0x61, 0x62] ∧ s.InOrder typedKeys := by
  have hguard : ∀ (s : ReportState) e, ReportsSpaced s (.own e) := fun _ _ ↦ trivial
  obtain ⟨kb₁, hkb₁, hrun₁⟩ := exists_idle_round typedKeys slotOneKeyboard
    ReportsSpaced (s := .start) hguard rfl rfl 2
  obtain ⟨keybuf, hreport, hkeybuf⟩ := exists_report typedKeys slotOneKeyboard.keybuf ReportsSpaced
    (s := .waiting (fun _ ↦ 0) 1 0) Nat.one_pos rfl fun _ ↦ reportsSpaced_env rfl
  obtain ⟨kb₂, hkb₂, hrun₂⟩ := exists_key_round typedKeys kb₁ ReportsSpaced
    (s := .waiting keybuf 1 1) hguard Nat.one_pos 1
  -- the state when the first key has been printed
  let t : ReportState := { ReportState.waiting keybuf 2 1 with
    taken := 1, slot := 0, looked := 1, fresh := false, results := [lookUp keybuf] }
  obtain ⟨keybuf', hreport', hkeybuf'⟩ := exists_report typedKeys slotOneKeyboard.keybuf
    ReportsSpaced (s := t) Nat.one_lt_two rfl fun _ ↦ reportsSpaced_env rfl
  obtain ⟨kb₃, -, hrun₃⟩ := exists_key_round typedKeys kb₂ ReportsSpaced
    (s := { t with keybuf := keybuf', completed := 2 }) hguard Nat.one_lt_two 0
  rw [hkb₂, hkb₁] at hrun₃
  rw [hkb₁] at hrun₂
  have hfirst := (hrun₁.trans (runs_of_others hreport)).trans hrun₂
  have hrun := (hfirst.trans (runs_of_others hreport')).trans hrun₃
  refine ⟨kb₃, _, hrun, ?_, key_reports_in_order hrun⟩
  have hlook : lookUp keybuf = 0x61 := (lookUp_typedKeys hkeybuf).trans (by decide)
  have hlook' : lookUp keybuf' = 0x62 := (lookUp_typedKeys (k := 1) hkeybuf').trans (by decide)
  exact congrArg₂ (fun a b ↦ [a, b]) hlook hlook'

/-- Two reports are stored before the first is looked up. -/
theorem key_report_lost : ¬∀ (reports : ℕ → ℕ → Byte) (n : ℕ) (kb : Keyboard)
    (p : RingProg Keyboard) (s : ReportState),
    (reportMachine reports kb.keybuf).Runs (fun _ _ ↦ True) (pollKeyboard n kb, .start) (p, s) →
      s.InOrder reports := by
  intro h
  obtain ⟨kb₁, hkb₁, hrun₁⟩ := exists_idle_round typedKeys slotOneKeyboard
    (fun _ _ ↦ True) (s := .start) (fun _ _ ↦ trivial) rfl rfl 2
  obtain ⟨kb₂, hkb₂, hrun₂⟩ := exists_idle_round typedKeys kb₁ (fun _ _ ↦ True)
    (s := .waiting (fun _ ↦ 0) 1 0) (fun _ _ ↦ trivial) rfl rfl 1
  obtain ⟨keybuf₁, hreport₁, -⟩ := exists_report typedKeys kb₁.keybuf
    (fun _ _ ↦ True) (s := .waiting (fun _ ↦ 0) 2 0) Nat.two_pos rfl
    fun _ _ _ _ ↦ trivial
  obtain ⟨keybuf₂, hreport₂, hkeybuf⟩ := exists_report typedKeys kb₁.keybuf
    (fun _ _ ↦ True) (s := .waiting keybuf₁ 2 1) Nat.one_lt_two rfl
    fun _ _ _ _ ↦ trivial
  obtain ⟨kb₃, -, hrun₃⟩ := exists_key_round typedKeys kb₂ (fun _ _ ↦ True)
    (s := .waiting keybuf₂ 2 2) (fun _ _ ↦ trivial) Nat.two_pos 0
  rw [hkb₂, hkb₁] at hrun₃
  rw [hkb₁] at hrun₂ hreport₁ hreport₂
  have hrun := (((hrun₁.trans hrun₂).trans (runs_of_others hreport₁)).trans
    (runs_of_others hreport₂)).trans hrun₃
  have hlook : lookUp keybuf₂ = lookUp (typedKeys 1) := lookUp_typedKeys hkeybuf
  have hinOrder := h typedKeys 3 slotOneKeyboard _ _ hrun
  rw [ReportState.InOrder] at hinOrder
  have hresults : [lookUp keybuf₂] = [lookUp (typedKeys 0)] := hinOrder
  rw [hlook] at hresults
  exact absurd hresults (by decide)

end VimOS
