import VimOS.Library.Fifo
import VimOS.Xhci.PortRuns
import VimOS.Xhci.Keyboard

/-!
# Two loops on one event ring

`vMain` of `kernel/kernel.c` calls `usb_process_events` once, which returns when it finds the event
ring empty, and from then on polls the keyboard. Both take their events from the same ring, but
`read_usb_keyboard` drops whatever is not for it: a completion or a change of a port that comes
after the start is never acted upon (`event_swallowed`). Nothing of that kind is lost in the runs in
which `read_usb_keyboard` takes no such event (`events_handled`).

The ring is seen here as a queue. When it is full, the slot the driver has taken an event from is
the next one written, so an event may change under the code that handles it.
-/

namespace VimOS

open Machine GuardedRun

/-! ## The driver's side -/

/-- The field `port` of a Port Status Change Event. -/
def Trb.port (t : Trb) : Byte := t.w0.extractLsb' 24 8

/-- An event as `usb_process_events` takes it, `issuer` being the TRB its `ptr` leads to. -/
def Trb.usbEvent (issuer t : Trb) : Option UsbEvent :=
  if t.type = 32 then some (.transfer t.code t.slotId)
  else if t.type = 33 then some (.commandCompletion issuer.type t.slotId)
  else if t.type = 34 then some (.portStatusChange t.port)
  else none

/-- The body of the loop of `usb_process_events`, for an event of any type. -/
def Driver.handle (r : Readings) (issuer t : Trb) (d : Driver) : Driver :=
  match Trb.usbEvent issuer t with
  | some event => d.process r event
  | none => d

/-- What the two loops do. `process` is the body of the loop of `usb_process_events`, for the TRB at
an address; `polling` is not in the source and marks that this loop has been left. -/
inductive MainOp : Type
  | ring (e : RingOp)
  | process (trb : Addr)
  | polling

/-- What an operation answers. -/
def MainOp.Answer : MainOp → Type
  | .ring e => e.Answer
  | .process _ => Unit
  | .polling => Unit

abbrev MainProg := Prog MainOp MainOp.Answer

def liftRing {α : Type} : RingProg α → MainProg α
  | .ret a => .ret a
  | .op e k => .op (.ring e) fun r ↦ liftRing (k r)

theorem liftRing_bind {α β : Type} (p : RingProg α) (f : α → RingProg β) :
    liftRing (p >>= f) = liftRing p >>= fun a ↦ liftRing (f a) := by
  induction p with
  | ret a => rfl
  | op e k ih => exact congrArg _ (funext ih)

/-- `usb_process_events`, its loop gone through at most `rounds` times; `false` if that was not
enough. -/
def usbProcessEvents : ℕ → MainProg Bool
  | 0 => pure false
  | rounds + 1 => do
    let queued ← liftRing callErIsQueued
    if queued then
      let trb ← liftRing callGetEventring
      let _ ← Prog.perform (MainOp.process trb)
      usbProcessEvents rounds
    else pure true

/-- The end of `vMain`. `kb` is what `init_usb_keyboard` has left, and the second loop is gone
through `polls` times. -/
def vMain (rounds polls : ℕ) (kb : Keyboard) : MainProg Unit := do
  let returned ← usbProcessEvents rounds
  if returned then
    let _ ← Prog.perform MainOp.polling
    let _ ← liftRing (pollKeyboard polls kb)

/-! ## The ring as a queue -/

/-- An event that the body of the loop of `usb_process_events` was run for: what the driver read,
and the TRB the event's `ptr` leads to. -/
structure HandledEvent where
  readings : Readings
  issuer : Trb
  event : Trb

/-- The body of the loop, for such an event. -/
def HandledEvent.apply (d : Driver) (h : HandledEvent) : Driver :=
  d.handle h.readings h.issuer h.event

/-- The events on the ring, oldest first, what stands in the slot an event was taken from last, and
the driver's variables. The rest keeps account: whether the first loop has been left, the events
that were `removed` and those that `usb_process_events` has `handled`. -/
structure MainState where
  queue : List Trb
  slot : Trb
  driver : Driver
  polling : Bool
  removed : List Trb
  handled : List HandledEvent

namespace MainState

def start (d : Driver) : MainState where
  queue := []
  slot := ⟨0, 0, 0, 0⟩
  driver := d
  polling := false
  removed := []
  handled := []

/-- The controller posts an event. The ring has 256 slots, the one freed last being the last to be
filled again. -/
def post (s : MainState) (t : Trb) : MainState :=
  { s with queue := s.queue ++ [t], slot := if s.queue.length = 255 then t else s.slot }

end MainState

/-- The effect of an operation. What the driver reads elsewhere may be anything. -/
def MainOp.exec : (e : MainOp) → MainState → e.Answer → MainState → Prop
  | .ring .isQueued, s, queued, s' => queued = !s.queue.isEmpty ∧ s' = s
  | .ring .getEvent, s, _, s' => ∃ t rest, s.queue = t :: rest ∧
    s' = { s with queue := rest, slot := t, removed := s.removed ++ [t] }
  | .ring _, s, _, s' => s' = s
  | .process _, s, _, s' => ∃ r issuer, s' = { s with
    driver := s.driver.handle r issuer s.slot, handled := s.handled ++ [⟨r, issuer, s.slot⟩] }
  | .polling, s, _, s' => s' = { s with polling := true }

/-- The driver and the controller, which may post an event at any time. -/
def mainMachine : Machine MainOp MainOp.Answer MainState Trb where
  exec := MainOp.exec
  env s t s' := s.queue.length < 256 ∧ s' = s.post t

/-- What is on the ring, and what was taken from it. -/
def MainState.fifo (s : MainState) : FifoQueue.Fifo Trb := ⟨s.queue, s.removed⟩

/-- Every step is one of the queue that the event ring is with a slot left free. -/
theorem mainMachine_queue {α : Type} {c c' : MainProg α × MainState} {i : Act MainOp Trb}
    (h : mainMachine.Step c i c') : FifoQueue.Step c.2.fifo c'.2.fifo := by
  cases h with
  | @own e k s s' r h =>
    cases e with
    | ring e =>
      cases e with
      | getEvent =>
        obtain ⟨t, rest, hqueue, rfl⟩ := h
        show FifoQueue.Step ⟨s.queue, s.removed⟩ ⟨rest, s.removed ++ [t]⟩
        rw [hqueue]
        exact .take t rest s.removed
      | isQueued =>
        obtain ⟨-, rfl⟩ := h
        exact .idle _
      | _ =>
        obtain rfl : s' = s := h
        exact .idle _
    | process t =>
      obtain ⟨r, issuer, rfl⟩ := h
      exact .idle _
    | polling =>
      obtain rfl : s' = { s with polling := true } := h
      exact .idle _
  | env h =>
    obtain ⟨-, rfl⟩ := h
    exact .put _ _ _

/-- In every run what has been posted keeps its order, on the ring and when it is removed. -/
theorem mainMachine_order {α : Type} {guard : MainState → Act MainOp Trb → Prop}
    {p p' : MainProg α} {s s' : MainState} (h : mainMachine.Runs guard (p, s) (p', s')) :
    s.removed ++ s.queue <+: s'.removed ++ s'.queue :=
  (FifoQueue.Steps.of_run (fun c : MainProg α × MainState ↦ c.2.fifo) h trivial
    fun _ _ _ _ _ hstep ↦ ⟨trivial, mainMachine_queue hstep⟩).keeps_order

/-! ## What is promised -/

/-- A Command Completion or Port Status Change Event. -/
def Trb.Reports (t : Trb) : Prop := t.type = 33 ∨ t.type = 34

instance : DecidablePred Trb.Reports := fun _ ↦ inferInstanceAs (Decidable (_ ∨ _))

/-- Every completion and every change of a port that was removed from the ring has been handled, in
the order of their removal, and the driver's variables are what that has made of them. -/
structure MainState.AllHandled (d : Driver) (s : MainState) : Prop where
  handled : s.removed.filter Trb.Reports =
    (s.handled.map HandledEvent.event).filter Trb.Reports
  applied : s.driver = s.handled.foldl HandledEvent.apply d

/-- `read_usb_keyboard` takes no completion and no change of a port, and the ring is never filled
up while `usb_process_events` is at work. -/
def SparesReports (s : MainState) : Act MainOp Trb → Prop
  | .own (.ring .getEvent) => s.polling → ∀ t ∈ s.queue.head?, ¬t.Reports
  | .own _ => True
  | .env _ => s.polling ∨ s.queue.length < 255

/-- Only the operation that takes an event is restricted. -/
theorem sparesReports_own (s : MainState) (e : RingOp) (he : e ≠ .getEvent) :
    SparesReports s (.own (.ring e)) := by
  cases e with
  | getEvent => exact absurd rfl he
  | _ => trivial

/-- Whenever the ring is looked at, everything removed before has been handled. -/
def mainContract (d : Driver) (guard : MainState → Act MainOp Trb → Prop) :
    Contract MainOp Trb MainState where
  guard := guard
  inv := fun _ ↦ True
  pre e s := match e with
    | .ring .isQueued => s.AllHandled d
    | _ => True

/-! ## What keeps it -/

section Handled

variable {α : Type} {d : Driver} {s : MainState}

theorem stable_handled :
    mainMachine.Stable SparesReports fun s ↦ s.AllHandled d ∧ s.polling = false := by
  rintro s t _ ⟨h, hpolling⟩ - ⟨-, rfl⟩
  exact ⟨⟨h.handled, h.applied⟩, hpolling⟩

theorem stable_polling :
    mainMachine.Stable SparesReports fun s ↦ s.AllHandled d ∧ s.polling = true := by
  rintro s t _ ⟨h, hpolling⟩ - ⟨-, rfl⟩
  exact ⟨⟨h.handled, h.applied⟩, hpolling⟩

/-- An event that was removed is not changed before it is handled. -/
theorem stable_removed : mainMachine.Stable SparesReports fun s ↦
    s.removed.filter Trb.Reports =
        (s.handled.map HandledEvent.event ++ [s.slot]).filter Trb.Reports ∧
      s.driver = s.handled.foldl HandledEvent.apply d ∧ s.polling = false := by
  rintro s t _ ⟨hremoved, happlied, hpolling⟩ hguard ⟨-, rfl⟩
  have hlt : s.queue.length ≠ 255 := by
    rcases hguard with hguard | hguard
    · rw [hpolling] at hguard
      cases hguard
    · omega
  refine ⟨?_, happlied, hpolling⟩
  simp only [MainState.post, if_neg hlt]
  exact hremoved

/-- Whatever the second loop does to the ring, it takes nothing that has to be handled. -/
theorem wp_liftRing (p : RingProg α) (h : s.AllHandled d ∧ s.polling = true) :
    mainMachine.wp (mainContract d SparesReports) (liftRing p)
      (fun _ s ↦ s.AllHandled d ∧ s.polling = true) s := by
  induction p generalizing s with
  | ret a => exact wp_ret stable_polling (fun _ _ ↦ trivial) (fun _ h ↦ h) h
  | op e k ih =>
    refine wp_op stable_polling (fun _ _ ↦ trivial) ?_ h
    rintro s ⟨h, hpolling⟩ hguard
    cases e with
    | isQueued =>
      refine ⟨h, ?_⟩
      rintro queued _ ⟨-, rfl⟩
      exact ih queued ⟨h, hpolling⟩
    | getEvent =>
      refine ⟨trivial, ?_⟩
      rintro trb _ ⟨t, rest, hqueue, rfl⟩
      have ht : ¬t.Reports := hguard hpolling t (by rw [hqueue]; rfl)
      refine ih trb ⟨⟨?_, h.applied⟩, hpolling⟩
      rw [List.filter_append, List.filter_singleton, decide_eq_false ht]
      exact (List.append_nil _).trans h.handled
    | _ =>
      refine ⟨trivial, ?_⟩
      rintro r _ rfl
      exact ih r ⟨h, hpolling⟩

theorem wp_usbProcessEvents (rounds : ℕ) (h : s.AllHandled d ∧ s.polling = false) :
    mainMachine.wp (mainContract d SparesReports) (usbProcessEvents rounds)
      (fun _ s ↦ s.AllHandled d ∧ s.polling = false) s := by
  induction rounds generalizing s with
  | zero => exact wp_ret stable_handled (fun _ _ ↦ trivial) (fun _ h ↦ h) h
  | succ rounds ih =>
    refine wp_op stable_handled (fun _ _ ↦ trivial) ?_ h
    rintro s h -
    refine ⟨h.1, ?_⟩
    rintro (queued : Bool) _ ⟨-, rfl⟩
    refine wp_ite (fun _ ↦ ?_) fun _ ↦ wp_ret stable_handled (fun _ _ ↦ trivial) (fun _ h ↦ h) h
    refine wp_op stable_handled (fun _ _ ↦ trivial) ?_ h
    rintro s ⟨h, hpolling⟩ -
    refine ⟨trivial, ?_⟩
    rintro trb _ ⟨t, rest, -, rfl⟩
    refine wp_op stable_removed (fun _ _ ↦ trivial) ?_ ⟨?_, h.applied, hpolling⟩
    · rintro s ⟨hremoved, happlied, hpolling⟩ -
      refine ⟨trivial, ?_⟩
      rintro _ _ ⟨r, issuer, rfl⟩
      refine ih ⟨⟨?_, ?_⟩, hpolling⟩
      · rw [List.map_append]
        exact hremoved
      · rw [List.foldl_append, ← happlied]
        rfl
    · rw [List.filter_append, List.filter_append, h.handled]

end Handled

/-- **No completion and no change of a port is swallowed** while `read_usb_keyboard` takes none of
them from the ring. -/
theorem events_handled {d : Driver} {rounds polls : ℕ} {kb : Keyboard} {s : MainState}
    {k : Bool → MainProg Unit}
    (hrun : mainMachine.Runs SparesReports (vMain rounds polls kb, .start d)
      (.op (.ring .isQueued) k, s)) : s.AllHandled d := by
  have hstart : (MainState.start d).AllHandled d ∧ (MainState.start d).polling = false :=
    ⟨⟨rfl, rfl⟩, rfl⟩
  have hwp : mainMachine.wp (mainContract d SparesReports) (vMain rounds polls kb)
      (fun _ _ ↦ True) (.start d) := by
    refine wp_bind ((wp_usbProcessEvents rounds hstart).mono ?_)
    rintro returned s h
    refine wp_ite (fun _ ↦ ?_) fun _ ↦
      wp_ret stable_handled (fun _ _ ↦ trivial) (fun _ _ ↦ trivial) h
    refine wp_op stable_handled (fun _ _ ↦ trivial) ?_ h
    rintro s ⟨h, -⟩ -
    refine ⟨trivial, ?_⟩
    rintro _ _ rfl
    have hpolling : MainState.AllHandled d { s with polling := true } ∧ true = true :=
      ⟨⟨h.handled, h.applied⟩, rfl⟩
    refine wp_bind (p := liftRing (pollKeyboard polls kb))
      ((wp_liftRing _ hpolling).mono fun _ s h ↦ ?_)
    exact wp_ret stable_polling (fun _ _ ↦ trivial) (fun _ _ ↦ trivial) h
  exact (hwp.run hrun).pre trivial

/-! ## The second loop at work -/

/-- The main machine, as far as the second loop makes use of it. -/
def pollingMachine : Machine RingOp RingOp.Answer MainState Trb where
  exec e := mainMachine.exec (.ring e)
  env := mainMachine.env

/-- What is asked of it. -/
def pollingGuard (guard : MainState → Act MainOp Trb → Prop) (s : MainState) :
    Act RingOp Trb → Prop
  | .own e => guard s (.own (.ring e))
  | .env t => guard s (.env t)

section Polling

variable {guard : MainState → Act MainOp Trb → Prop} {s : MainState}

theorem mayReturn_liftRing {α : Type} {p : RingProg α} {Q : α → MainState → Prop}
    (h : pollingMachine.mayReturn (pollingGuard guard) p Q s) :
    mainMachine.mayReturn guard (liftRing p) Q s := by
  induction p generalizing s with
  | ret a => exact h
  | op e k ih =>
    obtain ⟨hguard, r, s', hexec, hk⟩ := h
    exact ⟨hguard, r, s', hexec, ih r hk⟩

variable (hguard : ∀ s e, e ≠ .getEvent → guard s (.own (.ring e)))

include hguard

/-- The keyboard loop takes the next event, whether it is for it or not. -/
theorem mayReturn_readUsbKeyboard_take (kb : Keyboard) {t : Trb} {rest : List Trb}
    (hget : guard s (.own (.ring .getEvent))) (hqueue : s.queue = t :: rest) :
    pollingMachine.mayReturn (pollingGuard guard) (readUsbKeyboard kb)
      (fun _ s' ↦ s' = { s with queue := rest, slot := t, removed := s.removed ++ [t] }) s := by
  refine mayReturn_bind ((mayReturn_writeRing_only (M := pollingMachine)
    hguard id (fun _ _ ↦ rfl) (fun _ _ _ ↦ rfl) (fun _ ↦ rfl) _ _ s).mono ?_)
  rintro ring s' (rfl : s' = s)
  refine ⟨hguard _ _ nofun, (), _, rfl, hguard _ _ nofun, true, _, ⟨by rw [hqueue]; rfl, rfl⟩, ?_⟩
  refine ⟨hget, (0 : Addr), _, ⟨t, rest, hqueue, rfl⟩, hguard _ _ nofun, t, _, rfl, ?_⟩
  refine mayReturn_ite (fun _ ↦ ?_) fun _ ↦ rfl
  refine ⟨hguard _ _ nofun, t, _, rfl, mayReturn_ite (fun _ ↦ ?_) fun _ ↦ rfl⟩
  refine ⟨hguard _ _ nofun, initNormalTrb 0, _, rfl, mayReturn_ite (fun _ ↦ ?_) fun _ ↦ rfl⟩
  exact ⟨hguard _ _ nofun, (0 : Byte), _, rfl, hguard _ _ nofun, (0 : Byte), _, rfl, rfl⟩

/-- Every round of the keyboard loop looks at the ring. -/
theorem exists_isQueued {α : Type} (kb : Keyboard) (g : Keyboard × Byte → MainProg α)
    (s : MainState) : ∃ k, mainMachine.Runs guard
      (liftRing (readUsbKeyboard kb) >>= g, s) (.op (.ring .isQueued) k, s) := by
  obtain ⟨f, hf, hf'⟩ : ∃ f, liftRing (readUsbKeyboard kb) >>= g =
      liftRing (writeRing kb.ring (keyTrb kb.keybuf)) >>= f ∧
        ∀ ring, ∃ a v k' k, f ring = .op (.ring (.doorbell a v)) k' ∧
          k' () = .op (.ring .isQueued) k := by
    rw [readUsbKeyboard, liftRing_bind, Prog.bind_assoc]
    exact ⟨_, rfl, fun ring ↦ ⟨_, _, _, _, rfl, rfl⟩⟩
  have hwrite : mainMachine.mayReturn guard (liftRing (writeRing kb.ring (keyTrb kb.keybuf)))
      (fun _ s' ↦ s' = s) s :=
    mayReturn_liftRing (mayReturn_writeRing_only hguard id (fun _ _ ↦ rfl) (fun _ _ _ ↦ rfl)
      (fun _ ↦ rfl) kb.ring (keyTrb kb.keybuf) s)
  obtain ⟨ring, s', hrun, hs'⟩ := hwrite.exists_run f
  obtain ⟨a, v, k', k, hring, hk⟩ := hf' ring
  have hdoorbell : mainMachine.exec (.ring (.doorbell a v)) s' () s' := rfl
  have hother : RingOp.doorbell a v ≠ .getEvent := by simp
  rw [hring] at hrun
  have hlook := hrun.tail (i := .own (.ring (.doorbell a v)))
    (hguard _ (.doorbell a v) hother) (.own hdoorbell)
  rw [hk, hs'] at hlook
  rw [hf]
  exact ⟨k, hlook⟩

/-- An event comes while the keyboard is polled; it is taken from the ring, and the next round
begins. -/
theorem exists_poll {t : Trb} (kb : Keyboard) (hempty : s.queue = []) (henv : guard s (.env t))
    (hget : guard (s.post t) (.own (.ring .getEvent))) :
    ∃ (k : Bool → MainProg Unit), mainMachine.Runs guard
      (liftRing (pollKeyboard 2 kb) >>= fun _ ↦ pure (), s)
      (.op (.ring .isQueued) k,
        { s with queue := [], slot := t, removed := s.removed ++ [t] }) := by
  have hpost : mainMachine.env s t (s.post t) := by
    refine ⟨?_, rfl⟩
    rw [hempty]
    decide
  have hqueue : (s.post t).queue = [t] := by
    rw [MainState.post, hempty]
    rfl
  rw [pollKeyboard, liftRing_bind, Prog.bind_assoc]
  obtain ⟨r, s', hread, rfl⟩ := (mayReturn_liftRing
    (mayReturn_readUsbKeyboard_take hguard kb hget hqueue)).exists_run fun r ↦
      liftRing (printChar r.2 >>= fun _ ↦ pollKeyboard 1 r.1) >>= fun _ ↦ pure ()
  have hrun₁ := ((Run.refl _).tail (i := .env t) henv (.env hpost)).trans hread
  let s' : MainState := { s with queue := [], slot := t, removed := s.removed ++ [t] }
  have hprint : mainMachine.exec (.ring (.print r.2)) s' () s' := rfl
  have hrun₂ : mainMachine.Runs guard
      (liftRing (readUsbKeyboard kb) >>= fun r ↦
        liftRing (printChar r.2 >>= fun _ ↦ pollKeyboard 1 r.1) >>= fun _ ↦ pure (), s)
      (liftRing (pollKeyboard 1 r.1) >>= fun _ ↦ pure (), s') :=
    hrun₁.tail (i := .own (.ring (.print r.2))) (hguard _ (.print r.2) nofun) (.own hprint)
  rw [pollKeyboard, liftRing_bind, Prog.bind_assoc] at hrun₂
  obtain ⟨k, hlook⟩ := exists_isQueued hguard r.1 _ s'
  exact ⟨k, hrun₂.trans hlook⟩

end Polling

/-! ## A port that reports -/

/-- The Port Status Change Event of a port. -/
def statusChangeEvent (port : Byte) : Trb := ⟨port.setWidth 32 <<< 24, 0, 1#32 <<< 24, 34#32 <<< 10⟩

/-- A Transfer Event of the keyboard, in slot 1. -/
def keyEvent : Trb := ⟨0x1000, 0, 1#32 <<< 24, 32#32 <<< 10 ||| 1#32 <<< 24⟩

/-- A port reports while `usb_process_events` still looks at the ring, and the keyboard while it is
polled. -/
theorem events_handled_one : ∃ (s : MainState) (k : Bool → MainProg Unit),
    mainMachine.Runs SparesReports (vMain 2 2 slotOneKeyboard, .start (.start 0))
      (.op (.ring .isQueued) k, s) ∧ s.removed = [statusChangeEvent 1, keyEvent] ∧
        s.AllHandled (.start 0) := by
  let s₀ := MainState.start (.start 0)
  let s₁ := s₀.post (statusChangeEvent 1)
  let s₂ : MainState := { s₁ with
    queue := [], slot := statusChangeEvent 1, removed := [statusChangeEvent 1] }
  let s₃ : MainState := { s₂ with
    driver := s₂.driver.handle (portReports 1).readings (statusChangeEvent 1) s₂.slot
    handled := [⟨(portReports 1).readings, statusChangeEvent 1, statusChangeEvent 1⟩] }
  let s₄ : MainState := { s₃ with polling := true }
  have hpost : mainMachine.env s₀ (statusChangeEvent 1) s₁ := ⟨by decide, rfl⟩
  have hqueued : mainMachine.exec (.ring .isQueued) s₁ true s₁ := ⟨rfl, rfl⟩
  have hget : mainMachine.exec (.ring .getEvent) s₁ (0 : Addr) s₂ :=
    ⟨statusChangeEvent 1, [], rfl, rfl⟩
  have hprocess : mainMachine.exec (.process 0) s₂ () s₃ := ⟨_, _, rfl⟩
  have hempty : mainMachine.exec (.ring .isQueued) s₃ false s₃ := ⟨rfl, rfl⟩
  have hpolling : mainMachine.exec .polling s₃ () s₄ := rfl
  have hrun₁ : mainMachine.Runs SparesReports (vMain 2 2 slotOneKeyboard, s₀)
      (vMain 2 2 slotOneKeyboard, s₁) :=
    (Run.refl _).tail (i := .env (statusChangeEvent 1)) (Or.inr (by decide)) (.env hpost)
  have hguard₁ : SparesReports s₁ (.own (.ring .isQueued)) := trivial
  have hguard₂ : SparesReports s₁ (.own (.ring .getEvent)) := fun h ↦ absurd h (by decide)
  have hguard₃ : SparesReports s₂ (.own (.process 0)) := trivial
  have hguard₄ : SparesReports s₃ (.own (.ring .isQueued)) := trivial
  have hguard₅ : SparesReports s₃ (.own .polling) := trivial
  have hrun₂ : mainMachine.Runs SparesReports (vMain 2 2 slotOneKeyboard, s₀)
      (liftRing (pollKeyboard 2 slotOneKeyboard) >>= fun _ ↦ pure (), s₄) :=
    ((((hrun₁.tail hguard₁ (.own hqueued)).tail hguard₂ (.own hget)).tail hguard₃
      (.own hprocess)).tail hguard₄ (.own hempty)).tail hguard₅ (.own hpolling)
  obtain ⟨k, hpoll⟩ := exists_poll (s := s₄) (t := keyEvent) sparesReports_own slotOneKeyboard rfl
    (.inl rfl) fun _ t ht ↦ by
      obtain rfl : keyEvent = t := Option.some.inj ht
      decide
  exact ⟨_, k, hrun₂.trans hpoll, rfl, events_handled (hrun₂.trans hpoll)⟩

/-- A port that reports to the second loop is forgotten. -/
theorem event_swallowed : ¬∀ (rounds polls : ℕ) (kb : Keyboard) (s : MainState)
    (k : Bool → MainProg Unit),
    mainMachine.Runs (fun _ _ ↦ True) (vMain rounds polls kb, .start (.start 0))
      (.op (.ring .isQueued) k, s) → s.AllHandled (.start 0) := by
  intro h
  let s₀ := MainState.start (.start 0)
  let s₁ : MainState := { s₀ with polling := true }
  have hempty : mainMachine.exec (.ring .isQueued) s₀ false s₀ := ⟨rfl, rfl⟩
  have hpolling : mainMachine.exec .polling s₀ () s₁ := rfl
  have hrun : mainMachine.Runs (fun _ _ ↦ True) (vMain 1 2 slotOneKeyboard, s₀)
      (liftRing (pollKeyboard 2 slotOneKeyboard) >>= fun _ ↦ pure (), s₁) :=
    ((Run.refl _).tail (i := .own (.ring .isQueued)) trivial (.own hempty)).tail
      (i := .own .polling) trivial (.own hpolling)
  obtain ⟨k, hpoll⟩ := @exists_poll (fun _ _ ↦ True) s₁ (fun _ _ _ ↦ trivial)
    (statusChangeEvent 1) slotOneKeyboard rfl trivial trivial
  have hhandled := (h 1 2 slotOneKeyboard _ k (hrun.trans hpoll)).handled
  have hremoved : [statusChangeEvent 1].filter Trb.Reports = [statusChangeEvent 1] := by decide
  cases hremoved.symm.trans hhandled

end VimOS
