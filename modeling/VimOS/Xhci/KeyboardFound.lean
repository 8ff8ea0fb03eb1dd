import VimOS.Xhci.InputContext
import VimOS.Xhci.MainLoop

/-!
# Is there a keyboard to be polled?

`vMain` polls the keyboard as soon as `usb_process_events` has returned, and that is when it finds
the event ring empty for the first time. The ring that `read_usb_keyboard` writes to is set by
`init_usb_keyboard`, deep in the handling of a Transfer Event; the flag `usb_keyboard_found`, set
there too, is never looked at.

So the ring is there exactly if an event has led to a keyboard before the first look at an empty
ring (`keyboardReady_iff`).
-/

namespace VimOS

open GuardedRun

/-! ## The configurations of a device -/

/-- What the driver reads of a device, and what it gets from `alloc_mem`, while it handles a
Transfer Event: the buffer when the event comes in and while each configuration is parsed. -/
structure DeviceReading where
  device : ℕ → Byte
  configs : ℕ → ℕ → Byte
  speed : Byte
  alloc : ℕ → Addr
  fresh : ℕ → Page
  slot : ℕ → Context

/-- `bNumConfigurations`. -/
def DeviceReading.numConfigs (u : DeviceReading) : ℕ := (u.device 17).toNat

/-- `classCode`, `subClassCode` and `interface`. -/
def Parse.classes (s : Parse) : Byte × Byte × Byte := (s.classCode, s.subClassCode, s.interface)

/-- What the loop over the configurations has done; `flags` are the values of
`is_set_configuration`. -/
structure Configured where
  classes : Byte × Byte × Byte
  allocs : ℕ
  keyboards : List (Addr × Byte)
  rings : List Addr
  flags : List Bool

/-- The body of the loop; `none` is a panic. -/
def configureOne (u : DeviceReading) (f : Configured) (i : ℕ) : Option Configured :=
  if u.alloc f.allocs = 0 then none
  else
    match parseConfiguration (u.configs i) u.speed u.alloc (f.allocs + 1) f.classes (u.fresh i)
      (u.slot i) with
    | none => none
    | some s => some {
        classes := s.classes
        allocs := s.allocs
        keyboards := f.keyboards ++ s.keyboards
        rings := f.rings ++ s.rings
        flags := f.flags ++ [s.isSetConfiguration] }

/-- The loop over the configurations, up to index `n`. -/
def configureTo (u : DeviceReading) (n : ℕ) : Option Configured :=
  (List.range n).foldlM (configureOne u) ⟨(u.device 4, u.device 5, 0), 0, [], [], []⟩

/-! ## What the descriptors say -/

/-- The class codes after a descriptor. -/
def classOf (buf : ℕ → Byte) (c : Byte × Byte × Byte) (p : ℕ) : Byte × Byte × Byte :=
  if buf (p + 1) = 4 then (buf (p + 5), buf (p + 6), buf (p + 7)) else c

/-- An endpoint descriptor of an interrupt IN endpoint, with the class codes of a boot keyboard. -/
def KeyboardEndpoint (buf : ℕ → Byte) (c : Byte × Byte × Byte) (p : ℕ) : Prop :=
  buf (p + 1) = 5 ∧ IsBootKeyboard c.1 c.2.1 c.2.2 (endpointAt buf p)

/-- There is such an endpoint among the descriptors `l`, the class codes being those of the
interface descriptor before it. -/
def LeadsToKeyboard (buf : ℕ → Byte) (c : Byte × Byte × Byte) : List ℕ → Prop
  | [] => False
  | p :: l => KeyboardEndpoint buf c p ∨ LeadsToKeyboard buf (classOf buf c p) l

namespace DeviceReading

variable (u : DeviceReading)

/-- The class codes in force when configuration `i` is parsed. -/
def classesBefore : ℕ → Byte × Byte × Byte
  | 0 => (u.device 4, u.device 5, 0)
  | i + 1 => (descriptors (u.configs i)).foldl (classOf (u.configs i)) (classesBefore i)

/-- Some configuration of the device has the endpoint of a boot keyboard. -/
def HasKeyboard : Prop := ∃ i < u.numConfigs,
  LeadsToKeyboard (u.configs i) (u.classesBefore i) (descriptors (u.configs i))

end DeviceReading

/-! ## The walk finds what the descriptors say -/

section Walk

variable {buf : ℕ → Byte} {p n : ℕ} {speed : Byte} {alloc : ℕ → Addr} {s s' : Parse} {l : List ℕ}
  {u : DeviceReading} {f : Configured}

/-- Every call of `init_usb_keyboard` gets a ring that `new_ring` has made. -/
def RingsMade (keyboards : List (Addr × Byte)) (rings : List Addr) : Prop :=
  ∀ k ∈ keyboards, k.1 ≠ 0 ∧ k.1 ∈ rings

theorem RingsMade.append {ks ks' : List (Addr × Byte)} {rs rs' : List Addr} (h : RingsMade ks rs)
    (h' : RingsMade ks' rs') : RingsMade (ks ++ ks') (rs ++ rs') := by
  intro k hk
  rcases List.mem_append.mp hk with hk | hk
  · exact ⟨(h k hk).1, List.mem_append_left _ (h k hk).2⟩
  · exact ⟨(h' k hk).1, List.mem_append_right _ (h' k hk).2⟩

/-- What a descriptor does to the class codes and to the keyboards. -/
theorem descriptor_spec (h : s.descriptor buf speed alloc p = some s') :
    s'.classes = classOf buf s.classes p ∧
      ∃ ks rs, s'.keyboards = s.keyboards ++ ks ∧ s'.rings = s.rings ++ rs ∧ RingsMade ks rs ∧
        (ks ≠ [] ↔ KeyboardEndpoint buf s.classes p) := by
  rw [Parse.descriptor] at h
  split_ifs at h with hfour hfive
  · obtain rfl := Option.some.inj h
    refine ⟨(if_pos hfour).symm, [], [], ?_, ?_, List.forall_mem_nil _, ?_⟩
    · exact (List.append_nil _).symm
    · exact (List.append_nil _).symm
    · refine iff_of_false (fun hne ↦ hne rfl) fun hkey ↦ ?_
      rw [KeyboardEndpoint, hfour] at hkey
      exact absurd hkey.1 (by decide)
  · rw [Parse.endpoint] at h
    split_ifs at h with hnull
    obtain rfl := Option.some.inj h
    rw [not_or] at hnull
    have hclass : KeyboardEndpoint buf s.classes p ↔
        IsBootKeyboard s.classCode s.subClassCode s.interface (endpointAt buf p) :=
      and_iff_right hfive
    refine ⟨(if_neg hfour).symm, ?_⟩
    rw [hclass]
    by_cases hkey : IsBootKeyboard s.classCode s.subClassCode s.interface (endpointAt buf p)
    · refine ⟨[(alloc s.allocs, (endpointAt buf p).dci)], [alloc s.allocs],
        if_pos (decide_eq_true hkey), rfl, ?_, iff_of_true (List.cons_ne_nil _ _) hkey⟩
      exact List.forall_mem_singleton.mpr ⟨hnull.1, List.mem_singleton_self _⟩
    · refine ⟨[], [alloc s.allocs], ?_, rfl, List.forall_mem_nil _,
        iff_of_false (fun hne ↦ hne rfl) hkey⟩
      exact (if_neg (by simpa using hkey)).trans (List.append_nil _).symm
  · obtain rfl := Option.some.inj h
    refine ⟨(if_neg hfour).symm, [], [], ?_, ?_, List.forall_mem_nil _, ?_⟩
    · exact (List.append_nil _).symm
    · exact (List.append_nil _).symm
    · exact iff_of_false (fun hne ↦ hne rfl) fun hkey ↦ hfive hkey.1

theorem foldlM_descriptor_spec
    (h : l.foldlM (fun (s : Parse) p ↦ s.descriptor buf speed alloc p) s = some s') :
    s'.classes = l.foldl (classOf buf) s.classes ∧
      ∃ ks rs, s'.keyboards = s.keyboards ++ ks ∧ s'.rings = s.rings ++ rs ∧ RingsMade ks rs ∧
        (ks ≠ [] ↔ LeadsToKeyboard buf s.classes l) := by
  induction l generalizing s with
  | nil =>
    obtain rfl := Option.some.inj h
    exact ⟨rfl, [], [], (List.append_nil _).symm, (List.append_nil _).symm, List.forall_mem_nil _,
      iff_of_false (fun hne ↦ hne rfl) id⟩
  | cons p l ih =>
    rw [List.foldlM_cons] at h
    obtain ⟨s₁, hs₁, hrest⟩ := Option.bind_eq_some_iff.mp h
    obtain ⟨hclasses, ks, rs, hks, hrs, hmade, hkey⟩ := descriptor_spec hs₁
    obtain ⟨hclasses', ks', rs', hks', hrs', hmade', hkey'⟩ := ih hrest
    rw [hclasses] at hclasses' hkey'
    refine ⟨hclasses', ks ++ ks', rs ++ rs', ?_, ?_, hmade.append hmade', ?_⟩
    · rw [hks', hks, List.append_assoc]
    · rw [hrs', hrs, List.append_assoc]
    · rw [LeadsToKeyboard, ← hkey, ← hkey', ← not_and_or, ← List.append_eq_nil_iff]

theorem configureTo_spec (h : configureTo u n = some f) :
    f.classes = u.classesBefore n ∧ RingsMade f.keyboards f.rings ∧
      (f.keyboards ≠ [] ↔ ∃ i < n,
        LeadsToKeyboard (u.configs i) (u.classesBefore i) (descriptors (u.configs i))) := by
  induction n generalizing f with
  | zero =>
    obtain rfl := Option.some.inj h
    exact ⟨rfl, List.forall_mem_nil _, iff_of_false (fun hne ↦ hne rfl) fun ⟨i, hi, _⟩ ↦
      Nat.not_lt_zero i hi⟩
  | succ n ih =>
    rw [configureTo, List.range_succ, List.foldlM_append] at h
    obtain ⟨f₁, hf₁, hlast⟩ := Option.bind_eq_some_iff.mp h
    obtain ⟨hclasses, hmade, hkey⟩ := ih hf₁
    rw [List.foldlM_cons] at hlast
    obtain ⟨f₂, hf₂, hnil⟩ := Option.bind_eq_some_iff.mp hlast
    obtain rfl : f₂ = f := Option.some.inj hnil
    rw [configureOne] at hf₂
    split_ifs at hf₂ with hnull
    split at hf₂
    case h_1 => exact absurd hf₂ nofun
    case h_2 s hs =>
      obtain rfl := Option.some.inj hf₂
      rw [parseConfiguration_eq, hclasses] at hs
      obtain ⟨hclasses', ks, rs, hks, hrs, hmade', hkey'⟩ := foldlM_descriptor_spec hs
      rw [List.nil_append] at hks hrs
      refine ⟨hclasses', ?_, ?_⟩
      · rw [hks, hrs]
        exact hmade.append hmade'
      · rw [hks, Ne, List.append_eq_nil_iff, not_and_or, ← Ne, ← Ne, hkey, hkey',
          Nat.exists_lt_succ_right]
        rfl

end Walk

/-! ## The start of the machine -/

/-- The condition under which a Transfer Event leads to the configurations being parsed. -/
def ParsesConfigurations (noContext : Byte) (d : Driver) (t : Trb) : Prop :=
  t.type = 32 ∧ (t.code = 1 ∨ t.code = 13) ∧
    d.statusAt ((d.contextPort t.slotId noContext).toNat - 1) = some .getDescriptor

instance (noContext : Byte) (d : Driver) (t : Trb) :
    Decidable (ParsesConfigurations noContext d t) :=
  inferInstanceAs (Decidable (_ ∧ _))

/-- An event that `usb_process_events` has handled: the driver's variables before, and what was
read. -/
structure Handled where
  driver : Driver
  noContext : Byte
  event : Trb
  device : DeviceReading

/-- The event has led to a keyboard. -/
def Handled.FindsKeyboard (h : Handled) : Prop :=
  ParsesConfigurations h.noContext h.driver h.event ∧ h.device.HasKeyboard

/-- The events on the ring, the driver's variables and those of the keyboard. `rings` are the rings
that `new_ring` has made for endpoints; `polling` marks that `usb_process_events` has returned,
`halted` a panic, and `handled` keeps account. -/
structure BootState where
  queue : List Trb
  driver : Driver
  endpointRing : Addr
  slotId : Byte
  dci : Byte
  usbKeyboardFound : Bool
  rings : List Addr
  polling : Bool
  halted : Bool
  handled : List Handled

namespace BootState

/-- The pointer `s_endpoint_ring` is `NULL`. -/
def start (d : Driver) : BootState where
  queue := []
  driver := d
  endpointRing := 0
  slotId := 0
  dci := 0
  usbKeyboardFound := false
  rings := []
  polling := false
  halted := false
  handled := []

/-- `init_usb_keyboard`. -/
def initUsbKeyboard (endpointRing : Addr) (slotId dci : Byte) (s : BootState) : BootState :=
  { s with endpointRing := endpointRing, slotId := slotId, dci := dci, usbKeyboardFound := true }

/-- The calls of `init_usb_keyboard` for the keyboards of a device. -/
def initAll (slotId : Byte) (ks : List (Addr × Byte)) (s : BootState) : BootState :=
  ks.foldl (fun s k ↦ s.initUsbKeyboard k.1 slotId k.2) s

/-- The body of the loop of `usb_process_events`. -/
def handle (r : Readings) (issuer : Trb) (u : DeviceReading) (t : Trb)
    (s : BootState) : BootState :=
  let event : Handled := ⟨s.driver, r.noContext, t, u⟩
  let s' := { s with handled := s.handled ++ [event] }
  if ParsesConfigurations r.noContext s.driver t then
    match configureTo u u.numConfigs with
    | none => { s' with halted := true }
    | some f =>
      { s' with
        driver := s.driver.handle { r with keyboards := f.flags } issuer t
        rings := s.rings ++ f.rings }.initAll t.slotId f.keyboards
  else { s' with driver := s.driver.handle r issuer t }

/-- A round of the loop: it is left when the ring is empty. -/
def look (r : Readings) (issuer : Trb) (u : DeviceReading) (s : BootState) : BootState :=
  match s.queue with
  | [] => { s with polling := true }
  | t :: rest => { s with queue := rest }.handle r issuer u t

/-- `read_usb_keyboard` has the ring that it needs. -/
def Ready (s : BootState) : Prop :=
  s.usbKeyboardFound = true ∧ s.endpointRing ≠ 0 ∧ s.endpointRing ∈ s.rings

end BootState

/-- What happens from the start of `usb_process_events` on: the controller posts an event, the loop
goes round, or `vMain` calls `read_usb_keyboard`, which may take an event. -/
inductive BootLabel : Type
  | post (t : Trb)
  | look (r : Readings) (issuer : Trb) (u : DeviceReading)
  | read

def BootStep (s : BootState) : BootLabel → BootState → Prop
  | .post t, s' => s' = { s with queue := s.queue ++ [t] }
  | .look r issuer u, s' => s.polling = false ∧ s.halted = false ∧ s' = s.look r issuer u
  | .read, s' => s.polling = true ∧ s' = { s with queue := s.queue.tail }

theorem initAll_queue (slotId : Byte) (ks : List (Addr × Byte)) (s : BootState) :
    (s.initAll slotId ks).queue = s.queue := by
  induction ks generalizing s with
  | nil => rfl
  | cons k ks ih => exact ih _

theorem handle_queue (r : Readings) (issuer : Trb) (u : DeviceReading) (t : Trb) (s : BootState) :
    (s.handle r issuer u t).queue = s.queue := by
  rw [BootState.handle]
  split
  · split
    · rfl
    · rw [initAll_queue]
  · rfl

/-- Every step is one of the queue that the event ring is with a slot left free. -/
theorem bootStep_queue {s s' : BootState} {l : BootLabel} (h : BootStep s l s')
    (taken : List Trb) :
    ∃ taken', FifoQueue.Step ⟨s.queue, taken⟩ ⟨s'.queue, taken'⟩ := by
  cases l with
  | post t =>
    obtain rfl : s' = { s with queue := s.queue ++ [t] } := h
    exact ⟨taken, .put _ _ t⟩
  | look r issuer u =>
    obtain ⟨-, -, rfl⟩ := h
    cases hqueue : s.queue with
    | nil =>
      have hlook : (s.look r issuer u).queue = [] := by simp only [BootState.look, hqueue]
      rw [hlook]
      exact ⟨taken, .idle _⟩
    | cons t rest =>
      have hlook : (s.look r issuer u).queue = rest := by
        simp only [BootState.look, hqueue, handle_queue]
      rw [hlook]
      exact ⟨taken ++ [t], .take t rest taken⟩
  | read =>
    obtain ⟨-, rfl⟩ := h
    cases hqueue : s.queue with
    | nil => exact ⟨taken, .idle _⟩
    | cons t rest => exact ⟨taken ++ [t], .take t rest taken⟩

/-! ## When the ring is there -/

section Runs

variable {s s' : BootState} {d : Driver} {r : Readings} {issuer t : Trb} {u : DeviceReading}

/-- The ring is there if an event has led to a keyboard, and only then is it taken to be; a run that
polls has not come to a panic. -/
structure BootState.Inv (s : BootState) : Prop where
  ready : s.halted = false → (∃ h ∈ s.handled, h.FindsKeyboard) → s.Ready
  found : s.usbKeyboardFound = true → ∃ h ∈ s.handled, h.FindsKeyboard
  running : s.polling = true → s.halted = false

section Keyboards

variable {ks : List (Addr × Byte)} {slotId : Byte}

theorem initAll_frame : (s.initAll slotId ks).rings = s.rings ∧
    (s.initAll slotId ks).handled = s.handled ∧ (s.initAll slotId ks).halted = s.halted ∧
    (s.initAll slotId ks).polling = s.polling := by
  induction ks generalizing s with
  | nil => exact ⟨rfl, rfl, rfl, rfl⟩
  | cons k ks ih => exact ih

/-- The last of the keyboards stays. -/
theorem initAll_found (hks : ks ≠ []) : (s.initAll slotId ks).usbKeyboardFound = true ∧
    ∃ k ∈ ks, (s.initAll slotId ks).endpointRing = k.1 := by
  obtain ⟨init, k, rfl⟩ := (List.eq_nil_or_concat' ks).resolve_left hks
  rw [BootState.initAll, List.foldl_append]
  exact ⟨rfl, k, List.mem_append_right _ (List.mem_singleton_self k), rfl⟩

end Keyboards

theorem exists_mem_append_singleton {l : List Handled} {e : Handled} :
    (∃ h ∈ l ++ [e], h.FindsKeyboard) ↔ (∃ h ∈ l, h.FindsKeyboard) ∨ e.FindsKeyboard := by
  simp only [List.mem_append, List.mem_singleton, or_and_right, exists_or, exists_eq_left]

theorem inv_handle (h : s.Inv) (hpolling : s.polling = false) : (s.handle r issuer u t).Inv := by
  rw [BootState.handle]
  split_ifs with hparses
  · split
    case h_1 =>
      exact ⟨nofun, fun hfound ↦ exists_mem_append_singleton.mpr (.inl (h.found hfound)),
        fun hpoll ↦ absurd (hpolling.symm.trans hpoll) (by decide)⟩
    case h_2 f hf =>
      obtain ⟨-, hmade, hkey⟩ := configureTo_spec hf
      have hevent : f.keyboards ≠ [] ↔
          (⟨s.driver, r.noContext, t, u⟩ : Handled).FindsKeyboard :=
        hkey.trans (and_iff_right hparses).symm
      by_cases hks : f.keyboards = []
      · -- nothing is set
        have hno := mt hevent.mpr (not_not_intro hks)
        rw [hks]
        refine ⟨fun hhalted hex ↦ ?_, fun hfound ↦ ?_, h.running⟩
        · obtain ⟨hfound, hnull, hmem⟩ :=
            h.ready hhalted ((exists_mem_append_singleton.mp hex).resolve_right hno)
          exact ⟨hfound, hnull, List.mem_append_left _ hmem⟩
        · exact exists_mem_append_singleton.mpr (.inl (h.found hfound))
      · obtain ⟨hfound, k, hk, hring⟩ := @initAll_found { s with
          handled := s.handled ++ [⟨s.driver, r.noContext, t, u⟩]
          driver := s.driver.handle { r with keyboards := f.flags } issuer t
          rings := s.rings ++ f.rings } _ t.slotId hks
        refine ⟨fun _ _ ↦ ⟨hfound, ?_, ?_⟩, fun _ ↦ ?_, fun hpoll ↦ ?_⟩
        · rw [hring]
          exact (hmade k hk).1
        · rw [hring, initAll_frame.1]
          exact List.mem_append_right _ (hmade k hk).2
        · rw [initAll_frame.2.1]
          exact exists_mem_append_singleton.mpr (.inr (hevent.mp hks))
        · rw [initAll_frame.2.2.2] at hpoll
          exact absurd (hpolling.symm.trans hpoll) (by decide)
  · refine ⟨fun hhalted hex ↦ ?_, fun hfound ↦ ?_, h.running⟩
    · exact h.ready hhalted ((exists_mem_append_singleton.mp hex).resolve_right fun hfinds ↦
        hparses hfinds.1)
    · exact exists_mem_append_singleton.mpr (.inl (h.found hfound))

theorem inv_step {l : BootLabel} (h : s.Inv) (hstep : BootStep s l s') : s'.Inv := by
  cases l with
  | post t =>
    rw [show s' = _ from hstep]
    exact ⟨h.ready, h.found, h.running⟩
  | look r issuer u =>
    obtain ⟨hpolling, hhalted, rfl⟩ := hstep
    rw [BootState.look]
    split
    · exact ⟨h.ready, h.found, fun _ ↦ hhalted⟩
    · exact inv_handle (s := { s with queue := _ }) ⟨h.ready, h.found, h.running⟩ hpolling
  | read =>
    obtain ⟨-, rfl⟩ := hstep
    exact ⟨h.ready, h.found, h.running⟩

end Runs

/-- **Is there a ring to write to?** In every run, whenever `vMain` calls `read_usb_keyboard`, the
ring is one that `new_ring` has made and `init_usb_keyboard` has set, if and only if
`usb_process_events` has handled an event that leads to a keyboard. -/
theorem keyboardReady_iff (d : Driver) {s : BootState}
    (hrun : Run BootStep (fun _ _ ↦ True) (.start d) s) (hpolling : s.polling = true) :
    s.Ready ↔ ∃ h ∈ s.handled, h.FindsKeyboard := by
  have hstart : (BootState.start d).Inv :=
    ⟨fun _ ⟨h, hh, _⟩ ↦ absurd hh List.not_mem_nil, nofun, nofun⟩
  have hinv := hrun.invariant hstart fun _ _ _ h _ hstep ↦ inv_step h hstep
  exact ⟨fun hready ↦ hinv.found hready.1, hinv.ready (hinv.running hpolling)⟩

/-- A device with one configuration, that of a boot keyboard. -/
def keyboardReading : DeviceReading where
  device := fun i ↦ if i = 17 then 1 else 0
  configs := fun _ ↦ keyboardBuf
  speed := 1
  alloc := fun n ↦ 0xffff800000700000 + 4096 * BitVec.ofNat 64 n
  fresh := fun _ _ ↦ 0
  slot := fun _ ↦ Context.zero

/-- Nothing else that is read matters. -/
def zeroReadings : Readings := ⟨fun _ ↦ 0, 0, 0, []⟩

/-- Port 1 waits for its device descriptor. -/
def waitingDriver : Driver := { Driver.start 1 with deviceStatus := fun _ ↦ .getDescriptor }

/-- A Transfer Event of slot 0, with success. -/
def transferEvent : Trb := ⟨0, 0, 1 <<< 24, 32 <<< 10⟩

/-- The machine after this event has been handled and the ring has been found empty. -/
def keyboardState : BootState :=
  ((({ BootState.start waitingDriver with queue := [transferEvent] }).look
    zeroReadings transferEvent
    keyboardReading).look zeroReadings transferEvent keyboardReading)

theorem keyboardReady_iff_keyboard :
    keyboardState.Ready ↔ ∃ h ∈ keyboardState.handled, h.FindsKeyboard := by
  have hrun : Run BootStep (fun _ _ ↦ True) (.start waitingDriver) keyboardState := by
    refine Run.tail (i := .look zeroReadings transferEvent keyboardReading) (Run.tail
      (i := .look zeroReadings transferEvent keyboardReading) (Run.tail (i := .post transferEvent)
        (Run.refl _) trivial rfl) trivial ⟨rfl, rfl, rfl⟩) trivial ⟨?_, ?_, rfl⟩
    · decide +kernel
    · decide +kernel
  exact keyboardReady_iff waitingDriver hrun (by decide +kernel)

/-- Without any event the keyboard is polled all the same. -/
theorem not_keyboardReady : ¬ ∀ (d : Driver) (s : BootState),
    Run BootStep (fun _ _ ↦ True) (.start d) s → s.polling = true → s.Ready := by
  intro h
  have hrun : Run BootStep (fun _ _ ↦ True) (.start (Driver.start 0))
      ((BootState.start (Driver.start 0)).look zeroReadings transferEvent keyboardReading) :=
    Run.tail (i := .look zeroReadings transferEvent keyboardReading) (Run.refl _) trivial
      ⟨rfl, rfl, rfl⟩
  exact (h _ _ hrun rfl).2.1 rfl

end VimOS
