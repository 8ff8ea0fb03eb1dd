import VimOS.Library.Run

/-!
# Programs among others

A program is a tree: it returns, or it performs an operation and goes on with the answer. What an
operation does to the shared state, and what everybody else may do between two operations, is given
by a `Machine`; so one program can be run under several readings of its operations.

`wp` is the condition under which a program keeps a `Contract` whatever the others do. It is closed
under their steps by definition, and the rules ask for that only where an assertion is introduced:
`wp_op` and `wp_ret` take a stable assertion, `wp_bind` composes. `wp.run` carries the condition
along runs, so what the contract promises holds in every state of every run.
-/

/-- A program over operations `ε` with answers `ρ`. -/
inductive Prog (ε : Type) (ρ : ε → Type) (α : Type) : Type
  | ret (a : α)
  | op (e : ε) (k : ρ e → Prog ε ρ α)

/-- A step of the program itself or of the others. -/
inductive Act (ε ι : Type) : Type
  | own (e : ε)
  | env (i : ι)

/-- What operations do to a shared state, and what the others do to it. -/
structure Machine (ε : Type) (ρ : ε → Type) (σ ι : Type) where
  exec : (e : ε) → σ → ρ e → σ → Prop
  env : σ → ι → σ → Prop

/-- What a run is promised, and what it promises: only guarded steps are taken, `inv` holds in every
state, and `pre` whenever an operation is performed. -/
structure Contract (ε ι σ : Type) where
  guard : σ → Act ε ι → Prop
  inv : σ → Prop
  pre : ε → σ → Prop

namespace Prog

variable {ε : Type} {ρ : ε → Type} {α β : Type}

protected def bind : Prog ε ρ α → (α → Prog ε ρ β) → Prog ε ρ β
  | ret a, f => f a
  | op e k, f => op e fun r ↦ (k r).bind f

instance : Monad (Prog ε ρ) where
  pure := ret
  bind := Prog.bind

/-- The program that performs one operation and returns the answer. -/
def perform (e : ε) : Prog ε ρ (ρ e) := op e ret

@[simp] theorem pure_eq (a : α) : (pure a : Prog ε ρ α) = ret a := rfl

@[simp] theorem ret_bind (a : α) (f : α → Prog ε ρ β) : ret a >>= f = f a := rfl

@[simp] theorem op_bind (e : ε) (k : ρ e → Prog ε ρ α) (f : α → Prog ε ρ β) :
    op e k >>= f = op e fun r ↦ k r >>= f := rfl

@[simp] theorem perform_bind (e : ε) (f : ρ e → Prog ε ρ β) : perform e >>= f = op e f := rfl

theorem bind_assoc {γ : Type} (p : Prog ε ρ α) (f : α → Prog ε ρ β) (g : β → Prog ε ρ γ) :
    p >>= f >>= g = p >>= fun a ↦ f a >>= g := by
  induction p with
  | ret a => rfl
  | op e k ih =>
    rw [op_bind, op_bind, op_bind]
    exact congrArg _ (funext ih)

theorem bind_ret (p : Prog ε ρ α) : p >>= ret = p := by
  induction p with
  | ret a => rfl
  | op e k ih => exact congrArg (op e) (funext ih)

/-- Whatever it is answered, the program performs only such operations. -/
def Only (ok : ε → Prop) : Prog ε ρ α → Prop
  | ret _ => True
  | op e k => ok e ∧ ∀ r, (k r).Only ok

variable {ok : ε → Prop} {p q : Prog ε ρ α}

theorem Only.bind {f : α → Prog ε ρ β} (hp : p.Only ok) (hf : ∀ a, (f a).Only ok) :
    (p >>= f).Only ok := by
  induction p with
  | ret a => exact hf a
  | op e k ih => exact ⟨hp.1, fun r ↦ ih r (hp.2 r)⟩

theorem Only.ite {c : Prop} [Decidable c] (hp : p.Only ok) (hq : q.Only ok) :
    (if c then p else q).Only ok := by
  split_ifs
  · exact hp
  · exact hq

section Lift

variable {ε' : Type} {ρ' : ε' → Type} {g : ε → ε'}

/-- A program with its operations taken for some of a larger system. -/
def lift (g : ε → ε') : Prog ε (fun e ↦ ρ' (g e)) α → Prog ε' ρ' α
  | ret a => ret a
  | op e k => op (g e) fun r ↦ (k r).lift g

end Lift

end Prog

namespace Machine

open GuardedRun

variable {ε : Type} {ρ : ε → Type} {σ ι α β : Type} {M : Machine ε ρ σ ι} {C : Contract ε ι σ}
variable {p p' : Prog ε ρ α} {f : α → Prog ε ρ β} {e : ε} {k : ρ e → Prog ε ρ α}
variable {Q Q' : α → σ → Prop} {P : σ → Prop} {s s' : σ} {a : α}

/-- One step of a program and the state it shares. -/
inductive Step (M : Machine ε ρ σ ι) : Prog ε ρ α × σ → Act ε ι → Prog ε ρ α × σ → Prop
  | own {e : ε} {k : ρ e → Prog ε ρ α} {s s' : σ} {r : ρ e} (h : M.exec e s r s') :
      Step M (.op e k, s) (.own e) (k r, s')
  | env {p : Prog ε ρ α} {s s' : σ} {i : ι} (h : M.env s i s') : Step M (p, s) (.env i) (p, s')

/-- The runs of a program in which every step is admitted. -/
def Runs (M : Machine ε ρ σ ι) (guard : σ → Act ε ι → Prop) :
    Prog ε ρ α × σ → Prog ε ρ α × σ → Prop :=
  Run M.Step fun c i ↦ guard c.2 i

/-- What the others can make of a state. -/
def Others (M : Machine ε ρ σ ι) (guard : σ → Act ε ι → Prop) : σ → σ → Prop :=
  Run M.env fun s i ↦ guard s (.env i)

/-- The program keeps the contract from `s` on, and `Q` holds when it has returned. -/
def wp (M : Machine ε ρ σ ι) (C : Contract ε ι σ) :
    Prog ε ρ α → (α → σ → Prop) → σ → Prop
  | .ret a, Q, s => ∀ s', M.Others C.guard s s' → C.inv s' ∧ Q a s'
  | .op e k, Q, s => ∀ s', M.Others C.guard s s' → C.inv s' ∧
      (C.guard s' (.own e) → C.pre e s' ∧ ∀ r s'', M.exec e s' r s'' → wp M C (k r) Q s'')

/-! ## Soundness -/

theorem wp.others (h : M.wp C p Q s) (hs : M.Others C.guard s s') : M.wp C p Q s' := by
  cases p with
  | ret a => exact fun s'' hs'' ↦ h s'' (hs.trans hs'')
  | op e k => exact fun s'' hs'' ↦ h s'' (hs.trans hs'')

theorem wp.inv (h : M.wp C p Q s) : C.inv s := by
  cases p with
  | ret a => exact (h s (.refl s)).1
  | op e k => exact (h s (.refl s)).1

theorem wp.pre (h : M.wp C (.op e k) Q s) (hg : C.guard s (.own e)) : C.pre e s :=
  ((h s (.refl s)).2 hg).1

theorem wp.post (h : M.wp C (.ret a) Q s) : Q a s := (h s (.refl s)).2

/-- **Soundness.** The condition is carried along every run. -/
theorem wp.run (h : M.wp C p Q s) (hrun : M.Runs C.guard (p, s) (p', s')) : M.wp C p' Q s' := by
  refine hrun.invariant (P := fun c ↦ M.wp C c.1 Q c.2) h ?_
  rintro ⟨p, s⟩ i ⟨p', s'⟩ hwp hg hstep
  cases hstep with
  | own hexec => exact ((hwp s (.refl s)).2 hg).2 _ _ hexec
  | env henv => exact hwp.others ((Run.refl s).tail hg henv)

/-! ## Rules -/

/-- The others cannot make the assertion false. -/
def Stable (M : Machine ε ρ σ ι) (guard : σ → Act ε ι → Prop) (P : σ → Prop) : Prop :=
  ∀ s i s', P s → guard s (.env i) → M.env s i s' → P s'

theorem Stable.others (hP : M.Stable C.guard P) (h : P s) (hs : M.Others C.guard s s') : P s' :=
  hs.invariant h hP

theorem wp_ret (hP : M.Stable C.guard P) (hinv : ∀ s, P s → C.inv s) (hQ : ∀ s, P s → Q a s)
    (h : P s) : M.wp C (.ret a) Q s := fun s' hs ↦
  have hP' := hP.others h hs
  ⟨hinv s' hP', hQ s' hP'⟩

theorem wp_op (hP : M.Stable C.guard P) (hinv : ∀ s, P s → C.inv s)
    (hop : ∀ s, P s → C.guard s (.own e) →
      C.pre e s ∧ ∀ r s', M.exec e s r s' → M.wp C (k r) Q s') (h : P s) :
    M.wp C (.op e k) Q s := fun s' hs ↦
  have hP' := hP.others h hs
  ⟨hinv s' hP', hop s' hP'⟩

/-- The assertion may be drawn upon together with what admits the first operation. -/
theorem wp_of_guard (hp : p = .op e k) (hP : M.Stable C.guard P) (hinv : ∀ s, P s → C.inv s)
    (hop : ∀ s, P s → C.guard s (.own e) → M.wp C p Q s) (h : P s) : M.wp C p Q s := by
  subst hp
  intro s' hs
  have hP' := hP.others h hs
  exact ⟨hinv s' hP', fun hg ↦ (hop s' hP' hg s' (.refl s')).2 hg⟩

theorem wp_ite {c : Prop} [Decidable c] {p q : Prog ε ρ α} (hp : c → M.wp C p Q s)
    (hq : ¬c → M.wp C q Q s) : M.wp C (if c then p else q) Q s := by
  split_ifs with h
  · exact hp h
  · exact hq h

theorem wp.mono (h : M.wp C p Q s) (hQ : ∀ a s, Q a s → Q' a s) : M.wp C p Q' s := by
  induction p generalizing s with
  | ret a => exact fun s' hs ↦ (h s' hs).imp_right (hQ a s')
  | op e k ih =>
    intro s' hs
    refine ⟨(h s' hs).1, fun hg ↦ ?_⟩
    obtain ⟨hpre, hk⟩ := (h s' hs).2 hg
    exact ⟨hpre, fun r s'' hexec ↦ ih r (hk r s'' hexec)⟩

theorem wp_bind {Q : β → σ → Prop} (h : M.wp C p (fun a ↦ M.wp C (f a) Q) s) :
    M.wp C (p >>= f) Q s := by
  induction p generalizing s with
  | ret a => exact (h s (.refl s)).2
  | op e k ih =>
    intro s' hs
    refine ⟨(h s' hs).1, fun hg ↦ ?_⟩
    obtain ⟨hpre, hk⟩ := (h s' hs).2 hg
    exact ⟨hpre, fun r s'' hexec ↦ ih r (hk r s'' hexec)⟩

/-- A program that performs only operations that keep an assertion keeps it. -/
theorem wp_of_only {ok : ε → Prop} (hP : M.Stable C.guard P) (hinv : ∀ s, P s → C.inv s)
    (hok : ∀ e s, ok e → P s → C.guard s (.own e) →
      C.pre e s ∧ ∀ r s', M.exec e s r s' → P s') (honly : p.Only ok) (h : P s) :
    M.wp C p (fun _ s ↦ P s) s := by
  induction p generalizing s with
  | ret a => exact wp_ret hP hinv (fun _ h ↦ h) h
  | op e k ih =>
    refine wp_op hP hinv (fun s hs hg ↦ ?_) h
    obtain ⟨hpre, hexec⟩ := hok e s honly.1 hs hg
    exact ⟨hpre, fun r s' hstep ↦ ih r (honly.2 r) (hexec r s' hstep)⟩

/-! ## Parts of a larger system -/

section Lift

variable {ε' σ' ι' : Type} {ρ' : ε' → Type} {g : ε → ε'} {M : Machine ε (fun e ↦ ρ' (g e)) σ ι}
variable {M' : Machine ε' ρ' σ' ι'} {C' : Contract ε' ι' σ'} {p : Prog ε (fun e ↦ ρ' (g e)) α}
variable {J : σ' → Prop} {π : σ' → σ} {t : σ'} {ok : ε → Prop}

/-- **Lifting.** The larger system sees to it that the part's contract may be relied on: `π` finds
the part's state in it, and `J` is what the operations of the part and the others keep of the
rest. -/
theorem wp_lift
    (henv : ∀ t i t', J t → C'.guard t (.env i) → M'.env t i t' →
      J t' ∧ M.Others C.guard (π t) (π t'))
    (hinv : ∀ t, J t → C.inv (π t) → C'.inv t)
    (hop : ∀ e t, ok e → J t → C'.guard t (.own (g e)) →
      C.guard (π t) (.own e) ∧ (C.pre e (π t) → C'.pre (g e) t) ∧
        ∀ r t', M'.exec (g e) t r t' → M.exec e (π t) r (π t') ∧ J t')
    (honly : p.Only ok) (h : M.wp C p Q (π t)) (hJ : J t) :
    M'.wp C' (p.lift g) (fun a t ↦ Q a (π t) ∧ J t) t := by
  have hothers : ∀ {t t'}, J t → M'.Others C'.guard t t' →
      J t' ∧ M.Others C.guard (π t) (π t') := by
    intro t t' hJ hrun
    refine hrun.invariant (P := fun t' ↦ J t' ∧ M.Others C.guard (π t) (π t')) ⟨hJ, .refl _⟩ ?_
    rintro t₁ i t₂ ⟨hJ₁, hpart⟩ hg hstep
    obtain ⟨hJ₂, hpart₂⟩ := henv t₁ i t₂ hJ₁ hg hstep
    exact ⟨hJ₂, hpart.trans hpart₂⟩
  induction p generalizing t with
  | ret a =>
    intro t' ht
    obtain ⟨hJ', hpart⟩ := hothers hJ ht
    exact ⟨hinv t' hJ' (h _ hpart).1, (h _ hpart).2, hJ'⟩
  | op e k ih =>
    intro t' ht
    obtain ⟨hJ', hpart⟩ := hothers hJ ht
    obtain ⟨hinv', hk⟩ := h _ hpart
    refine ⟨hinv t' hJ' hinv', fun hg ↦ ?_⟩
    obtain ⟨hguard, hpre, hexec⟩ := hop e t' honly.1 hJ' hg
    obtain ⟨hpre', hcont⟩ := hk hguard
    refine ⟨hpre hpre', fun r t'' hstep ↦ ?_⟩
    obtain ⟨hpart'', hJ''⟩ := hexec r t'' hstep
    exact ih r (honly.2 r) (hcont r _ hpart'') hJ''

end Lift

/-! ## Runs that exist -/

/-- Left alone and admitted at each operation, the program can return so that `Q` holds. -/
def mayReturn (M : Machine ε ρ σ ι) (guard : σ → Act ε ι → Prop) :
    Prog ε ρ α → (α → σ → Prop) → σ → Prop
  | .ret a, Q, s => Q a s
  | .op e k, Q, s =>
    guard s (.own e) ∧ ∃ r s', M.exec e s r s' ∧ mayReturn M guard (k r) Q s'

variable {guard : σ → Act ε ι → Prop}

theorem mayReturn_bind {Q : β → σ → Prop}
    (h : M.mayReturn guard p (fun a ↦ M.mayReturn guard (f a) Q) s) :
    M.mayReturn guard (p >>= f) Q s := by
  induction p generalizing s with
  | ret a => exact h
  | op e k ih =>
    obtain ⟨hg, r, s', hexec, hk⟩ := h
    exact ⟨hg, r, s', hexec, ih r hk⟩

theorem mayReturn_ite {c : Prop} [Decidable c] {p q : Prog ε ρ α}
    (hp : c → M.mayReturn guard p Q s) (hq : ¬c → M.mayReturn guard q Q s) :
    M.mayReturn guard (if c then p else q) Q s := by
  split_ifs with h
  · exact hp h
  · exact hq h

theorem mayReturn.mono (h : M.mayReturn guard p Q s) (hQ : ∀ a s, Q a s → Q' a s) :
    M.mayReturn guard p Q' s := by
  induction p generalizing s with
  | ret a => exact hQ a s h
  | op e k ih =>
    obtain ⟨hg, r, s', hexec, hk⟩ := h
    exact ⟨hg, r, s', hexec, ih r hk⟩

/-- A program that keeps a contract may return only as the contract says. -/
theorem mayReturn.and_wp (h : M.mayReturn C.guard p Q s) (hwp : M.wp C p Q' s) :
    M.mayReturn C.guard p (fun a s ↦ Q a s ∧ Q' a s) s := by
  induction p generalizing s with
  | ret a => exact ⟨h, hwp.post⟩
  | op e k ih =>
    obtain ⟨hg, r, s', hexec, hk⟩ := h
    exact ⟨hg, r, s', hexec, ih r hk (((hwp s (.refl s)).2 hg).2 r s' hexec)⟩

/-- What the part may do alone it may do in the larger system. -/
theorem mayReturn_lift {ε' σ' ι' : Type} {ρ' : ε' → Type} {g : ε → ε'} {ok : ε → Prop}
    {M : Machine ε (fun e ↦ ρ' (g e)) σ ι} {M' : Machine ε' ρ' σ' ι'} {J : σ' → Prop} {π : σ' → σ}
    {guard' : σ' → Act ε' ι' → Prop} {p : Prog ε (fun e ↦ ρ' (g e)) α} {t : σ'}
    (hop : ∀ e t r s, ok e → J t → guard (π t) (.own e) → M.exec e (π t) r s →
      guard' t (.own (g e)) ∧ ∃ t', M'.exec (g e) t r t' ∧ π t' = s ∧ J t')
    (honly : p.Only ok) (h : M.mayReturn guard p Q (π t)) (hJ : J t) :
    M'.mayReturn guard' (p.lift g) (fun a t ↦ Q a (π t) ∧ J t) t := by
  induction p generalizing t with
  | ret a => exact ⟨h, hJ⟩
  | op e k ih =>
    obtain ⟨hg, r, s, hexec, hk⟩ := h
    obtain ⟨hg', t', hexec', rfl, hJ'⟩ := hop e t r s honly.1 hJ hg hexec
    exact ⟨hg', r, t', hexec', ih r (honly.2 r) hk hJ'⟩

/-- Such a run, in front of whatever the program is followed by. -/
theorem mayReturn.exists_run (h : M.mayReturn guard p Q s) (f : α → Prog ε ρ β) :
    ∃ a s', M.Runs guard (p >>= f, s) (f a, s') ∧ Q a s' := by
  induction p generalizing s with
  | ret a => exact ⟨a, s, .refl _, h⟩
  | op e k ih =>
    obtain ⟨hg, r, s', hexec, hk⟩ := h
    obtain ⟨a, s'', hrun, hQ⟩ := ih r hk
    exact ⟨a, s'', Run.head hg (.own hexec) hrun, hQ⟩

theorem mayReturn.returns (h : M.mayReturn guard p Q s) :
    ∃ a s', M.Runs guard (p, s) (.ret a, s') ∧ Q a s' := by
  have hrun := h.exists_run Prog.ret
  rwa [Prog.bind_ret] at hrun

/-- What the others do alone is a run too. -/
theorem runs_of_others (h : M.Others guard s s') : M.Runs guard (p, s) (p, s') := by
  induction h with
  | refl => exact .refl _
  | tail _ hlast ih =>
    obtain ⟨i, hg, hs⟩ := hlast
    exact ih.tail hg (.env hs)

end Machine
