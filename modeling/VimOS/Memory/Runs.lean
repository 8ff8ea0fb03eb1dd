import VimOS.Memory.MemoryMap

/-!
# The runs of a memory map

What `init_mem` is after, without memory and without machine arithmetic. It goes through the map and
gathers runs: a run begins with the first descriptor of a group of usable ones, grows by each that
begins where the run ends, and is closed by the descriptor behind the group. `gather` keeps the
closed runs and the pending one; `PendingIn` and `RunOf` say which parts of the map these are.

Two things of the code are kept, as they decide what is gathered: the test of the type looks at its
low 16 bits only (`Taken`), and the start address 0 stands for "no run is pending".
-/

namespace VimOS

namespace EfiMemoryDescriptor

def addr (d : EfiMemoryDescriptor) : ℕ := d.physicalStart.toNat

/-- The first address behind the range. -/
def stop (d : EfiMemoryDescriptor) : ℕ := d.addr + 4096 * d.numberOfPage.toNat

/-- The physical addresses the descriptor describes. -/
def bytes (d : EfiMemoryDescriptor) : Set ℕ := Set.Ico d.addr d.stop

/-- The descriptor passes the test of `init_mem`. -/
def Taken (d : EfiMemoryDescriptor) : Prop := isUsableMemType (d.type.setWidth 16) = true

instance (d : EfiMemoryDescriptor) : Decidable d.Taken := by
  unfold Taken
  infer_instance

/-- The descriptor has one of the five usable types. -/
def Usable (d : EfiMemoryDescriptor) : Prop :=
  d.type.toNat ∈ [EfiMemoryType.loaderCode, .loaderData, .bootServicesCode, .bootServicesData,
    .conventionalMemory].map EfiMemoryType.value

instance (d : EfiMemoryDescriptor) : Decidable d.Usable := by
  unfold Usable
  infer_instance

/-- A descriptor is usable if it passes the test and its type fits the test's 16 bits. -/
theorem usable_iff (d : EfiMemoryDescriptor) : d.Usable ↔ d.Taken ∧ d.type.toNat < 2 ^ 16 := by
  simp only [Usable, Taken, isUsableMemType, EfiMemoryType.value, BitVec.toNat_eq,
    BitVec.toNat_setWidth, BitVec.toNat_ofNat, Bool.or_eq_true, decide_eq_true_eq, List.map_cons,
    List.map_nil, List.mem_cons, List.not_mem_nil, or_false, EfiMemoryType.ctorIdx]
  omega

end EfiMemoryDescriptor

open EfiMemoryDescriptor

/-- A memory map as firmware reports it: ranges of the 64-bit address space that are not empty, in
ascending order and without overlap. -/
structure SortedMap (descs : List EfiMemoryDescriptor) : Prop where
  nonempty : ∀ d ∈ descs, 0 < d.numberOfPage.toNat
  bounded : ∀ d ∈ descs, d.stop ≤ 2 ^ 64
  sorted : descs.Pairwise fun d d' ↦ d.stop ≤ d'.addr

variable {descs p q run run' : List EfiMemoryDescriptor} {d : EfiMemoryDescriptor}

theorem SortedMap.left (h : SortedMap (p ++ q)) : SortedMap p where
  nonempty d hd := h.nonempty d (List.mem_append_left _ hd)
  bounded d hd := h.bounded d (List.mem_append_left _ hd)
  sorted := (List.pairwise_append.mp h.sorted).1

theorem SortedMap.stop_le (h : SortedMap (p ++ q)) {d' : EfiMemoryDescriptor} (hd : d ∈ p)
    (hd' : d' ∈ q) : d.stop ≤ d'.addr :=
  (List.pairwise_append.mp h.sorted).2.2 d hd d' hd'

/-! ## Runs -/

def runAddr : List EfiMemoryDescriptor → ℕ
  | [] => 0
  | d :: _ => d.addr

def runPages (run : List EfiMemoryDescriptor) : ℕ := (run.map fun d ↦ d.numberOfPage.toNat).sum

def runStop (run : List EfiMemoryDescriptor) : ℕ := runAddr run + 4096 * runPages run

/-- Each descriptor begins where the one before ends. -/
def Joined (run : List EfiMemoryDescriptor) : Prop := run.IsChain fun d d' ↦ d.stop = d'.addr

/-- No run is pending behind the part `p` of a map. -/
def Idle (p : List EfiMemoryDescriptor) : Prop := ∀ d ∈ p.getLast?, d.Taken → d.addr = 0

/-- The run `run` is pending behind the part `p` of a map: `p` ends with a group of descriptors that
are taken, and `run` is what is joined to the first of them. -/
def PendingIn (p run : List EfiMemoryDescriptor) : Prop :=
  ∃ before dropped, p = before ++ (run ++ dropped) ∧ Idle before ∧ runAddr run ≠ 0 ∧ Joined run ∧
    (∀ d ∈ run ++ dropped, d.Taken) ∧ ∀ d ∈ dropped.head?, runStop run ≠ d.addr

/-- The run `run` of the map is closed by a descriptor that is not taken. -/
def RunOf (descs run : List EfiMemoryDescriptor) : Prop :=
  ∃ p last after, descs = p ++ last :: after ∧ PendingIn p run ∧ ¬ last.Taken

theorem runAddr_append (hrun : run ≠ []) : runAddr (run ++ q) = runAddr run := by
  cases run with
  | nil => exact absurd rfl hrun
  | cons c run => rfl

theorem runPages_append : runPages (run ++ q) = runPages run + runPages q := by
  rw [runPages, runPages, runPages, List.map_append, List.sum_append]

theorem runPages_singleton : runPages [d] = d.numberOfPage.toNat := by
  rw [runPages, List.map_singleton, List.sum_singleton]

theorem runStop_singleton : runStop [d] = d.stop := by
  rw [runStop, runPages_singleton, runAddr, EfiMemoryDescriptor.stop]

/-- A run ends where its last descriptor ends. -/
theorem runStop_snoc (h : Joined (run ++ [d])) : runStop (run ++ [d]) = d.stop := by
  induction run using List.reverseRecOn generalizing d with
  | nil => exact runStop_singleton
  | append_singleton run c ih =>
    rw [Joined, List.isChain_append] at h
    have hstop := ih h.1
    have htouch : c.stop = d.addr := by
      refine h.2.2 c ?_ d rfl
      simp
    rw [runStop, runPages_append, runAddr_append (by simp), runPages_singleton, Nat.mul_add,
      ← Nat.add_assoc, ← runStop, hstop, htouch, EfiMemoryDescriptor.stop]

theorem joined_snoc (hrun : run ≠ []) (h : Joined run) (hd : runStop run = d.addr) :
    Joined (run ++ [d]) := by
  induction run using List.reverseRecOn with
  | nil => exact absurd rfl hrun
  | append_singleton run c _ =>
    rw [runStop_snoc h] at hd
    refine List.isChain_append.mpr ⟨h, List.isChain_singleton d, ?_⟩
    intro c' hc' d' hd'
    simp at hc' hd'
    rw [← hc', ← hd', hd]

/-! ## Gathering -/

/-- The runs closed so far, and the pending one, if any. -/
structure Gathered where
  closed : List (List EfiMemoryDescriptor)
  pending : List EfiMemoryDescriptor

def gatherStep (g : Gathered) (d : EfiMemoryDescriptor) : Gathered :=
  if d.Taken then
    if g.pending = [] then if d.addr = 0 then g else { g with pending := [d] }
    else if runStop g.pending = d.addr then { g with pending := g.pending ++ [d] }
    else g
  else if g.pending = [] then g
  else ⟨g.closed ++ [g.pending], []⟩

def gather (descs : List EfiMemoryDescriptor) : Gathered := descs.foldl gatherStep ⟨[], []⟩

theorem gather_snoc (p : List EfiMemoryDescriptor) (d : EfiMemoryDescriptor) :
    gather (p ++ [d]) = gatherStep (gather p) d := by
  rw [gather, List.foldl_append, List.foldl_cons, List.foldl_nil, ← gather]

/-! ### What a step can do -/

theorem gatherStep_begin {g : Gathered} (hd : d.Taken) (hp : g.pending = []) (ha : d.addr ≠ 0) :
    gatherStep g d = { g with pending := [d] } := by
  rw [gatherStep, if_pos hd, if_pos hp, if_neg ha]

theorem gatherStep_join {g : Gathered} (hd : d.Taken) (hp : g.pending ≠ [])
    (ha : runStop g.pending = d.addr) :
    gatherStep g d = { g with pending := g.pending ++ [d] } := by
  rw [gatherStep, if_pos hd, if_neg hp, if_pos ha]

theorem gatherStep_drop {g : Gathered} (hd : d.Taken) (hp : g.pending ≠ [])
    (ha : runStop g.pending ≠ d.addr) : gatherStep g d = g := by
  rw [gatherStep, if_pos hd, if_neg hp, if_neg ha]

theorem gatherStep_zero {g : Gathered} (hd : d.Taken) (hp : g.pending = []) (ha : d.addr = 0) :
    gatherStep g d = g := by
  rw [gatherStep, if_pos hd, if_pos hp, if_pos ha]

theorem gatherStep_close {g : Gathered} (hd : ¬ d.Taken) (hp : g.pending ≠ []) :
    gatherStep g d = ⟨g.closed ++ [g.pending], []⟩ := by
  rw [gatherStep, if_neg hd, if_neg hp]

theorem gatherStep_skip {g : Gathered} (hd : ¬ d.Taken) (hp : g.pending = []) :
    gatherStep g d = g := by
  rw [gatherStep, if_neg hd, if_pos hp]

theorem gatherStep_closed {g : Gathered} (h : ¬ (¬ d.Taken ∧ g.pending ≠ [])) :
    (gatherStep g d).closed = g.closed := by
  rw [gatherStep]
  split_ifs with hd hp ha hs hp
  · rfl
  · rfl
  · rfl
  · rfl
  · rfl
  · exact absurd ⟨hd, hp⟩ h

/-! ### The runs are those of the map -/

theorem PendingIn.ne_nil (h : PendingIn p run) : run ≠ [] := by
  obtain ⟨_, _, _, _, haddr, _⟩ := h
  rintro rfl
  exact haddr rfl

theorem idle_snoc : Idle (p ++ [d]) ↔ (d.Taken → d.addr = 0) := by
  simp [Idle]

/-- A run ends below whatever comes behind it. -/
theorem runStop_le {before : List EfiMemoryDescriptor} (hmap : SortedMap (before ++ (run ++ q)))
    (hrun : run ≠ []) (hjoin : Joined run) (hd : d ∈ q) : runStop run ≤ d.addr := by
  induction run using List.reverseRecOn with
  | nil => exact absurd rfl hrun
  | append_singleton run c _ =>
    rw [runStop_snoc hjoin]
    rw [← List.append_assoc] at hmap
    exact hmap.stop_le (List.mem_append_right _ (by simp)) hd

theorem PendingIn.stop_le (h : PendingIn p run) (hmap : SortedMap (p ++ [d])) :
    runStop run ≤ d.addr := by
  have hne := h.ne_nil
  obtain ⟨before, dropped, rfl, -, -, hjoin, -, -⟩ := h
  rw [List.append_assoc, List.append_assoc] at hmap
  exact runStop_le hmap hne hjoin (by simp)

theorem PendingIn.addr_le (h : PendingIn p run) (hmap : SortedMap p) {c : EfiMemoryDescriptor}
    (hc : c ∈ run) : runAddr run ≤ c.addr := by
  obtain ⟨before, dropped, rfl, -, -, -, -, -⟩ := h
  cases run with
  | nil => exact absurd hc List.not_mem_nil
  | cons f run =>
    rcases List.mem_cons.mp hc with rfl | hc
    · exact le_rfl
    · have hle : f.stop ≤ c.addr := by
        have hsorted := (List.pairwise_append.mp hmap.sorted).2.1
        exact (List.pairwise_cons.mp (List.pairwise_append.mp hsorted).1).1 c hc
      rw [EfiMemoryDescriptor.stop] at hle
      rw [runAddr]
      omega

/-- The first descriptor that is not joined to a run lies above its end, and so do all behind it. -/
theorem runStop_lt_of_dropped {before dropped : List EfiMemoryDescriptor}
    (hmap : SortedMap (before ++ (run ++ (dropped ++ [d])))) (hrun : run ≠ []) (hjoin : Joined run)
    (hdropped : ∀ c ∈ dropped.head?, runStop run ≠ c.addr) (hne : dropped ≠ []) :
    runStop run < d.addr := by
  obtain ⟨c, dropped, rfl⟩ := List.exists_cons_of_ne_nil hne
  have hc : runStop run ≤ c.addr := runStop_le hmap hrun hjoin (by simp)
  have hne := hdropped c rfl
  rw [← List.append_assoc, ← List.append_assoc] at hmap
  have hd : c.stop ≤ d.addr := hmap.stop_le (by simp) List.mem_cons_self
  rw [EfiMemoryDescriptor.stop] at hd
  omega

/-- Behind each part of the map the pending run is the one `PendingIn` says. -/
theorem pending_gather (hmap : SortedMap p) :
    (gather p).pending = [] ∧ Idle p ∨ PendingIn p (gather p).pending := by
  induction p using List.reverseRecOn with
  | nil => exact .inl ⟨rfl, by simp [Idle]⟩
  | append_singleton p d ih =>
    have hp := ih hmap.left
    rw [gather_snoc]
    generalize gather p = g at hp
    rcases hp with ⟨hnil, hidle⟩ | hpending
    · by_cases hd : d.Taken
      · by_cases ha : d.addr = 0
        · rw [gatherStep_zero hd hnil ha]
          exact .inl ⟨hnil, idle_snoc.mpr fun _ ↦ ha⟩
        · rw [gatherStep_begin hd hnil ha]
          refine .inr ⟨p, [], rfl, hidle, ha, List.isChain_singleton d, ?_, by simp⟩
          simpa using hd
      · rw [gatherStep_skip hd hnil]
        exact .inl ⟨hnil, idle_snoc.mpr fun h ↦ absurd h hd⟩
    · have hne := hpending.ne_nil
      by_cases hd : d.Taken
      · obtain ⟨before, dropped, rfl, hidle, haddr, hjoin, htaken, hdropped⟩ := hpending
        rw [List.append_assoc, List.append_assoc] at hmap ⊢
        have htaken : ∀ c ∈ g.pending ++ (dropped ++ [d]), c.Taken := by
          rw [← List.append_assoc]
          intro c hc
          rcases List.mem_append.mp hc with hc | hc
          · exact htaken c hc
          · rwa [List.mem_singleton.mp hc]
        by_cases ha : runStop g.pending = d.addr
        · have hnil : dropped = [] := by
            -- once a descriptor has been dropped, none behind it can join
            by_contra hnil
            exact absurd ha (runStop_lt_of_dropped hmap hne hjoin hdropped hnil).ne
          subst hnil
          rw [gatherStep_join hd hne ha]
          refine .inr ⟨before, [], by simp, hidle, ?_,
            joined_snoc hne hjoin ha, by simpa using htaken,
            by simp⟩
          rwa [runAddr_append hne]
        · rw [gatherStep_drop hd hne ha]
          refine .inr ⟨before, dropped ++ [d], rfl, hidle, haddr, hjoin, htaken, ?_⟩
          intro c hc
          cases dropped with
          | nil => exact Option.some.inj hc ▸ ha
          | cons c' dropped => exact hdropped c hc
      · rw [gatherStep_close hd hne]
        exact .inl ⟨rfl, idle_snoc.mpr fun h ↦ absurd h hd⟩

theorem RunOf.mono (h : RunOf p run) : RunOf (p ++ q) run := by
  obtain ⟨p, last, after, rfl, hpending, hlast⟩ := h
  exact ⟨p, last, after ++ q, by simp, hpending, hlast⟩

/-- Every run that is closed is a run of the map. -/
theorem runOf_of_mem_closed (hmap : SortedMap descs) (h : run ∈ (gather descs).closed) :
    RunOf descs run := by
  induction descs using List.reverseRecOn with
  | nil => exact absurd h List.not_mem_nil
  | append_singleton p d ih =>
    have hpending := pending_gather hmap.left
    rw [gather_snoc] at h
    by_cases hclose : ¬ d.Taken ∧ (gather p).pending ≠ []
    · rw [gatherStep_close hclose.1 hclose.2] at h
      rcases List.mem_append.mp h with h | h
      · exact (ih hmap.left h).mono
      · rw [List.mem_singleton.mp h]
        refine ⟨p, d, [], rfl, ?_, hclose.1⟩
        exact hpending.resolve_left fun hidle ↦ hclose.2 hidle.1
    · rw [gatherStep_closed hclose] at h
      exact (ih hmap.left h).mono

theorem closed_grows (g : Gathered) (q : List EfiMemoryDescriptor) :
    g.closed <+: (q.foldl gatherStep g).closed := by
  induction q generalizing g with
  | nil => exact List.prefix_rfl
  | cons d q ih =>
    refine List.IsPrefix.trans ?_ (ih (gatherStep g d))
    rw [gatherStep]
    split_ifs
    all_goals first | exact List.prefix_rfl | exact List.prefix_append _ _

theorem runStop_of_joined (hrun : run ≠ []) (h : Joined (run ++ d :: q)) :
    runStop run = d.addr := by
  induction run using List.reverseRecOn with
  | nil => exact absurd rfl hrun
  | append_singleton run c _ =>
    rw [Joined, List.isChain_append] at h
    rw [runStop_snoc h.1]
    refine h.2.2 c ?_ d rfl
    simp

theorem foldl_joined {c : List (List EfiMemoryDescriptor)} (hrun : run ≠ [])
    (hjoin : Joined (run ++ q)) (htaken : ∀ d ∈ q, d.Taken) :
    q.foldl gatherStep ⟨c, run⟩ = ⟨c, run ++ q⟩ := by
  induction q generalizing run with
  | nil => rw [List.append_nil, List.foldl_nil]
  | cons d q ih =>
    have hstop := runStop_of_joined hrun hjoin
    have hcons : run ++ d :: q = run ++ [d] ++ q := by simp
    rw [List.foldl_cons, gatherStep_join (htaken d List.mem_cons_self) hrun hstop, hcons]
    exact ih (by simp) (hcons ▸ hjoin) fun d' hd' ↦ htaken d' (List.mem_cons_of_mem _ hd')

theorem foldl_dropped {g : Gathered} (hrun : g.pending ≠ [])
    (h : ∀ d ∈ q, d.Taken ∧ runStop g.pending ≠ d.addr) : q.foldl gatherStep g = g := by
  induction q with
  | nil => rfl
  | cons d q ih =>
    have hd := h d List.mem_cons_self
    rw [List.foldl_cons, gatherStep_drop hd.1 hrun hd.2]
    exact ih fun d' hd' ↦ h d' (List.mem_cons_of_mem _ hd')

theorem PendingIn.not_idle (h : PendingIn p run) (hmap : SortedMap p) : ¬ Idle p := by
  have hne := h.ne_nil
  have hle := fun c hc ↦ h.addr_le hmap (c := c) hc
  obtain ⟨before, dropped, rfl, -, haddr, hjoin, htaken, -⟩ := h
  obtain ⟨q, c, hq⟩ : ∃ q c, run ++ dropped = q ++ [c] := by
    rcases List.eq_nil_or_concat (run ++ dropped) with hnil | ⟨q, c, hq⟩
    · exact absurd (List.append_eq_nil_iff.mp hnil).1 hne
    · exact ⟨q, c, hq.trans List.concat_eq_append⟩
  have hc : c ∈ run ++ dropped := by simp [hq]
  have hpos : c.addr ≠ 0 := by
    rcases List.mem_append.mp hc with hc | hc
    · have := hle c hc
      omega
    · have := runStop_le hmap hne hjoin hc
      rw [runStop] at this
      omega
  intro hidle
  rw [hq, ← List.append_assoc] at hidle
  exact hpos (idle_snoc.mp hidle (htaken c hc))

theorem pending_eq (h : PendingIn p run) (hmap : SortedMap p) : (gather p).pending = run := by
  have hne := h.ne_nil
  obtain ⟨before, dropped, rfl, hidle, haddr, hjoin, htaken, hdropped⟩ := h
  have hnil : (gather before).pending = [] := by
    refine (pending_gather hmap.left).elim And.left fun hpending ↦ ?_
    exact absurd hidle (hpending.not_idle hmap.left)
  obtain ⟨f, run, rfl⟩ := List.exists_cons_of_ne_nil hne
  have hrun : (f :: run).foldl gatherStep (gather before) = ⟨(gather before).closed, f :: run⟩ := by
    rw [List.foldl_cons, gatherStep_begin (htaken f (by simp)) hnil haddr]
    exact foldl_joined (by simp) hjoin fun d hd ↦ htaken d (by simp [hd])
  rw [gather, List.foldl_append, ← gather, List.foldl_append, hrun, foldl_dropped (by simp)]
  intro d hd
  refine ⟨htaken d (List.mem_append_right _ hd), ?_⟩
  obtain ⟨dropped, after, rfl⟩ := List.append_of_mem hd
  by_cases hfirst : dropped = []
  · subst hfirst
    exact hdropped d rfl
  · have hsplit : before ++ (f :: run ++ (dropped ++ d :: after)) =
        before ++ (f :: run ++ (dropped ++ [d])) ++ after := by simp
    refine (runStop_lt_of_dropped (hsplit ▸ hmap).left hne hjoin (fun c hc ↦ ?_) hfirst).ne
    refine hdropped c ?_
    rwa [List.head?_append_of_ne_nil _ hfirst]

/-- Every run of the map is closed. -/
theorem RunOf.mem_closed (h : RunOf descs run) (hmap : SortedMap descs) :
    run ∈ (gather descs).closed := by
  obtain ⟨p, last, after, rfl, hpending, hlast⟩ := h
  have hrun := pending_eq hpending hmap.left
  have hne := hpending.ne_nil
  rw [← hrun] at hne
  rw [gather, List.foldl_append, ← gather, List.foldl_cons, gatherStep_close hlast hne, hrun]
  exact (closed_grows _ after).subset (by simp)

theorem mem_closed_iff (hmap : SortedMap descs) : run ∈ (gather descs).closed ↔ RunOf descs run :=
  ⟨runOf_of_mem_closed hmap, fun h ↦ h.mem_closed hmap⟩

/-! ### Closed runs lie apart -/

theorem PendingIn.pages_pos (h : PendingIn p run) (hmap : SortedMap p) : 0 < runPages run := by
  have hne := h.ne_nil
  obtain ⟨before, dropped, rfl, -⟩ := h
  obtain ⟨f, run, rfl⟩ := List.exists_cons_of_ne_nil hne
  have hf := hmap.nonempty f (by simp)
  rw [runPages, List.map_cons, List.sum_cons]
  omega

theorem PendingIn.stop_le_bound (h : PendingIn p run) (hmap : SortedMap p) :
    runStop run ≤ 2 ^ 64 := by
  have hne := h.ne_nil
  obtain ⟨before, dropped, rfl, -, -, hjoin, -⟩ := h
  obtain ⟨q, c, rfl⟩ : ∃ q c, run = q ++ [c] :=
    ⟨run.dropLast, run.getLast hne, (List.dropLast_concat_getLast hne).symm⟩
  rw [runStop_snoc hjoin]
  exact hmap.bounded c (by simp)

theorem RunOf.pages_pos (h : RunOf p run) (hmap : SortedMap p) : 0 < runPages run := by
  obtain ⟨q, last, after, rfl, hpending, -⟩ := h
  exact hpending.pages_pos hmap.left

theorem RunOf.stop_le_bound (h : RunOf p run) (hmap : SortedMap p) : runStop run ≤ 2 ^ 64 := by
  obtain ⟨q, last, after, rfl, hpending, -⟩ := h
  exact hpending.stop_le_bound hmap.left

theorem RunOf.ne_nil (h : RunOf descs run) : run ≠ [] := by
  obtain ⟨p, last, after, rfl, hpending, -⟩ := h
  exact hpending.ne_nil

theorem RunOf.subset (h : RunOf descs run) : run ⊆ descs := by
  intro d hd
  obtain ⟨p, last, after, rfl, ⟨before, dropped, rfl, -⟩, -⟩ := h
  simp [hd]

theorem RunOf.taken (h : RunOf descs run) (hd : d ∈ run) : d.Taken := by
  obtain ⟨p, last, after, rfl, ⟨before, dropped, rfl, -, -, -, htaken, -⟩, -⟩ := h
  exact htaken d (List.mem_append_left _ hd)

theorem RunOf.addr_le (h : RunOf descs run) (hmap : SortedMap descs) (hd : d ∈ run) :
    runAddr run ≤ d.addr := by
  obtain ⟨p, last, after, rfl, hpending, -⟩ := h
  exact hpending.addr_le hmap.left hd

/-- The descriptor that closes a run lies between it and the pending one. -/
theorem RunOf.stop_le (h : RunOf p run) (h' : PendingIn p run') (hmap : SortedMap p) :
    runStop run + 4096 ≤ runAddr run' := by
  obtain ⟨q, last, after, rfl, hpending, hlast⟩ := h
  have hle : runStop run ≤ last.addr := by
    refine hpending.stop_le ((List.append_cons q last after) ▸ hmap).left
  have hpages : 0 < last.numberOfPage.toNat := hmap.nonempty last (by simp)
  have hne := h'.ne_nil
  obtain ⟨before, dropped, hp, -, -, -, htaken, -⟩ := h'
  obtain ⟨f, run', rfl⟩ := List.exists_cons_of_ne_nil hne
  have hmem : last ∈ before := by
    have hmem : last ∈ before ++ (f :: run' ++ dropped) := hp ▸ by simp
    rcases List.mem_append.mp hmem with hmem | hmem
    · exact hmem
    · exact absurd (htaken last hmem) hlast
  have hstop : last.stop ≤ f.addr := (hp ▸ hmap).stop_le hmem (by simp)
  rw [EfiMemoryDescriptor.stop] at hstop
  rw [runAddr]
  omega

/-- Between two closed runs there is a page at least. -/
theorem closed_pairwise (hmap : SortedMap descs) :
    (gather descs).closed.Pairwise fun r r' ↦ runStop r + 4096 ≤ runAddr r' := by
  induction descs using List.reverseRecOn with
  | nil => exact List.Pairwise.nil
  | append_singleton p d ih =>
    rw [gather_snoc]
    by_cases hclose : ¬ d.Taken ∧ (gather p).pending ≠ []
    · have hpending : PendingIn p (gather p).pending :=
        (pending_gather hmap.left).resolve_left fun h ↦ hclose.2 h.1
      rw [gatherStep_close hclose.1 hclose.2]
      refine List.pairwise_append.mpr ⟨ih hmap.left, List.pairwise_singleton _ _, ?_⟩
      intro r hr r' hr'
      rw [List.mem_singleton.mp hr']
      exact (runOf_of_mem_closed hmap.left hr).stop_le hpending hmap.left
    · rw [gatherStep_closed hclose]
      exact ih hmap.left

/-- Between the two runs there is a page at least. -/
def RunsApart (run run' : List EfiMemoryDescriptor) : Prop :=
  runStop run + 4096 ≤ runAddr run' ∨ runStop run' + 4096 ≤ runAddr run

/-! ### Runs of one descriptor -/

theorem sortedMap_pair {d d' : EfiMemoryDescriptor} (hd : 0 < d.numberOfPage.toNat)
    (hd' : 0 < d'.numberOfPage.toNat) (hstop : d.stop ≤ d'.addr) (hstop' : d'.stop ≤ 2 ^ 64) :
    SortedMap [d, d'] where
  nonempty := List.forall_mem_cons.mpr ⟨hd, List.forall_mem_singleton.mpr hd'⟩
  bounded := List.forall_mem_cons.mpr
    ⟨hstop.trans d'.physicalStart.isLt.le, List.forall_mem_singleton.mpr hstop'⟩
  sorted := List.pairwise_pair.mpr hstop

/-- A descriptor alone is a run when nothing is pending before it and the one behind it is not
taken. -/
theorem runOf_singleton {last : EfiMemoryDescriptor} (hp : Idle p) (hd : d.Taken)
    (haddr : d.addr ≠ 0) (hlast : ¬ last.Taken) : RunOf (p ++ d :: last :: q) [d] :=
  ⟨p ++ [d], last, q, by simp, ⟨p, [], by simp, hp, haddr, List.isChain_singleton d,
    by simpa using hd, by simp⟩, hlast⟩

end VimOS
