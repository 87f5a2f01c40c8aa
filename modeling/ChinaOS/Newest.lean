import ChinaOS.Ready

/-!
Which of the ready threads of one priority runs.

`list_add` puts a thread in front of its ready list, and `shift` takes the first thread of a list.
So the ready lists are stacks.

* `Dated`: the kernel with a clock, and for each thread the time at which it was made ready last.
* `Inv.active_step`: what a step does to a ready list.
* `newest_first`: in every run of the core scheduler, `shift` selects the thread that was made ready
  last among those of the smallest priority.
* `not_overtaken`: it selects a thread again until that thread leaves, or one of its priority or a
  smaller one is made ready.
-/

namespace ChinaOS

open Ring

namespace Kernel

/-- The thread that an action puts into its ready list. -/
def madeReady : Act → Option ThreadId
  | .labour block .. => some block
  | .systimer pThread => some pThread
  | _ => none

/-- The thread can run: it has been made and is not suspended. -/
def Runnable (k : Kernel) (t : ThreadId) : Prop :=
  t ∈ k.osLiveList ∧ (k.point t = .user ∨ k.point t = .sleeping ∧ k.timer t ≠ .armed)

instance (k : Kernel) (t : ThreadId) : Decidable (k.Runnable t) :=
  inferInstanceAs (Decidable (_ ∧ _))

/-- The kernel with a clock that counts the steps, and the time at which each thread was made
ready last. -/
structure Dated where
  kernel : Kernel
  clock : ℕ
  since : ThreadId → ℕ

/-- One step. -/
def Dated.step (d : Dated) (a : Act) : Option Dated :=
  (Kernel.step d.kernel a).map fun k => ⟨k, d.clock + 1,
    match madeReady a with
    | some t => Function.update d.since t (d.clock + 1)
    | none => d.since⟩

/-- The kernel after `startup`. -/
def Dated.start (k₀ : Kernel) (pStackTop : Int32U) : Dated := ⟨startup k₀ pStackTop, 0, fun _ => 0⟩

section Newest

variable {I : Set Head} {k k' : Kernel} {Q Q' : Head → List ThreadId} {a : Act} {t : ThreadId}
  {p : ℕ}

/-- The links tell what the lists are. -/
lemma Lists.unique (hl : Lists I k Q) (hl' : Lists I k Q') {h : Head} (hh : h ∈ I) : Q h = Q' h :=
  List.map_injective_iff.mpr thread_injective
    ((hl.rings.circle h hh).unique (hl'.rings.circle h hh))

/-- The threads of the ready lists are those that can run. -/
lemma Inv.runnable_iff (hi : Inv I k Q) (hI : Heads I) (hf : CoreFields k) :
    Runnable k t ↔ ∃ p ≤ 32, t ∈ Q (.activeProc p) := by
  constructor
  · rintro ⟨hlive, hp⟩
    have hle := (hi.thread t).priority_le hlive
    refine ⟨_, hle, (hi.homes t _ (hI.activeProc_mem _ hle)).mpr ?_⟩
    rcases hp with hp | ⟨hp, htimer⟩
    · exact home_user hlive hp
    · rw [home_sleeping hlive hp, if_neg htimer]
  · rintro ⟨p, hp, ht⟩
    have hhome := (hi.homes t _ (hI.activeProc_mem p hp)).mp ht
    have hlive := live_of_home_active hhome
    refine ⟨hlive, ?_⟩
    cases hpoint : k.point t with
    | user => exact Or.inl rfl
    | sleeping =>
        rw [home_sleeping hlive hpoint] at hhome
        split_ifs at hhome with htimer
        exact Or.inr ⟨rfl, htimer⟩
    | waiting h Timeout woken => exact absurd hpoint (hf.no_waiter t h Timeout woken)
    | exited => exact absurd hpoint ((hi.thread t).live hlive)

/-! ### What a step does to a ready list -/

/-- A ready list after a step: a thread was put in front, or some have left and the one that was to
be made ready is not in it. -/
def Pushed (a : Act) (l l' : List ThreadId) : Prop :=
  (∃ t, madeReady a = some t ∧ l' = t :: l) ∨
    l'.Sublist l ∧ ∀ t, madeReady a = some t → t ∉ l'

/-- A list of which the links tell. -/
lemma pushed_of_lists (hl : Lists I k' Q') {Q₁ : Head → List ThreadId} (hl₁ : Lists I k' Q₁)
    (hh : .activeProc p ∈ I) (h : Pushed a (Q (.activeProc p)) (Q₁ (.activeProc p))) :
    Pushed a (Q (.activeProc p)) (Q' (.activeProc p)) := by
  rwa [hl.unique hl₁ hh]

/-- The running thread leaves its ready list. -/
lemma Inv.lists_vivify (hi : Inv I k Q) (hI : Heads I) (hu : k.point k.osThis = .user) :
    ∃ Q₁, Lists I (vivifyThread k k.osThis (k.priority k.osThis)) Q₁ ∧
      (∀ h ∈ I, k.osThis ∉ Q₁ h) ∧ ∀ p, (Q₁ (.activeProc p)).Sublist (Q (.activeProc p)) := by
  obtain ⟨-, -, hhome, hmem, hq⟩ := hi.user hI hu
  refine ⟨_, hi.lists.vivifyThread hmem hq, ?_, fun p => ?_⟩
  · exact (hi.homes.leave (hi.lists.nodup hmem) hhome).notMem (Function.update_self ..)
  · rw [Function.update_apply]
    split_ifs with hp
    · rw [hp]
      exact List.erase_sublist
    · exact List.Sublist.refl _

/-- A thread that is in no list goes to the front of one. -/
lemma pushed_front {q : ℕ} (hl : Lists I k' Q')
    (hl₁ : Lists I k' (Function.update Q (.activeProc q) (t :: Q (.activeProc q))))
    (hh : .activeProc p ∈ I) (ha : madeReady a = some t) (hnot : t ∉ Q (.activeProc p)) :
    Pushed a (Q (.activeProc p)) (Q' (.activeProc p)) := by
  refine pushed_of_lists hl hl₁ hh ?_
  by_cases hpq : p = q
  · subst hpq
    exact Or.inl ⟨t, ha, Function.update_self ..⟩
  · rw [Function.update_of_ne (by simpa using hpq)]
    refine Or.inr ⟨List.Sublist.refl _, fun u hu => ?_⟩
    rwa [← Option.some.inj (ha.symm.trans hu)]

/-- **What a step of the core scheduler does to a ready list.** -/
theorem Inv.active_step (hi : Inv I k Q) (hI : Heads I) (hc : Core k a)
    (hs : Kernel.step k a = some k') (hi' : Inv I k' Q') (hp : p ≤ 32) :
    Pushed a (Q (.activeProc p)) (Q' (.activeProc p)) := by
  have hh := hI.activeProc_mem p hp
  have hkeep : ∀ {Q₁}, madeReady a = none → Lists I k' Q₁ →
      (Q₁ (.activeProc p)).Sublist (Q (.activeProc p)) →
      Pushed a (Q (.activeProc p)) (Q' (.activeProc p)) := fun hnone hl hsub =>
    pushed_of_lists hi'.lists hl hh
      (Or.inr ⟨hsub, fun t ht => by rw [hnone] at ht; simp at ht⟩)
  cases a with
  | labour t pProcess StackDepth Priority pStackTop =>
      simp only [Kernel.step, Option.ite_none_right_eq_some, Option.some.injEq] at hs
      obtain ⟨⟨hu, ht⟩, rfl⟩ := hs
      rw [Allocated, not_or] at ht
      have hnone : k.home t = none := by rw [home, if_neg ht.1, if_neg ht.2]
      have hnot := hi.homes.notMem hnone
      by_cases hbad : Priority &&& ~~~0x1F ≠ 0 ∨ pProcess = 0 ∨ StackDepth = 0
      · rw [Kernel.labour, if_pos hbad] at hi'
        refine pushed_of_lists hi'.lists hi.lists hh (Or.inr ⟨List.Sublist.refl _, ?_⟩)
        rintro u hu
        obtain rfl := Option.some.inj hu
        exact hnot _ hh
      · rw [Kernel.labour, if_neg hbad] at hi'
        dsimp only at hi'
        have hlt : Priority.toNat < 32 := lt_of_filter (by
          by_contra h
          exact hbad (Or.inl h))
        set k₁ : Kernel := threadRegister { k with
          pStackTop := Function.update k.pStackTop t pStackTop
          priority := Function.update k.priority t Priority
          timer := Function.update k.timer t .unarmed
          point := Function.update k.point t .user
          switching := Function.update k.switching t false } t with hk₁
        have hprio : k₁.priority t = Priority := Function.update_self ..
        have hl₁ : Lists I k₁ Q := hi.lists.congr rfl rfl
        refine pushed_front hi'.lists (hl₁.addActive ?_ hnot) hh rfl (hnot _ hh)
        rw [hprio]
        exact hI.activeProc_mem _ (by omega)
  | exit =>
      simp only [Kernel.step, Option.ite_none_right_eq_some] at hs
      obtain ⟨hu, hs⟩ := hs
      obtain ⟨Q₁, hl₁, hnot, hsub⟩ := hi.lists_vivify hI hu
      obtain ⟨hlive, -⟩ := hi.user hI hu
      rw [Kernel.exit, threadUnregister, if_pos hlive, Option.map_some, Option.some.injEq] at hs
      have hl : Lists I k' (Function.update Q₁ .deadList (k.osThis :: Q₁ .deadList)) :=
        hl₁.add hI.deadList_mem (by simp) hnot (by rw [← hs]; rfl) (by rw [← hs]; rfl)
      refine hkeep rfl hl ?_
      rw [Function.update_of_ne (by simp)]
      exact hsub p
  | sleep Time =>
      simp only [Kernel.step, Option.ite_none_right_eq_some, Option.some.injEq] at hs
      obtain ⟨hu, rfl⟩ := hs
      by_cases h0 : Time = 0
      · refine hkeep rfl ?_ (List.Sublist.refl _)
        rw [Kernel.sleep, if_pos h0]
        exact hi.lists
      · obtain ⟨Q₁, hl₁, -, hsub⟩ := hi.lists_vivify hI hu
        refine hkeep rfl ?_ (hsub p)
        rw [Kernel.sleep, if_neg h0]
        exact hl₁.congr rfl rfl
  | sleepResumed =>
      simp only [Kernel.step, Option.ite_none_right_eq_some, Option.some.injEq] at hs
      obtain ⟨-, rfl⟩ := hs
      exact hkeep rfl (hi.lists.congr rfl rfl) (List.Sublist.refl _)
  | systimer t =>
      simp only [Kernel.step, Option.ite_none_right_eq_some, Option.some.injEq] at hs
      obtain ⟨harm, rfl⟩ := hs
      obtain ⟨hlive, -⟩ := (hi.thread t).armed harm
      have hnone : k.home t = none := by rw [home_sleeping hlive hc, if_pos harm]
      have hnot := hi.homes.notMem hnone
      have hmem := hI.activeProc_mem _ ((hi.thread t).priority_le hlive)
      have hl₁ : Lists I { k with timer := Function.update k.timer t .fired } Q :=
        hi.lists.congr rfl rfl
      have hl := hl₁.addActive hmem hnot
      obtain ⟨point, hw⟩ := markWoken_eq
        (addActive { k with timer := Function.update k.timer t .fired } t) t
      rw [Kernel.systimerException, hw] at hi'
      exact pushed_front hi'.lists (hl.congr rfl rfl) hh rfl (hnot _ hh)
  | shift pStackTop =>
      simp only [Kernel.step, Option.map_eq_some_iff] at hs
      obtain ⟨⟨k₁, sp⟩, hr, rfl⟩ := hs
      exact hkeep rfl (hi.shift hI hr).lists (List.Sublist.refl _)
  | _ => exact hc.elim

/-! ### The first of a ready list -/

/-- **The invariant of a run**: each ready list is in the order in which its threads were made
ready, the newest first. -/
structure Stacked (I : Set Head) (d : Dated) (Q : Head → List ThreadId) : Prop where
  inv : Inv I d.kernel Q
  fields : CoreFields d.kernel
  newest : ∀ p ≤ 32, (Q (.activeProc p)).Pairwise fun t u => d.since u < d.since t
  past : ∀ t, d.since t ≤ d.clock

/-- The thread `u` comes behind `t`: its priority is greater, or it was made ready earlier. -/
def Behind (d : Dated) (u t : ThreadId) : Prop :=
  (d.kernel.priority t).toNat < (d.kernel.priority u).toNat ∨
    (d.kernel.priority t).toNat = (d.kernel.priority u).toNat ∧ d.since u < d.since t

variable {d d' : Dated} {k₀ : Kernel} {pStackTop sp : Int32U} {u : ThreadId} {acts : List Act}

/-- Nothing but the idle thread is ready after `startup`. -/
lemma Stacked.start (hk : AtReset k₀) : ∃ Q, Stacked (bootHeads ∅) (Dated.start k₀ pStackTop) Q := by
  obtain ⟨Q, hi⟩ := Inv.startup_core hk pStackTop
  have hI := heads_bootHeads (W := ∅) fun _ hh => hh.elim
  have hf := CoreFields.startup hk pStackTop
  refine ⟨Q, hi, hf, fun p hp => ?_, fun _ => le_rfl⟩
  have honly : ∀ t ∈ Q (.activeProc p), t = osIdle := by
    intro t ht
    obtain ⟨hlive, -⟩ := (hi.runnable_iff hI hf).mpr ⟨p, hp, ht⟩
    have hlive : t ∈ k₀.osLiveList ++ [osIdle] := hlive
    rwa [hk.osLiveList, List.nil_append, List.mem_singleton] at hlive
  refine (hi.lists.nodup (hI.activeProc_mem p hp)).imp_of_mem fun ht hu hne => ?_
  exact absurd ((honly _ ht).trans (honly _ hu).symm) hne

/-- The times of the threads that a step does not make ready. -/
lemma Dated.step_since (hs : d.step a = some d') (ht : madeReady a ≠ some t) :
    d'.since t = d.since t := by
  obtain ⟨k', -, rfl⟩ := Option.map_eq_some_iff.mp hs
  dsimp only
  cases ha : madeReady a with
  | none => rfl
  | some v => exact Function.update_of_ne (fun h => ht (by rw [ha, h])) _ _

lemma Dated.step_made (hs : d.step a = some d') (ht : madeReady a = some t) :
    d'.since t = d.clock + 1 := by
  obtain ⟨k', -, rfl⟩ := Option.map_eq_some_iff.mp hs
  dsimp only
  rw [ht]
  exact Function.update_self ..

lemma Dated.step_kernel (hs : d.step a = some d') :
    Kernel.step d.kernel a = some d'.kernel ∧ d'.clock = d.clock + 1 := by
  obtain ⟨k', hk, rfl⟩ := Option.map_eq_some_iff.mp hs
  exact ⟨hk, rfl⟩

/-- **A step** keeps the ready lists in order. -/
lemma Stacked.step (hst : Stacked I d Q) (hI : Heads I) (hc : Core d.kernel a)
    (hs : d.step a = some d') : ∃ Q', Stacked I d' Q' ∧
      ∀ p ≤ 32, Pushed a (Q (.activeProc p)) (Q' (.activeProc p)) := by
  obtain ⟨hk, hclock⟩ := Dated.step_kernel hs
  obtain ⟨Q', hi'⟩ := hst.inv.plain_step hI hc.plain hk
  have hpushed : ∀ p ≤ 32, Pushed a (Q (.activeProc p)) (Q' (.activeProc p)) := fun p hp =>
    hst.inv.active_step hI hc hk hi' hp
  refine ⟨Q', ⟨hi', hst.fields.step hc hk, fun p hp => ?_, fun t => ?_⟩, hpushed⟩
  · rcases hpushed p hp with ⟨t, ha, heq⟩ | ⟨hsub, hnot⟩
    · have hnodup := hi'.lists.nodup (hI.activeProc_mem p hp)
      rw [heq, List.nodup_cons] at hnodup
      have hold : ∀ v ∈ Q (.activeProc p), d'.since v = d.since v := fun v hv =>
        Dated.step_since hs fun h => hnodup.1 (by rwa [Option.some.inj (ha.symm.trans h)])
      rw [heq, List.pairwise_cons]
      refine ⟨fun v hv => ?_, (hst.newest p hp).imp_of_mem fun hv hw hlt => ?_⟩
      · rw [hold v hv, Dated.step_made hs ha]
        exact Nat.lt_succ_of_le (hst.past v)
      · rwa [hold _ hv, hold _ hw]
    · refine ((hst.newest p hp).sublist hsub).imp_of_mem fun hv hw hlt => ?_
      rwa [Dated.step_since hs fun h => hnot _ h hv, Dated.step_since hs fun h => hnot _ h hw]
  · by_cases ha : madeReady a = some t
    · rw [Dated.step_made hs ha, hclock]
    · rw [Dated.step_since hs ha, hclock]
      exact (hst.past t).trans (Nat.le_succ _)

/-- The order holds in every run. -/
lemma stacked_of_reach (h₀ : AtReset k₀)
    (h : Run.Reach (fun d a => Core d.kernel a) Dated.step (Dated.start k₀ pStackTop) d) :
    ∃ Q, Stacked (bootHeads ∅) d Q :=
  h.invariant (I := fun d => ∃ Q, Stacked (bootHeads ∅) d Q) (Stacked.start h₀)
    fun d a d' ⟨Q, hst⟩ hc hs => by
      obtain ⟨Q', hst', -⟩ := hst.step (heads_bootHeads fun _ hh => hh.elim) hc hs
      exact ⟨Q', hst'⟩

/-- The thread that `shift` selects is the first one of its ready list. -/
lemma Inv.shift_head (hi : Inv I k Q) (hI : Heads I) {top : Int32U}
    (hk : k.shift sp = some (k', top)) :
    (Q (.activeProc (k.priority k'.osThis).toNat)).head? = some k'.osThis := by
  have hle : (bitScanForward k.osActivePrio).toNat ≤ 32 := by
    rcases hi.lists.bitScanForward_cases with ⟨p, hp, h, -⟩ | ⟨h, -⟩ <;> omega
  have hmem := hI.activeProc_mem _ hle
  rw [Kernel.shift, activeProc, hi.lists.containerOf_next hmem, Option.map_eq_some_iff] at hk
  obtain ⟨t, ht, hk⟩ := hk
  have hthis : k'.osThis = t := by rw [← (Prod.mk.inj hk).1]
  have hprio := hi.priority_of_home ((hi.homes _ _ hmem).mp (List.mem_of_head? ht))
  rw [hthis, ← hprio]
  exact ht

/-- **What `shift` selects** when the lists are in order. -/
lemma Stacked.shift (hst : Stacked I d Q) (hI : Heads I) (sp : Int32U) :
    ∃ k' top, d.kernel.shift sp = some (k', top) ∧ Runnable d.kernel k'.osThis ∧
      ∀ t, Runnable d.kernel t → t ≠ k'.osThis → Behind d t k'.osThis := by
  have hidle : osIdle ∈ Q (.activeProc 32) := by
    rw [hst.inv.homes _ _ (hI.activeProc_mem 32 le_rfl),
      home_user hst.fields.idle_live hst.fields.idle_point, hst.fields.idle_priority]
    rfl
  obtain ⟨⟨k', top⟩, hk⟩ := Option.isSome_iff_exists.mp
    (hst.inv.shift_isSome hI (List.ne_nil_of_mem hidle) sp)
  obtain ⟨-, hhome, hmem, hleast⟩ := hst.inv.shift_spec hI hk
  have hle : (d.kernel.priority k'.osThis).toNat ≤ 32 :=
    (hst.inv.thread _).priority_le (live_of_home_active hhome)
  refine ⟨k', top, hk, (hst.inv.runnable_iff hI hst.fields).mpr ⟨_, hle, hmem⟩, fun t ht hne => ?_⟩
  obtain ⟨p, hp, htp⟩ := (hst.inv.runnable_iff hI hst.fields).mp ht
  have hprio := hst.inv.priority_of_home ((hst.inv.homes _ _ (hI.activeProc_mem p hp)).mp htp)
  rcases Nat.lt_or_eq_of_le (hleast p hp t htp) with hlt | heq
  · exact Or.inl hlt
  · refine Or.inr ⟨heq, ?_⟩
    have hhead := hst.inv.shift_head hI hk
    obtain ⟨l, hl⟩ := List.head?_eq_some_iff.mp hhead
    have hnewest := hst.newest _ hle
    rw [hl, List.pairwise_cons] at hnewest
    rw [hprio, ← heq, hl, List.mem_cons] at htp
    exact hnewest.1 t (htp.resolve_left hne)

/-- **The newest thread runs.** In every run of the core scheduler `shift` selects, among the
threads that can run, the one of the smallest priority that was made ready last: the ready lists
are stacks. -/
theorem newest_first (h₀ : AtReset k₀)
    (h : Run.Reach (fun d a => Core d.kernel a) Dated.step (Dated.start k₀ pStackTop) d)
    (sp : Int32U) : ∃ k' top, d.kernel.shift sp = some (k', top) ∧ Runnable d.kernel k'.osThis ∧
      ∀ t, Runnable d.kernel t → t ≠ k'.osThis → Behind d t k'.osThis := by
  obtain ⟨Q, hst⟩ := stacked_of_reach h₀ h
  exact hst.shift (heads_bootHeads fun _ hh => hh.elim) sp

/-- Two threads of priority 5. -/
def twoThreads : List Act := [.labour 1 1 64 5 0, .labour 2 1 64 5 0]

/-- The kernel with both of them. -/
def twoReady : Dated :=
  (Run.exec Dated.step (Dated.start reset 0) twoThreads).getD (Dated.start reset 0)

lemma reach_twoReady :
    Run.Reach (fun d a => Core d.kernel a) Dated.step (Dated.start reset 0) twoReady :=
  Run.Reach.of_exec (show Run.exec Dated.step (Dated.start reset 0) twoThreads = some twoReady from rfl)
    (.cons rfl trivial (.cons rfl trivial trivial))

/-- The second one was made ready last. -/
theorem newest_first_two : ∃ k' top, twoReady.kernel.shift 0 = some (k', top) ∧ k'.osThis = 2 ∧
    Runnable twoReady.kernel 1 ∧ Behind twoReady 1 k'.osThis := by
  obtain ⟨k', top, hk, -, hbehind⟩ := newest_first atReset_reset reach_twoReady 0
  have hthis : 2 = k'.osThis := congrArg (fun r => (r.map fun r => r.1.osThis).getD 0) hk
  have hrun : Runnable twoReady.kernel 1 := by decide
  exact ⟨k', top, hk, hthis.symm, hrun, hbehind 1 hrun (by rw [← hthis]; decide)⟩

/-! ### No time slices -/

/-- A step that makes no thread ready that would come before `t`, and leaves `t` as it is, leaves
all others behind `t`. -/
lemma Stacked.behind_step (hst : Stacked I d Q) (hI : Heads I) (hc : Core d.kernel a)
    (hs : d.step a = some d') (hb : ∀ u, Runnable d.kernel u → u ≠ t → Behind d u t)
    (hstay : Runnable d'.kernel t)
    (hnew : ∀ u, madeReady a = some u →
      (d'.kernel.priority t).toNat < (d'.kernel.priority u).toNat) :
    ∀ u, Runnable d'.kernel u → u ≠ t → Behind d' u t := by
  obtain ⟨Q', hst', hpushed⟩ := hst.step hI hc hs
  -- a thread that was ready already, and has its priority and its time still
  have hold : ∀ u, Runnable d'.kernel u → (∀ v, madeReady a = some v → v ≠ u) →
      Runnable d.kernel u ∧ d.kernel.priority u = d'.kernel.priority u := by
    intro u hu hne
    obtain ⟨p, hp, hmem⟩ := (hst'.inv.runnable_iff hI hst'.fields).mp hu
    have hmem' : u ∈ Q (.activeProc p) := by
      rcases hpushed p hp with ⟨v, hv, heq⟩ | ⟨hsub, -⟩
      · rw [heq, List.mem_cons] at hmem
        exact hmem.resolve_left fun h => hne v hv h.symm
      · exact hsub.subset hmem
    refine ⟨(hst.inv.runnable_iff hI hst.fields).mpr ⟨p, hp, hmem'⟩, BitVec.eq_of_toNat_eq ?_⟩
    have hI' := hI.activeProc_mem p hp
    rw [← hst.inv.priority_of_home ((hst.inv.homes _ _ hI').mp hmem'),
      ← hst'.inv.priority_of_home ((hst'.inv.homes _ _ hI').mp hmem)]
  have ht : ∀ v, madeReady a = some v → v ≠ t := fun v hv h => by
    have := hnew v hv
    rw [h] at this
    exact lt_irrefl _ this
  obtain ⟨-, hprio⟩ := hold t hstay ht
  intro u hu hne
  by_cases hmade : madeReady a = some u
  · exact Or.inl (hnew u hmade)
  · have hu' : ∀ v, madeReady a = some v → v ≠ u := fun v hv h => hmade (h ▸ hv)
    obtain ⟨hrun, hprio'⟩ := hold u hu hu'
    have hbehind := hb u hrun hne
    rwa [Behind, hprio, hprio', ← Dated.step_since hs fun h => ht t h rfl,
      ← Dated.step_since hs fun h => hu' u h rfl] at hbehind

/-- **There are no time slices.** In every run of the core scheduler, `shift` selects the thread that
it has selected before again and again, as long as that thread does not suspend itself or finish and
none of its priority or a smaller one is made ready: other threads of its priority do not get their
turn. -/
theorem not_overtaken {k₁ : Kernel} {top : Int32U} (h₀ : AtReset k₀)
    (h : Run.Reach (fun d a => Core d.kernel a) Dated.step (Dated.start k₀ pStackTop) d)
    (hk : d.kernel.shift sp = some (k₁, top)) (hrun : Run.exec Dated.step d acts = some d')
    (hcore : Run.Along Dated.step (fun d a _ => Core d.kernel a) d acts)
    (hstay : Run.Along Dated.step (fun _ a d' => Runnable d'.kernel k₁.osThis ∧
      ∀ u, madeReady a = some u →
        (d'.kernel.priority k₁.osThis).toNat < (d'.kernel.priority u).toNat) d acts)
    (sp' : Int32U) :
    ∃ k₂ top', d'.kernel.shift sp' = some (k₂, top') ∧ k₂.osThis = k₁.osThis := by
  have hI := heads_bootHeads (W := ∅) fun _ hh => hh.elim
  obtain ⟨k', top₁, hk', hrunnable, hbehind⟩ := newest_first h₀ h sp
  rw [hk, Option.some.injEq, Prod.mk.injEq] at hk'
  obtain ⟨rfl, -⟩ := hk'
  generalize k₁.osThis = t at *
  obtain ⟨Q, hst⟩ := stacked_of_reach h₀ h
  clear h hk
  induction acts generalizing d Q with
  | nil =>
      obtain rfl : d = d' := Option.some.inj hrun
      obtain ⟨k₂, top', hk₂, hrun₂, hbehind₂⟩ := hst.shift hI sp'
      refine ⟨k₂, top', hk₂, ?_⟩
      by_contra hne
      have h₁ := hbehind _ hrun₂ hne
      have h₂ := hbehind₂ _ hrunnable (Ne.symm hne)
      rw [Behind] at h₁ h₂
      omega
  | cons a acts ih =>
      rw [Run.exec, Option.bind_eq_some_iff] at hrun
      obtain ⟨d₁, hs, hrun⟩ := hrun
      obtain ⟨hc, hcore⟩ := hcore d₁ hs
      obtain ⟨⟨hstay₁, hnew⟩, hstay⟩ := hstay d₁ hs
      obtain ⟨Q₁, hst₁, -⟩ := hst.step hI hc hs
      exact ih hrun hcore hstay hstay₁ (hst.behind_step hI hc hs hbehind hstay₁ hnew) Q₁ hst₁

/-- A switch, and a thread of priority 7. -/
def thirdMade : List Act := [.shift 0, .labour 3 1 64 7 0]

/-- The second thread goes on, though the first one can run all the time. -/
theorem not_overtaken_two : ∃ k₁ top d', twoReady.kernel.shift 0 = some (k₁, top) ∧
    Run.exec Dated.step twoReady thirdMade = some d' ∧
    ∃ k₂ top', d'.kernel.shift 0 = some (k₂, top') ∧ k₂.osThis = k₁.osThis := by
  obtain ⟨k₁, top, hk, hthis⟩ : ∃ k₁ top, twoReady.kernel.shift 0 = some (k₁, top) ∧
      k₁.osThis = 2 := ⟨_, _, rfl, rfl⟩
  obtain ⟨d', hd'⟩ : ∃ d', Run.exec Dated.step twoReady thirdMade = some d' := ⟨_, rfl⟩
  have hcore : Run.Along Dated.step (fun d a _ => Core d.kernel a) twoReady thirdMade :=
    .cons rfl trivial (.cons rfl trivial trivial)
  refine ⟨k₁, top, d', hk, hd', not_overtaken atReset_reset reach_twoReady hk hd' hcore ?_ 0⟩
  rw [hthis]
  refine .cons rfl ⟨by decide, fun u hu => by simp [madeReady] at hu⟩
    (.cons rfl ⟨by decide, fun u hu => ?_⟩ trivial)
  obtain rfl := Option.some.inj hu
  decide

end Newest

end Kernel

end ChinaOS
