import ChinaOS.Ready

/-!
The wait lists of semaphores and mailboxes.

A thread that blocks moves its node from the ready list to the wait list. The code that
makes it ready again links the node into the ready list without unlinking it from the wait
list, and when the thread runs again it unlinks its node, now from the ready list.

* `Inv.step`: as long as no step makes a waiter ready, every list holds the threads that
  belong there.
* `Inv.not_waitList_of_wake`: making a waiter ready breaks its wait list.
* `waitLaw_iff_no_wake`: a run obeys the law of the wait lists exactly when it wakes no
  waiter.
-/

namespace ChinaOS

open Ring

namespace Kernel

/-- Every semaphore and mailbox has been created, with an empty wait list. -/
def Created (k : Kernel) : Prop :=
  ∀ h, IsWait h → k.links.next (.head h) = .head h ∧ k.links.prev (.head h) = .head h

/-- The heads of a kernel with semaphores and mailboxes. -/
def allHeads : Set Head := bootHeads {h | IsWait h}

/-- A step that makes a suspended waiter ready: a post that finds one, the second part of a
`mail_post` that has found one, or the expiry of a waiter's time limit. -/
def Wakes (k : Kernel) : Act → Prop
  | .semaphorePost s => listEmpty k.links (.head (.semaphore s)) = false
  | .mailPostReady _ => True
  | .systimer pThread => ∃ h Timeout woken, k.point pThread = .waiting h Timeout woken
  | _ => False

/-- Every wait list is a circular list of exactly the threads that are blocked on it and
have not been made ready. -/
def WaitLists (k : Kernel) : Prop :=
  ∀ w, IsWait w → ∃ l : List ThreadId, k.links.Circle (.head w) (l.map Node.thread) ∧
    ∀ t, t ∈ l ↔ ∃ Timeout, k.point t = .waiting w Timeout false

/-- What is to hold when `semaphore_wait` or `mail_wait` returns to the thread `t` that has
been blocked: `t` is in its ready list, once, and in no wait list, and the bits of
`OS_ActivePrio` are those of the ready lists that are not empty. -/
def ReadyAgain (k : Kernel) (t : ThreadId) : Prop :=
  ∃ Q : ℕ → List ThreadId,
    (∀ p ≤ 32, k.links.Circle (.head (.activeProc p)) ((Q p).map Node.thread)) ∧
    t ∈ Q (k.priority t).toNat ∧
    (∀ w, IsWait w → ∀ l, k.links.Circle (.head w) l → Node.thread t ∉ l) ∧
    ∀ p < 32, testBit k.osActivePrio p = true ↔ Q p ≠ []

/-- **The wait-queue law** of a step. -/
def WaitLaw (k : Kernel) (a : Act) (k' : Kernel) : Prop :=
  WaitLists k' ∧ (a = .waitResumed → ReadyAgain k' k.osThis)

section Wait

variable {k k' : Kernel} {Q : Head → List ThreadId} {w : Head} {t : ThreadId} {a : Act}
  {Timeout : Int32U}

lemma heads_allHeads : Heads allHeads := heads_bootHeads fun _ hh => hh

lemma mem_allHeads (hw : IsWait w) : w ∈ allHeads := Or.inl (Or.inl hw)

lemma Created.rings (hc : Created k) : Rings k.links {h | IsWait h} Node.head fun _ => [] := by
  refine ⟨fun i hi => isRing_nil.mpr (hc i hi), fun i _ j _ hij x hx hx' => ?_⟩
  simp only [List.mem_singleton] at hx hx'
  rw [hx, Node.head.injEq] at hx'
  exact hij hx'

namespace Inv

/-- A thread belongs in a wait list when it is blocked on it. -/
lemma home_wait_iff (hi : Inv allHeads k Q) (hw : IsWait w) :
    k.home t = some w ↔ ∃ Timeout, k.point t = .waiting w Timeout false := by
  constructor
  · intro h
    have hlive : t ∈ k.osLiveList := by
      by_contra hdead
      rw [home, if_neg hdead] at h
      split_ifs at h
      rw [Option.some.injEq] at h
      exact hw.ne_deadList h.symm
    cases hp : k.point t with
    | user =>
        rw [home_user hlive hp, Option.some.injEq] at h
        exact absurd h.symm (hw.ne_activeProc _)
    | sleeping =>
        rw [home_sleeping hlive hp] at h
        split_ifs at h
        rw [Option.some.injEq] at h
        exact absurd h.symm (hw.ne_activeProc _)
    | waiting h' Timeout woken =>
        obtain ⟨-, rfl, -⟩ := (hi.thread t).waiting _ _ _ hp
        rw [home_waiting hlive hp, Option.some.injEq] at h
        exact ⟨Timeout, by rw [h]⟩
    | exited => exact absurd hp ((hi.thread t).live hlive)
  · rintro ⟨Timeout, hp⟩
    exact home_waiting ((hi.thread t).waiting _ _ _ hp).2.2 hp

/-- The wait list of a thread that is blocked. -/
lemma mem_wait (hi : Inv allHeads k Q) (hp : k.point t = .waiting w Timeout false) :
    IsWait w ∧ w ∈ allHeads ∧ t ∈ Q w := by
  have hw := ((hi.thread t).waiting _ _ _ hp).1
  have hmem := mem_allHeads hw
  exact ⟨hw, hmem, (hi.homes t w hmem).mpr ((hi.home_wait_iff hw).mpr ⟨_, hp⟩)⟩

/-- The invariant gives the wait lists. -/
lemma waitLists (hi : Inv allHeads k Q) : WaitLists k := by
  intro w hw
  have hmem := mem_allHeads hw
  refine ⟨Q w, hi.lists.rings.circle w hmem, fun t => ?_⟩
  rw [hi.homes t w hmem, hi.home_wait_iff hw]

/-- A thread that is blocked on a list is not the running one, once the switch is done. -/
lemma not_waiting_of_running (hi : Inv allHeads k Q) (hsw : k.switching k.osThis = false)
    (woken : Bool) : k.point k.osThis ≠ .waiting w Timeout woken := by
  intro hp
  obtain ⟨hw, rfl, -⟩ := (hi.thread _).waiting _ _ _ hp
  have h1 := hi.running hsw
  rw [(hi.home_wait_iff hw).mpr ⟨_, hp⟩, Option.some.injEq] at h1
  exact hw.ne_activeProc _ h1

/-- **Making a waiter ready breaks its wait list**: the node before it still points at it. -/
theorem not_waitList_of_wake (hi : Inv allHeads k Q) (hp : k.point t = .waiting w Timeout false)
    (hlinks : k'.links = listAdd k.links (.thread t) (activeProc (k.priority t)))
    (hpoint : k'.point = Function.update k.point t (.waiting w Timeout true)) :
    ¬ WaitLists k' := by
  intro hlaw
  obtain ⟨hw, hmem, htq⟩ := hi.mem_wait hp
  obtain ⟨l, hring', hl⟩ := hlaw w hw
  have hring := hi.lists.rings.circle w hmem
  have hlive := ((hi.thread t).waiting _ _ _ hp).2.2
  have hact : .activeProc (k.priority t).toNat ∈ allHeads :=
    heads_allHeads.activeProc_mem _ ((hi.thread t).priority_le hlive)
  have htm : Node.thread t ∈ (Q w).map Node.thread := thread_mem_map.mpr htq
  set x := k.links.prev (.thread t) with hx
  have hxm : x ∈ Node.head w :: (Q w).map Node.thread :=
    hring.prev_mem (List.mem_cons_of_mem _ htm)
  have hxt : x ≠ .thread t := hring.prev_ne htm
  have hxa : x ≠ activeProc (k.priority t) := by
    intro h
    exact hw.ne_activeProc _ (hi.lists.rings.eq_of_mem hmem hact hxm (h ▸ List.mem_cons_self))
  have hnext : k'.links.next x = .thread t := by
    rw [hlinks, listAdd_next, if_neg hxa, if_neg hxt]
    exact hring.next_prev (List.mem_cons_of_mem _ htm)
  have hx' : x ∈ Node.head w :: l.map Node.thread := by
    rcases List.mem_cons.mp hxm with h | h
    · exact h ▸ List.mem_cons_self
    · obtain ⟨u, hu, hux⟩ := List.mem_map.mp h
      have hut : u ≠ t := fun h => hxt (by rw [← hux, h])
      obtain ⟨T, hT⟩ := (hi.home_wait_iff hw).mp ((hi.homes u w hmem).mp hu)
      refine List.mem_cons_of_mem _ (hux ▸ thread_mem_map.mpr ((hl u).mpr ⟨T, ?_⟩))
      rw [hpoint, Function.update_of_ne hut, hT]
  have ht' : t ∈ l := by
    have h1 := hring'.next_mem hx'
    rwa [hnext, thread_mem_ring] at h1
  obtain ⟨T, hT⟩ := (hl t).mp ht'
  rw [hpoint, Function.update_self] at hT
  simp at hT

end Inv

/-! ### Steps that wake no waiter -/

/-- The threads that a `mail_post` has picked are blocked on its mailbox. -/
def Posting (k : Kernel) : Prop :=
  ∀ t ∈ k.posting, ∃ b Timeout, k.point t = .waiting (.mailbox b) Timeout false

/-- **A step that makes no waiter ready keeps the invariant.** -/
theorem Inv.step (hi : Inv allHeads k Q) (ha : ¬ Wakes k a) (hs : Kernel.step k a = some k') :
    ∃ Q', Inv allHeads k' Q' := by
  have hI := heads_allHeads
  cases a with
  | labour | exit | sleep | sleepResumed | shift =>
      refine hi.plain_step hI ?_ hs
      trivial
  | systimer u =>
      refine hi.plain_step hI ?_ hs
      simp only [Kernel.step, Option.ite_none_right_eq_some] at hs
      obtain ⟨hlive, hne⟩ := (hi.thread u).armed hs.1
      show k.point u = .sleeping
      cases hp : k.point u with
      | user => exact absurd hp hne
      | sleeping => rfl
      | waiting h T woken => exact absurd ⟨h, T, woken, hp⟩ ha
      | exited => exact absurd hp ((hi.thread u).live hlive)
  | semaphoreWait s Timeout =>
      simp only [Kernel.step, Option.ite_none_right_eq_some, Option.some.injEq] at hs
      obtain ⟨hu, rfl⟩ := hs
      rw [Kernel.semaphoreWait]
      split_ifs
      · exact ⟨Q, hi.congr rfl rfl rfl rfl fun u => ⟨Iff.rfl, rfl, rfl, rfl, rfl⟩⟩
      · exact hi.suspend (w := .semaphore s) hI hu (mem_allHeads trivial) trivial Timeout
  | semaphorePost s =>
      simp only [Kernel.step, Option.map_eq_some_iff] at hs
      obtain ⟨r, hr, rfl⟩ := hs
      rw [semaphorePost_of_nil (Bool.eq_true_of_not_eq_false ha), Option.some.injEq] at hr
      subst hr
      exact ⟨Q, hi.congr rfl rfl rfl rfl fun u => ⟨Iff.rfl, rfl, rfl, rfl, rfl⟩⟩
  | mailWait b Timeout =>
      simp only [Kernel.step, Option.ite_none_right_eq_some, Option.map_eq_some_iff] at hs
      obtain ⟨hu, r, hr, rfl⟩ := hs
      rcases mailWait_cases hr with ⟨mail, h⟩ | h
      · exact ⟨Q, h ▸ hi.congr rfl rfl rfl rfl fun u => ⟨Iff.rfl, rfl, rfl, rfl, rfl⟩⟩
      · exact h ▸ hi.suspend (w := .mailbox b) hI hu (mem_allHeads trivial) trivial Timeout
  | mailPost b m =>
      simp only [Kernel.step, Option.map_eq_some_iff] at hs
      obtain ⟨r, hr, rfl⟩ := hs
      obtain ⟨⟨mail, h⟩, -⟩ := mailPost_eq_some hr
      rw [h]
      exact ⟨Q, hi.congr rfl rfl rfl rfl fun u => ⟨Iff.rfl, rfl, rfl, rfl, rfl⟩⟩
  | mailPostReady u => exact absurd trivial ha
  | waitResumed =>
      simp only [Kernel.step, Option.ite_none_right_eq_some] at hs
      obtain ⟨hsw, hs⟩ := hs
      cases hp : k.point k.osThis with
      | waiting h T woken => exact absurd hp (hi.not_waiting_of_running hsw woken)
      | user | sleeping | exited => simp [hp] at hs

/-- Such a step leaves blocked threads where they are. -/
lemma Inv.step_point (hi : Inv allHeads k Q) (ha : ¬ Wakes k a)
    (hs : Kernel.step k a = some k') (hp : k.point t = .waiting w Timeout false) :
    k'.point t = .waiting w Timeout false := by
  have hrun : k.point k.osThis = .user → t ≠ k.osThis := by
    rintro hu rfl
    rw [hu] at hp
    simp at hp
  cases a with
  | labour u =>
      simp only [Kernel.step, Option.ite_none_right_eq_some, Option.some.injEq] at hs
      obtain ⟨⟨-, hu⟩, rfl⟩ := hs
      have hne : t ≠ u := by
        rintro rfl
        exact hu (Or.inl ((hi.thread t).waiting _ _ _ hp).2.2)
      rw [Kernel.labour]
      split_ifs
      · exact hp
      · exact (Function.update_of_ne hne ..).trans hp
  | exit =>
      simp only [Kernel.step, Option.ite_none_right_eq_some, Kernel.exit, threadUnregister,
        Option.map_eq_some_iff, Option.some.injEq] at hs
      obtain ⟨hu, k₁, ⟨-, rfl⟩, rfl⟩ := hs
      exact (Function.update_of_ne (hrun hu) ..).trans hp
  | sleep Time =>
      simp only [Kernel.step, Option.ite_none_right_eq_some, Option.some.injEq] at hs
      obtain ⟨hu, rfl⟩ := hs
      rw [Kernel.sleep]
      split_ifs
      · exact hp
      · exact (Function.update_of_ne (hrun hu) ..).trans hp
  | sleepResumed =>
      simp only [Kernel.step, Option.ite_none_right_eq_some, Option.some.injEq] at hs
      obtain ⟨⟨hu, -⟩, rfl⟩ := hs
      have hne : t ≠ k.osThis := by
        rintro rfl
        rw [hu] at hp
        simp at hp
      exact (Function.update_of_ne hne ..).trans hp
  | semaphoreWait s T =>
      simp only [Kernel.step, Option.ite_none_right_eq_some, Option.some.injEq] at hs
      obtain ⟨hu, rfl⟩ := hs
      rw [Kernel.semaphoreWait]
      split_ifs
      · exact hp
      · exact (Function.update_of_ne (hrun hu) ..).trans hp
  | semaphorePost s =>
      simp only [Kernel.step, Option.map_eq_some_iff] at hs
      obtain ⟨r, hr, rfl⟩ := hs
      rw [semaphorePost_of_nil (Bool.eq_true_of_not_eq_false ha), Option.some.injEq] at hr
      exact hr ▸ hp
  | mailWait b T =>
      simp only [Kernel.step, Option.ite_none_right_eq_some, Option.map_eq_some_iff] at hs
      obtain ⟨hu, r, hr, rfl⟩ := hs
      rcases mailWait_cases hr with ⟨mail, h⟩ | h
      · exact h ▸ hp
      · exact h ▸ (Function.update_of_ne (hrun hu) ..).trans hp
  | mailPost b m =>
      simp only [Kernel.step, Option.map_eq_some_iff] at hs
      obtain ⟨r, hr, rfl⟩ := hs
      obtain ⟨⟨mail, h⟩, -⟩ := mailPost_eq_some hr
      rw [h]
      exact hp
  | mailPostReady u => exact absurd trivial ha
  | waitResumed =>
      simp only [Kernel.step, Option.ite_none_right_eq_some] at hs
      obtain ⟨hsw, hs⟩ := hs
      cases hq : k.point k.osThis with
      | waiting h T woken => exact absurd hq (hi.not_waiting_of_running hsw woken)
      | user | sleeping | exited => simp [hq] at hs
  | systimer u =>
      simp only [Kernel.step, Option.ite_none_right_eq_some, Option.some.injEq] at hs
      obtain ⟨-, rfl⟩ := hs
      rw [Kernel.systimerException, markWoken]
      split
      · rename_i h T woken hq
        exact absurd ⟨h, T, woken, hq⟩ ha
      · exact hp
  | shift top =>
      simp only [Kernel.step, Option.map_eq_some_iff, Kernel.shift] at hs
      obtain ⟨r, ⟨u, -, rfl⟩, rfl⟩ := hs
      exact hp

/-! ### The law along a run -/

/-- The invariant of a run that has made no waiter ready. -/
def NoneWoken (k : Kernel) : Prop := (∃ Q, Inv allHeads k Q) ∧ Posting k

lemma noneWoken_startup {k : Kernel} (h₀ : AtReset k) (hc : Created k) (pStackTop : Int32U) :
    NoneWoken (startup k pStackTop) := by
  refine ⟨⟨_, Inv.startup h₀ (fun _ hh => hh) hc.rings pStackTop⟩, fun t ht => ?_⟩
  rw [show (startup k pStackTop).posting = [] from h₀.posting] at ht
  simp at ht

/-- A step that makes no waiter ready obeys the wait-queue law. -/
lemma NoneWoken.step (hn : NoneWoken k) (ha : ¬ Wakes k a) (hs : Kernel.step k a = some k') :
    NoneWoken k' ∧ WaitLaw k a k' := by
  obtain ⟨⟨Q, hi⟩, hpost⟩ := hn
  obtain ⟨Q', hi'⟩ := hi.step ha hs
  have hkeep : ∀ t, (∃ b T, k.point t = .waiting (.mailbox b) T false) →
      ∃ b T, k'.point t = .waiting (.mailbox b) T false :=
    fun t ⟨b, T, hp⟩ => ⟨b, T, hi.step_point ha hs hp⟩
  refine ⟨⟨⟨Q', hi'⟩, fun t ht => ?_⟩, hi'.waitLists, fun hret => ?_⟩
  · refine hkeep t ?_
    by_cases hold : t ∈ k.posting
    · exact hpost t hold
    · -- only a `mail_post` picks a thread, and it picks one that is blocked
      cases a with
      | mailPost b m =>
          simp only [Kernel.step, Option.map_eq_some_iff] at hs
          obtain ⟨r, hr, rfl⟩ := hs
          obtain ⟨⟨mail, hk⟩, hpick⟩ := mailPost_eq_some hr
          have htr : t ∈ r.2.2 := by
            simp only [List.mem_append, Option.mem_toList] at ht
            exact ht.resolve_right hold
          have hmem : Head.mailbox b ∈ allHeads := mem_allHeads trivial
          have hhead := (hpick t htr).1
          rw [hi.lists.containerOf_next hmem] at hhead
          obtain ⟨T, hT⟩ := (hi.home_wait_iff (w := .mailbox b) trivial).mp
            ((hi.homes t _ hmem).mp (List.mem_of_head? hhead))
          exact ⟨b, T, hT⟩
      | labour | exit | sleep | sleepResumed | semaphoreWait | semaphorePost | mailWait
      | mailPostReady | waitResumed | systimer | shift =>
          exact absurd ((step_frame hs).posting (by simp) t ht) hold
  · subst hret
    simp only [Kernel.step, Option.ite_none_right_eq_some] at hs
    obtain ⟨hsw, hs⟩ := hs
    cases hq : k.point k.osThis with
    | waiting h T woken => exact absurd hq (hi.not_waiting_of_running hsw woken)
    | user | sleeping | exited => simp [hq] at hs

/-- A step that makes a waiter ready breaks the law. -/
lemma NoneWoken.not_waitLaw (hn : NoneWoken k) (ha : Wakes k a)
    (hs : Kernel.step k a = some k') : ¬ WaitLaw k a k' := by
  obtain ⟨⟨Q, hi⟩, hpost⟩ := hn
  refine fun hlaw => absurd hlaw.1 ?_
  cases a with
  | semaphorePost s =>
      simp only [Kernel.step, Option.map_eq_some_iff, Kernel.semaphorePost] at hs
      obtain ⟨r, hr, rfl⟩ := hs
      have he : ¬ listEmpty k.links (.head (.semaphore s)) = true := by rw [ha]; simp
      rw [if_neg he, Option.map_eq_some_iff] at hr
      obtain ⟨t, ht, rfl⟩ := hr
      have hmem : Head.semaphore s ∈ allHeads := mem_allHeads trivial
      rw [hi.lists.containerOf_next hmem] at ht
      obtain ⟨T, hT⟩ := (hi.home_wait_iff (w := .semaphore s) trivial).mp
        ((hi.homes t _ hmem).mp (List.mem_of_head? ht))
      set k₁ : Kernel := { k with
        counter := Function.update k.counter s (k.counter s + 1) } with hk₁
      have hT' : (addActive k₁ t).point t = .waiting (.semaphore s) T false := hT
      refine hi.not_waitList_of_wake hT ?_ ?_
      · rw [markWoken_of_waiting hT']
        rfl
      · rw [markWoken_of_waiting hT']
        rfl
  | mailPostReady t =>
      simp only [Kernel.step, Option.ite_none_right_eq_some, Option.some.injEq] at hs
      obtain ⟨ht, rfl⟩ := hs
      obtain ⟨b, T, hT⟩ := hpost t ht
      have hT' : (addActive k t).point t = .waiting (.mailbox b) T false := hT
      refine hi.not_waitList_of_wake hT ?_ ?_
      · rw [mailPostReady, markWoken_of_waiting hT']
        rfl
      · rw [mailPostReady, markWoken_of_waiting hT']
        rfl
  | systimer t =>
      simp only [Kernel.step, Option.ite_none_right_eq_some, Option.some.injEq] at hs
      obtain ⟨-, rfl⟩ := hs
      obtain ⟨w, T, woken, hT⟩ := ha
      obtain ⟨-, rfl, -⟩ := (hi.thread t).waiting _ _ _ hT
      have hT' : (addActive { k with timer := Function.update k.timer t .fired } t).point t =
        .waiting w T false := hT
      refine hi.not_waitList_of_wake hT ?_ ?_
      · rw [Kernel.systimerException, markWoken_of_waiting hT']
        rfl
      · rw [Kernel.systimerException, markWoken_of_waiting hT']
        rfl
  | _ => exact ha.elim

end Wait

/-- **The wait-queue protocol.** A run from `startup` obeys the wait-queue law at every step
if and only if none of its steps makes a suspended waiter ready. -/
theorem waitLaw_iff_no_wake {k₀ : Kernel} (h₀ : AtReset k₀) (hc : Created k₀)
    (pStackTop : Int32U) (as : List Act) :
    Run.Along step WaitLaw (startup k₀ pStackTop) as ↔
      Run.Along step (fun k a _ => ¬ Wakes k a) (startup k₀ pStackTop) as :=
  Run.along_iff_of_invariant (fun _ _ _ hn ha hs => hn.step ha hs)
    (fun _ _ _ hn ha hs => hn.not_waitLaw ha hs) (noneWoken_startup h₀ hc pStackTop)

/-- A thread that blocks on a semaphore, and a switch away from it. -/
theorem waitLaw_iff_no_wake_block :
    Run.Along step WaitLaw (startup reset 0)
        [.labour 1 1 64 5 0, .shift 0, .semaphoreWait 0 0, .shift 0] ↔
      Run.Along step (fun k a _ => ¬ Wakes k a) (startup reset 0)
        [.labour 1 1 64 5 0, .shift 0, .semaphoreWait 0 0, .shift 0] :=
  waitLaw_iff_no_wake atReset_reset (fun _ _ => ⟨rfl, rfl⟩) 0 _

/-- A thread blocks on a semaphore, and the idle thread runs. -/
def block : List Act := [.labour 1 1 64 5 0, .shift 0, .semaphoreWait 0 0, .shift 0]

/-- An interrupt posts the semaphore, and the thread runs again. -/
def blockAndPost : List Act := block ++ [.semaphorePost 0, .shift 0, .waitResumed]

/-- The post leaves the thread on the wait list, and when `semaphore_wait` returns the thread
is no longer in its ready list, although it runs. -/
theorem not_waitLaw_blockAndPost :
    ¬ Run.Along step WaitLaw (startup reset 0) blockAndPost ∧
      ∃ k, Run.exec step (startup reset 0) blockAndPost = some k ∧ k.osThis = 1 ∧
        ¬ ReadyAgain k 1 := by
  refine ⟨fun h => ?_, ?_⟩
  · obtain ⟨k, hk⟩ : ∃ k, Run.exec step (startup reset 0) (block ++ [.semaphorePost 0]) =
      some k := ⟨_, rfl⟩
    obtain ⟨k₁, -, hlists, -⟩ := h.of_append hk
    obtain ⟨l, hring, hl⟩ := hlists (.semaphore 0) trivial
    have hnext : k.links.next (.head (.semaphore 0)) = .thread 1 :=
      Run.eq_of_exec (f := fun k => k.links.next (.head (.semaphore 0))) hk rfl
    have hpoint : k.point 1 = .waiting (.semaphore 0) 0 true :=
      Run.eq_of_exec (f := fun k => k.point 1) hk rfl
    rw [hring.next_head] at hnext
    have hmem : 1 ∈ l := by
      cases l with
      | nil => simp at hnext
      | cons t l =>
          rw [List.map_cons, List.headD_cons, Node.thread.injEq] at hnext
          rw [hnext]
          exact List.mem_cons_self
    obtain ⟨T, hT⟩ := (hl 1).mp hmem
    rw [hpoint] at hT
    simp at hT
  · obtain ⟨k, hk⟩ : ∃ k, Run.exec step (startup reset 0) blockAndPost = some k := ⟨_, rfl⟩
    refine ⟨k, hk, Run.eq_of_exec (f := fun k => k.osThis) hk rfl, ?_⟩
    rintro ⟨Q, hring, hmem, -⟩
    have hprio : k.priority 1 = 5 := Run.eq_of_exec (f := fun k => k.priority 1) hk rfl
    have hnext : k.links.next (.head (.activeProc 5)) = .head (.activeProc 5) :=
      Run.eq_of_exec (f := fun k => k.links.next (.head (.activeProc 5))) hk rfl
    rw [(hring 5 (by norm_num)).next_head_eq_iff, List.map_eq_nil_iff] at hnext
    rw [hprio, show (5 : Int32U).toNat = 5 from rfl, hnext] at hmem
    simp at hmem

end Kernel

end ChinaOS
