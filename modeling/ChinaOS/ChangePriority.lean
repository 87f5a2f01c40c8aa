import ChinaOS.Wakeup

/-!
`change_priority` of `kernel/kernel.c`: it writes the field `Priority`, and nothing else.

The field tells in which ready list the node of a thread is. The blocking calls, `exit` and the
timer read it later to find the list and the bit that they update.

* `Scheduled`: every thread that is not suspended is in the ready list of its `Priority`, the bits
  tell which lists are not empty, and `shift` selects the smallest priority.
* `PriorityLaw`: this holds in every state that the core scheduler reaches after the change, and a
  priority outside `0..31` is refused.
* `priorityLaw_iff`: the changes for which it does.
-/

namespace ChinaOS

open Ring

namespace Kernel

/-- `change_priority`. -/
def changePriority (k : Kernel) (id : ThreadId) (Priority : Int32U) : Kernel × Status :=
  ({ k with priority := Function.update k.priority id Priority }, .ok)

/-- A live thread that runs or is ready: it is in its own code, or its sleep is over. -/
def Awake (k : Kernel) (t : ThreadId) : Prop :=
  k.point t = .user ∨ k.point t = .sleeping ∧ k.timer t ≠ .armed

instance (k : Kernel) (t : ThreadId) : Decidable (k.Awake t) := inferInstanceAs (Decidable (_ ∨ _))

/-- **The scheduler is consistent.** -/
structure Scheduled (k : Kernel) : Prop where
  ring : ∀ p ≤ 32, ∃ l : List ThreadId,
    k.links.Circle (.head (.activeProc p)) (l.map Node.thread)
  ready : ∀ t ∈ k.osLiveList, k.Awake t → k.InReady t
  own : ∀ p ≤ 32, ∀ t, k.OnList (.activeProc p) t → (k.priority t).toNat = p
  bit : ∀ p < 32, testBit k.osActivePrio p = true ↔
    listEmpty k.links (.head (.activeProc p)) = false
  shift : ∀ pStackTop, ∃ k' sp, k.shift pStackTop = some (k', sp) ∧ k.InReady k'.osThis ∧
    ∀ u, k.InReady u → (k.priority k'.osThis).toNat ≤ (k.priority u).toNat

/-- **The law of `change_priority`.** -/
structure PriorityLaw (k : Kernel) (id : ThreadId) (Priority : Int32U) : Prop where
  refused : 32 ≤ Priority.toNat →
    (k.changePriority id Priority).1 = k ∧ (k.changePriority id Priority).2 ≠ .ok
  scheduled : ∀ k', Run.Reach Core step (k.changePriority id Priority).1 k' → k'.Scheduled

section Change

variable {I : Set Head} {k k' : Kernel} {Q : Head → List ThreadId} {t id : ThreadId}
  {Priority : Int32U} {p : ℕ}

/-- A thread that is awake belongs in its ready list, and another one in none. -/
lemma Inv.awake_iff (hi : Inv I k Q) (hlive : t ∈ k.osLiveList) :
    k.Awake t ↔ k.home t = some (.activeProc (k.priority t).toNat) := by
  rw [Awake]
  cases hp : k.point t with
  | user => simp [home_user hlive hp]
  | sleeping => by_cases harm : k.timer t = .armed <;> simp [home_sleeping hlive hp, harm]
  | waiting w Timeout woken =>
      obtain ⟨hw, rfl, -⟩ := (hi.thread t).waiting _ _ _ hp
      simpa [home_waiting hlive hp] using hw.ne_activeProc _
  | exited => exact absurd hp ((hi.thread t).live hlive)

/-- **The invariant gives a consistent scheduler.** -/
theorem Inv.scheduled (hi : Inv I k Q) (hI : Heads I) (hf : IdleFields k) : k.Scheduled := by
  have hhome : ∀ p ≤ 32, ∀ t, t ∈ Q (.activeProc p) ↔ k.home t = some (.activeProc p) :=
    fun p hp t => hi.homes t _ (hI.activeProc_mem p hp)
  have hready : ∀ t, k.InReady t → (k.priority t).toNat ≤ 32 →
      t ∈ Q (.activeProc (k.priority t).toNat) := fun t ht hle =>
      (hi.lists.onList_iff (hI.activeProc_mem _ hle)).mp ht
  have hidle : osIdle ∈ Q (.activeProc 32) := by
    rw [hhome 32 le_rfl, home_user hf.live hf.point, hf.priority]
    rfl
  refine ⟨fun p hp => ⟨_, hi.lists.rings.circle _ (hI.activeProc_mem p hp)⟩, fun t ht hawake => ?_,
    fun p hp t ht => ?_, fun p hp => ?_, fun pStackTop => ?_⟩
  · have hle := (hi.thread t).priority_le ht
    exact (hi.lists.onList_iff (hI.activeProc_mem _ hle)).mpr ((hhome _ hle t).mpr ((hi.awake_iff ht).mp hawake))
  · exact (hi.priority_of_home ((hhome p hp t).mp ((hi.lists.onList_iff (hI.activeProc_mem p hp)).mp ht))).symm
  · rw [testBit_eq, hi.lists.bit p hp, Bool.eq_false_iff, ne_eq, ne_eq,
      hi.lists.listEmpty_iff (hI.activeProc_mem p (by omega))]
  · obtain ⟨⟨k', sp⟩, hk⟩ :=
      Option.isSome_iff_exists.mp (hi.shift_isSome hI (List.ne_nil_of_mem hidle) pStackTop)
    obtain ⟨-, hthis, hmem, hmin⟩ := hi.shift_spec hI hk
    have hle := (hi.thread _).priority_le (live_of_home_active hthis)
    refine ⟨k', sp, hk, (hi.lists.onList_iff (hI.activeProc_mem _ hle)).mpr hmem, fun u hu => ?_⟩
    by_cases hule : (k.priority u).toNat ≤ 32
    · exact hmin _ hule u (hready u hu hule)
    · omega

/-- **A suspended thread** may get any priority of `labour`. -/
lemma Inv.changePriority (hi : Inv I k Q) (hlive : id ∈ k.osLiveList) (hlt : Priority.toNat < 32)
    (hnot : ¬ k.Awake id) : Inv I (k.changePriority id Priority).1 Q := by
  set k' := (k.changePriority id Priority).1 with hk'
  have hprio : ∀ u ≠ id, k'.priority u = k.priority u := fun u hu => Function.update_of_ne hu ..
  have hhome : k'.home = k.home := by
    funext u
    by_cases hu : u = id
    · subst hu
      rw [Awake, not_or, not_and_not_right] at hnot
      simp only [home]
      rw [show k'.osLiveList = k.osLiveList from rfl, show k'.point = k.point from rfl,
        show k'.timer = k.timer from rfl]
      cases hp : k.point u with
      | user => exact absurd hp hnot.1
      | sleeping => simp [hnot.2 hp]
      | waiting w Timeout woken => rfl
      | exited => rfl
    · exact home_congr ⟨Iff.rfl, hprio u hu, rfl, rfl, rfl⟩
  refine ⟨hi.lists.congr rfl rfl, hhome ▸ hi.homes, hi.nodup, fun hsw => ?_, fun u => ?_⟩
  · -- the running thread is awake
    have hrun := hi.running hsw
    have hne : k.osThis ≠ id := by
      intro heq
      rw [heq] at hrun
      exact hnot ((hi.awake_iff hlive).mpr hrun)
    rw [hhome, show k'.osThis = k.osThis from rfl, hprio _ hne]
    exact hrun
  · have ht := hi.thread u
    refine ⟨fun hu => ?_, ht.live, ht.switching, ht.armed, ht.sleeping, ht.waiting⟩
    by_cases hut : u = id
    · have hself : k'.priority u = Priority := by rw [hut]; exact Function.update_self ..
      rw [hself]
      omega
    · rw [hprio u hut]
      exact ht.priority_le hu

/-- **After a change of a thread that is awake** its node is in the list of its old priority. -/
lemma PriorityLaw.cases (hi : Inv I k Q) (hI : Heads I) (hlive : id ∈ k.osLiveList)
    (hlaw : k.PriorityLaw id Priority) :
    Priority.toNat < 32 ∧ (¬ k.Awake id ∨ Priority = k.priority id) := by
  refine ⟨?_, ?_⟩
  · by_contra hge
    exact (hlaw.refused (not_lt.mp hge)).2 rfl
  · by_contra hno
    obtain ⟨hawake, hne⟩ := not_or.mp hno
    have hle := (hi.thread id).priority_le hlive
    have hmem : id ∈ Q (.activeProc (k.priority id).toNat) :=
      (hi.homes id _ (hI.activeProc_mem _ hle)).mpr
        ((hi.awake_iff hlive).mp (not_not.mp hawake))
    have hown := (hlaw.scheduled _ .start).own _ hle id ((hi.lists.onList_iff (hI.activeProc_mem _ hle)).mpr hmem)
    have hself : (k.changePriority id Priority).1.priority id = Priority :=
      Function.update_self ..
    rw [hself] at hown
    exact hne (BitVec.eq_of_toNat_eq hown)

/-- **The law of `change_priority` holds** in a state of the ready-queue invariant exactly for the
priorities from 0 to 31 of threads that are suspended, and for the priority that the thread has. -/
theorem priorityLaw_iff (hi : Inv I k Q) (hI : Heads I) (hf : IdleFields k)
    (hlive : id ∈ k.osLiveList) : k.PriorityLaw id Priority ↔
      Priority.toNat < 32 ∧ (¬ k.Awake id ∨ Priority = k.priority id) := by
  constructor
  · exact fun hlaw => hlaw.cases hi hI hlive
  · rintro ⟨hlt, hcase⟩
    have hchanged : (∃ Q, Inv I (k.changePriority id Priority).1 Q) ∧
        IdleFields (k.changePriority id Priority).1 := by
      rcases hcase with hnot | rfl
      · have hne : osIdle ≠ id := by
          rintro rfl
          exact hnot (Or.inl hf.point)
        exact ⟨⟨Q, hi.changePriority hlive hlt hnot⟩, hf.live, hf.point,
          (Function.update_of_ne hne ..).trans hf.priority⟩
      · have hsame : (k.changePriority id (k.priority id)).1 = k := by
          rw [Kernel.changePriority, Function.update_eq_self]
        rw [hsame]
        exact ⟨⟨Q, hi⟩, hf⟩
    refine ⟨fun hge => absurd hlt (not_lt.mpr hge), fun k' hreach => ?_⟩
    have hstep : ∀ k a k', (∃ Q, Inv I k Q) ∧ IdleFields k → Core k a → step k a = some k' →
        (∃ Q, Inv I k' Q) ∧ IdleFields k' := by
      rintro k a k' ⟨⟨Q, hi⟩, hf⟩ hc hs
      exact ⟨hi.plain_step hI hc.plain hs, (core_frame hc hs).idle hf⟩
    obtain ⟨⟨Q', hi'⟩, hf'⟩ := hreach.invariant hchanged hstep
    exact hi'.scheduled hI hf'

/-- A thread that sleeps. -/
lemma reach_asleep : ∃ k, Run.Reach Core step (startup reset 0) k ∧ 1 ∈ k.osLiveList ∧
    ¬ k.Awake 1 ∧ k.priority 1 = 5 := by
  have h0 : Run.Reach Core step (startup reset 0) (startup reset 0) := .start
  have h1 := h0.step (a := Act.labour 1 1 64 5 0) trivial rfl
  have h2 := h1.step (a := Act.shift 0) trivial rfl
  have h3 := h2.step (a := Act.sleep 10) (by decide) rfl
  exact ⟨_, h3, by decide, by decide, by decide⟩

theorem priorityLaw_iff_asleep : ∃ k, Run.Reach Core step (startup reset 0) k ∧
    k.priority 1 = 5 ∧ k.PriorityLaw 1 7 := by
  obtain ⟨k, hreach, hlive, hnot, hprio⟩ := reach_asleep
  obtain ⟨⟨Q, hi⟩, hf⟩ := inv_of_reach atReset_reset hreach
  exact ⟨k, hreach, hprio, (priorityLaw_iff hi (heads_bootHeads fun _ hh => hh.elim) hf.idle
    hlive).mpr ⟨by decide, Or.inl hnot⟩⟩

/-- The running thread gets the priority 7 instead of 5. When it sleeps, the bit 5 stays set over
an empty list, and `shift` finds no thread there. -/
theorem not_priorityLaw_running : ∃ k, Run.Reach Core step (startup reset 0) k ∧ k.osThis = 1 ∧
    k.priority 1 = 5 ∧ ¬ k.PriorityLaw 1 7 ∧
    (((k.changePriority 1 7).1.sleep 10).shift 0).isNone = true := by
  have h0 : Run.Reach Core step (startup reset 0) (startup reset 0) := .start
  have h1 := h0.step (a := Act.labour 1 1 64 5 0) trivial rfl
  have h2 := h1.step (a := Act.shift 0) trivial rfl
  refine ⟨_, h2, rfl, rfl, fun hlaw => ?_, by decide⟩
  obtain ⟨⟨Q, hi⟩, -⟩ := inv_of_reach atReset_reset h2
  have hcase := hlaw.cases hi (heads_bootHeads fun _ hh => hh.elim) (by decide)
  exact absurd hcase.2 (by decide)

end Change

end Kernel

end ChinaOS
