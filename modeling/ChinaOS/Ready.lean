import ChinaOS.Kernel
import ChinaOS.Run

/-!
The ready queues of the scheduler.

* `Lists`: the list heads carry given circular lists of threads, and the bits of
  `OS_ActivePrio` are set for the ready lists that are not empty; with one lemma for each
  edit of the lists.
* `home`: the list in which the node of a thread belongs, from how far the thread has come.
* `Inv`: the lists hold the threads that belong there.
* `ready_queue`: what holds in every state that the core scheduler reaches.
-/

namespace ChinaOS

open Ring

namespace Kernel

/-- The heads `I` contain the ready lists and the list of dead threads, as `startup` makes
them, and no other ready list. -/
structure Heads (I : Set Head) : Prop where
  activeProc_mem : ∀ p ≤ 32, .activeProc p ∈ I
  le_of_mem : ∀ p, .activeProc p ∈ I → p ≤ 32
  deadList_mem : .deadList ∈ I

/-- The heads `h ∈ I` carry the lists `Q h` of threads, and `OS_ActivePrio` tells which of
the ready lists `0..31` are not empty. -/
structure Lists (I : Set Head) (k : Kernel) (Q : Head → List ThreadId) : Prop where
  rings : Rings k.links I Node.head fun h => (Q h).map Node.thread
  bit : ∀ p < 32, k.osActivePrio.getLsbD p = true ↔ Q (.activeProc p) ≠ []

section Lists

variable {I : Set Head} {k k' : Kernel} {Q : Head → List ThreadId} {h h' : Head}
  {t : ThreadId} {Priority : Int32U}

lemma thread_injective : Function.Injective Node.thread := fun _ _ h => Node.thread.inj h

@[simp] lemma thread_mem_map {l : List ThreadId} : Node.thread t ∈ l.map Node.thread ↔ t ∈ l :=
  List.mem_map_of_injective thread_injective

/-- The node of a thread is in a ring if and only if the thread is in its list. -/
lemma thread_mem_ring {l : List ThreadId} :
    Node.thread t ∈ Node.head h :: l.map Node.thread ↔ t ∈ l := by
  rw [List.mem_cons, thread_mem_map]
  exact or_iff_right (by simp)

lemma map_update (Q : Head → List ThreadId) (h : Head) (l : List ThreadId) :
    (fun h' => (Function.update Q h l h').map Node.thread) =
      Function.update (fun h' => (Q h').map Node.thread) h (l.map Node.thread) := by
  funext h'
  by_cases hh : h' = h
  · subst hh
    simp
  · simp [hh]

namespace Lists

lemma congr (hl : Lists I k Q) (hlinks : k'.links = k.links)
    (hprio : k'.osActivePrio = k.osActivePrio) : Lists I k' Q :=
  ⟨hlinks ▸ hl.rings, hprio ▸ hl.bit⟩

lemma mono {J : Set Head} (hl : Lists I k Q) (hJ : J ⊆ I) : Lists J k Q :=
  ⟨hl.rings.mono hJ, hl.bit⟩

lemma nodup (hl : Lists I k Q) (hh : h ∈ I) : (Q h).Nodup := (hl.rings.nodup hh).of_map _

/-- A thread is in one list only. -/
lemma eq_of_mem (hl : Lists I k Q) (hh : h ∈ I) (hh' : h' ∈ I) (ht : t ∈ Q h)
    (ht' : t ∈ Q h') : h = h' :=
  hl.rings.eq_of_mem hh hh' (thread_mem_ring.mpr ht) (thread_mem_ring.mpr ht')

/-- A list is empty as the source tests it. -/
lemma listEmpty_iff (hl : Lists I k Q) (hh : h ∈ I) :
    listEmpty k.links (.head h) = true ↔ Q h = [] := by
  rw [ChinaOS.listEmpty_iff hl.rings hh, List.map_eq_nil_iff]

/-- The first entry of a list, as the source finds it. -/
lemma containerOf_next (hl : Lists I k Q) (hh : h ∈ I) :
    containerOf (k.links.next (.head h)) = (Q h).head? := by
  rw [hl.rings.next_head hh]
  cases Q h <;> rfl

/-- The links after `list_add` of a thread that is in no list. -/
lemma rings_listAdd (hl : Lists I k Q) (hh : h ∈ I) (ht : ∀ h' ∈ I, t ∉ Q h') :
    Rings (listAdd k.links (.thread t) (.head h)) I Node.head
      fun h' => (Function.update Q h (t :: Q h) h').map Node.thread := by
  rw [map_update, List.map_cons]
  exact ChinaOS.rings_listAdd hl.rings hh fun h' hh' => thread_mem_ring.not.mpr (ht h' hh')

/-- The links after `list_del` of a thread. -/
lemma rings_listDel (hl : Lists I k Q) (hh : h ∈ I) (ht : t ∈ Q h) :
    Rings (listDel k.links (.thread t)) I Node.head
      fun h' => (Function.update Q h ((Q h).erase t) h').map Node.thread := by
  rw [map_update, List.map_erase thread_injective]
  exact ChinaOS.rings_listDel hl.rings hh (thread_mem_map.mpr ht)

/-- The bits after `vivify_thread`, where `list_del` leaves the lists `Q'`. -/
lemma vivifyThread_of_rings {Q' : Head → List ThreadId} (hl : Lists I k Q)
    (hh : .activeProc Priority.toNat ∈ I)
    (hrings : Rings (listDel k.links (.thread t)) I Node.head fun h => (Q' h).map Node.thread)
    (hsame : ∀ p ≠ Priority.toNat, Q' (.activeProc p) = Q (.activeProc p))
    (hsub : Q' (.activeProc Priority.toNat) ≠ [] → Q (.activeProc Priority.toNat) ≠ []) :
    Lists I (vivifyThread k t Priority) Q' := by
  refine ⟨hrings, fun p hp => ?_⟩
  have hempty : listEmpty (listDel k.links (.thread t)) (activeProc Priority) = true ↔
      Q' (.activeProc Priority.toNat) = [] := by
    have h1 := ChinaOS.listEmpty_iff hrings hh
    rwa [List.map_eq_nil_iff] at h1
  show (if listEmpty (listDel k.links (.thread t)) (activeProc Priority) = true
      then clearBit k.osActivePrio Priority.toNat else k.osActivePrio).getLsbD p = true ↔ _
  by_cases hpq : p = Priority.toNat
  · subst hpq
    split_ifs with he
    · simp [getLsbD_clearBit, hempty.mp he]
    · have hne := hempty.not.mp he
      simp [(hl.bit _ hp).mpr (hsub hne), hne]
  · rw [hsame p hpq, ← hl.bit p hp]
    split_ifs <;> simp [getLsbD_clearBit, hpq]

/-- **`vivify_thread`** takes a thread out of its ready list and keeps the bits. -/
theorem vivifyThread (hl : Lists I k Q) (hh : .activeProc Priority.toNat ∈ I)
    (ht : t ∈ Q (.activeProc Priority.toNat)) :
    Lists I (vivifyThread k t Priority) (Function.update Q (.activeProc Priority.toNat)
      ((Q (.activeProc Priority.toNat)).erase t)) :=
  hl.vivifyThread_of_rings hh (hl.rings_listDel hh ht)
    (fun p hp => Function.update_of_ne (by simpa using hp) _ _) fun _ => List.ne_nil_of_mem ht

/-- **Putting a thread that is in no list into its ready list** keeps the bits. -/
theorem addActive (hl : Lists I k Q) (hh : .activeProc (k.priority t).toNat ∈ I)
    (ht : ∀ h' ∈ I, t ∉ Q h') :
    Lists I (addActive k t) (Function.update Q (.activeProc (k.priority t).toNat)
      (t :: Q (.activeProc (k.priority t).toNat))) := by
  refine ⟨hl.rings_listAdd hh ht, fun p hp => ?_⟩
  show (setBit k.osActivePrio (k.priority t).toNat).getLsbD p = true ↔ _
  rw [getLsbD_setBit]
  by_cases hpq : p = (k.priority t).toNat
  · subst hpq
    simp [hp]
  · rw [Function.update_of_ne (by simpa using hpq), ← hl.bit p hp]
    simp [hpq]

/-- Putting a thread that is in no list into one that is not a ready list. -/
lemma add (hl : Lists I k Q) (hh : h ∈ I) (hne : ∀ p, h ≠ .activeProc p)
    (ht : ∀ h' ∈ I, t ∉ Q h') (hlinks : k'.links = listAdd k.links (.thread t) (.head h))
    (hprio : k'.osActivePrio = k.osActivePrio) :
    Lists I k' (Function.update Q h (t :: Q h)) := by
  refine ⟨hlinks ▸ hl.rings_listAdd hh ht, fun p hp => ?_⟩
  rw [Function.update_of_ne (fun h1 => hne p h1.symm), hprio]
  exact hl.bit p hp

/-- The list that `shift` reads is the first ready list that is not empty, and the last of
them if none is. -/
lemma bitScanForward_cases (hl : Lists I k Q) :
    (∃ p < 32, (bitScanForward k.osActivePrio).toNat = p ∧ Q (.activeProc p) ≠ [] ∧
      ∀ q < p, Q (.activeProc q) = []) ∨
    (bitScanForward k.osActivePrio).toNat = 32 ∧ ∀ q < 32, Q (.activeProc q) = [] := by
  have hclear : ∀ q < 32, k.osActivePrio.getLsbD q = false → Q (.activeProc q) = [] := by
    intro q hq hb
    by_contra hne
    have h1 := (hl.bit q hq).mpr hne
    rw [hb] at h1
    exact Bool.false_ne_true h1
  rcases eq_zero_or_lowest k.osActivePrio with h0 | ⟨p, hp, hset, hlow⟩
  · refine Or.inr ⟨by rw [h0, bitScanForward_zero], fun q hq => hclear q hq ?_⟩
    rw [h0]
    simp
  · exact Or.inl ⟨p, hp, bitScanForward_of_lowest hset hlow, (hl.bit p hp).mp hset,
      fun q hq => hclear q (by omega) (hlow q hq)⟩

end Lists

end Lists

/-! ### Where the node of a thread belongs -/

/-- The list in which the node of a thread belongs: the ready list of its priority, the list
that it waits on, the list of the dead threads, or none. -/
def home (k : Kernel) (t : ThreadId) : Option Head :=
  if t ∈ k.osLiveList then
    match k.point t with
    | .user => some (.activeProc (k.priority t).toNat)
    | .sleeping => if k.timer t = .armed then none else some (.activeProc (k.priority t).toNat)
    | .waiting h _ woken => if woken then none else some h
    | .exited => none
  else if k.point t = .exited then some .deadList else none

/-- Each list `Q h` holds the threads that belong there. -/
def Homes (I : Set Head) (Q : Head → List ThreadId) (f : ThreadId → Option Head) : Prop :=
  ∀ t, ∀ h ∈ I, t ∈ Q h ↔ f t = some h

section Homes

variable {I : Set Head} {Q : Head → List ThreadId} {f : ThreadId → Option Head} {h : Head}
  {t : ThreadId}

lemma Homes.notMem (hf : Homes I Q f) (ht : f t = none) : ∀ h ∈ I, t ∉ Q h := by
  intro h hh hmem
  rw [hf t h hh, ht] at hmem
  simp at hmem

lemma Homes.leave (hf : Homes I Q f) (hnd : (Q h).Nodup) (ht : f t = some h) :
    Homes I (Function.update Q h ((Q h).erase t)) (Function.update f t none) := by
  intro u h' hh'
  have h1 := hf u h' hh'
  by_cases hut : u = t
  · subst hut
    rw [Function.update_self]
    by_cases hhh : h' = h
    · subst hhh
      simp [hnd.mem_erase_iff]
    · rw [Function.update_of_ne hhh, h1, ht]
      simpa using fun h2 => hhh h2.symm
  · rw [Function.update_of_ne hut, ← h1]
    by_cases hhh : h' = h
    · subst hhh
      simp [hnd.mem_erase_iff, hut]
    · rw [Function.update_of_ne hhh]

lemma Homes.enter (hf : Homes I Q f) (ht : f t = none) :
    Homes I (Function.update Q h (t :: Q h)) (Function.update f t (some h)) := by
  intro u h' hh'
  have h1 := hf u h' hh'
  by_cases hut : u = t
  · subst hut
    rw [Function.update_self]
    by_cases hhh : h' = h
    · subst hhh
      simp
    · rw [Function.update_of_ne hhh, h1, ht]
      simpa using fun h2 => hhh h2.symm
  · rw [Function.update_of_ne hut, ← h1]
    by_cases hhh : h' = h
    · subst hhh
      simp [hut]
    · rw [Function.update_of_ne hhh]

end Homes

/-- The fields of a thread are in `k'` what they are in `k`. -/
structure SameThread (k k' : Kernel) (t : ThreadId) : Prop where
  live : t ∈ k'.osLiveList ↔ t ∈ k.osLiveList
  priority : k'.priority t = k.priority t
  timer : k'.timer t = k.timer t
  point : k'.point t = k.point t
  switching : k'.switching t = k.switching t

section Home

variable {k k' : Kernel} {t : ThreadId}

lemma home_congr (h : SameThread k k' t) : k'.home t = k.home t := by
  simp only [home, h.live, h.point, h.timer, h.priority]

/-- A change of one thread's fields changes where that thread belongs. -/
lemma home_eq_update {x : Option Head} (ht : k'.home t = x) (h : ∀ u ≠ t, SameThread k k' u) :
    k'.home = Function.update k.home t x := by
  funext u
  by_cases hut : u = t
  · subst hut
    rw [ht, Function.update_self]
  · rw [Function.update_of_ne hut, home_congr (h u hut)]

lemma home_user (hlive : t ∈ k.osLiveList) (hp : k.point t = .user) :
    k.home t = some (.activeProc (k.priority t).toNat) := by
  simp [home, hlive, hp]

lemma home_sleeping (hlive : t ∈ k.osLiveList) (hp : k.point t = .sleeping) :
    k.home t = if k.timer t = .armed then none else some (.activeProc (k.priority t).toNat) := by
  simp [home, hlive, hp]

lemma home_waiting {h : Head} {Timeout : Int32U} (hlive : t ∈ k.osLiveList)
    (hp : k.point t = .waiting h Timeout false) : k.home t = some h := by
  simp [home, hlive, hp]

lemma home_exited (hlive : t ∉ k.osLiveList) (hp : k.point t = .exited) :
    k.home t = some .deadList := by
  simp [home, hlive, hp]

/-- A thread that belongs in a ready list is live. -/
lemma live_of_home_active {p : ℕ} (h : k.home t = some (.activeProc p)) : t ∈ k.osLiveList := by
  by_contra hlive
  rw [home, if_neg hlive] at h
  split_ifs at h
  simp at h

end Home

/-! ### The invariant of the lists -/

/-- The list of a semaphore or a mailbox. -/
def IsWait : Head → Prop
  | .semaphore _ | .mailbox _ => True
  | _ => False

lemma IsWait.ne_activeProc {w : Head} (hw : IsWait w) (p : ℕ) : w ≠ .activeProc p := by
  rintro rfl
  exact hw

lemma IsWait.ne_deadList {w : Head} (hw : IsWait w) : w ≠ .deadList := by
  rintro rfl
  exact hw

/-- The fields of a thread fit how far it has come, and if it is a suspended waiter, then it
has not been made ready. -/
structure ThreadInv (k : Kernel) (t : ThreadId) : Prop where
  priority_le : t ∈ k.osLiveList → (k.priority t).toNat ≤ 32
  live : t ∈ k.osLiveList → k.point t ≠ .exited
  switching : k.switching t = true → k.point t ≠ .user
  armed : k.timer t = .armed → t ∈ k.osLiveList ∧ k.point t ≠ .user
  sleeping : k.point t = .sleeping → k.timer t ≠ .unarmed
  waiting : ∀ h Timeout woken, k.point t = .waiting h Timeout woken →
    IsWait h ∧ woken = false ∧ t ∈ k.osLiveList

/-- Every list holds the threads that belong there. -/
structure Inv (I : Set Head) (k : Kernel) (Q : Head → List ThreadId) : Prop where
  lists : Lists I k Q
  homes : Homes I Q k.home
  nodup : k.osLiveList.Nodup
  running : k.switching k.osThis = false →
    k.home k.osThis = some (.activeProc (k.priority k.osThis).toNat)
  thread : ∀ t, ThreadInv k t

lemma ThreadInv.congr {k k' : Kernel} {t : ThreadId} (ht : ThreadInv k t)
    (h : SameThread k k' t) : ThreadInv k' t := by
  refine ⟨fun h1 => ?_, fun h1 => ?_, fun h1 => ?_, fun h1 => ?_, fun h1 => ?_,
    fun w Timeout woken h1 => ?_⟩
  · rw [h.priority]; exact ht.priority_le (h.live.mp h1)
  · rw [h.point]; exact ht.live (h.live.mp h1)
  · rw [h.point]; exact ht.switching (h.switching ▸ h1)
  · rw [h.live, h.point]; exact ht.armed (h.timer ▸ h1)
  · rw [h.timer]; exact ht.sleeping (h.point ▸ h1)
  · rw [h.live]; exact ht.waiting w Timeout woken (h.point ▸ h1)

namespace Inv

variable {I : Set Head} {k k' : Kernel} {Q Q' : Head → List ThreadId} {t : ThreadId}

/-- When one thread's fields change, the others keep their part of the invariant. -/
lemma thread_update (hi : Inv I k Q) (h : ∀ u ≠ t, SameThread k k' u) (ht : ThreadInv k' t) :
    ∀ u, ThreadInv k' u := by
  intro u
  by_cases hut : u = t
  · exact hut ▸ ht
  · exact (hi.thread u).congr (h u hut)

/-- The thread that runs its own code is live and in its ready list. -/
lemma user (hi : Inv I k Q) (hI : Heads I) (hu : k.point k.osThis = .user) :
    k.osThis ∈ k.osLiveList ∧ k.switching k.osThis = false ∧
      k.home k.osThis = some (.activeProc (k.priority k.osThis).toNat) ∧
      .activeProc (k.priority k.osThis).toNat ∈ I ∧
      k.osThis ∈ Q (.activeProc (k.priority k.osThis).toNat) := by
  have hsw : k.switching k.osThis = false := by
    by_contra h
    exact (hi.thread _).switching (Bool.eq_true_of_not_eq_false h) hu
  have hhome := hi.running hsw
  have hlive := live_of_home_active hhome
  have hmem := hI.activeProc_mem _ ((hi.thread _).priority_le hlive)
  exact ⟨hlive, hsw, hhome, hmem, (hi.homes _ _ hmem).mpr hhome⟩

/-- Fields that the invariant does not read may change. -/
lemma congr (hi : Inv I k Q) (hlinks : k'.links = k.links)
    (hactive : k'.osActivePrio = k.osActivePrio) (hthis : k'.osThis = k.osThis)
    (hlives : k'.osLiveList = k.osLiveList) (hsame : ∀ u, SameThread k k' u) : Inv I k' Q := by
  have hhome : k'.home = k.home := funext fun u => home_congr (hsame u)
  refine ⟨hi.lists.congr hlinks hactive, hhome ▸ hi.homes, hlives ▸ hi.nodup, ?_,
    fun u => (hi.thread u).congr (hsame u)⟩
  rw [hthis, (hsame _).switching, (hsame _).priority, hhome]
  exact hi.running

/-- A thread in a ready list is in that of its own priority. -/
lemma priority_of_home (hi : Inv I k Q) {p : ℕ} (h : k.home t = some (.activeProc p)) :
    p = (k.priority t).toNat := by
  have hlive := live_of_home_active h
  cases hp : k.point t with
  | user =>
      rw [home_user hlive hp] at h
      simpa using h.symm
  | sleeping =>
      rw [home_sleeping hlive hp] at h
      split_ifs at h
      simpa using h.symm
  | waiting w Timeout woken =>
      obtain ⟨hw, rfl, -⟩ := (hi.thread t).waiting _ _ _ hp
      rw [home_waiting hlive hp, Option.some.injEq] at h
      subst h
      exact hw.elim
  | exited => exact absurd hp ((hi.thread t).live hlive)

/-! ### The running thread's own calls -/

/-- The lists without the running thread. -/
lemma vivify (hi : Inv I k Q) (hI : Heads I) (hu : k.point k.osThis = .user) :
    ∃ Q₁, Lists I (vivifyThread k k.osThis (k.priority k.osThis)) Q₁ ∧
      Homes I Q₁ (Function.update k.home k.osThis none) := by
  obtain ⟨-, -, hhome, hmem, hq⟩ := hi.user hI hu
  exact ⟨_, hi.lists.vivifyThread hmem hq, hi.homes.leave (hi.lists.nodup hmem) hhome⟩

/-- The running thread suspends itself: it leaves the ready list and goes to where it
belongs from then on. -/
lemma suspended (hi : Inv I k Q) (hlists : Lists I k' Q') (hhomes : Homes I Q' k'.home)
    (hnodup : k'.osLiveList.Nodup) (hthis : k'.osThis = k.osThis)
    (hsw : k'.switching k.osThis = true) (hsame : ∀ u ≠ k.osThis, SameThread k k' u)
    (hself : ThreadInv k' k.osThis) : Inv I k' Q' := by
  refine ⟨hlists, hhomes, hnodup, fun h => ?_, hi.thread_update hsame hself⟩
  rw [hthis, hsw] at h
  simp at h

/-- **`sleep`** up to the switch. -/
theorem sleep (hi : Inv I k Q) (hI : Heads I) (hu : k.point k.osThis = .user) (Time : Int32U) :
    ∃ Q', Inv I (k.sleep Time) Q' := by
  by_cases h0 : Time = 0
  · exact ⟨Q, by rw [Kernel.sleep, if_pos h0]; exact hi⟩
  · obtain ⟨Q₁, hl₁, hh₁⟩ := hi.vivify hI hu
    obtain ⟨hlive, -⟩ := hi.user hI hu
    set k' := k.sleep Time with hk'
    have hk : k' = { vivifyThread k k.osThis (k.priority k.osThis) with
        timer := Function.update k.timer k.osThis .armed
        point := Function.update k.point k.osThis .sleeping
        switching := Function.update k.switching k.osThis true } := by
      rw [hk', Kernel.sleep, if_neg h0]
      rfl
    have hsame : ∀ u ≠ k.osThis, SameThread k k' u := by
      intro u hut
      rw [hk]
      exact ⟨Iff.rfl, rfl, Function.update_of_ne hut .., Function.update_of_ne hut ..,
        Function.update_of_ne hut ..⟩
    have hlive' : k.osThis ∈ k'.osLiveList := by rw [hk]; exact hlive
    have hpoint : k'.point k.osThis = .sleeping := by rw [hk]; exact Function.update_self ..
    have htimer : k'.timer k.osThis = .armed := by rw [hk]; exact Function.update_self ..
    have hhome : k'.home = Function.update k.home k.osThis none := by
      refine home_eq_update ?_ hsame
      rw [home_sleeping hlive' hpoint, if_pos htimer]
    refine ⟨Q₁, hi.suspended (hl₁.congr (by rw [hk]) (by rw [hk])) (hhome ▸ hh₁)
      (by rw [hk]; exact hi.nodup) (by rw [hk]; rfl) (by rw [hk]; exact Function.update_self ..)
      hsame ⟨fun _ => ?_, ?_, ?_, ?_, ?_, ?_⟩⟩
    · rw [hk]
      exact (hi.thread _).priority_le hlive
    all_goals simp [hpoint, htimer, hlive']

/-- **Suspension on a wait list.** -/
theorem suspend (hi : Inv I k Q) (hI : Heads I) (hu : k.point k.osThis = .user) {w : Head}
    (hw : w ∈ I) (hwait : IsWait w) (Timeout : Int32U) :
    ∃ Q', Inv I (k.suspend w Timeout) Q' := by
  obtain ⟨Q₁, hl₁, hh₁⟩ := hi.vivify hI hu
  obtain ⟨hlive, -⟩ := hi.user hI hu
  have hsame : ∀ u ≠ k.osThis, SameThread k (k.suspend w Timeout) u := by
    intro u hut
    refine ⟨Iff.rfl, rfl, ?_, Function.update_of_ne hut .., Function.update_of_ne hut ..⟩
    show (if Timeout ≠ 0 then Function.update k.timer k.osThis .armed else k.timer) u = _
    split_ifs
    · exact Function.update_of_ne hut ..
    · rfl
  have hpoint : (k.suspend w Timeout).point k.osThis = .waiting w Timeout false :=
    Function.update_self ..
  have hhome : (k.suspend w Timeout).home =
      Function.update (Function.update k.home k.osThis none) k.osThis (some w) := by
    rw [Function.update_idem]
    exact home_eq_update (home_waiting hlive hpoint) hsame
  have hl : Lists I (k.suspend w Timeout) (Function.update Q₁ w (k.osThis :: Q₁ w)) :=
    hl₁.add hw hwait.ne_activeProc (hh₁.notMem (Function.update_self ..)) rfl rfl
  have hh := hh₁.enter (h := w) (Function.update_self ..)
  refine ⟨_, hi.suspended hl (hhome ▸ hh) hi.nodup rfl (Function.update_self ..) hsame
    ⟨(hi.thread _).priority_le, ?_, ?_, fun _ => ⟨hlive, ?_⟩, ?_, fun h T woken h1 => ?_⟩⟩
  · simp [hpoint]
  · simp [hpoint]
  · simp [hpoint]
  · simp [hpoint]
  · rw [hpoint, Point.waiting.injEq] at h1
    exact ⟨h1.1 ▸ hwait, h1.2.2.symm, hlive⟩

/-- **`exit`.** -/
theorem exit (hi : Inv I k Q) (hI : Heads I) (hu : k.point k.osThis = .user)
    (hk : k.exit = some k') : ∃ Q', Inv I k' Q' := by
  obtain ⟨Q₁, hl₁, hh₁⟩ := hi.vivify hI hu
  obtain ⟨hlive, -⟩ := hi.user hI hu
  rw [Kernel.exit, threadUnregister, if_pos hlive, Option.map_some, Option.some.injEq] at hk
  have hlives : k'.osLiveList = k.osLiveList.erase k.osThis := by rw [← hk]; rfl
  have hsame : ∀ u ≠ k.osThis, SameThread k k' u := by
    intro u hut
    refine ⟨?_, by rw [← hk]; rfl, ?_, ?_, ?_⟩
    · rw [hlives]
      exact List.mem_erase_of_ne hut
    all_goals rw [← hk]; exact Function.update_of_ne hut ..
  have hdead : k.osThis ∉ k'.osLiveList := by
    rw [hlives, hi.nodup.mem_erase_iff]
    simp
  have hpoint : k'.point k.osThis = .exited := by rw [← hk]; exact Function.update_self ..
  have htimer : k'.timer k.osThis = .unarmed := by rw [← hk]; exact Function.update_self ..
  have hhome : k'.home =
      Function.update (Function.update k.home k.osThis none) k.osThis (some .deadList) := by
    rw [Function.update_idem]
    exact home_eq_update (home_exited hdead hpoint) hsame
  have hl : Lists I k' (Function.update Q₁ .deadList (k.osThis :: Q₁ .deadList)) :=
    hl₁.add hI.deadList_mem (by simp) (hh₁.notMem (Function.update_self ..)) (by rw [← hk]; rfl)
      (by rw [← hk]; rfl)
  have hh := hh₁.enter (h := .deadList) (Function.update_self ..)
  refine ⟨_, hi.suspended hl (hhome ▸ hh) (hlives ▸ hi.nodup.erase _) (by rw [← hk]; rfl)
    (by rw [← hk]; exact Function.update_self ..) hsame ⟨?_, ?_, ?_, ?_, ?_, ?_⟩⟩
  all_goals simp [hpoint, htimer, hdead]

/-- **`sleep`** behind the switch: the thread runs only since it has been woken. -/
theorem sleepResumed (hi : Inv I k Q) (hsw : k.switching k.osThis = false) :
    Inv I k.sleepResumed Q := by
  have hrun := hi.running hsw
  have hlive := live_of_home_active hrun
  have hsame : ∀ u ≠ k.osThis, SameThread k k.sleepResumed u := fun u hut =>
    ⟨Iff.rfl, rfl, Function.update_of_ne hut .., Function.update_of_ne hut .., rfl⟩
  have hpoint : k.sleepResumed.point k.osThis = .user := Function.update_self ..
  have htimer : k.sleepResumed.timer k.osThis = .unarmed := Function.update_self ..
  have hsw' : k.sleepResumed.switching k.osThis = false := hsw
  have hhome : k.sleepResumed.home = k.home := by
    rw [← Function.update_eq_self k.osThis k.home, hrun]
    exact home_eq_update (home_user hlive hpoint) hsame
  refine ⟨hi.lists.congr rfl rfl, hhome ▸ hi.homes, hi.nodup, fun _ => hhome ▸ hrun,
    hi.thread_update hsame ⟨(hi.thread _).priority_le, ?_, ?_, ?_, ?_, ?_⟩⟩
  all_goals simp [hpoint, htimer, hsw']

/-- What the filter of `labour` lets through is a priority below 32. -/
lemma lt_of_filter {Priority : Int32U} (h : Priority &&& ~~~0x1F = 0) : Priority.toNat < 32 := by
  refine Nat.lt_pow_two_of_testBit (n := 5) _ fun i hi => ?_
  have h31 : (0x1F : Int32U).getLsbD i = false :=
    Nat.testBit_lt_two_pow (lt_of_lt_of_le (by decide) (Nat.pow_le_pow_right (by norm_num) hi))
  show Priority.getLsbD i = false
  by_cases h32 : i < 32
  · have h1 := congrArg (fun v => v.getLsbD i) h
    simp only [BitVec.getLsbD_and, BitVec.getLsbD_not, h31, h32, decide_true, Bool.not_false,
      Bool.and_true] at h1
    exact h1.trans BitVec.getLsbD_zero
  · exact BitVec.getLsbD_of_ge Priority i (by omega)

/-- **`labour`** with a control block that is not in use. -/
theorem labour (hi : Inv I k Q) (hI : Heads I) (hu : k.point k.osThis = .user)
    (ht : ¬ k.Allocated t) (pProcess StackDepth Priority pStackTop : Int32U) :
    ∃ Q', Inv I (k.labour (some t) pProcess StackDepth Priority pStackTop).1 Q' := by
  by_cases hbad : Priority &&& ~~~0x1F ≠ 0 ∨ pProcess = 0 ∨ StackDepth = 0
  · exact ⟨Q, by rw [Kernel.labour, if_pos hbad]; exact hi⟩
  · rw [Allocated, not_or] at ht
    obtain ⟨hdead, hexit⟩ := ht
    have hlt : Priority.toNat < 32 := by
      refine lt_of_filter ?_
      by_contra h
      exact hbad (Or.inl h)
    set k' := (k.labour (some t) pProcess StackDepth Priority pStackTop).1 with hk'
    set k₁ : Kernel := threadRegister { k with
        pStackTop := Function.update k.pStackTop t pStackTop
        priority := Function.update k.priority t Priority
        timer := Function.update k.timer t .unarmed
        point := Function.update k.point t .user
        switching := Function.update k.switching t false } t with hk₁
    have hk : k' = addActive k₁ t := by
      rw [hk', Kernel.labour, if_neg hbad]
    have hprio : k₁.priority t = Priority := Function.update_self ..
    have hsame : ∀ u ≠ t, SameThread k k' u := by
      intro u hut
      rw [hk]
      refine ⟨?_, Function.update_of_ne hut .., Function.update_of_ne hut ..,
        Function.update_of_ne hut .., Function.update_of_ne hut ..⟩
      show u ∈ k.osLiveList ++ [t] ↔ u ∈ k.osLiveList
      simp [hut]
    have hlives : k'.osLiveList = k.osLiveList ++ [t] := by rw [hk]; rfl
    have hlive : t ∈ k'.osLiveList := by rw [hlives]; simp
    have hpoint : k'.point t = .user := by rw [hk]; exact Function.update_self ..
    have htimer : k'.timer t = .unarmed := by rw [hk]; exact Function.update_self ..
    have hsw : k'.switching t = false := by rw [hk]; exact Function.update_self ..
    have hprio' : k'.priority t = Priority := by rw [hk]; exact hprio
    have hnone : k.home t = none := by rw [home, if_neg hdead, if_neg hexit]
    have hhome : k'.home = Function.update k.home t (some (.activeProc Priority.toNat)) :=
      home_eq_update (by rw [home_user hlive hpoint, hprio']) hsame
    have hl₁ : Lists I k₁ Q := hi.lists.congr rfl rfl
    have hl : Lists I k' _ := hk ▸ hl₁.addActive (by
      rw [hprio]
      exact hI.activeProc_mem _ (by omega)) (hi.homes.notMem hnone)
    rw [hprio] at hl
    -- the caller is another thread, and stays in its ready list
    obtain ⟨hthis, -, hrun, -⟩ := hi.user hI hu
    have hne : k.osThis ≠ t := fun h => hdead (h ▸ hthis)
    have hthis' : k'.osThis = k.osThis := by rw [hk]; rfl
    refine ⟨_, hl, hhome ▸ hi.homes.enter hnone, ?_, fun _ => ?_, hi.thread_update hsame
      ⟨fun _ => ?_, ?_, ?_, ?_, ?_, ?_⟩⟩
    · rw [hlives]
      exact hi.nodup.append (List.nodup_singleton t) (by simpa using hdead)
    · rw [hthis', home_congr (hsame _ hne), (hsame _ hne).priority]
      exact hrun
    · rw [hprio']
      omega
    all_goals simp [hpoint, htimer, hsw]

/-! ### Timer wake-ups and switches -/

/-- **The loop body of `systimer_exception`** for a thread that sleeps. -/
theorem systimerException (hi : Inv I k Q) (hI : Heads I) (harm : k.timer t = .armed)
    (hp : k.point t = .sleeping) : ∃ Q', Inv I (k.systimerException t) Q' := by
  obtain ⟨hlive, -⟩ := (hi.thread t).armed harm
  have hnone : k.home t = none := by rw [home_sleeping hlive hp, if_pos harm]
  set k₁ : Kernel := { k with timer := Function.update k.timer t .fired } with hk₁
  have hk : k.systimerException t = addActive k₁ t := by
    rw [Kernel.systimerException, markWoken]
    have hp' : (addActive k₁ t).point t = .sleeping := hp
    rw [hp']
  have hsame : ∀ u ≠ t, SameThread k (addActive k₁ t) u := fun u hut =>
    ⟨Iff.rfl, rfl, Function.update_of_ne hut .., rfl, rfl⟩
  have hpoint : (addActive k₁ t).point t = .sleeping := hp
  have htimer : (addActive k₁ t).timer t = .fired := Function.update_self ..
  have hhome : (addActive k₁ t).home =
      Function.update k.home t (some (.activeProc (k.priority t).toNat)) := by
    refine home_eq_update ?_ hsame
    have hlive' : t ∈ (addActive k₁ t).osLiveList := hlive
    rw [home_sleeping hlive' hpoint, htimer, if_neg (by simp)]
    rfl
  have hmem := hI.activeProc_mem _ ((hi.thread t).priority_le hlive)
  have hl₁ : Lists I k₁ Q := hi.lists.congr rfl rfl
  have hl : Lists I (addActive k₁ t) _ := hl₁.addActive hmem (hi.homes.notMem hnone)
  refine hk ▸ ⟨_, hl, hhome ▸ hi.homes.enter hnone, hi.nodup, fun hsw => ?_,
    hi.thread_update hsame ⟨(hi.thread t).priority_le, ?_, ?_, ?_, ?_, ?_⟩⟩
  · -- a thread that sleeps with its timer running is not the running thread
    have hne : k.osThis ≠ t := by
      intro h
      have h1 := hi.running hsw
      rw [h, hnone] at h1
      simp at h1
    rw [show (addActive k₁ t).osThis = k.osThis from rfl, home_congr (hsame _ hne)]
    exact hi.running hsw
  all_goals simp [hpoint, htimer]

/-- **`shift`** selects a thread of a ready list, and no ready thread has a smaller
priority. -/
theorem shift_spec (hi : Inv I k Q) (hI : Heads I) {pStackTop sp : Int32U}
    (hk : k.shift pStackTop = some (k', sp)) :
    k' = { k with
      pStackTop := Function.update k.pStackTop k.osThis pStackTop
      switching := Function.update k.switching k.osThis false
      osThis := k'.osThis } ∧
    k.home k'.osThis = some (.activeProc (k.priority k'.osThis).toNat) ∧
    k'.osThis ∈ Q (.activeProc (k.priority k'.osThis).toNat) ∧
    ∀ p ≤ 32, ∀ u ∈ Q (.activeProc p), (k.priority k'.osThis).toNat ≤ (k.priority u).toNat := by
  have hle : (bitScanForward k.osActivePrio).toNat ≤ 32 := by
    rcases hi.lists.bitScanForward_cases with ⟨p, hp, h, -⟩ | ⟨h, -⟩ <;> omega
  have hmem := hI.activeProc_mem _ hle
  rw [Kernel.shift, activeProc, hi.lists.containerOf_next hmem, Option.map_eq_some_iff] at hk
  obtain ⟨t, ht, hk⟩ := hk
  rw [Prod.mk.injEq] at hk
  have hthis : k'.osThis = t := by rw [← hk.1]
  have htq := List.mem_of_head? ht
  have hhome := (hi.homes _ _ hmem).mp htq
  have hprio := hi.priority_of_home hhome
  rw [hthis, ← hprio]
  refine ⟨hk.1.symm, hhome, htq, fun p hp u hu => ?_⟩
  rw [← hi.priority_of_home ((hi.homes _ _ (hI.activeProc_mem p hp)).mp hu)]
  by_contra hlt
  have hnil : Q (.activeProc p) = [] := by
    rcases hi.lists.bitScanForward_cases with ⟨q, hq, h, -, hlow⟩ | ⟨h, hlow⟩
    · exact hlow p (by omega)
    · exact hlow p (by omega)
  rw [hnil] at hu
  simp at hu

/-- **`shift`** changes no list. -/
theorem shift (hi : Inv I k Q) (hI : Heads I) {pStackTop sp : Int32U}
    (hk : k.shift pStackTop = some (k', sp)) : Inv I k' Q := by
  obtain ⟨hk', hhome, -⟩ := hi.shift_spec hI hk
  have hlives : k'.osLiveList = k.osLiveList := by rw [hk']
  have hprio : k'.priority = k.priority := by rw [hk']
  have htimer : k'.timer = k.timer := by rw [hk']
  have hpoint : k'.point = k.point := by rw [hk']
  have hhomes : k'.home = k.home := by
    funext u
    simp only [home, hlives, hprio, htimer, hpoint]
  refine ⟨hi.lists.congr (by rw [hk']) (by rw [hk']), hhomes ▸ hi.homes, hlives ▸ hi.nodup,
    fun _ => ?_, fun u => ?_⟩
  · rw [hhomes, hprio]
    exact hhome
  · obtain ⟨h1, h2, h3, h4, h5, h6⟩ := hi.thread u
    rw [← hprio, ← hlives] at h1
    rw [← hpoint, ← hlives] at h2
    rw [← htimer, ← hpoint, ← hlives] at h4
    rw [← hpoint, ← htimer] at h5
    rw [← hpoint, ← hlives] at h6
    refine ⟨h1, h2, fun hsw => ?_, h4, h5, h6⟩
    rw [hpoint]
    refine h3 ?_
    rw [hk'] at hsw
    by_cases hu : u = k.osThis
    · subst hu
      simp at hsw
    · simpa [hu] using hsw

/-- There is a thread to select when a thread of priority 32 is ready. -/
lemma shift_isSome (hi : Inv I k Q) (hI : Heads I) (hne : Q (.activeProc 32) ≠ [])
    (pStackTop : Int32U) : (k.shift pStackTop).isSome = true := by
  have key : ∃ p ≤ 32, (bitScanForward k.osActivePrio).toNat = p ∧ Q (.activeProc p) ≠ [] := by
    rcases hi.lists.bitScanForward_cases with ⟨p, hp, h, hq, -⟩ | ⟨h, -⟩
    · exact ⟨p, by omega, h, hq⟩
    · exact ⟨32, le_rfl, h, hne⟩
  obtain ⟨p, hp, hscan, hq⟩ := key
  obtain ⟨t, l, hl⟩ := List.exists_cons_of_ne_nil hq
  rw [Kernel.shift, activeProc, hscan, hi.lists.containerOf_next (hI.activeProc_mem p hp), hl]
  rfl

end Inv

/-! ### The start of the system -/

section Startup

variable {L : Links Node} {W I : Set Head} {h : Head}

/-- The heads that `startup` initialises, next to the wait lists `W`. -/
def bootHeads (W : Set Head) : Set Head :=
  {h | (h ∈ W ∨ h = .deadList) ∨ ∃ p < 33, h = .activeProc p}

lemma heads_bootHeads (hW : ∀ h ∈ W, IsWait h) : Heads (bootHeads W) := by
  refine ⟨fun p hp => Or.inr ⟨p, by omega, rfl⟩, fun p hp => ?_, Or.inl (Or.inr rfl)⟩
  rcases hp with (hp | hp) | ⟨q, hq, hp⟩
  · exact (hW _ hp).elim
  · simp at hp
  · simp only [Head.activeProc.injEq] at hp
    omega

/-- `INIT_LIST_HEAD` of a new head, next to empty lists. -/
lemma rings_nil_init (hr : Rings L I Node.head fun _ => []) (hh : h ∉ I) :
    Rings (initListHead L (.head h)) (insert h I) Node.head fun _ => [] := by
  have h1 := rings_initListHead (i := h) hr fun j hj hmem => by
    simp only [List.mem_singleton, Node.head.injEq] at hmem
    exact hh (hmem ▸ hj)
  rwa [Function.update_eq_self] at h1

/-- The loop of `startup`. -/
lemma rings_nil_range (hr : Rings L I Node.head fun _ => []) (hI : ∀ p, .activeProc p ∉ I)
    (n : ℕ) : Rings ((List.range n).foldl
      (fun links i => initListHead links (.head (.activeProc i))) L)
      {h | h ∈ I ∨ ∃ p < n, h = .activeProc p} Node.head fun _ => [] := by
  induction n with
  | zero => simpa using hr
  | succ n ih =>
      have hset : {h | h ∈ I ∨ ∃ p < n + 1, h = .activeProc p} =
          insert (.activeProc n) {h | h ∈ I ∨ ∃ p < n, h = .activeProc p} := by
        ext h
        simp only [Set.mem_ofPred_eq, Set.mem_insert_iff, Nat.lt_succ_iff_lt_or_eq]
        constructor
        · rintro (hh | ⟨p, hp | rfl, rfl⟩)
          · exact Or.inr (Or.inl hh)
          · exact Or.inr (Or.inr ⟨p, hp, rfl⟩)
          · exact Or.inl rfl
        · rintro (rfl | hh | ⟨p, hp, rfl⟩)
          · exact Or.inr ⟨n, Or.inr rfl, rfl⟩
          · exact Or.inl hh
          · exact Or.inr ⟨p, Or.inl hp, rfl⟩
      rw [List.range_succ, List.foldl_append, hset]
      refine rings_nil_init ih ?_
      rintro (hh | ⟨p, hp, h1⟩)
      · exact hI n hh
      · simp only [Head.activeProc.injEq] at h1
        omega

/-- **`startup`** makes empty lists, but for the idle thread in the last ready list. -/
theorem Inv.startup {k : Kernel} (hk : AtReset k) (hW : ∀ h ∈ W, IsWait h)
    (hr : Rings k.links W Node.head fun _ => []) (pStackTop : Int32U) :
    Inv (bootHeads W) (startup k pStackTop)
      (Function.update (fun _ => []) (.activeProc 32) [osIdle]) := by
  have hdead := rings_nil_init (h := .deadList) hr fun h => hW _ h
  have hrings := rings_nil_range hdead (fun p h => by
    rcases h with h | h
    · simp at h
    · exact hW _ h) 33
  have hset : {h | h ∈ insert Head.deadList W ∨ ∃ p < 33, h = .activeProc p} = bootHeads W := by
    ext h
    simp only [bootHeads, Set.mem_ofPred_eq, Set.mem_insert_iff, or_comm (a := h = _)]
  rw [hset] at hrings
  have hI := heads_bootHeads hW
  have hlives : (Kernel.startup k pStackTop).osLiveList = [osIdle] := by
    show k.osLiveList ++ [osIdle] = _
    rw [hk.osLiveList]
    rfl
  have hpoint : ∀ t, (Kernel.startup k pStackTop).point t = .user := hk.point
  have htimer : ∀ t, (Kernel.startup k pStackTop).timer t = .unarmed := hk.timer
  have hsw : ∀ t, (Kernel.startup k pStackTop).switching t = false := hk.switching
  have hprio : (Kernel.startup k pStackTop).priority osIdle = 32 :=
    Function.update_self osIdle 32 k.priority
  have hhome : (Kernel.startup k pStackTop).home =
      Function.update (fun _ => none) osIdle (some (.activeProc 32)) := by
    funext t
    by_cases ht : t = osIdle
    · rw [ht, Function.update_self, home_user (by rw [hlives]; simp) (hpoint _), hprio]
      rfl
    · rw [Function.update_of_ne ht, home, hlives, if_neg (by simpa using ht), hpoint]
      rfl
  refine ⟨⟨?_, fun p hp => ?_⟩, ?_, by rw [hlives]; simp, fun _ => ?_, fun t => ?_⟩
  · rw [map_update]
    exact rings_listAdd hrings (hI.activeProc_mem 32 le_rfl) fun j _ => by simp
  · rw [Function.update_of_ne (by simp; omega)]
    show (0 : Int32U).getLsbD p = true ↔ _
    simp
  · rw [hhome]
    exact Homes.enter (fun t h _ => by simp) rfl
  · rw [hhome, show (Kernel.startup k pStackTop).osThis = osIdle from rfl, hprio,
      Function.update_self]
    rfl
  · refine ⟨fun ht => ?_, ?_, ?_, ?_, ?_, ?_⟩
    · rw [hlives, List.mem_singleton] at ht
      rw [ht, hprio]
      decide
    all_goals simp [hpoint, htimer, hsw]

end Startup

/-! ### Runs of the core scheduler -/

/-- The steps that concern no wait list: threads are made, sleep, finish, are woken by their
timer, and are switched. -/
def Plain (k : Kernel) : Act → Prop
  | .labour .. | .exit | .sleep _ | .sleepResumed | .shift _ => True
  | .systimer pThread => k.point pThread = .sleeping
  | _ => False

/-- The steps of the core scheduler: the idle thread neither sleeps nor finishes. -/
def Core (k : Kernel) : Act → Prop
  | .labour .. | .sleepResumed | .shift _ => True
  | .exit | .sleep _ => k.osThis ≠ osIdle
  | .systimer pThread => k.point pThread = .sleeping
  | _ => False

instance (k : Kernel) : (a : Act) → Decidable (Core k a)
  | .labour .. | .sleepResumed | .shift _ => .isTrue trivial
  | .exit | .sleep _ => inferInstanceAs (Decidable (k.osThis ≠ osIdle))
  | .systimer pThread => inferInstanceAs (Decidable (k.point pThread = .sleeping))
  | .semaphoreWait .. | .semaphorePost _ | .mailWait .. | .mailPost .. | .mailPostReady _
  | .waitResumed => .isFalse id

/-- The idle thread is live, runs its own code, and has priority 32, and no thread waits on
a list. -/
structure CoreFields (k : Kernel) : Prop where
  idle_live : osIdle ∈ k.osLiveList
  idle_point : k.point osIdle = .user
  idle_priority : k.priority osIdle = 32
  no_waiter : ∀ t h Timeout woken, k.point t ≠ .waiting h Timeout woken

/-- The idle thread is live, runs its own code, and has priority 32. -/
structure IdleFields (k : Kernel) : Prop where
  live : osIdle ∈ k.osLiveList
  point : k.point osIdle = .user
  priority : k.priority osIdle = 32

lemma CoreFields.idle {k : Kernel} (hf : CoreFields k) : IdleFields k :=
  ⟨hf.idle_live, hf.idle_point, hf.idle_priority⟩

/-- The idle thread of `startup`. -/
lemma CoreFields.startup {k : Kernel} (hk : AtReset k) (pStackTop : Int32U) :
    CoreFields (startup k pStackTop) := by
  refine ⟨?_, hk.point _, Function.update_self osIdle 32 k.priority,
    fun t w Timeout woken hp => ?_⟩
  · simp [Kernel.startup, threadRegister]
  · rw [show (Kernel.startup k pStackTop).point t = .user from hk.point t] at hp
    simp at hp

/-- The lists of `startup`, where there are no wait lists. -/
lemma Inv.startup_core {k : Kernel} (hk : AtReset k) (pStackTop : Int32U) :
    ∃ Q, Inv (bootHeads ∅) (Kernel.startup k pStackTop) Q :=
  ⟨_, Inv.startup hk (fun _ hh => hh.elim) ⟨fun _ hi => hi.elim, fun _ hi => hi.elim⟩ _⟩

section Steps

variable {I : Set Head} {k k' : Kernel} {Q : Head → List ThreadId} {a : Act}

/-- What a step of the core scheduler does to the points of the threads and to the idle thread: it
moves at most one thread, to where that does not wait, and only `exit` finishes one. -/
structure CoreFrame (k : Kernel) (a : Act) (k' : Kernel) : Prop where
  point : k'.point = k.point ∨ ∃ t P, k'.point = Function.update k.point t P ∧
    (∀ h Timeout woken, P ≠ .waiting h Timeout woken) ∧ (P = .exited → a = .exit)
  idle : IdleFields k → IdleFields k'

/-- The frame of a step that moves a thread other than the idle one. -/
lemma CoreFrame.of_update {t : ThreadId} {P : Point}
    (hpoint : k'.point = Function.update k.point t P)
    (hP : ∀ h Timeout woken, P ≠ .waiting h Timeout woken) (hexit : P = .exited → a = .exit)
    (hne : IdleFields k → osIdle ≠ t) (hlive : IdleFields k → osIdle ∈ k'.osLiveList)
    (hprio : IdleFields k → k'.priority osIdle = k.priority osIdle) : CoreFrame k a k' := by
  refine ⟨Or.inr ⟨t, P, hpoint, hP, hexit⟩, fun hf => ⟨hlive hf, ?_, (hprio hf).trans hf.priority⟩⟩
  rw [hpoint, Function.update_of_ne (hne hf)]
  exact hf.point

/-- **The frame of a step of the core scheduler.** -/
theorem core_frame (hc : Core k a) (hs : step k a = some k') : CoreFrame k a k' := by
  cases a with
  | labour t pProcess StackDepth Priority pStackTop =>
      simp only [Kernel.step, Option.ite_none_right_eq_some, Option.some.injEq] at hs
      obtain ⟨⟨-, ht⟩, rfl⟩ := hs
      have hne : IdleFields k → osIdle ≠ t := by
        rintro hf rfl
        exact ht (Or.inl hf.live)
      rw [Kernel.labour]
      split_ifs
      · exact ⟨Or.inl rfl, id⟩
      · exact .of_update rfl (by simp) (by simp) hne (fun hf => List.mem_append_left _ hf.live)
          fun hf => Function.update_of_ne (hne hf) ..
  | exit =>
      simp only [Kernel.step, Option.ite_none_right_eq_some, Kernel.exit, threadUnregister,
        Option.map_eq_some_iff, Option.some.injEq] at hs
      obtain ⟨-, k₁, ⟨-, rfl⟩, rfl⟩ := hs
      have hne : osIdle ≠ k.osThis := fun h => hc h.symm
      exact .of_update rfl (by simp) (fun _ => rfl) (fun _ => hne)
        (fun hf => (List.mem_erase_of_ne hne).mpr hf.live) fun _ => rfl
  | sleep Time =>
      simp only [Kernel.step, Option.ite_none_right_eq_some, Option.some.injEq] at hs
      obtain ⟨-, rfl⟩ := hs
      rw [Kernel.sleep]
      split_ifs
      · exact ⟨Or.inl rfl, id⟩
      · exact .of_update rfl (by simp) (by simp) (fun _ h => hc h.symm) (fun hf => hf.live)
          fun _ => rfl
  | sleepResumed =>
      simp only [Kernel.step, Option.ite_none_right_eq_some, Option.some.injEq] at hs
      obtain ⟨⟨hp, -⟩, rfl⟩ := hs
      refine .of_update rfl (by simp) (by simp) (fun hf h => ?_) (fun hf => hf.live) fun _ => rfl
      rw [← h, hf.point] at hp
      simp at hp
  | systimer t =>
      simp only [Kernel.step, Option.ite_none_right_eq_some, Option.some.injEq] at hs
      obtain ⟨-, rfl⟩ := hs
      have hp : (addActive { k with timer := Function.update k.timer t .fired } t).point t =
        .sleeping := hc
      rw [Kernel.systimerException, markWoken, hp]
      exact ⟨Or.inl rfl, fun hf => ⟨hf.live, hf.point, hf.priority⟩⟩
  | shift pStackTop =>
      simp only [Kernel.step, Option.map_eq_some_iff, Kernel.shift] at hs
      obtain ⟨r, ⟨t, -, rfl⟩, rfl⟩ := hs
      exact ⟨Or.inl rfl, fun hf => ⟨hf.live, hf.point, hf.priority⟩⟩
  | _ => exact hc.elim

/-- The steps of the core scheduler keep the fields of the idle thread, and no thread comes
to wait on a list. -/
lemma CoreFields.step (hf : CoreFields k) (hc : Core k a) (hs : step k a = some k') :
    CoreFields k' := by
  obtain ⟨hpoint, hidle⟩ := core_frame hc hs
  obtain ⟨hlive, hpoint', hprio⟩ := hidle hf.idle
  refine ⟨hlive, hpoint', hprio, fun u => ?_⟩
  rcases hpoint with heq | ⟨t, P, heq, hP, -⟩
  · rw [heq]
    exact hf.no_waiter u
  · rw [heq, Function.update_apply]
    split_ifs
    · exact hP
    · exact hf.no_waiter u

/-- No thread finishes but by `exit`. -/
lemma CoreFrame.exited {t : ThreadId} (hframe : CoreFrame k a k') (ha : a ≠ .exit)
    (ht : k'.point t = .exited) : k.point t = .exited := by
  rcases hframe.point with heq | ⟨u, P, heq, -, hP⟩
  · rwa [heq] at ht
  · rw [heq, Function.update_apply] at ht
    split_ifs at ht
    · exact absurd (hP ht) ha
    · exact ht

lemma Core.plain (hc : Core k a) : Plain k a := by
  cases a with
  | labour | exit | sleep | sleepResumed | shift => trivial
  | systimer t => exact hc
  | _ => exact hc.elim

/-- **The steps that concern no wait list keep the invariant.** -/
theorem Inv.plain_step (hi : Inv I k Q) (hI : Heads I) (hc : Plain k a)
    (hs : Kernel.step k a = some k') : ∃ Q', Inv I k' Q' := by
  cases a with
  | labour t pProcess StackDepth Priority pStackTop =>
      simp only [Kernel.step, Option.ite_none_right_eq_some, Option.some.injEq] at hs
      obtain ⟨⟨hu, ht⟩, rfl⟩ := hs
      exact hi.labour hI hu ht ..
  | exit =>
      simp only [Kernel.step, Option.ite_none_right_eq_some] at hs
      exact hi.exit hI hs.1 hs.2
  | sleep Time =>
      simp only [Kernel.step, Option.ite_none_right_eq_some, Option.some.injEq] at hs
      exact hs.2 ▸ hi.sleep hI hs.1 Time
  | sleepResumed =>
      simp only [Kernel.step, Option.ite_none_right_eq_some, Option.some.injEq] at hs
      exact ⟨Q, hs.2 ▸ hi.sleepResumed hs.1.2⟩
  | systimer t =>
      simp only [Kernel.step, Option.ite_none_right_eq_some, Option.some.injEq] at hs
      exact hs.2 ▸ hi.systimerException hI hs.1 hc
  | shift pStackTop =>
      simp only [Kernel.step, Option.map_eq_some_iff] at hs
      obtain ⟨⟨k₁, sp⟩, hr, rfl⟩ := hs
      exact ⟨Q, hi.shift hI hr⟩
  | _ => exact hc.elim

end Steps

/-- **The ready-queue law**: `Q` are the threads of the ready lists and of `OS_DeadList`. -/
structure ReadyLaw (k : Kernel) (Q : Head → List ThreadId) : Prop where
  active_ring : ∀ p ≤ 32,
    k.links.Circle (.head (.activeProc p)) ((Q (.activeProc p)).map Node.thread)
  dead_ring : k.links.Circle (.head .deadList) ((Q .deadList).map Node.thread)
  bit : ∀ p < 32, testBit k.osActivePrio p = true ↔ Q (.activeProc p) ≠ []
  registered : ∀ p ≤ 32, ∀ t ∈ Q (.activeProc p), t ∈ k.osLiveList
  live : ∀ t ∈ k.osLiveList, t ∉ Q .deadList ∧
    (t ∈ Q (.activeProc (k.priority t).toNat) ∧
        (∀ p ≤ 32, t ∈ Q (.activeProc p) → p = (k.priority t).toNat) ∨
      (∀ p ≤ 32, t ∉ Q (.activeProc p)) ∧ k.point t = .sleeping ∧
        (k.timer t = .armed ∨ k.timer t = .fired))
  exited : ∀ t, t ∈ Q .deadList ↔ k.point t = .exited
  idle : osIdle ∈ Q (.activeProc 32)
  shift : ∀ pStackTop, ∃ k' sp, k.shift pStackTop = some (k', sp) ∧
    k'.osThis ∈ Q (.activeProc (k.priority k'.osThis).toNat) ∧
    ∀ p ≤ 32, ∀ u ∈ Q (.activeProc p), (k.priority k'.osThis).toNat ≤ (k.priority u).toNat

/-- The invariant gives the ready-queue law where no thread waits on a list. -/
lemma Inv.readyLaw {I : Set Head} {k : Kernel} {Q : Head → List ThreadId} (hi : Inv I k Q)
    (hI : Heads I) (hf : CoreFields k) : ReadyLaw k Q := by
  have hactive : ∀ p ≤ 32, ∀ t, t ∈ Q (.activeProc p) ↔ k.home t = some (.activeProc p) :=
    fun p hp t => hi.homes t _ (hI.activeProc_mem p hp)
  have hidle : osIdle ∈ Q (.activeProc 32) := by
    rw [hactive 32 le_rfl, home_user hf.idle_live hf.idle_point, hf.idle_priority]
    rfl
  have hlive : ∀ t ∈ k.osLiveList, k.home t = some (.activeProc (k.priority t).toNat) ∨
      k.home t = none ∧ k.point t = .sleeping ∧ (k.timer t = .armed ∨ k.timer t = .fired) := by
    intro t ht
    cases hp : k.point t with
    | user => exact Or.inl (home_user ht hp)
    | sleeping =>
        have hne := (hi.thread t).sleeping hp
        rw [home_sleeping ht hp]
        cases htimer : k.timer t with
        | unarmed => exact absurd htimer hne
        | armed => simp
        | fired => simp
    | waiting h Timeout woken => exact absurd hp (hf.no_waiter t h Timeout woken)
    | exited => exact absurd hp ((hi.thread t).live ht)
  refine ⟨fun p hp => hi.lists.rings.circle _ (hI.activeProc_mem p hp),
    hi.lists.rings.circle _ hI.deadList_mem, fun p hp => ?_, fun p hp t ht => ?_, fun t ht => ?_,
    fun t => ?_, hidle, fun pStackTop => ?_⟩
  · rw [testBit_eq]
    exact hi.lists.bit p hp
  · exact live_of_home_active ((hactive p hp t).mp ht)
  · rw [hi.homes t _ hI.deadList_mem]
    have hle := (hi.thread t).priority_le ht
    rcases hlive t ht with h | ⟨h, hp, htimer⟩
    · refine ⟨by simp [h], Or.inl ⟨(hactive _ hle t).mpr h, fun p hp htp => ?_⟩⟩
      exact hi.priority_of_home ((hactive p hp t).mp htp)
    · exact ⟨by simp [h], Or.inr ⟨fun p _ => hi.homes.notMem h _ (hI.activeProc_mem p ‹_›),
        hp, htimer⟩⟩
  · rw [hi.homes t _ hI.deadList_mem]
    by_cases ht : t ∈ k.osLiveList
    · refine iff_of_false ?_ ((hi.thread t).live ht)
      rcases hlive t ht with h | ⟨h, -⟩ <;> simp [h]
    · rw [home, if_neg ht]
      simp
  · obtain ⟨⟨k', sp⟩, hk⟩ :=
      Option.isSome_iff_exists.mp (hi.shift_isSome hI (List.ne_nil_of_mem hidle) pStackTop)
    obtain ⟨-, -, h1, h2⟩ := hi.shift_spec hI hk
    exact ⟨k', sp, hk, h1, h2⟩

/-- The invariant in the states of the core scheduler. -/
lemma inv_of_reach {k₀ k : Kernel} {pStackTop : Int32U} (h₀ : AtReset k₀)
    (h : Run.Reach Core step (startup k₀ pStackTop) k) :
    (∃ Q, Inv (bootHeads ∅) k Q) ∧ CoreFields k := by
  have hI := heads_bootHeads (W := ∅) fun _ hh => hh.elim
  induction h with
  | start => exact ⟨Inv.startup_core h₀ _, CoreFields.startup h₀ _⟩
  | step _ hok hstep ih =>
      obtain ⟨⟨Q, hi⟩, hf⟩ := ih
      exact ⟨hi.plain_step hI hok.plain hstep, hf.step hok hstep⟩

/-- **The ready queues of the core scheduler.** In every state that a run from `startup`
reaches, each ready list is a circular list without repetition, the bits of `OS_ActivePrio`
tell which are not empty, every live thread is either in the ready list of its own priority
or sleeps on its timer, the threads that have finished are those of `OS_DeadList`, and
`shift` selects a ready thread of the smallest priority. -/
theorem ready_queue {k₀ k : Kernel} {pStackTop : Int32U} (h₀ : AtReset k₀)
    (h : Run.Reach Core step (startup k₀ pStackTop) k) : ∃ Q, ReadyLaw k Q := by
  obtain ⟨⟨Q, hi⟩, hf⟩ := inv_of_reach h₀ h
  exact ⟨Q, hi.readyLaw (heads_bootHeads fun _ hh => hh.elim) hf⟩

/-- A thread of priority 5 is made and becomes the running thread. -/
theorem ready_queue_labour_shift :
    ∃ k Q, Run.Reach Core step (startup reset 0) k ∧ k.osThis = 1 ∧ ReadyLaw k Q := by
  have h0 : Run.Reach Core step (startup reset 0) (startup reset 0) := .start
  have h1 := h0.step (a := Act.labour 1 1 64 5 0) trivial rfl
  have h2 := h1.step (a := Act.shift 0) trivial rfl
  obtain ⟨Q, hQ⟩ := ready_queue atReset_reset h2
  exact ⟨_, Q, h2, rfl, hQ⟩

/-- **`scheduler`** pends a switch exactly when some ready thread has a smaller priority than
the running one. -/
theorem Inv.scheduler_iff {I : Set Head} {k : Kernel} {Q : Head → List ThreadId}
    (hi : Inv I k Q) (hI : Heads I) (hle : (k.priority k.osThis).toNat ≤ 32) :
    k.scheduler = true ↔
      ∃ p ≤ 32, ∃ t ∈ Q (.activeProc p), (k.priority t).toNat < (k.priority k.osThis).toNat := by
  have hprio : ∀ p ≤ 32, ∀ t ∈ Q (.activeProc p), p = (k.priority t).toNat := fun p hp t ht =>
    hi.priority_of_home ((hi.homes t _ (hI.activeProc_mem p hp)).mp ht)
  rw [scheduler, decide_eq_true_iff, BitVec.lt_def]
  constructor
  · intro hlt
    rcases hi.lists.bitScanForward_cases with ⟨p, hp, hscan, hne, -⟩ | ⟨hscan, -⟩
    · obtain ⟨t, ht⟩ := List.exists_mem_of_ne_nil _ hne
      exact ⟨p, by omega, t, ht, by have := hprio p (by omega) t ht; omega⟩
    · omega
  · rintro ⟨p, hp, t, ht, hlt⟩
    have hpt := hprio p hp t ht
    rcases hi.lists.bitScanForward_cases with ⟨q, -, hscan, -, hlow⟩ | ⟨hscan, hlow⟩
    · by_contra hge
      rw [hlow p (by omega)] at ht
      simp at ht
    · rw [hlow p (by omega)] at ht
      simp at ht

end Kernel

end ChinaOS
