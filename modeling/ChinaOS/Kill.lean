import ChinaOS.PipeKernel
import ChinaOS.Wakeup

/-!
`kill` of `kernel/kernel.c`, next to any number of pipes.

The node of a thread that sleeps, or that is blocked in `pipe_read`, is in no list, and its words
still name the neighbours that it had in its ready list. `kill` unlinks it all the same. It does
not look at the pipes.

* `Killed`: what the call should leave behind.
* `Intact`: the states in which the lists are whole.
* `killed_iff`: the threads and states for which the call does what it should.
-/

namespace ChinaOS

open Ring

/-- The kernel and the pipes. -/
structure Piped (ι : Type*) where
  kernel : Kernel
  pipe : ι → Pipe

namespace Piped

variable {ι : Type*}

/-- `kill`, behind the call of `pKill`; `free` leaves the two words `bytes` in the node. -/
def kill (s : Piped ι) (Thread : Option ThreadId) (bytes : Node × Node) :
    Option (Piped ι × Status) :=
  match Thread with
  | none => some (s, .errBadParam)
  | some pThread => (s.kernel.threadUnregister pThread).map fun k =>
      let k := k.vivifyThread pThread (k.priority pThread)
      ({ s with
          kernel := { k with
            links := freeNode k.links (.thread pThread) bytes
            timer := Function.update k.timer pThread .unarmed } }, .ok)

end Piped

namespace Kernel

/-- The lists are whole: a thread of a ready list has the priority of that list, and no live thread
has one above 32. -/
structure Intact (k : Kernel) (Q : Head → List ThreadId) : Prop where
  lists : Lists allHeads k Q
  priority : ∀ p ≤ 32, ∀ t ∈ Q (.activeProc p), (k.priority t).toNat = p
  priority_le : ∀ t ∈ k.osLiveList, (k.priority t).toNat ≤ 32
  nodup : k.osLiveList.Nodup

/-- The thread is in a ready list, a wait list or the list of dead threads. -/
def Linked (k : Kernel) (t : ThreadId) : Prop := ∃ h ∈ allHeads, k.OnList h t

/-- The nodes of the list `h`. -/
def nodes (k : Kernel) (h : Head) : Set Node :=
  {n | n = .head h ∨ ∃ t, n = .thread t ∧ k.OnList h t}

/-- The neighbours that the node of the thread names are still next to each other, as far as they
are in lists. -/
def Settled (k : Kernel) (t : ThreadId) : Prop :=
  ∀ h ∈ allHeads, Adjacent k.links (k.nodes h) (.thread t)

/-- The invariant of the runs in which no waiter is made ready gives whole lists. -/
lemma Inv.intact {k : Kernel} {Q : Head → List ThreadId} (hi : Inv allHeads k Q) : Intact k Q :=
  ⟨hi.lists, fun p hp t ht => (hi.priority_of_home
    ((hi.homes t _ (heads_allHeads.activeProc_mem p hp)).mp ht)).symm,
    fun t => (hi.thread t).priority_le, hi.nodup⟩

end Kernel

open Kernel

namespace Piped

variable {ι : Type*}

/-- **The thread is removed from everywhere, and the other threads are where they were.** -/
structure Killed (s s' : Piped ι) (t : ThreadId) : Prop where
  lists : ∀ h ∈ allHeads, ∃ l : List ThreadId,
    s'.kernel.links.Circle (.head h) (l.map Node.thread) ∧
      ∀ u, u ∈ l ↔ u ≠ t ∧ s.kernel.OnList h u
  live : ∀ u, u ∈ s'.kernel.osLiveList ↔ u ≠ t ∧ u ∈ s.kernel.osLiveList
  timer : s'.kernel.timer t = .unarmed ∧ ∀ u ≠ t, s'.kernel.timer u = s.kernel.timer u
  reader : ∀ i, (s'.pipe i).pReadThread ≠ some t
  bit : ∀ p < 32, testBit s'.kernel.osActivePrio p = true ↔
    listEmpty s'.kernel.links (.head (.activeProc p)) = false

section Kill

variable {s s' : Piped ι} {Q : Head → List ThreadId} {t : ThreadId} {bytes : Node × Node}

/-- The state after a call for a live thread. -/
lemma kill_eq (bytes : Node × Node) (hlive : t ∈ s.kernel.osLiveList) : ∃ s', s.kill (some t) bytes = some (s', .ok) ∧
    s'.pipe = s.pipe ∧ s'.kernel.osLiveList = s.kernel.osLiveList.erase t ∧
    s'.kernel.timer = Function.update s.kernel.timer t .unarmed ∧
    s'.kernel.osActivePrio =
      (s.kernel.vivifyThread t (s.kernel.priority t)).osActivePrio ∧
    s'.kernel.links = freeNode (listDel s.kernel.links (.thread t)) (.thread t) bytes := by
  rw [kill, threadUnregister, if_pos hlive]
  exact ⟨_, rfl, rfl, rfl, rfl, rfl, rfl⟩

/-- The nodes of a list. -/
lemma mem_nodes (hi : Intact s.kernel Q) {h : Head} (hh : h ∈ allHeads) :
    s.kernel.nodes h = {n | n ∈ Node.head h :: (Q h).map Node.thread} := by
  ext n
  simp only [nodes, Set.mem_ofPred_eq, List.mem_cons, List.mem_map, hi.lists.onList_iff hh]
  refine or_congr_right ⟨fun ⟨u, hn, hu⟩ => ⟨u, hu, hn.symm⟩, fun ⟨u, hu, hn⟩ => ⟨u, hn.symm, hu⟩⟩

/-- **The lists after the call**, for a thread that is in a list, or in none with settled
neighbours. -/
lemma lists_kill (hi : Intact s.kernel Q) (hlive : t ∈ s.kernel.osLiveList)
    (hcase : s.kernel.Linked t ∨ s.kernel.Settled t) :
    ∃ Q', Lists allHeads (s.kernel.vivifyThread t (s.kernel.priority t)) Q' ∧
      ∀ h ∈ allHeads, ∀ u, u ∈ Q' h ↔ u ≠ t ∧ u ∈ Q h := by
  have hact : .activeProc (s.kernel.priority t).toNat ∈ allHeads :=
    heads_allHeads.activeProc_mem _ (hi.priority_le t hlive)
  by_cases hlinked : s.kernel.Linked t
  · obtain ⟨h, hh, hon⟩ := hlinked
    have ht := (hi.lists.onList_iff hh).mp hon
    refine ⟨Function.update Q h ((Q h).erase t),
      hi.lists.vivifyThread_of_rings hact (hi.lists.rings_listDel hh ht) (fun p hp => ?_)
        fun hne => ?_, fun h' hh' u => ?_⟩
    · -- the list of another priority is not that of the thread
      refine Function.update_of_ne ?_ _ _
      rintro rfl
      exact hp (hi.priority p (heads_allHeads.le_of_mem p hh) t ht).symm
    · by_cases hhead : .activeProc (s.kernel.priority t).toNat = h
      · exact hhead ▸ List.ne_nil_of_mem ht
      · rwa [Function.update_of_ne hhead] at hne
    · by_cases hhead : h' = h
      · subst hhead
        rw [Function.update_self, (hi.lists.nodup hh).mem_erase_iff]
      · rw [Function.update_of_ne hhead, iff_and_self]
        rintro hu rfl
        exact hhead (hi.lists.eq_of_mem hh' hh hu ht)
  · have hsettled := hcase.resolve_left hlinked
    have hnot : ∀ h ∈ allHeads, t ∉ Q h := fun h hh ht =>
      hlinked ⟨h, hh, (hi.lists.onList_iff hh).mpr ht⟩
    refine ⟨Q, hi.lists.vivifyThread_of_rings hact ?_ (fun _ _ => rfl) id, fun h hh u => ?_⟩
    · exact rings_listDel_of_adjacent hi.lists.rings fun h hh => by
        have ha := hsettled h hh
        rwa [mem_nodes hi hh] at ha
    · rw [iff_and_self]
      rintro hu rfl
      exact hnot h hh hu

/-- **What the call should do**, it does for such a thread that no pipe names. -/
lemma killed_of_settled (hi : Intact s.kernel Q) (hlive : t ∈ s.kernel.osLiveList)
    (hcase : s.kernel.Linked t ∨ s.kernel.Settled t) (hpipe : ∀ i, (s.pipe i).pReadThread ≠ some t)
    (hk : s.kill (some t) bytes = some (s', .ok)) : Killed s s' t := by
  obtain ⟨s₁, heq, hpipes, hlives, htimer, hprio, hlinks⟩ := kill_eq bytes hlive
  obtain rfl : s₁ = s' := by
    rw [heq, Option.some.injEq, Prod.mk.injEq] at hk
    exact hk.1
  obtain ⟨Q', hl, hmem⟩ := lists_kill hi hlive hcase
  have hnot : ∀ h ∈ allHeads, Node.thread t ∉ Node.head h :: (Q' h).map Node.thread := by
    intro h hh ht
    exact ((hmem h hh t).mp (thread_mem_ring.mp ht)).1 rfl
  have hl' : Lists allHeads s₁.kernel Q' := by
    refine ⟨?_, fun p hp => ?_⟩
    · rw [hlinks]
      exact rings_freeNode hl.rings hnot bytes
    · rw [hprio]
      exact hl.bit p hp
  refine ⟨fun h hh => ⟨Q' h, hl'.rings.circle h hh, fun u => ?_⟩, fun u => ?_, ⟨?_, fun u hu => ?_⟩,
    fun i => ?_, fun p hp => ?_⟩
  · rw [hmem h hh, hi.lists.onList_iff hh]
  · rw [hlives, hi.nodup.mem_erase_iff]
  · rw [htimer, Function.update_self]
  · rw [htimer, Function.update_of_ne hu]
  · rw [hpipes]
    exact hpipe i
  · rw [testBit_eq, hl'.bit p hp, Bool.eq_false_iff, ne_eq, ne_eq,
      hl'.listEmpty_iff (heads_allHeads.activeProc_mem p (by omega))]

/-- **A thread that is in no list**, with a neighbour that has another neighbour since: the call
breaks the list of that one. -/
lemma Killed.settled (hi : Intact s.kernel Q) (hlive : t ∈ s.kernel.osLiveList)
    (hk : s.kill (some t) bytes = some (s', .ok)) (hkilled : Killed s s' t) :
    s.kernel.Linked t ∨ s.kernel.Settled t := by
  obtain ⟨s₁, heq, -, -, -, -, hlinks⟩ := kill_eq bytes hlive
  obtain rfl : s₁ = s' := by
    rw [heq, Option.some.injEq, Prod.mk.injEq] at hk
    exact hk.1
  rw [or_iff_not_imp_left]
  intro hlinked h hh
  have hnot : t ∉ Q h := fun ht => hlinked ⟨h, hh, (hi.lists.onList_iff hh).mpr ht⟩
  obtain ⟨l, hring, hmem⟩ := hkilled.lists h hh
  rw [hlinks] at hring
  rw [mem_nodes hi hh]
  refine adjacent_of_listDel hi.lists.rings hh (thread_mem_ring.not.mpr hnot) hring fun y => ?_
  simp only [List.mem_map]
  refine exists_congr fun u => and_congr_left fun _ => ?_
  rw [hmem, hi.lists.onList_iff hh, and_iff_right_iff_imp]
  rintro hu rfl
  exact hnot hu

/-- **`kill` does what it should**, where the lists are whole, exactly for a live thread that is in a
list, or whose former neighbours are still next to each other as far as they are in lists, and that
no pipe names. -/
theorem killed_iff (hi : Intact s.kernel Q) (hlive : t ∈ s.kernel.osLiveList) (bytes : Node × Node) :
    ∃ s', s.kill (some t) bytes = some (s', .ok) ∧ (Killed s s' t ↔
      (s.kernel.Linked t ∨ s.kernel.Settled t) ∧ ∀ i, (s.pipe i).pReadThread ≠ some t) := by
  obtain ⟨s', hk, hpipes, -⟩ := kill_eq bytes hlive
  refine ⟨s', hk, fun hkilled => ⟨hkilled.settled hi hlive hk, fun i => hpipes ▸ hkilled.reader i⟩,
    fun ⟨hcase, hpipe⟩ => killed_of_settled hi hlive hcase hpipe hk⟩

/-! ### Threads that sleep -/

/-- The lists of the core scheduler, next to empty wait lists. -/
lemma inv_of_reach_reset {k : Kernel} (h : Run.Reach Core step (startup reset 0) k) :
    ∃ Q, Inv allHeads k Q := by
  have hc : Created reset := fun _ _ => ⟨rfl, rfl⟩
  refine h.invariant (I := fun k => ∃ Q, Inv allHeads k Q)
    ⟨_, Inv.startup atReset_reset (fun _ hh => hh) hc.rings 0⟩ ?_
  rintro k a k' ⟨Q, hi⟩ hcore hs
  exact hi.plain_step heads_allHeads hcore.plain hs

/-- A thread sleeps that was alone in its ready list. -/
lemma reach_alone : ∃ k, Run.Reach Core step (startup reset 0) k ∧ 1 ∈ k.osLiveList ∧
    k.links.next (k.links.prev (.thread 1)) = k.links.next (.thread 1) ∧
    k.links.prev (k.links.next (.thread 1)) = k.links.prev (.thread 1) := by
  have h0 : Run.Reach Core step (startup reset 0) (startup reset 0) := .start
  have h1 := h0.step (a := Act.labour 1 1 64 5 0) trivial rfl
  have h2 := h1.step (a := Act.shift 0) trivial rfl
  have h3 := h2.step (a := Act.sleep 10) (by decide) rfl
  have h4 := h3.step (a := Act.shift 0) trivial rfl
  exact ⟨_, h4, by decide, by decide, by decide⟩

theorem killed_iff_alone : ∃ k s', Run.Reach Core step (startup reset 0) k ∧
    (Piped.mk k fun _ : Unit => Pipe.fourPairs).kill (some 1) (.thread 7, .thread 8) =
      some (s', .ok) ∧ Killed (Piped.mk k fun _ : Unit => Pipe.fourPairs) s' 1 := by
  obtain ⟨k, hreach, hlive, hnext, hprev⟩ := reach_alone
  obtain ⟨Q, hi⟩ := inv_of_reach_reset hreach
  obtain ⟨s', hk, hiff⟩ := killed_iff (s := Piped.mk k fun _ : Unit => Pipe.fourPairs) hi.intact
    hlive (.thread 7, .thread 8)
  refine ⟨k, s', hreach, hk, hiff.mpr ⟨Or.inr fun h _ => ?_, fun _ => by simp [Pipe.fourPairs]⟩⟩
  exact ⟨fun _ => hnext, fun _ => hprev⟩

/-- A thread sleeps, and the other one of its ready list has finished since. -/
lemma reach_neighbour : ∃ k, Run.Reach Core step (startup reset 0) k ∧ 2 ∈ k.osLiveList ∧
    k.osThis = osIdle ∧ k.home 2 = none ∧ k.home 1 = some .deadList ∧
    k.links.next (.thread 2) = .thread 1 ∧
    k.links.prev (.thread 1) ≠ k.links.prev (.thread 2) := by
  have h0 : Run.Reach Core step (startup reset 0) (startup reset 0) := .start
  have h1 := h0.step (a := Act.labour 1 1 64 5 0) trivial rfl
  have h2 := h1.step (a := Act.labour 2 1 64 5 0) trivial rfl
  have h3 := h2.step (a := Act.shift 0) trivial rfl
  have h4 := h3.step (a := Act.sleep 10) (by decide) rfl
  have h5 := h4.step (a := Act.shift 0) trivial rfl
  have h6 := h5.step (a := Act.exit) (by decide) rfl
  have h7 := h6.step (a := Act.shift 0) trivial rfl
  exact ⟨_, h7, by decide, rfl, by decide, by decide, by decide, by decide⟩

/-- The call links the one that has finished into the ready list again. -/
theorem not_killed_neighbour : ∃ k Q s', Run.Reach Core step (startup reset 0) k ∧ Intact k Q ∧
    2 ∈ k.osLiveList ∧ k.osThis = osIdle ∧
    (Piped.mk k fun _ : Unit => Pipe.fourPairs).kill (some 2) (.thread 7, .thread 8) =
      some (s', .ok) ∧ ¬ Killed (Piped.mk k fun _ : Unit => Pipe.fourPairs) s' 2 := by
  obtain ⟨k, hreach, hlive, hthis, hnone, hdead, hnext, hprev⟩ := reach_neighbour
  obtain ⟨Q, hi⟩ := inv_of_reach_reset hreach
  obtain ⟨s', hk, -⟩ := kill_eq (s := Piped.mk k fun _ : Unit => Pipe.fourPairs) (t := 2)
    (.thread 7, .thread 8) hlive
  refine ⟨k, Q, s', hreach, hi.intact, hlive, hthis, hk, fun hkilled => ?_⟩
  rcases hkilled.settled hi.intact hlive hk with ⟨h, hh, hon⟩ | hsettled
  · have hhome := (hi.homes 2 h hh).mp ((hi.lists.onList_iff hh).mp hon)
    rw [hnone] at hhome
    simp at hhome
  · have hmem := heads_allHeads.deadList_mem
    have hon := (hi.lists.onList_iff hmem).mpr ((hi.homes 1 _ hmem).mpr hdead)
    have hadj := (hsettled _ hmem).prev (Or.inr ⟨1, hnext, hon⟩)
    dsimp only at hadj
    rw [hnext] at hadj
    exact hprev hadj

end Kill

end Piped

end ChinaOS
