import ChinaOS.WaitQueue
import Mathlib.Data.Set.Card

/-!
Consecutive posts to a semaphore or a mailbox on which threads wait.

A post picks the first thread of the wait list and links its node into the ready list, but
the wait list still begins with it, so that every further post picks the same thread again.

* `listAdds_next`: the links after a node is inserted several times behind one head.
* `Lists.wakeLaw_iff`: the number of waiters made ready by a number of wake-ups is as it
  should be only if there are none, or if one wakes the only waiter.
* `posts_wakeLaw_iff`: the same for `semaphore_post` and `mail_post`.
-/

namespace ChinaOS

open Ring

namespace Kernel

/-- The thread is in its ready list. -/
def InReady (k : Kernel) (t : ThreadId) : Prop :=
  ∃ l, k.links.Circle (activeProc (k.priority t)) l ∧ Node.thread t ∈ l

/-- The thread is in the list `w`. -/
def OnList (k : Kernel) (w : Head) (t : ThreadId) : Prop :=
  ∃ l, k.links.Circle (.head w) l ∧ Node.thread t ∈ l

/-- The threads of a list, as the links give them. -/
lemma Lists.onList_iff {I : Set Head} {k : Kernel} {Q : Head → List ThreadId} {w : Head}
    {t : ThreadId} (hl : Lists I k Q) (hw : w ∈ I) : k.OnList w t ↔ t ∈ Q w := by
  have hring := hl.rings.circle w hw
  constructor
  · rintro ⟨l, hl', ht⟩
    rwa [hl'.unique hring, thread_mem_map] at ht
  · exact fun ht => ⟨_, hring, thread_mem_map.mpr ht⟩

lemma inReady_congr {k k' : Kernel} {t : ThreadId} (hl : k'.links = k.links)
    (hp : k'.priority = k.priority) : InReady k' t ↔ InReady k t := by
  rw [InReady, InReady, hl, hp]

/-- **No lost wake-up**: after `n` posts to a list on which the threads `ws` waited, as many of
them as there were posts, if there were so many, are in their ready lists, and the others
are still on the list. -/
def WakeLaw (k : Kernel) (w : Head) (ws : List ThreadId) (n : ℕ) : Prop :=
  Set.ncard {t | t ∈ ws ∧ InReady k t} = min n ws.length ∧
    ∀ t ∈ ws, ¬ InReady k t → OnList k w t

/-- `n` calls of `semaphore_post`, one after the other. -/
def semaphorePosts (k : Kernel) (s : ℕ) : ℕ → Option Kernel
  | 0 => some k
  | n + 1 => (k.semaphorePost s).bind fun r => semaphorePosts r.1 s n

/-- A call of `mail_post` that is not interrupted. -/
def mailPostAll (k : Kernel) (b : ℕ) (Message : Mail) : Option (Kernel × Status) :=
  (k.mailPost b Message).map fun r =>
    match r with
    | (k, st, some Thread) => (k.mailPostReady Thread, st)
    | (k, st, none) => (k, st)

/-- Calls of `mail_post`, one after the other and all successful. -/
def mailPosts (k : Kernel) (b : ℕ) : List Mail → Option Kernel
  | [] => some k
  | m :: ms =>
      match k.mailPostAll b m with
      | some (k, .ok) => mailPosts k b ms
      | _ => none

/-! ### The links after several wake-ups -/

section Links

variable {α : Type*} [DecidableEq α] {L : Links α} {x h y : α}

/-- `list_add` of the same node behind the same head, `n` times. -/
def listAdds (L : Links α) (x h : α) : ℕ → Links α
  | 0 => L
  | n + 1 => listAdd (listAdds L x h n) x h

/-- The node is the first behind the head, and no third node's successor changes. -/
lemma listAdds_next (n : ℕ) : (listAdds L x h (n + 1)).next h = x ∧
    ∀ y, y ≠ h → y ≠ x → (listAdds L x h (n + 1)).next y = L.next y := by
  induction n with
  | zero =>
      refine ⟨?_, fun y hy hyx => ?_⟩
      · rw [listAdds, listAdd_next, if_pos rfl]
      · rw [listAdds, listAdd_next, if_neg hy, if_neg hyx]
        rfl
  | succ n ih =>
      refine ⟨?_, fun y hy hyx => ?_⟩
      · rw [listAdds, listAdd_next, if_pos rfl]
      · rw [listAdds, listAdd_next, if_neg hy, if_neg hyx]
        exact ih.2 y hy hyx

/-- From the second time on the node is its own successor. -/
lemma listAdds_next_self (hxh : x ≠ h) (n : ℕ) : (listAdds L x h (n + 2)).next x = x := by
  rw [listAdds, listAdd_next, if_neg hxh, if_pos rfl]
  exact (listAdds_next n).1

lemma listAdds_listAdd (n : ℕ) : listAdds (listAdd L x h) x h n = listAdds L x h (n + 1) := by
  induction n with
  | zero => rfl
  | succ n ih =>
      rw [listAdds, ih]
      rfl

end Links

section Posts

variable {k k' : Kernel} {Q : Head → List ThreadId} {w : Head} {s b n : ℕ} {t u : ThreadId}
  {ws : List ThreadId}

/-- A ready list and the first waiter of a wait list. -/
lemma Lists.firstWaiter (hl : Lists allHeads k Q) (hw : IsWait w) (hq : Q w = t :: ws)
    (hprio : (k.priority t).toNat ≤ 32) :
    .activeProc (k.priority t).toNat ∈ allHeads ∧ Node.thread t ≠ activeProc (k.priority t) ∧
      Node.head w ≠ activeProc (k.priority t) ∧ k.links.next (.head w) = .thread t := by
  refine ⟨heads_allHeads.activeProc_mem _ hprio, by simp [activeProc], ?_, ?_⟩
  · rw [activeProc, Ne, Node.head.injEq]
    exact hw.ne_activeProc _
  · rw [hl.rings.next_head (mem_allHeads hw), hq]
    rfl

/-- No waiter is in a ready list. -/
lemma Lists.not_inReady (hl : Lists allHeads k Q) (hw : IsWait w) (hu : u ∈ Q w)
    (hprio : (k.priority u).toNat ≤ 32) : ¬ InReady k u := by
  rintro ⟨l, hring, hmem⟩
  have hact := heads_allHeads.activeProc_mem _ hprio
  rw [hring.unique (hl.rings.circle _ hact), thread_mem_map] at hmem
  exact hw.ne_activeProc _ (hl.eq_of_mem (mem_allHeads hw) hact hu hmem)

/-- After one wake-up exactly the first waiter is in its ready list, and no waiter is on the
list any more. -/
lemma Lists.wake_one (hl : Lists allHeads k Q) (hw : IsWait w) (hq : Q w = t :: ws)
    (hprio : ∀ u ∈ Q w, (k.priority u).toNat ≤ 32)
    (hlinks : k'.links = listAdd k.links (.thread t) (activeProc (k.priority t)))
    (hp : k'.priority = k.priority) :
    (∀ u ∈ Q w, InReady k' u ↔ u = t) ∧ ∀ u, ¬ OnList k' w u := by
  have htq : t ∈ Q w := by rw [hq]; exact List.mem_cons_self
  obtain ⟨hact, hta, hwa, hnext⟩ := hl.firstWaiter hw hq (hprio t htq)
  -- the other lists are those of the family without the wait list
  have hrest : Lists (allHeads \ {w}) k Q := hl.mono Set.sdiff_subset
  have hrings := hrest.rings_listAdd (h := .activeProc (k.priority t).toNat) (t := t)
    ⟨hact, (hw.ne_activeProc _).symm⟩
    fun j hj h => hj.2 (hl.eq_of_mem hj.1 (mem_allHeads hw) h htq)
  rw [← activeProc, ← hlinks] at hrings
  refine ⟨fun u hu => ?_, fun u hon => ?_⟩
  · have hu' : .activeProc (k.priority u).toNat ∈ allHeads \ {w} :=
      ⟨heads_allHeads.activeProc_mem _ (hprio u hu), (hw.ne_activeProc _).symm⟩
    have hring := hrings.circle _ hu'
    constructor
    · rintro ⟨l, hring', hmem⟩
      rw [hp] at hring'
      rw [hring'.unique hring, thread_mem_map, Function.update_apply] at hmem
      have hout : u ∉ Q (.activeProc (k.priority u).toNat) := fun h =>
        hw.ne_activeProc _ (hl.eq_of_mem (mem_allHeads hw) hu'.1 hu h)
      split_ifs at hmem with heq
      · rw [List.mem_cons, ← heq] at hmem
        exact hmem.resolve_right hout
      · exact absurd hmem hout
    · rintro rfl
      refine ⟨_, by rw [hp]; exact hring, ?_⟩
      rw [thread_mem_map, Function.update_self]
      exact List.mem_cons_self
  · obtain ⟨l, hring, -⟩ := hon
    have h1 := hring.prev_next List.mem_cons_self
    rw [hlinks, listAdd_next, if_neg hwa, if_neg (by simp), hnext, listAdd_prev, if_pos rfl] at h1
    exact hwa h1.symm

/-- After two wake-ups or more no waiter is in its ready list. -/
lemma Lists.wake_many (hl : Lists allHeads k Q) (hw : IsWait w) (hq : Q w = t :: ws)
    (hprio : (k.priority t).toNat ≤ 32)
    (hlinks : k'.links = listAdds k.links (.thread t) (activeProc (k.priority t)) (n + 2))
    (hu : u ∈ Q w) : ¬ InReady k' u := by
  obtain ⟨hact, hta, hwa, hnext⟩ := hl.firstWaiter hw hq hprio
  have hself : k'.links.next (.thread t) = .thread t := hlinks ▸ listAdds_next_self hta n
  have hother : ∀ y, y ≠ activeProc (k.priority t) → y ≠ .thread t →
      k'.links.next y = k.links.next y := hlinks ▸ (listAdds_next (n + 1)).2
  rintro ⟨l, hring, hmem⟩
  have hwait := hl.rings.circle w (mem_allHeads hw)
  -- the first waiter, which is its own successor, is not in a circular list of others
  have hout : Node.thread t ∉ activeProc (k'.priority u) :: l := by
    intro h
    exact hring.next_ne ((List.mem_cons.mp h).resolve_left (by simp [activeProc])) hself
  -- but every waiter leads to the head of the wait list, and that to the first waiter
  have hhead : Node.head w ∈ activeProc (k'.priority u) :: l := by
    refine hwait.head_of_closed (S := fun y => y ∈ activeProc (k'.priority u) :: l)
      (thread_mem_map.mpr hu) (List.mem_cons_of_mem _ hmem) fun y hy hyl => ?_
    have hyt : y ≠ .thread t := fun h => hout (h ▸ hyl)
    have hya : y ≠ activeProc (k.priority t) := by
      intro h
      have h1 := hl.rings.eq_of_mem (mem_allHeads hw) hact (List.mem_cons_of_mem _ hy)
        (h ▸ List.mem_cons_self)
      exact hw.ne_activeProc _ h1
    rw [← hother y hya hyt]
    exact hring.next_mem hyl
  have h1 := hring.next_mem hhead
  rw [hother _ hwa (by simp), hnext] at h1
  exact hout h1

/-- **The law after `n` wake-ups of the first waiter**, when `n` is not zero. -/
theorem Lists.wakeLaw_iff (hl : Lists allHeads k Q) (hw : IsWait w) (hq : Q w = t :: ws)
    (hprio : ∀ u ∈ Q w, (k.priority u).toNat ≤ 32)
    (hlinks : k'.links = listAdds k.links (.thread t) (activeProc (k.priority t)) (n + 1))
    (hp : k'.priority = k.priority) : WakeLaw k' w (Q w) (n + 1) ↔ n = 0 ∧ ws = [] := by
  have htq : t ∈ Q w := by rw [hq]; exact List.mem_cons_self
  cases n with
  | zero =>
      obtain ⟨hready, hon⟩ := hl.wake_one hw hq hprio hlinks hp
      have hset : {u | u ∈ Q w ∧ InReady k' u} = {t} := by
        ext u
        simp only [Set.mem_ofPred_eq, Set.mem_singleton_iff]
        constructor
        · exact fun ⟨h1, h2⟩ => (hready u h1).mp h2
        · rintro rfl
          exact ⟨htq, (hready u htq).mpr rfl⟩
      rw [WakeLaw, hset, Set.ncard_singleton, hq]
      constructor
      · rintro ⟨-, h⟩
        refine ⟨rfl, List.eq_nil_iff_forall_not_mem.mpr fun u hu => ?_⟩
        have huq : u ∈ Q w := by rw [hq]; exact List.mem_cons_of_mem _ hu
        have hut : u ≠ t := by
          have hnd := hl.nodup (mem_allHeads hw)
          rw [hq, List.nodup_cons] at hnd
          rintro rfl
          exact hnd.1 hu
        exact hon u (h u (List.mem_cons_of_mem _ hu) (fun h1 => hut ((hready u huq).mp h1)))
      · rintro ⟨-, rfl⟩
        refine ⟨by simp, fun u hu hnot => ?_⟩
        rw [List.mem_singleton] at hu
        exact absurd ((hready u (hu ▸ htq)).mpr hu) hnot
  | succ n =>
      have hset : {u | u ∈ Q w ∧ InReady k' u} = ∅ := by
        ext u
        simp only [Set.mem_ofPred_eq, Set.mem_empty_iff_false, iff_false, not_and]
        exact fun hu => hl.wake_many hw hq (hprio t htq) hlinks hu
      rw [WakeLaw, hset, Set.ncard_empty, hq, List.length_cons]
      constructor
      · rintro ⟨h, -⟩
        omega
      · rintro ⟨h, -⟩
        omega

/-- No wake-ups, or no waiters. -/
lemma Lists.wakeLaw_of_trivial (hl : Lists allHeads k Q) (hw : IsWait w)
    (hprio : ∀ u ∈ Q w, (k.priority u).toNat ≤ 32)
    (h : n = 0 ∧ k'.links = k.links ∧ k'.priority = k.priority ∨ Q w = []) :
    WakeLaw k' w (Q w) n := by
  rcases h with ⟨rfl, hlinks, hp⟩ | h
  · have hset : {u | u ∈ Q w ∧ InReady k' u} = ∅ := by
      ext u
      simp only [Set.mem_ofPred_eq, Set.mem_empty_iff_false, iff_false, not_and, InReady, hlinks,
        hp]
      exact fun hu => hl.not_inReady hw hu (hprio u hu)
    refine ⟨by rw [hset, Set.ncard_empty, Nat.zero_min], fun u hu _ => ?_⟩
    rw [OnList, hlinks]
    exact ⟨_, hl.rings.circle w (mem_allHeads hw), thread_mem_map.mpr hu⟩
  · rw [WakeLaw, h]
    exact ⟨by simp, by simp⟩

/-! ### The posts -/

/-- A post to a semaphore on which a thread waits. -/
lemma semaphorePost_links (hnext : k.links.next (.head (.semaphore s)) = .thread t) :
    ∃ k', k.semaphorePost s = some (k', .ok) ∧
      k'.links = listAdd k.links (.thread t) (activeProc (k.priority t)) ∧
      k'.priority = k.priority := by
  have he : ¬ listEmpty k.links (.head (.semaphore s)) = true := by simp [listEmpty, hnext]
  refine ⟨markWoken (addActive { k with
    counter := Function.update k.counter s (k.counter s + 1) } t) t, ?_, ?_, ?_⟩
  · rw [semaphorePost]
    exact (if_neg he).trans (by rw [hnext]; rfl)
  · rw [markWoken_links]
    rfl
  · rw [markWoken_priority]
    rfl

/-- A successful `mail_post` to a mailbox on which a thread waits. -/
lemma mailPostAll_links {m : Mail} (hnext : k.links.next (.head (.mailbox b)) = .thread t)
    (h : k.mailPostAll b m = some (k', .ok)) :
    k'.links = listAdd k.links (.thread t) (activeProc (k.priority t)) ∧
      k'.priority = k.priority := by
  have he : listEmpty k.links (.head (.mailbox b)) = false := by simp [listEmpty, hnext]
  rw [mailPostAll, mailPost] at h
  cases hm : Mailbox.mailPost (k.mail b) m with
  | none => simp [hm] at h
  | some q =>
      obtain ⟨mb, st⟩ := q
      cases st with
      | ok =>
          simp only [hm, he, hnext, containerOf, Bool.false_eq_true, if_false, Option.map_some,
            Option.some.injEq, Prod.mk.injEq, and_true] at h
          subst h
          rw [mailPostReady, markWoken_links, markWoken_priority]
          exact ⟨rfl, rfl⟩
      | err | errBadParam | errTimeout => simp [hm] at h

/-- The wait list begins with the same thread after a post. -/
lemma next_of_listAdd {A : Node} (hwa : Node.head w ≠ A)
    (hlinks : k'.links = listAdd k.links (.thread t) A) :
    k'.links.next (.head w) = k.links.next (.head w) := by
  rw [hlinks, listAdd_next, if_neg hwa, if_neg (by simp)]

/-- `n` posts to a semaphore on which a thread waits wake that thread `n` times. -/
lemma semaphorePosts_links {A : Node} (n : ℕ) (hwa : Node.head (.semaphore s) ≠ A)
    (hnext : k.links.next (.head (.semaphore s)) = .thread t)
    (hA : activeProc (k.priority t) = A) :
    ∃ k', k.semaphorePosts s n = some k' ∧ k'.links = listAdds k.links (.thread t) A n ∧
      k'.priority = k.priority := by
  induction n generalizing k with
  | zero => exact ⟨k, rfl, rfl, rfl⟩
  | succ n ih =>
      obtain ⟨k₁, hk₁, hlinks, hp⟩ := semaphorePost_links hnext
      rw [hA] at hlinks
      obtain ⟨k', hk', hlinks', hp'⟩ := ih (k := k₁)
        ((next_of_listAdd hwa hlinks).trans hnext) (by rw [hp, hA])
      refine ⟨k', by rw [semaphorePosts, hk₁]; exact hk', ?_, hp'.trans hp⟩
      rw [hlinks', hlinks, listAdds_listAdd]

/-- Successful calls of `mail_post` wake the thread as often. -/
lemma mailPosts_links {A : Node} {ms : List Mail} (hwa : Node.head (.mailbox b) ≠ A)
    (hnext : k.links.next (.head (.mailbox b)) = .thread t)
    (hA : activeProc (k.priority t) = A) (h : k.mailPosts b ms = some k') :
    k'.links = listAdds k.links (.thread t) A ms.length ∧ k'.priority = k.priority := by
  induction ms generalizing k with
  | nil =>
      rw [mailPosts, Option.some.injEq] at h
      subst h
      exact ⟨rfl, rfl⟩
  | cons m ms ih =>
      rw [mailPosts] at h
      split at h
      · rename_i k₁ hk₁
        obtain ⟨hlinks, hp⟩ := mailPostAll_links hnext hk₁
        rw [hA] at hlinks
        obtain ⟨hlinks', hp'⟩ := ih ((next_of_listAdd hwa hlinks).trans hnext)
          (by rw [hp, hA]) h
        exact ⟨by rw [hlinks', hlinks, listAdds_listAdd, List.length_cons], hp'.trans hp⟩
      · simp at h

/-- Posts to a semaphore on which no thread waits. -/
lemma semaphorePosts_of_nil (n : ℕ) (he : listEmpty k.links (.head (.semaphore s)) = true) :
    ∃ k', k.semaphorePosts s n = some k' ∧ k'.priority = k.priority := by
  induction n generalizing k with
  | zero => exact ⟨k, rfl, rfl⟩
  | succ n ih =>
      obtain ⟨k', hk', h⟩ := ih (k := { k with
        counter := Function.update k.counter s (k.counter s + 1) }) he
      exact ⟨k', by rw [semaphorePosts, semaphorePost_of_nil he]; exact hk', h⟩

lemma mailPosts_priority {ms : List Mail} (h : k.mailPosts b ms = some k') :
    k'.priority = k.priority := by
  induction ms generalizing k with
  | nil =>
      rw [mailPosts, Option.some.injEq] at h
      rw [← h]
  | cons m ms ih =>
      rw [mailPosts] at h
      split at h
      · rename_i k₁ hk₁
        rw [ih h]
        rw [mailPostAll, Option.map_eq_some_iff] at hk₁
        obtain ⟨⟨k₂, st, pick⟩, hr, hk₁⟩ := hk₁
        obtain ⟨⟨mail, rfl⟩, -⟩ := mailPost_eq_some hr
        cases pick with
        | none =>
            simp only [Prod.mk.injEq] at hk₁
            rw [← hk₁.1]
        | some t =>
            simp only [Prod.mk.injEq] at hk₁
            rw [← hk₁.1, mailPostReady, markWoken_priority]
            rfl
      · simp at h

/-- The priorities of waiters are in range. -/
lemma Inv.priority_le_of_wait (hi : Inv allHeads k Q) (hw : IsWait w) (hu : u ∈ Q w) :
    (k.priority u).toNat ≤ 32 := by
  obtain ⟨T, hT⟩ := (hi.home_wait_iff hw).mp ((hi.homes u w (mem_allHeads hw)).mp hu)
  exact (hi.thread u).priority_le ((hi.thread u).waiting _ _ _ hT).2.2

/-- **Consecutive posts.** From a state with well-formed lists, in which the threads `Q w`
wait on a semaphore or a mailbox `w`, a number of consecutive posts makes as many of them
ready as it should, and leaves the others waiting, if and only if there is no post, or no
waiter, or one post and one waiter. -/
theorem posts_wakeLaw_iff (hl : Lists allHeads k Q)
    (hprio : ∀ w, IsWait w → ∀ u ∈ Q w, (k.priority u).toNat ≤ 32) :
    (∀ s n, ∃ k', k.semaphorePosts s n = some k' ∧
      (WakeLaw k' (.semaphore s) (Q (.semaphore s)) n ↔
        n = 0 ∨ Q (.semaphore s) = [] ∨ n = 1 ∧ (Q (.semaphore s)).length = 1)) ∧
    ∀ b ms k', k.mailPosts b ms = some k' →
      (WakeLaw k' (.mailbox b) (Q (.mailbox b)) ms.length ↔
        ms.length = 0 ∨ Q (.mailbox b) = [] ∨ ms.length = 1 ∧ (Q (.mailbox b)).length = 1) := by
  have key : ∀ (w : Head) (n : ℕ) (k' : Kernel), IsWait w → k'.priority = k.priority →
      (∀ t ws, Q w = t :: ws →
        k'.links = listAdds k.links (.thread t) (activeProc (k.priority t)) n) →
      (WakeLaw k' w (Q w) n ↔ n = 0 ∨ Q w = [] ∨ n = 1 ∧ (Q w).length = 1) := by
    intro w n k' hw hp hlinks
    cases hq : Q w with
    | nil =>
        have h : WakeLaw k' w (Q w) n := hl.wakeLaw_of_trivial hw (hprio w hw) (Or.inr hq)
        rw [hq] at h
        simp [h]
    | cons t ws =>
        have hlinks := hlinks t ws hq
        cases n with
        | zero =>
            have h := hl.wakeLaw_of_trivial hw (hprio w hw) (Or.inl ⟨rfl, hlinks, hp⟩)
            rw [hq] at h
            simp [h]
        | succ n =>
            have h := hl.wakeLaw_iff hw hq (hprio w hw) hlinks hp
            rw [hq] at h
            rw [h]
            simp
  have hnext : ∀ w, IsWait w → ∀ t ws, Q w = t :: ws →
      Node.head w ≠ activeProc (k.priority t) ∧ k.links.next (.head w) = .thread t := by
    intro w hw t ws hq
    have htq : t ∈ Q w := by rw [hq]; exact List.mem_cons_self
    exact (hl.firstWaiter hw hq (hprio w hw t htq)).2.2
  refine ⟨fun s n => ?_, fun b ms k' h => ?_⟩
  · cases hq : Q (.semaphore s) with
    | nil =>
        have he := (hl.listEmpty_iff (mem_allHeads (w := .semaphore s) trivial)).mpr hq
        obtain ⟨k', hk', hp⟩ := semaphorePosts_of_nil n he
        refine ⟨k', hk', hq ▸ key (.semaphore s) n k' trivial hp fun t ws h => ?_⟩
        rw [hq] at h
        simp at h
    | cons t ws =>
        obtain ⟨hwa, hne⟩ := hnext (.semaphore s) trivial t ws hq
        obtain ⟨k', hk', hlinks, hp⟩ := semaphorePosts_links n hwa hne rfl
        refine ⟨k', hk', hq ▸ key (.semaphore s) n k' trivial hp fun t' ws' h => ?_⟩
        rw [hq, List.cons.injEq] at h
        rw [← h.1]
        exact hlinks
  · refine key (.mailbox b) _ k' trivial (mailPosts_priority h) fun t ws hq => ?_
    obtain ⟨hwa, hne⟩ := hnext (.mailbox b) trivial t ws hq
    exact (mailPosts_links hwa hne rfl h).1

end Posts

/-- Two threads block on a semaphore, and the idle thread runs. -/
def blockTwo : List Act :=
  [.labour 1 1 64 5 0, .labour 2 1 64 6 0, .shift 0, .semaphoreWait 0 0, .shift 0,
    .semaphoreWait 0 0, .shift 0]

/-- The state it leads to is one of the invariant, with the two threads on the wait list. -/
lemma inv_blockTwo : ∃ k Q, Run.exec step (startup reset 0) blockTwo = some k ∧
    Inv allHeads k Q ∧ Q (.semaphore 0) = [2, 1] := by
  obtain ⟨k, hk⟩ : ∃ k, Run.exec step (startup reset 0) blockTwo = some k := ⟨_, rfl⟩
  have hstart : NoneWoken (startup reset 0) :=
    noneWoken_startup atReset_reset (fun _ _ => ⟨rfl, rfl⟩) 0
  have hgood : Run.Along step (fun k a _ => ¬ Wakes k a) (startup reset 0) blockTwo := by
    refine fun _ _ => ⟨id, fun _ _ => ⟨id, fun _ _ => ⟨id, fun _ _ => ⟨id, fun _ _ => ⟨id,
      fun _ _ => ⟨id, fun _ _ => ⟨id, trivial⟩⟩⟩⟩⟩⟩⟩
  obtain ⟨⟨Q, hi⟩, -⟩ : NoneWoken k := Run.invariant_of_exec
    (fun _ _ _ hn ha hs => (NoneWoken.step hn ha hs).1) hstart hgood hk
  refine ⟨k, Q, hk, hi, ?_⟩
  have hnext : (k.links.next (.head (.semaphore 0)), k.links.next (.thread 2),
      k.links.next (.thread 1)) = (.thread 2, .thread 1, .head (.semaphore 0)) :=
    Run.eq_of_exec (f := fun k => (k.links.next (.head (.semaphore 0)), k.links.next (.thread 2),
      k.links.next (.thread 1))) hk rfl
  have hprev : (k.links.prev (.head (.semaphore 0)), k.links.prev (.thread 2),
      k.links.prev (.thread 1)) = (.thread 1, .head (.semaphore 0), .thread 2) :=
    Run.eq_of_exec (f := fun k => (k.links.prev (.head (.semaphore 0)), k.links.prev (.thread 2),
      k.links.prev (.thread 1))) hk rfl
  simp only [Prod.mk.injEq] at hnext hprev
  have hring : k.links.Circle (.head (.semaphore 0)) ([2, 1].map Node.thread) :=
    ⟨by simp [Linked, hnext, hprev], by decide⟩
  have hcircle := hi.lists.rings.circle (.semaphore 0) (mem_allHeads trivial)
  exact List.map_injective_iff.mpr thread_injective (hcircle.unique hring)

/-- One post to a semaphore on which two threads wait. -/
theorem posts_wakeLaw_iff_blockTwo : ∃ (k : Kernel) (Q : Head → List ThreadId),
    Run.exec step (startup reset 0) blockTwo = some k ∧ Q (.semaphore 0) = [2, 1] ∧ ∃ k', k.semaphorePosts 0 1 = some k' ∧
      (WakeLaw k' (.semaphore 0) (Q (.semaphore 0)) 1 ↔
        (1 : ℕ) = 0 ∨ Q (.semaphore 0) = [] ∨ (1 : ℕ) = 1 ∧ (Q (.semaphore 0)).length = 1) := by
  obtain ⟨k, Q, hk, hi, hq⟩ := inv_blockTwo
  exact ⟨k, Q, hk, hq,
    (posts_wakeLaw_iff hi.lists fun _ hw _ hu => hi.priority_le_of_wait hw hu).1 0 1⟩

/-- Two posts to a semaphore on which two threads wait do not make both ready. -/
theorem not_wakeLaw_blockTwo : ∃ k k', Run.exec step (startup reset 0) blockTwo = some k ∧
    k.counter 0 = 0 ∧ k.point 1 = .waiting (.semaphore 0) 0 false ∧
    k.point 2 = .waiting (.semaphore 0) 0 false ∧ k.semaphorePosts 0 2 = some k' ∧
    ¬ WakeLaw k' (.semaphore 0) [2, 1] 2 := by
  obtain ⟨k, Q, hk, hi, hq⟩ := inv_blockTwo
  have hprio : ∀ u ∈ Q (.semaphore 0), (k.priority u).toNat ≤ 32 :=
    fun u hu => hi.priority_le_of_wait (w := .semaphore 0) trivial hu
  obtain ⟨-, -, hwa, hnext⟩ := hi.lists.firstWaiter (w := .semaphore 0) trivial hq
    (hprio 2 (by simp [hq]))
  obtain ⟨k', hk', hlinks, hp⟩ := semaphorePosts_links 2 hwa hnext rfl
  refine ⟨k, k', hk, Run.eq_of_exec (f := fun k => k.counter 0) hk rfl,
    Run.eq_of_exec (f := fun k => k.point 1) hk rfl,
    Run.eq_of_exec (f := fun k => k.point 2) hk rfl, hk', fun h => ?_⟩
  rw [← hq, hi.lists.wakeLaw_iff (w := .semaphore 0) trivial hq hprio hlinks hp] at h
  simp at h

end Kernel

end ChinaOS
