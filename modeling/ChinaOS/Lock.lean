import ChinaOS.Kernel
import ChinaOS.Run

/-!
The lock of the allocator: `malloc` and `free` of `library/malloc/malloc.c` as the threads
that run them see each other.

Both calls wait on the semaphore `Lock` without a time limit, work on the heap, and post
`Lock`. Neither looks at what `semaphore_wait` returns. A thread is `inside` from the return
of its `semaphore_wait` to its `semaphore_post`, and makes no other call of the kernel in
between. What it does to the heap meanwhile is the subject of `ChinaOS.Malloc`.

* `step`: a step of the kernel, with the threads that are inside.
* `exclusive_iff_token`: along a run at most one thread is inside, and the counter is at most
  one, exactly when no waiter returns from `semaphore_wait` without a token.
-/

namespace ChinaOS

open Ring Kernel

namespace Lock

/-- `Lock`. -/
def lock : ℕ := 0

/-- The kernel, and the threads that are between `semaphore_wait(&Lock, 0)` and
`semaphore_post(&Lock)`. -/
structure Heap where
  kernel : Kernel
  inside : List ThreadId

/-- `mallocor_setup`, as far as it makes the lock. -/
def mallocorSetup (k : Kernel) : Heap where
  kernel := { k with
    counter := Function.update k.counter lock 1
    links := initListHead k.links (.head (.semaphore lock)) }
  inside := []

/-- The running thread has been blocked in `semaphore_wait(&Lock, 0)`. -/
def waitsOnLock (k : Kernel) : Bool :=
  match k.point k.osThis with
  | .waiting h _ _ => decide (h = .semaphore lock)
  | _ => false

/-- A step of the kernel. `Lock` is waited on and posted by `malloc` and `free` only: a thread
waits on it, without a time limit, when it is not inside, and posts it when it is; then it
makes no call that may suspend it. -/
def step (h : Heap) (a : Act) : Option Heap :=
  let t := h.kernel.osThis
  match a with
  | .semaphoreWait s Timeout =>
      if t ∈ h.inside ∨ s = lock ∧ Timeout ≠ 0 then none
      else
        (Kernel.step h.kernel a).map fun k =>
          ⟨k, if s = lock ∧ h.kernel.counter lock ≠ 0 then t :: h.inside else h.inside⟩
  | .semaphorePost s =>
      if s = lock then
        if t ∈ h.inside then (Kernel.step h.kernel a).map fun k => ⟨k, h.inside.erase t⟩
        else none
      else (Kernel.step h.kernel a).map fun k => ⟨k, h.inside⟩
  | .waitResumed =>
      (Kernel.step h.kernel a).map fun k =>
        ⟨k, if waitsOnLock h.kernel then t :: h.inside else h.inside⟩
  | .labour .. | .exit | .sleep _ | .mailWait .. =>
      if t ∈ h.inside then none else (Kernel.step h.kernel a).map fun k => ⟨k, h.inside⟩
  | _ => (Kernel.step h.kernel a).map fun k => ⟨k, h.inside⟩

/-- **Mutual exclusion**: at most one thread is inside, and the counter is at most one. -/
def Exclusive (h : Heap) : Prop :=
  (∀ t ∈ h.inside, ∀ u ∈ h.inside, t = u) ∧ (h.kernel.counter lock).toNat ≤ 1

/-- A waiter on the lock runs again when there is no token: `semaphore_wait` returns
`ERR_TIMEOUT`, and the thread goes on as if it had the lock. -/
def NoToken (h : Heap) (a : Act) : Prop :=
  a = .waitResumed ∧ waitsOnLock h.kernel = true ∧ h.kernel.counter lock = 0

/-- The token is the lock's or that of one thread inside. -/
structure Inv (h : Heap) : Prop where
  token : (h.kernel.counter lock).toNat + h.inside.length = 1
  user : ∀ t ∈ h.inside, h.kernel.point t = .user

section Steps

variable {h h' : Heap} {a : Act} {k' : Kernel}

lemma waitsOnLock_iff {k : Kernel} : waitsOnLock k = true ↔
    ∃ Timeout woken, k.point k.osThis = .waiting (.semaphore lock) Timeout woken := by
  rw [waitsOnLock]
  cases k.point k.osThis with
  | waiting w T woken => simp
  | user | sleeping | exited => simp

lemma Inv.exclusive (hi : Inv h) : Exclusive h := by
  have htoken := hi.token
  refine ⟨fun t ht u hu => ?_, by omega⟩
  obtain ⟨v, hv⟩ := List.length_eq_one_iff.mp
    (show h.inside.length = 1 by have := List.length_pos_of_mem ht; omega)
  rw [hv, List.mem_singleton] at ht hu
  rw [ht, hu]

lemma inv_mallocorSetup (k : Kernel) : Inv (mallocorSetup k) :=
  ⟨by simp [mallocorSetup], by simp [mallocorSetup]⟩

/-- A step that leaves the lock alone, made while no thread inside suspends itself. -/
lemma Inv.other (hi : Inv h) (hs : Kernel.step h.kernel a = some k')
    (ha : ¬ Counts h.kernel lock a) (hsus : h.kernel.osThis ∈ h.inside → ¬ a.Suspends) :
    Inv ⟨k', h.inside⟩ := by
  have hf := step_frame hs
  refine ⟨?_, fun t ht => hf.user t (hi.user t ht) fun htt => hsus (htt ▸ ht)⟩
  rw [hf.counter lock ha]
  exact hi.token

/-- The counter of the lock after a token is taken. -/
lemma toNat_sub_one {c : Int32U} (hc : c ≠ 0) : (c - 1).toNat = c.toNat - 1 := by
  have h1 : c.toNat ≠ 0 := fun h => hc (BitVec.eq_of_toNat_eq h)
  rw [BitVec.toNat_sub_of_le]
  · rfl
  · rw [BitVec.le_def, show (1 : Int32U).toNat = 1 from rfl]
    omega

/-- `semaphore_wait(&Lock, 0)`. -/
lemma Inv.wait (hi : Inv h) {s : ℕ} {Timeout : Int32U}
    (hs : step h (.semaphoreWait s Timeout) = some h') : Inv h' := by
  simp only [step, Option.ite_none_left_eq_some, Option.map_eq_some_iff] at hs
  obtain ⟨hout, k', hk, rfl⟩ := hs
  rw [not_or] at hout
  by_cases hlock : s = lock
  · subst hlock
    have hf := step_frame hk
    simp only [Kernel.step, Option.ite_none_right_eq_some, Option.some.injEq] at hk
    obtain ⟨hu, rfl⟩ := hk
    by_cases hc : h.kernel.counter lock = 0
    · have hcount : (h.kernel.semaphoreWait lock Timeout).1.counter = h.kernel.counter := by
        rw [semaphoreWait, if_neg (by simpa using hc)]
        rfl
      refine ⟨by simpa [hc, hcount] using hi.token, fun t ht => ?_⟩
      simp only [hc, ne_eq, not_true_eq_false, and_false, if_false] at ht
      exact hf.user t (hi.user t ht) fun htt => absurd (htt ▸ ht) hout.1
    · have hwait : (h.kernel.semaphoreWait lock Timeout).1 = { h.kernel with
          counter := Function.update h.kernel.counter lock (h.kernel.counter lock - 1) } := by
        rw [semaphoreWait, if_pos hc]
      have htoken := hi.token
      have h0 : (h.kernel.counter lock).toNat ≠ 0 := fun h => hc (BitVec.eq_of_toNat_eq h)
      refine ⟨?_, fun t ht => ?_⟩
      · simp only [hwait, hc, ne_eq, not_false_eq_true, and_self, if_true, List.length_cons,
          Function.update_self, toNat_sub_one hc]
        omega
      · simp only [hc, ne_eq, not_false_eq_true, and_self, if_true, List.mem_cons] at ht
        rw [hwait]
        rcases ht with rfl | ht
        · exact hu
        · exact hi.user t ht
  · have hcounts : ¬ Counts h.kernel lock (.semaphoreWait s Timeout) := hlock
    simpa [hlock] using hi.other hk hcounts fun hin => absurd hin hout.1

/-- `semaphore_post(&Lock)`. -/
lemma Inv.post (hi : Inv h) {s : ℕ} (hs : step h (.semaphorePost s) = some h') : Inv h' := by
  simp only [step] at hs
  by_cases hlock : s = lock
  · subst hlock
    simp only [if_true, Option.ite_none_right_eq_some, Option.map_eq_some_iff] at hs
    obtain ⟨hin, k', hk, rfl⟩ := hs
    have hf := step_frame hk
    have htoken := hi.token
    have hlen := List.length_pos_of_mem hin
    have hcount : k'.counter lock = h.kernel.counter lock + 1 := by
      simp only [Kernel.step, Option.map_eq_some_iff, semaphorePost] at hk
      obtain ⟨r, hr, rfl⟩ := hk
      split_ifs at hr
      · rw [Option.some.injEq] at hr
        subst hr
        exact Function.update_self lock _ h.kernel.counter
      · rw [Option.map_eq_some_iff] at hr
        obtain ⟨u, -, rfl⟩ := hr
        rw [markWoken_counter]
        exact Function.update_self lock _ h.kernel.counter
    have hzero : h.kernel.counter lock = 0 := BitVec.eq_of_toNat_eq (by simp; omega)
    refine ⟨?_, fun t ht => hf.user t (hi.user t (List.mem_of_mem_erase ht)) fun _ => id⟩
    rw [hcount, hzero, List.length_erase_of_mem hin, show (0 + 1 : Int32U).toNat = 1 from rfl]
    omega
  · simp only [hlock, if_false, Option.map_eq_some_iff] at hs
    obtain ⟨k', hk, rfl⟩ := hs
    exact hi.other hk hlock fun _ => id

/-- The kernel's part of a waiter's return from `semaphore_wait(&Lock, 0)`. -/
lemma counter_waitResumed (hwait : waitsOnLock h.kernel = true)
    (hk : Kernel.step h.kernel .waitResumed = some k') :
    k'.point h.kernel.osThis = .user ∧
      (h.kernel.counter lock ≠ 0 → k'.counter lock = h.kernel.counter lock - 1) := by
  obtain ⟨T, woken, hp⟩ := waitsOnLock_iff.mp hwait
  simp only [Kernel.step, Option.ite_none_right_eq_some, hp, Option.some.injEq] at hk
  obtain ⟨-, rfl⟩ := hk
  rw [semaphoreWaitResumed]
  split_ifs with hc
  · exact ⟨Function.update_self .., fun hne => absurd hc hne⟩
  · exact ⟨Function.update_self .., fun _ => Function.update_self lock _ h.kernel.counter⟩

/-- A waiter on the lock runs again. -/
lemma Inv.resumed (hi : Inv h) (ha : ¬ NoToken h .waitResumed)
    (hs : step h .waitResumed = some h') : Inv h' := by
  simp only [step, Option.map_eq_some_iff] at hs
  obtain ⟨k', hk, rfl⟩ := hs
  by_cases hwait : waitsOnLock h.kernel = true
  · have hc : h.kernel.counter lock ≠ 0 := fun hc => ha ⟨rfl, hwait, hc⟩
    have hf := step_frame hk
    obtain ⟨hu, hcount⟩ := counter_waitResumed hwait hk
    have htoken := hi.token
    have h0 : (h.kernel.counter lock).toNat ≠ 0 := fun h => hc (BitVec.eq_of_toNat_eq h)
    refine ⟨?_, fun t ht => ?_⟩
    · simp only [hwait, if_true, List.length_cons, hcount hc, toNat_sub_one hc]
      omega
    · simp only [hwait, if_true, List.mem_cons] at ht
      rcases ht with rfl | ht
      · exact hu
      · exact hf.user t (hi.user t ht) fun _ => id
  · have hcounts : ¬ Counts h.kernel lock .waitResumed := fun hc =>
      hwait (waitsOnLock_iff.mpr hc)
    simpa [hwait] using hi.other hk hcounts fun _ => id

/-- **A step in which no waiter returns without a token keeps the invariant.** -/
theorem Inv.step (hi : Inv h) (ha : ¬ NoToken h a) (hs : step h a = some h') : Inv h' := by
  cases a with
  | semaphoreWait s Timeout => exact hi.wait hs
  | semaphorePost s => exact hi.post hs
  | waitResumed => exact hi.resumed ha hs
  | labour | exit | sleep | mailWait =>
      simp only [Lock.step, Option.ite_none_left_eq_some, Option.map_eq_some_iff] at hs
      obtain ⟨hout, k', hk, rfl⟩ := hs
      exact hi.other hk id fun hin => absurd hin hout
  | sleepResumed | mailPost | mailPostReady | systimer | shift =>
      simp only [Lock.step, Option.map_eq_some_iff] at hs
      obtain ⟨k', hk, rfl⟩ := hs
      exact hi.other hk id fun _ => id

/-- A waiter that returns without a token is inside together with the thread that has it. -/
lemma Inv.not_exclusive (hi : Inv h) (ha : NoToken h a) (hs : Lock.step h a = some h') :
    ¬ Exclusive h' := by
  obtain ⟨rfl, hwait, hc⟩ := ha
  simp only [Lock.step, Option.map_eq_some_iff] at hs
  obtain ⟨k', -, rfl⟩ := hs
  rintro ⟨hone, -⟩
  have htoken := hi.token
  rw [hc, show (0 : Int32U).toNat = 0 from rfl, Nat.zero_add] at htoken
  obtain ⟨u, hu⟩ := List.length_eq_one_iff.mp htoken
  have hne : h.kernel.osThis ≠ u := by
    rintro rfl
    obtain ⟨T, woken, hp⟩ := waitsOnLock_iff.mp hwait
    rw [hi.user _ (by rw [hu]; exact List.mem_singleton_self _)] at hp
    simp at hp
  exact hne (hone _ (by simp [hwait]) u (by simp [hwait, hu]))

end Steps

/-- **Mutual exclusion of the allocator's lock.** A run of any threads from `mallocor_setup`
keeps at most one thread inside `malloc` and `free`, and the counter of the lock at most one,
if and only if no waiter on the lock runs again at a moment when the counter is zero. -/
theorem exclusive_iff_token (k : Kernel) (as : List Act) :
    Run.Along step (fun _ _ h' => Exclusive h') (mallocorSetup k) as ↔
      Run.Along step (fun h a _ => ¬ NoToken h a) (mallocorSetup k) as :=
  Run.along_iff_of_invariant (fun _ _ _ hi ha hs => ⟨hi.step ha hs, (hi.step ha hs).exclusive⟩)
    (fun _ _ _ hi ha hs => hi.not_exclusive ha hs) (inv_mallocorSetup k)

/-- The second thread of equal priority is made ready by a post, the first takes the lock
again, and an interrupt switches to the second.

Thread 3 sleeps all the while, and its timer's interrupt is the one that switches. -/
def barge : List Act :=
  [.labour 1 1 64 5 0, .labour 2 1 64 5 0, .labour 3 1 64 5 0,
    -- 3 and 2 sleep, 1 takes the lock
    .shift 0, .sleep 9, .shift 0, .sleep 5, .shift 0, .semaphoreWait lock 0,
    -- 2 wakes, runs and blocks on the lock
    .systimer 2, .shift 0, .sleepResumed, .semaphoreWait lock 0, .shift 0,
    -- 1 posts the lock and takes it again
    .semaphorePost lock, .semaphoreWait lock 0,
    -- 3 wakes, runs and sleeps again, and 2 is switched to
    .systimer 3, .shift 0, .sleepResumed, .sleep 9, .shift 0]

/-- Thread 2 returns from `semaphore_wait` with `ERR_TIMEOUT`, and both threads are inside. -/
theorem not_exclusive_barge :
    ¬ Run.Along step (fun _ _ h' => Exclusive h') (mallocorSetup (startup reset 0))
      (barge ++ [.waitResumed]) := by
  intro h
  obtain ⟨h', hexec⟩ : ∃ h', Run.exec step (mallocorSetup (startup reset 0))
      (barge ++ [.waitResumed]) = some h' := ⟨_, rfl⟩
  have hinside : h'.inside = [2, 1] := Run.eq_of_exec (f := fun h => h.inside) hexec rfl
  obtain ⟨-, -, hone, -⟩ := h.of_append hexec
  rw [hinside] at hone
  exact absurd (hone 2 (by simp) 1 (by simp)) (by decide)

end Lock

end ChinaOS
