import ChinaOS.TimerService
import ChinaOS.ChangePriority

/-!
The kernel on its timer service.

`ChinaOS.Kernel` has a timer that is armed or not and may expire at any moment. Here each
critical section makes the calls of `OS_timer_add` and `OS_timer_del` that the source has in
it, the hardware ticks, and `systimer_exception` makes ready the threads whose timers the
ring yields.

* `TimedKernel`: the kernel and the timer service, and `step`, by which critical sections,
  ticks and interrupts happen in any order.
* `timed_refines`: along every timely run the kernel makes the steps of `Kernel.step`, with
  timers that expire when they are due.
* `sleep_on_time`: a thread that sleeps is made ready when its time has passed, and `sleep`
  does not return before.
-/

namespace ChinaOS

open Ring Run

/-- The offset of `Timer` in a `THREAD`. -/
def offsetTimer : ℕ := 20

/-- `&pThread->Timer`. -/
def timerOf (pThread : ThreadId) : Int32U := BitVec.ofNat 32 (pThread + offsetTimer)

/-- `container_of(pTimer, THREAD, Timer)`. -/
def threadOf (pTimer : Int32U) : ThreadId := (pTimer - BitVec.ofNat 32 offsetTimer).toNat

/-- The control block lies in memory, as far as its `Timer` of three words reaches. -/
def Placed (t : ℕ) : Prop := t + offsetTimer + 12 ≤ 2 ^ 32

section Placed

variable {t u : ℕ}

lemma toNat_timerOf (h : Placed t) : (timerOf t).toNat = t + offsetTimer := by
  have h : t + 20 + 12 ≤ 2 ^ 32 := h
  rw [timerOf, offsetTimer, BitVec.toNat_ofNat, Nat.mod_eq_of_lt (by omega)]

lemma timerOf_ne_zero (h : Placed t) : timerOf t ≠ 0 := by
  intro h0
  have := toNat_timerOf h
  rw [h0] at this
  simp [offsetTimer] at this

lemma timerOf_inj (ht : Placed t) (hu : Placed u) (h : timerOf t = timerOf u) : t = u := by
  have := toNat_timerOf ht
  rw [h, toNat_timerOf hu] at this
  exact (Nat.add_right_cancel this).symm

lemma threadOf_timerOf (h : Placed t) : threadOf (timerOf t) = t := by
  have h : t + 20 + 12 ≤ 2 ^ 32 := h
  rw [threadOf, timerOf, BitVec.ofNat_add, BitVec.add_sub_cancel, BitVec.toNat_ofNat,
    Nat.mod_eq_of_lt (by omega)]

end Placed

/-- The kernel and the timer service under it. -/
structure TimedKernel where
  kernel : Kernel
  service : Ticker.Service

namespace TimedKernel

open Ticker (Service)

/-- A critical section or a switch, a tick of the hardware, or `systimer_exception`. -/
inductive Event where
  | kernel (a : Kernel.Act)
  | tick
  | exception
  deriving DecidableEq

/-- The call of the timer service that the critical section makes. -/
def timerCall (k : Kernel) : Kernel.Act → Option Ticker.Event
  | .exit | .sleepResumed => some (.del (timerOf k.osThis))
  | .sleep Time => if Time = 0 then none else some (.add (timerOf k.osThis) Time)
  | .semaphoreWait s Timeout =>
      if k.counter s = 0 ∧ Timeout ≠ 0 then some (.add (timerOf k.osThis) Timeout) else none
  | .mailWait b Timeout =>
      if (k.mail b).read = (k.mail b).write ∧ Timeout ≠ 0 then
        some (.add (timerOf k.osThis) Timeout)
      else none
  | .waitResumed =>
      match k.point k.osThis with
      | .waiting _ Timeout _ =>
          if Timeout ≠ 0 then some (.del (timerOf k.osThis)) else none
      | _ => none
  | _ => none

/-- The words of one `TIMER` are set to zero. -/
def clearTimer (s : Service) (pTimer : Int32U) : Service :=
  { s with ticker := { s.ticker with
      links := (s.ticker.links.setNext pTimer 0).setPrev pTimer 0
      time := Function.update s.ticker.time pTimer 0 } }

/-- The timer service after the call, if there is one. -/
def call (s : TimedKernel) : Option Ticker.Event → Option Service
  | none => some s.service
  | some e => s.service.step e

/-- What the critical section does to the timer service: `labour` clears the new control block
with `memset`, the others make their call. -/
def timers (s : TimedKernel) : Kernel.Act → Option Service
  | .labour block pProcess StackDepth Priority pStackTop =>
      some <| if (s.kernel.labour (some block) pProcess StackDepth Priority pStackTop).2 = none
        then s.service else clearTimer s.service (timerOf block)
  | a => s.call (timerCall s.kernel a)

/-- One event. Timers expire by `systimer_exception` only, which makes ready the threads of the
timers that it meets. -/
def step (s : TimedKernel) : Event → Option TimedKernel
  | .kernel (.systimer _) => none
  | .kernel a => (s.kernel.step a).bind fun kernel =>
      (s.timers a).map fun service => ⟨kernel, service⟩
  | .tick => (s.service.step .tick).map fun service => { s with service }
  | .exception =>
      if s.service.ticker.t0ir then
        s.service.ticker.systimerException.map fun r =>
          ⟨(r.1.map threadOf).foldl Kernel.systimerException s.kernel, s.service.served r.1 r.2⟩
      else none

/-- The system at `startup`. -/
def boot (k : Kernel) (pStackTop : Int32U) : TimedKernel := ⟨k.startup pStackTop, Ticker.start⟩

/-! ### Timely runs -/

/-- What the callers keep to: a new control block lies in memory, no delay is as long as half a
turn of the counter, and nobody waits with a time limit. -/
def Unlimited : Kernel.Act → Prop
  | .labour block .. => Placed block
  | .sleep Time => Time.toNat < 2 ^ 31
  | .semaphoreWait _ Timeout | .mailWait _ Timeout => Timeout = 0
  | _ => True

/-- The events of a timely run: a match is served before anything else happens, no waiter is
woken, a thread whose time has passed runs again before half a turn of the counter, and not in
the tick in which the timer behind its own in the ring expires. -/
def Timely (s : TimedKernel) : Event → Prop
  | .kernel a => s.service.ticker.t0ir = false ∧ ¬ Kernel.Wakes s.kernel a ∧ Unlimited a ∧
      ∀ e ∈ timerCall s.kernel a, s.service.Careful e
  | .tick => s.service.ticker.t0ir = false ∧ s.service.Owners .tick
  | .exception => True

/-- A thread's timer as the kernel sees it and as the timer service does. -/
def Agrees : TimerStatus → Option Ticker.Entry → Prop
  | .unarmed, none => True
  | .armed, some e => e.Pending
  | .fired, some e => ¬ e.Pending
  | _, _ => False

/-- The invariants of the timer service under timely events. -/
structure ServiceInv (s : Service) : Prop where
  prompt : ∃ Q, Service.PromptInv s Q
  careful : ∃ Q, Service.CarefulInv s Q

/-- The timers in use are those of the threads that sleep. -/
structure TimersInv (k : Kernel) (s : Service) : Prop where
  placed : ∀ t, k.Allocated t → Placed t
  sleeping : ∀ t, k.timer t ≠ .unarmed → t ∈ k.osLiveList ∧ k.point t = .sleeping
  agrees : ∀ t, Placed t → Agrees (k.timer t) (s.entry (timerOf t))
  owned : ∀ p, s.entry p ≠ none → ∃ t, Placed t ∧ timerOf t = p

/-- The invariant of timely runs. -/
structure TimedInv (s : TimedKernel) : Prop extends TimersInv s.kernel s.service where
  lists : ∃ Q, Kernel.Inv Kernel.allHeads s.kernel Q
  service : ServiceInv s.service

section TimersInv

variable {k k' : Kernel} {s s' : Service} {t : ThreadId} {Q : List Int32U} {p : Int32U}

lemma agrees_none {st : TimerStatus} : Agrees st none ↔ st = .unarmed := by
  cases st <;> simp [Agrees]

namespace TimersInv

lemma unarmed (h : TimersInv k s) (hp : k.point t ≠ .sleeping) : k.timer t = .unarmed := by
  by_contra hne
  exact hp (h.sleeping t hne).2

lemma entry_none (h : TimersInv k s) (ht : Placed t) (hu : k.timer t = .unarmed) :
    s.entry (timerOf t) = none := by
  have := h.agrees t ht
  rw [hu] at this
  cases he : s.entry (timerOf t) with
  | none => rfl
  | some e =>
      rw [he] at this
      exact this.elim

/-- A timer in use is that of a live thread. -/
lemma live (h : TimersInv k s) (hp : s.entry p ≠ none) :
    ∃ t ∈ k.osLiveList, k.point t = .sleeping ∧ Placed t ∧ timerOf t = p := by
  obtain ⟨t, ht, rfl⟩ := h.owned p hp
  have hne : k.timer t ≠ .unarmed := fun hu => hp (h.entry_none ht hu)
  obtain ⟨hl, hs⟩ := h.sleeping t hne
  exact ⟨t, hl, hs, ht, rfl⟩

/-- A step that leaves the timers alone, and the threads that sleep. -/
lemma congr (h : TimersInv k s) (hlive : k'.osLiveList = k.osLiveList)
    (htimer : k'.timer = k.timer)
    (hpoint : ∀ t, k.point t = .sleeping → k'.point t = .sleeping)
    (hexited : ∀ t, k'.point t = .exited → k.point t = .exited) : TimersInv k' s := by
  refine ⟨fun t ht => h.placed t ?_, fun t ht => ?_, fun t ht => htimer ▸ h.agrees t ht, h.owned⟩
  · rw [Kernel.Allocated, hlive] at ht
    exact ht.imp id (hexited t)
  · rw [htimer] at ht
    obtain ⟨hl, hs⟩ := h.sleeping t ht
    exact ⟨hlive ▸ hl, hpoint t hs⟩

/-- The running thread goes from its own code to where it does not sleep. -/
lemma congr_update (h : TimersInv k s) (hu : k.point k.osThis = .user) {P : Point}
    (hP : P ≠ .exited) (hlive : k'.osLiveList = k.osLiveList) (htimer : k'.timer = k.timer)
    (hpoint : k'.point = Function.update k.point k.osThis P) : TimersInv k' s := by
  refine h.congr hlive htimer (fun t ht => ?_) fun t ht => ?_
  · rw [hpoint, Function.update_of_ne, ht]
    rintro rfl
    rw [hu] at ht
    simp at ht
  · rw [hpoint, Function.update_apply] at ht
    split_ifs at ht
    · exact absurd ht hP
    · exact ht

/-- One thread's timer changes, for the kernel and for the timer service alike. -/
lemma update (h : TimersInv k s) (ht : Placed t) {w : TimerStatus} {x : Option Ticker.Entry}
    {P : Point} (hx : Agrees w x)
    (hplaced : ∀ u, k'.Allocated u → k.Allocated u ∨ u = t)
    (hlive : ∀ u ∈ k.osLiveList, u ≠ t → u ∈ k'.osLiveList)
    (htimer : k'.timer = Function.update k.timer t w)
    (hpoint : k'.point = Function.update k.point t P)
    (hw : w ≠ .unarmed → t ∈ k'.osLiveList ∧ P = .sleeping)
    (hentry : s'.entry = Function.update s.entry (timerOf t) x) : TimersInv k' s' := by
  refine ⟨fun u hu => ?_, fun u hu => ?_, fun u hu => ?_, fun p hp => ?_⟩
  · rcases hplaced u hu with hu | rfl
    · exact h.placed u hu
    · exact ht
  · rw [htimer, Function.update_apply] at hu
    rw [hpoint]
    by_cases hut : u = t
    · subst hut
      rw [if_pos rfl] at hu
      rw [Function.update_self]
      exact hw hu
    · rw [if_neg hut] at hu
      rw [Function.update_of_ne hut]
      obtain ⟨hl, hs⟩ := h.sleeping u hu
      exact ⟨hlive u hl hut, hs⟩
  · rw [htimer, hentry]
    by_cases hut : u = t
    · subst hut
      rwa [Function.update_self, Function.update_self]
    · rw [Function.update_of_ne hut, Function.update_of_ne fun he => hut (timerOf_inj hu ht he)]
      exact h.agrees u hu
  · rw [hentry, Function.update_apply] at hp
    split_ifs at hp with hpt
    · exact ⟨t, ht, hpt.symm⟩
    · exact h.owned p hp

end TimersInv

end TimersInv

/-! ### The timer service under timely events -/

section Service

variable {s s' : Service} {Q : List Int32U} {p : Int32U}

lemma serviceInv_start : ServiceInv Ticker.start where
  prompt := ⟨[], Service.inv_start, by simp, by simp [Ticker.start], by simp [Ticker.start],
    by simp [Ticker.start]⟩
  careful := ⟨[], Service.inv_start, by simp [Ticker.start, Ticker.setup], by simp [Ticker.start],
    by simp [Service.WakeLaw, Ticker.start]⟩

/-- Clearing the record of a timer that is not in use keeps the ring. -/
lemma inv_clearTimer (h : Service.Inv s Q) (hp : s.entry p = none) :
    Service.Inv (clearTimer s p) Q := by
  have hlinks : (s.ticker.links.setNext p 0).setPrev p 0 = s.ticker.links := by
    obtain ⟨hn, hv⟩ := h.free p hp
    rw [Links.setNext, Links.setPrev, Function.update_eq_self_iff.mpr hn.symm,
      Function.update_eq_self_iff.mpr hv.symm]
  have htracks : Deadline.Tracks s.turn (Function.update s.ticker.time p 0) Q := by
    refine h.tracks.congr (fun t ht => ht) (fun t _ => rfl) fun t ht => ?_
    rw [Function.update_of_ne]
    rintro rfl
    exact h.inUse t ht hp
  refine ⟨h.null, ?_, ?_, ?_, h.inUse, h.pending, h.sorted, htracks, h.turn_ge, h.start_le,
    h.expired_le, h.alarm⟩
  · rw [clearTimer, hlinks]
    exact h.free
  · rw [clearTimer, hlinks]
    exact h.paired
  · have ha := h.active
    cases Q with
    | nil => exact ha
    | cons c qs =>
        refine ⟨ha.1, ?_⟩
        rw [clearTimer, hlinks]
        exact ha.2

/-- A walk around the ring meets its timers only. -/
lemma mem_of_inRing {t : Int32U} (h : Service.Inv s Q) (ht : Service.InRing s.ticker t) :
    t ∈ Q := by
  obtain ⟨h0, n, rfl⟩ := ht
  have ha := h.active
  cases Q with
  | nil => exact absurd ha h0
  | cons c qs =>
      obtain ⟨hc, hring⟩ := ha
      induction n with
      | zero =>
          rw [Function.iterate_zero_apply, hc]
          exact List.mem_cons_self
      | succ n ih =>
          rw [Function.iterate_succ_apply']
          exact hring.next_mem ih

namespace ServiceInv

lemma clear (h : ServiceInv s) (hp : s.entry p = none) : ServiceInv (clearTimer s p) := by
  obtain ⟨⟨Q, hq⟩, R, hr⟩ := h
  exact ⟨⟨Q, inv_clearTimer hq.toInv hp, hq.sync, hq.short, hq.young, hq.first⟩,
    R, inv_clearTimer hr.toInv hp, hr.due, hr.elapsed, hr.law⟩

/-- **`OS_timer_add`** of a timer that is not in use. -/
lemma add (h : ServiceInv s) (hir : s.ticker.t0ir = false) {ms : Int32U} (h0 : p ≠ 0)
    (hp : s.entry p = none) (hms : ms ≠ 0) (hshort : ms.toNat < 2 ^ 31)
    (hs : s.step (.add p ms) = some s') : ServiceInv s' ∧
      s'.entry = Function.update s.entry p (some ⟨s.clock, s.counted, ms, []⟩) := by
  obtain ⟨⟨Q, hq⟩, R, hr⟩ := h
  have hprompt : s.Prompt (.add p ms) := by simp [Service.Prompt, hir]
  refine ⟨⟨hq.of_add ⟨⟨h0, hp, hms⟩, hshort⟩ hprompt hs, hr.of_add ⟨h0, hp, hms⟩ hir hs⟩, ?_⟩
  rw [Service.step, Option.map_eq_some_iff] at hs
  obtain ⟨k, -, hs⟩ := hs
  rw [← hs, Service.added]

/-- **`OS_timer_del`** of a timer in use. -/
lemma del (h : ServiceInv s) (hir : s.ticker.t0ir = false) (hc : s.Careful (.del p))
    (hp : s.entry p ≠ none) (hs : s.step (.del p) = some s') : ServiceInv s' ∧
      s'.entry = Function.update s.entry p none := by
  obtain ⟨⟨Q, hq⟩, R, hr⟩ := h
  have hprompt : s.Prompt (.del p) := by simp [Service.Prompt, hir]
  refine ⟨⟨hq.of_del hprompt hs, hr.of_del hc hs⟩, ?_⟩
  rw [hq.toInv.step_del hp, Option.some.injEq] at hs
  rw [← hs, Service.deleted]

/-- **`OS_timer_del`** of a timer that is not in use. -/
lemma del_free (h : ServiceInv s) (hp : s.entry p = none) (hs : s.step (.del p) = some s') :
    s' = s := by
  obtain ⟨⟨Q, hq⟩, -⟩ := h
  rw [hq.toInv.step_del_free hp, Option.some.injEq] at hs
  exact hs.symm

/-- **A tick.** That no expired timer stays in the ring for a turn of the counter follows from
what the owners do. -/
lemma tick (h : ServiceInv s) (hir : s.ticker.t0ir = false) (ho : s.Owners .tick)
    (hs : s.step .tick = some s') : ServiceInv s' := by
  obtain ⟨⟨Q, hq⟩, R, hr⟩ := h
  refine ⟨hq.of_tick ho (by simp [Service.Prompt, hir]) hs, hr.of_tick ?_ hs⟩
  rintro - - t n ht ⟨e, he, hp, rfl⟩
  have := hq.counted_lt (n := 1) (mem_of_inRing hq.toInv ht) he hp (ho t e he)
  omega

/-- **`systimer_exception`** makes ready the threads of pending timers that are due. -/
lemma exception (h : ServiceInv s) (hir : s.ticker.t0ir = true) :
    ∃ F k, s.ticker.systimerException = some (F, k) ∧ ServiceInv (s.served F k) ∧ F.Nodup ∧
      ∀ t ∈ F, ∃ e, s.entry t = some e ∧ e.Pending := by
  obtain ⟨⟨Q, hq⟩, R, hr⟩ := h
  obtain ⟨F, k, -, hk, -, hF, hFR, -, -, hlaw⟩ := hr.toInv.exception hir
  have hs : s.step .exception = some (s.served F k) := by
    rw [Service.step, if_pos hir, hk, Option.map_some]
  refine ⟨F, k, hk, ⟨hq.of_exception hs, hr.of_exception hs⟩, hF, fun t ht => ?_⟩
  obtain ⟨e, he⟩ := hr.toInv.exists_entry (hFR t ht)
  exact ⟨e, he, (hlaw t ht e he).2.2 (hr.due hir)⟩

end ServiceInv

end Service

/-! ### The invariant along a timely run -/

section Step

variable {s s' : TimedKernel} {a : Kernel.Act}

/-- A critical section of the system is one of the kernel, with its call of the timer service. -/
lemma step_kernel (hs : s.step (.kernel a) = some s') :
    s.kernel.step a = some s'.kernel ∧ s.timers a = some s'.service := by
  have hmap : (s.kernel.step a).bind (fun kernel =>
      (s.timers a).map fun service => (⟨kernel, service⟩ : TimedKernel)) = some s' := by
    cases a <;> first | exact hs | simp [step] at hs
  simp only [Option.bind_eq_some_iff, Option.map_eq_some_iff] at hmap
  obtain ⟨k, hk, v, hv, rfl⟩ := hmap
  exact ⟨hk, hv⟩

namespace TimedInv

/-- The running thread, in its own code, has a timer that is not in use. -/
lemma running (h : TimedInv s) (hu : s.kernel.point s.kernel.osThis = .user) :
    s.kernel.osThis ∈ s.kernel.osLiveList ∧ Placed s.kernel.osThis ∧
      s.service.entry (timerOf s.kernel.osThis) = none := by
  obtain ⟨Q, hi⟩ := h.lists
  have hlive := (hi.user Kernel.heads_allHeads hu).1
  have hplaced := h.placed _ (Or.inl hlive)
  exact ⟨hlive, hplaced, h.entry_none hplaced (h.unarmed (by rw [hu]; simp))⟩

/-- **`labour`**, whose block is not in use. -/
lemma labour (h : TimedInv s) {block : ThreadId} {pProcess StackDepth Priority top : Int32U}
    (hp : Placed block) (hb : ¬ s.kernel.Allocated block)
    (hk : (s.kernel.labour (some block) pProcess StackDepth Priority top).1 = s'.kernel)
    (hv : s.timers (.labour block pProcess StackDepth Priority top) = some s'.service) :
    TimersInv s'.kernel s'.service ∧ ServiceInv s'.service ∧
      s'.service.entry = s.service.entry := by
  rw [timers, Option.some.injEq] at hv
  rw [← hk, ← hv]
  by_cases hbad : Priority &&& ~~~0x1F ≠ 0 ∨ pProcess = 0 ∨ StackDepth = 0
  · rw [Kernel.labour, if_pos hbad, if_pos rfl]
    exact ⟨h.toTimersInv, h.service, rfl⟩
  · have hu : s.kernel.timer block = .unarmed := by
      by_contra hne
      exact hb (Or.inl (h.sleeping block hne).1)
    have hnone := h.entry_none hp hu
    rw [Kernel.labour, if_neg hbad, if_neg (Option.some_ne_none block)]
    refine ⟨h.toTimersInv.update (t := block) (w := .unarmed) (x := none) (P := .user) hp trivial
      (fun u hu => ?_) (fun u hu _ => List.mem_append_left _ hu) rfl rfl (by simp) ?_,
      h.service.clear hnone, rfl⟩
    · have hu : u ∈ s.kernel.osLiveList ++ [block] ∨
          Function.update s.kernel.point block .user u = .exited := hu
      rw [List.mem_append, List.mem_singleton] at hu
      by_cases hub : u = block
      · exact Or.inr hub
      · rw [Function.update_of_ne hub] at hu
        exact Or.inl (hu.imp (fun h => h.resolve_right hub) id)
    · rw [clearTimer, ← hnone, Function.update_eq_self]

/-- **`exit`**: the thread's timer is not in use. -/
lemma exit (h : TimedInv s) (hu : s.kernel.point s.kernel.osThis = .user)
    (hk : s.kernel.exit = some s'.kernel) (hv : s.timers .exit = some s'.service) :
    TimersInv s'.kernel s'.service ∧ s'.service = s.service := by
  obtain ⟨hlive, hplaced, hnone⟩ := h.running hu
  have hv : s.service.step (.del (timerOf s.kernel.osThis)) = some s'.service := hv
  have hsame := h.service.del_free hnone hv
  rw [hsame]
  simp only [Kernel.exit, Kernel.threadUnregister, if_pos hlive, Option.map_some,
    Option.some.injEq] at hk
  rw [← hk]
  refine ⟨h.toTimersInv.update (t := s.kernel.osThis) (w := .unarmed) (x := none)
    (P := .exited) hplaced trivial (fun u hu => ?_) (fun u hu hne => (List.mem_erase_of_ne hne).mpr hu) rfl rfl
    (by simp) ?_, rfl⟩
  · by_cases hne : u = s.kernel.osThis
    · exact Or.inr hne
    · refine Or.inl (hu.imp List.mem_of_mem_erase fun hp => ?_)
      have hp : Function.update s.kernel.point s.kernel.osThis .exited u = .exited := hp
      rwa [Function.update_of_ne hne] at hp
  · rw [← hnone, Function.update_eq_self]

/-- A thread that has gone from its own code to where it is not finished is no new one. -/
lemma allocated_update {k : Kernel} {P : Point} {u : ThreadId} (hP : P ≠ .exited)
    (h : u ∈ k.osLiveList ∨ Function.update k.point k.osThis P u = .exited) : k.Allocated u := by
  refine h.imp id fun hp => ?_
  rw [Function.update_apply] at hp
  split_ifs at hp
  · exact absurd hp hP
  · exact hp

/-- **`sleep`** starts the thread's timer. -/
lemma sleep (h : TimedInv s) (hir : s.service.ticker.t0ir = false)
    (hu : s.kernel.point s.kernel.osThis = .user) {Time : Int32U} (hT : Time ≠ 0)
    (hshort : Time.toNat < 2 ^ 31) (hk : s.kernel.sleep Time = s'.kernel)
    (hv : s.timers (.sleep Time) = some s'.service) :
    TimersInv s'.kernel s'.service ∧ ServiceInv s'.service ∧
      s'.service.entry = Function.update s.service.entry (timerOf s.kernel.osThis)
        (some ⟨s.service.clock, s.service.counted, Time, []⟩) := by
  obtain ⟨hlive, hplaced, hnone⟩ := h.running hu
  have hv : s.call (if Time = 0 then none else some (.add (timerOf s.kernel.osThis) Time)) =
    some s'.service := hv
  rw [if_neg hT, call] at hv
  obtain ⟨hinv, hentry⟩ := h.service.add hir (timerOf_ne_zero hplaced) hnone hT hshort hv
  refine ⟨?_, hinv, hentry⟩
  rw [Kernel.sleep, if_neg hT] at hk
  rw [← hk]
  exact h.toTimersInv.update (t := s.kernel.osThis) (w := .armed) (P := .sleeping) hplaced
    (x := some ⟨s.service.clock, s.service.counted, Time, []⟩) rfl
    (fun u hu => Or.inl (allocated_update (by simp) hu))
    (fun u hu _ => hu) rfl rfl (fun _ => ⟨hlive, rfl⟩) hentry

/-- **`sleep` behind the switch** gives the timer back. -/
lemma sleepResumed (h : TimedInv s) (hir : s.service.ticker.t0ir = false)
    (hc : s.service.Careful (.del (timerOf s.kernel.osThis)))
    (hlive : s.kernel.osThis ∈ s.kernel.osLiveList)
    (hne : s.kernel.timer s.kernel.osThis ≠ .unarmed) (hk : s.kernel.sleepResumed = s'.kernel)
    (hv : s.timers .sleepResumed = some s'.service) :
    TimersInv s'.kernel s'.service ∧ ServiceInv s'.service ∧
      s'.service.entry = Function.update s.service.entry (timerOf s.kernel.osThis) none := by
  have hplaced := h.placed _ (Or.inl hlive)
  have hin : s.service.entry (timerOf s.kernel.osThis) ≠ none := fun h0 => by
    have := h.agrees _ hplaced
    rw [h0, agrees_none] at this
    exact hne this
  obtain ⟨hinv, hentry⟩ := h.service.del hir hc hin hv
  refine ⟨?_, hinv, hentry⟩
  rw [← hk]
  exact h.toTimersInv.update (t := s.kernel.osThis) (w := .unarmed) (x := none)
    (P := .user) hplaced trivial (fun u hu => Or.inl (allocated_update (by simp) hu))
    (fun u hu _ => hu) rfl rfl (by simp) hentry

/-- A thread that sleeps is live, and its timer is in use. -/
lemma sleeper (h : TimedInv s) {t : ThreadId} (hp : s.kernel.point t = .sleeping) :
    t ∈ s.kernel.osLiveList ∧ s.kernel.timer t ≠ .unarmed ∧ Placed t := by
  obtain ⟨Q, hi⟩ := h.lists
  have hne := (hi.thread t).sleeping hp
  have hlive := (h.sleeping t hne).1
  exact ⟨hlive, hne, h.placed t (Or.inl hlive)⟩

/-- The thread that runs again behind the switch in `sleep`. -/
lemma resuming (h : TimedInv s) (hp : s.kernel.point s.kernel.osThis = .sleeping) :
    s.kernel.osThis ∈ s.kernel.osLiveList ∧
      s.kernel.timer s.kernel.osThis ≠ .unarmed :=
  ⟨(h.sleeper hp).1, (h.sleeper hp).2.1⟩

/-- **A critical section of a timely run** keeps the timers and the ring. -/
theorem kernel_step (h : TimedInv s) (hok : Timely s (.kernel a))
    (hs : s.step (.kernel a) = some s') : TimedInv s' := by
  obtain ⟨hir, hwake, hlim, hcareful⟩ := hok
  obtain ⟨hk, hv⟩ := step_kernel hs
  obtain ⟨Q, hi⟩ := h.lists
  suffices hT : TimersInv s'.kernel s'.service ∧ ServiceInv s'.service from
    ⟨hT.1, hi.step hwake hk, hT.2⟩
  -- a critical section that makes no call leaves the timer service as it is
  have hquiet : s.call none = some s'.service → TimersInv s'.kernel s.service →
      TimersInv s'.kernel s'.service ∧ ServiceInv s'.service := by
    intro hv hT
    rw [call, Option.some.injEq] at hv
    exact ⟨hv ▸ hT, hv ▸ h.service⟩
  cases a with
  | labour block =>
      simp only [Kernel.step, Option.ite_none_right_eq_some, Option.some.injEq] at hk
      obtain ⟨hT, hinv, -⟩ := h.labour hlim hk.1.2 hk.2 hv
      exact ⟨hT, hinv⟩
  | exit =>
      simp only [Kernel.step, Option.ite_none_right_eq_some] at hk
      obtain ⟨hT, hsame⟩ := h.exit hk.1 hk.2 hv
      exact ⟨hT, hsame ▸ h.service⟩
  | sleep Time =>
      simp only [Kernel.step, Option.ite_none_right_eq_some, Option.some.injEq] at hk
      by_cases hT : Time = 0
      · subst hT
        refine hquiet hv ?_
        rw [← hk.2, Kernel.sleep, if_pos rfl]
        exact h.toTimersInv
      · obtain ⟨hT, hinv, -⟩ := h.sleep hir hk.1 hT hlim hk.2 hv
        exact ⟨hT, hinv⟩
  | sleepResumed =>
      simp only [Kernel.step, Option.ite_none_right_eq_some, Option.some.injEq] at hk
      obtain ⟨hlive, hne⟩ := h.resuming hk.1.1
      obtain ⟨hT, hinv, -⟩ := h.sleepResumed hir (hcareful _ rfl) hlive hne hk.2 hv
      exact ⟨hT, hinv⟩
  | semaphoreWait x Timeout =>
      obtain rfl : Timeout = 0 := hlim
      simp only [Kernel.step, Option.ite_none_right_eq_some, Option.some.injEq] at hk
      obtain ⟨hu, hk⟩ := hk
      have hv : s.call (if s.kernel.counter x = 0 ∧ (0 : Int32U) ≠ 0 then
        some (.add (timerOf s.kernel.osThis) 0) else none) = some s'.service := hv
      rw [if_neg fun h => h.2 rfl] at hv
      refine hquiet hv ?_
      rw [← hk, Kernel.semaphoreWait]
      split_ifs
      · exact h.congr rfl rfl (fun _ ht => ht) fun _ ht => ht
      · exact h.congr_update (P := .waiting (.semaphore x) 0 false) hu (by simp) rfl rfl rfl
  | semaphorePost x =>
      simp only [Kernel.step, Option.map_eq_some_iff] at hk
      obtain ⟨r, hr, hk⟩ := hk
      rw [Kernel.semaphorePost_of_nil (Bool.eq_true_of_not_eq_false hwake),
        Option.some.injEq] at hr
      refine hquiet hv ?_
      rw [← hk, ← hr]
      exact h.congr rfl rfl (fun _ ht => ht) fun _ ht => ht
  | mailWait b Timeout =>
      obtain rfl : Timeout = 0 := hlim
      simp only [Kernel.step, Option.ite_none_right_eq_some, Option.map_eq_some_iff] at hk
      obtain ⟨hu, r, hr, hk⟩ := hk
      have hv : s.call (if (s.kernel.mail b).read = (s.kernel.mail b).write ∧ (0 : Int32U) ≠ 0
        then some (.add (timerOf s.kernel.osThis) 0) else none) = some s'.service := hv
      rw [if_neg fun h => h.2 rfl] at hv
      refine hquiet hv ?_
      rw [← hk]
      rcases Kernel.mailWait_cases hr with ⟨mail, hm⟩ | hm
      · rw [hm]
        exact h.congr rfl rfl (fun _ ht => ht) fun _ ht => ht
      · rw [hm]
        exact h.congr_update (P := .waiting (.mailbox b) 0 false) hu (by simp) rfl rfl rfl
  | mailPost b m =>
      simp only [Kernel.step, Option.map_eq_some_iff] at hk
      obtain ⟨r, hr, hk⟩ := hk
      obtain ⟨⟨mail, hm⟩, -⟩ := Kernel.mailPost_eq_some hr
      refine hquiet hv ?_
      rw [← hk, hm]
      exact h.congr rfl rfl (fun _ ht => ht) fun _ ht => ht
  | mailPostReady u => exact absurd trivial hwake
  | waitResumed =>
      simp only [Kernel.step, Option.ite_none_right_eq_some] at hk
      obtain ⟨hsw, hk⟩ := hk
      cases hp : s.kernel.point s.kernel.osThis with
      | waiting w T woken => exact absurd hp (hi.not_waiting_of_running hsw woken)
      | user | sleeping | exited => simp [hp] at hk
  | systimer u => simp [step] at hs
  | shift top =>
      simp only [Kernel.step, Option.map_eq_some_iff, Kernel.shift] at hk
      obtain ⟨r, ⟨u, -, hr⟩, hk⟩ := hk
      refine hquiet hv ?_
      rw [← hk, ← hr]
      exact h.congr rfl rfl (fun _ ht => ht) fun _ ht => ht

/-- **A tick** keeps the invariant. -/
theorem tick_step (h : TimedInv s) (hok : Timely s .tick) (hs : s.step .tick = some s') :
    TimedInv s' ∧ s'.kernel = s.kernel ∧ s'.service.entry = s.service.entry ∧
      s'.service.clock = s.service.clock + 1 := by
  have hs : (s.service.step .tick).map (fun service => { s with service }) = some s' := hs
  rw [Option.map_eq_some_iff] at hs
  obtain ⟨v, hv, rfl⟩ := hs
  have hinv := h.service.tick hok.1 hok.2 hv
  rw [Service.step, Option.some.injEq] at hv
  subst hv
  exact ⟨⟨⟨h.placed, h.sleeping, h.agrees, h.owned⟩, h.lists, hinv⟩, rfl, rfl, rfl⟩

/-- The threads `ts`, which sleep, are made ready one after the other. -/
lemma systimers {ts : List ThreadId} {k : Kernel} (hnd : ts.Nodup)
    (hts : ∀ t ∈ ts, k.timer t = .armed ∧ k.point t = .sleeping) :
    Reach (fun k a => ¬ Kernel.Wakes k a) Kernel.step k (ts.foldl Kernel.systimerException k) ∧
      (ts.foldl Kernel.systimerException k).point = k.point ∧
      (ts.foldl Kernel.systimerException k).osLiveList = k.osLiveList ∧
      ∀ u, (ts.foldl Kernel.systimerException k).timer u =
        if u ∈ ts then .fired else k.timer u := by
  induction ts generalizing k with
  | nil => exact ⟨.start, rfl, rfl, fun u => by simp⟩
  | cons t ts ih =>
      obtain ⟨htnot, hnd⟩ := List.nodup_cons.mp hnd
      obtain ⟨harmed, hpoint⟩ := hts t List.mem_cons_self
      have hk : k.systimerException t =
          Kernel.addActive { k with timer := Function.update k.timer t .fired } t := by
        have hp : (Kernel.addActive { k with timer := Function.update k.timer t .fired } t).point t =
          .sleeping := hpoint
        rw [Kernel.systimerException, Kernel.markWoken, hp]
      have hstep : Kernel.step k (.systimer t) = some (k.systimerException t) := if_pos harmed
      have hwake : ¬ Kernel.Wakes k (.systimer t) := by
        rintro ⟨w, T, woken, hp⟩
        rw [hpoint] at hp
        simp at hp
      rw [List.foldl_cons]
      obtain ⟨hreach, hpoint', hlive', htimer'⟩ := ih (k := k.systimerException t) hnd
        fun u hu => by
          have hut : u ≠ t := fun h => htnot (h ▸ hu)
          rw [hk]
          exact ⟨(Function.update_of_ne hut ..).trans (hts u (List.mem_cons_of_mem t hu)).1,
            (hts u (List.mem_cons_of_mem t hu)).2⟩
      refine ⟨(Reach.step .start hwake hstep).trans hreach, ?_, ?_, fun u => ?_⟩
      · rw [hpoint', hk]
        rfl
      · rw [hlive', hk]
        rfl
      · rw [htimer', hk]
        show (if u ∈ ts then TimerStatus.fired else Function.update k.timer t .fired u) = _
        by_cases hut : u = t
        · simp [hut]
        · simp [hut]

/-- **`systimer_exception`** makes ready the threads whose time has passed. -/
theorem exception_step (h : TimedInv s) (hs : s.step .exception = some s') :
    TimedInv s' ∧ Reach (fun k a => ¬ Kernel.Wakes k a) Kernel.step s.kernel s'.kernel ∧
      s'.kernel.point = s.kernel.point ∧
      ∃ F k, s.service.ticker.t0ir = true ∧ s'.service = s.service.served F k ∧ F.Nodup := by
  have hs : (if s.service.ticker.t0ir then s.service.ticker.systimerException.map fun r =>
      (⟨(r.1.map threadOf).foldl Kernel.systimerException s.kernel,
        s.service.served r.1 r.2⟩ : TimedKernel) else none) = some s' := hs
  split_ifs at hs with hir
  obtain ⟨F, k, hF, hinv, hnd, hpend⟩ := h.service.exception hir
  rw [hF, Option.map_some, Option.some.injEq] at hs
  -- every timer that is served belongs to a thread that sleeps on it
  have howner : ∀ p ∈ F, ∃ t, Placed t ∧ timerOf t = p ∧ threadOf p = t ∧
      s.kernel.timer t = .armed ∧ s.kernel.point t = .sleeping := by
    intro p hp
    obtain ⟨e, he, hpe⟩ := hpend p hp
    obtain ⟨t, -, hpoint, ht, rfl⟩ := h.live (p := p) (by rw [he]; simp)
    refine ⟨t, ht, rfl, threadOf_timerOf ht, ?_, hpoint⟩
    have hag := h.agrees t ht
    rw [he] at hag
    cases htm : s.kernel.timer t with
    | armed => rfl
    | unarmed => rw [htm] at hag; exact hag.elim
    | fired => rw [htm] at hag; exact absurd hpe hag
  have hmem : ∀ u, Placed u → (u ∈ F.map threadOf ↔ timerOf u ∈ F) := by
    intro u hu
    refine ⟨fun h => ?_, fun h => List.mem_map.mpr ⟨_, h, threadOf_timerOf hu⟩⟩
    obtain ⟨p, hp, rfl⟩ := List.mem_map.mp h
    obtain ⟨t, -, hpt, htp, -⟩ := howner p hp
    rw [htp, hpt]
    exact hp
  have hnd' : (F.map threadOf).Nodup := by
    refine hnd.map_on fun p hp q hq hpq => ?_
    obtain ⟨t, -, rfl, htp, -⟩ := howner p hp
    obtain ⟨u, -, rfl, huq, -⟩ := howner q hq
    rw [← htp, hpq, huq]
  obtain ⟨hreach, hpoint, hlive, htimer⟩ := systimers (k := s.kernel) hnd' fun t ht => by
    obtain ⟨p, hp, rfl⟩ := List.mem_map.mp ht
    obtain ⟨t, -, -, htp, harmed⟩ := howner p hp
    exact htp ▸ harmed
  subst hs
  refine ⟨⟨⟨fun t ht => h.placed t ?_, fun t ht => ?_, fun t ht => ?_, fun p hp => ?_⟩, ?_, hinv⟩,
    hreach, hpoint, F, k, hir, rfl, hnd⟩
  · rwa [Kernel.Allocated, hlive, hpoint] at ht
  · rw [htimer] at ht
    rw [hlive, hpoint]
    split_ifs at ht with htF
    · obtain ⟨p, hp, rfl⟩ := List.mem_map.mp htF
      obtain ⟨t, -, -, htp, harmed, -⟩ := howner p hp
      exact h.sleeping _ (by rw [htp, harmed]; simp)
    · exact h.sleeping t ht
  · rw [htimer]
    show Agrees _ (Ticker.wake F s.service.clock s.service.entry (timerOf t))
    by_cases htF : timerOf t ∈ F
    · obtain ⟨e, he, -⟩ := hpend _ htF
      rw [if_pos ((hmem t ht).mpr htF), Service.Inv.wake_of_mem _ hnd htF he]
      show ¬ (e.wakes ++ [s.service.clock] = [])
      simp
    · rw [if_neg fun h => htF ((hmem t ht).mp h), Service.Inv.wake_of_notMem _ htF]
      exact h.agrees t ht
  · exact h.owned p fun h0 => hp ((Service.Inv.wake_eq_none F _).mpr h0)
  · refine hreach.invariant (I := fun k => ∃ Q, Kernel.Inv Kernel.allHeads k Q) h.lists
      fun k a k' hi ha hk => ?_
    obtain ⟨Q, hi⟩ := hi
    exact hi.step ha hk

/-- **A timely step keeps the invariant**, and is a run of the kernel. -/
theorem step (h : TimedInv s) {e : Event} (hok : Timely s e) (hs : s.step e = some s') :
    TimedInv s' ∧ Reach (fun k a => ¬ Kernel.Wakes k a) Kernel.step s.kernel s'.kernel := by
  cases e with
  | kernel a => exact ⟨h.kernel_step hok hs, .step .start hok.2.1 (step_kernel hs).1⟩
  | tick =>
      obtain ⟨hinv, hk, -⟩ := h.tick_step hok hs
      exact ⟨hinv, hk ▸ .start⟩
  | exception =>
      obtain ⟨hinv, hreach, -⟩ := h.exception_step hs
      exact ⟨hinv, hreach⟩

/-- The invariant at the start. -/
lemma boot {k₀ : Kernel} (h₀ : Kernel.AtReset k₀) (hc : Kernel.Created k₀) (pStackTop : Int32U) :
    TimedInv (boot k₀ pStackTop) where
  placed t ht := by
    have hlive : (k₀.startup pStackTop).osLiveList = [osIdle] := by
      show k₀.osLiveList ++ [osIdle] = _
      rw [h₀.osLiveList]
      rfl
    have hpoint : (k₀.startup pStackTop).point t = .user := h₀.point t
    have ht : t ∈ (k₀.startup pStackTop).osLiveList ∨ (k₀.startup pStackTop).point t = .exited := ht
    rw [hlive, hpoint, List.mem_singleton] at ht
    rw [ht.resolve_right (by simp), Placed]
    decide
  sleeping t ht := absurd (h₀.timer t) ht
  agrees t _ := by
    rw [show (TimedKernel.boot k₀ pStackTop).kernel.timer t = .unarmed from h₀.timer t]
    trivial
  owned p hp := absurd rfl hp
  lists := ⟨_, Kernel.Inv.startup h₀ (fun _ hh => hh) hc.rings pStackTop⟩
  service := serviceInv_start

end TimedInv

end Step

/-! ### The kernel's timers are those of the hardware -/

section Refines

variable {s : TimedKernel} {k₀ : Kernel} {pStackTop : Int32U}

/-- The calls that a timely critical section makes of the timer service. -/
lemma timerCall_cases {a : Kernel.Act} {e : Ticker.Event} (hlim : Unlimited a)
    (he : timerCall s.kernel a = some e) :
    e = .del (timerOf s.kernel.osThis) ∨
      ∃ Time : Int32U, a = .sleep Time ∧ Time ≠ 0 ∧ e = .add (timerOf s.kernel.osThis) Time := by
  cases a with
  | exit | sleepResumed =>
      have he : some (.del (timerOf s.kernel.osThis)) = some e := he
      exact Or.inl (Option.some.inj he).symm
  | sleep Time =>
      have he : (if Time = 0 then none else some (.add (timerOf s.kernel.osThis) Time)) =
        some e := he
      split_ifs at he with hT
      exact Or.inr ⟨Time, rfl, hT, (Option.some.inj he).symm⟩
  | semaphoreWait x T =>
      have he : (if s.kernel.counter x = 0 ∧ T ≠ 0 then
        some (.add (timerOf s.kernel.osThis) T) else none) = some e := he
      split_ifs at he with hT
      exact absurd hlim hT.2
  | mailWait b T =>
      have he : (if (s.kernel.mail b).read = (s.kernel.mail b).write ∧ T ≠ 0 then
        some (.add (timerOf s.kernel.osThis) T) else none) = some e := he
      split_ifs at he with hT
      exact absurd hlim hT.2
  | waitResumed =>
      have he : (match s.kernel.point s.kernel.osThis with
        | .waiting _ Timeout _ => if Timeout ≠ 0 then some (.del (timerOf s.kernel.osThis)) else none
        | _ => none) = some e := he
      cases hp : s.kernel.point s.kernel.osThis with
      | waiting w T woken =>
          rw [hp] at he
          exact Or.inl (Option.some.inj (Option.ite_none_right_eq_some.mp he).2).symm
      | user | sleeping | exited =>
          rw [hp] at he
          exact absurd he (by simp)
  | labour | semaphorePost | mailPost | mailPostReady | systimer | shift =>
      have he : none = some e := he
      exact absurd he (by simp)

end Refines

/-! ### A thread that sleeps -/

section Sleep

variable {s s' : TimedKernel} {a : Kernel.Act} {t : ThreadId} {added : ℕ} {Time : Int32U}

/-- The events of a timely run in which the thread does not come back from `sleep`. -/
def Asleep (t : ThreadId) (s : TimedKernel) (e : Event) : Prop :=
  Timely s e ∧ (e = .kernel .sleepResumed → s.kernel.osThis ≠ t)

/-- The thread sleeps for `Time`, from the clock `added` on. -/
structure SleepInv (t : ThreadId) (added : ℕ) (Time : Int32U) (s : TimedKernel) : Prop
    extends TimedInv s where
  point : s.kernel.point t = .sleeping
  entry : ∃ e, s.service.entry (timerOf t) = some e ∧ e.added = added ∧ e.delay = Time

/-- **The life of a sleep** that is to last until the clock is `due`. -/
structure SleepLaw (t : ThreadId) (due : ℕ) (s : TimedKernel) : Prop where
  sleeping : s.kernel.point t = .sleeping
  /-- The thread is not made ready early. -/
  early : s.kernel.InReady t → due ≤ s.service.clock
  /-- Nor late: only a match that waits to be served holds it up. -/
  late : s.service.ticker.t0ir = false → due ≤ s.service.clock → s.kernel.InReady t
  /-- `sleep` does not return before. -/
  back : ∀ s', s.step (.kernel .sleepResumed) = some s' → s.kernel.osThis = t →
    due ≤ s.service.clock

namespace TimedInv

/-- A thread that calls the timer service is live. -/
lemma caller_live (h : TimedInv s) (hk : (s.kernel.step a).isSome) {e : Ticker.Event}
    (he : timerCall s.kernel a = some e) : s.kernel.osThis ∈ s.kernel.osLiveList := by
  obtain ⟨Q, hi⟩ := h.lists
  have huser : s.kernel.point s.kernel.osThis = .user →
      s.kernel.osThis ∈ s.kernel.osLiveList := fun hu => (h.running hu).1
  cases a with
  | exit | sleep | semaphoreWait | mailWait =>
      refine huser ?_
      by_contra hu
      simp [Kernel.step, hu] at hk
  | sleepResumed =>
      refine (h.resuming ?_).1
      by_contra hp
      simp [Kernel.step, hp] at hk
  | waitResumed =>
      cases hp : s.kernel.point s.kernel.osThis with
      | waiting w T woken => exact ((hi.thread _).waiting _ _ _ hp).2.2
      | user => exact huser hp
      | sleeping | exited => simp [Kernel.step, hp] at hk
  | labour | semaphorePost | mailPost | mailPostReady | systimer | shift =>
      have he : none = some e := he
      exact absurd he (by simp)

/-- A critical section changes what the timer service holds about the running thread's timer
only. -/
lemma entry_frame (h : TimedInv s) (hlim : Unlimited a) (hk : (s.kernel.step a).isSome)
    {v : Service} (hv : s.timers a = some v) (ht : Placed t) (hne : t ≠ s.kernel.osThis) :
    v.entry (timerOf t) = s.service.entry (timerOf t) := by
  have hcall : s.call (timerCall s.kernel a) = some v →
      v.entry (timerOf t) = s.service.entry (timerOf t) := by
    intro hv
    cases he : timerCall s.kernel a with
    | none =>
        rw [he, call, Option.some.injEq] at hv
        rw [hv]
    | some e =>
        have hp : timerOf t ≠ timerOf s.kernel.osThis := fun hp =>
          hne (timerOf_inj ht (h.placed _ (Or.inl (h.caller_live hk he))) hp)
        rw [he, call] at hv
        rcases timerCall_cases hlim he with rfl | ⟨T, -, -, rfl⟩
        · obtain ⟨⟨Q, hq⟩, -⟩ := h.service
          by_cases hn : s.service.entry (timerOf s.kernel.osThis) = none
          · rw [hq.toInv.step_del_free hn, Option.some.injEq] at hv
            rw [hv]
          · rw [hq.toInv.step_del hn, Option.some.injEq] at hv
            rw [← hv]
            exact Function.update_of_ne hp ..
        · rw [Service.step, Option.map_eq_some_iff] at hv
          obtain ⟨k, -, hv⟩ := hv
          rw [← hv]
          exact Function.update_of_ne hp ..
  cases a with
  | labour block pProcess StackDepth Priority top =>
      rw [timers, Option.some.injEq] at hv
      rw [← hv]
      split_ifs <;> rfl
  | _ => exact hcall hv

/-- A thread that sleeps makes no call of the timer service before it comes back. -/
lemma timers_of_sleeping (hk : (s.kernel.step a).isSome) (ha : a ≠ .sleepResumed)
    (hp : s.kernel.point s.kernel.osThis = .sleeping) {v : Service}
    (hv : s.timers a = some v) : v = s.service := by
  have hu : s.kernel.point s.kernel.osThis ≠ .user := by rw [hp]; simp
  have hquiet : s.call none = some v → v = s.service := fun hv => (Option.some.inj hv).symm
  cases a with
  | labour | exit | sleep | semaphoreWait | mailWait => simp [Kernel.step, hu] at hk
  | sleepResumed => exact absurd rfl ha
  | waitResumed => simp [Kernel.step, hp] at hk
  | semaphorePost | mailPost | mailPostReady | systimer | shift => exact hquiet hv

/-- A critical section leaves a thread that sleeps where it is, until it comes back. -/
lemma sleeping_point (h : TimedInv s) (hwake : ¬ Kernel.Wakes s.kernel a) {k : Kernel}
    (hk : s.kernel.step a = some k) (hne : a = .sleepResumed → s.kernel.osThis ≠ t)
    (hp : s.kernel.point t = .sleeping) : k.point t = .sleeping := by
  obtain ⟨Q, hi⟩ := h.lists
  have hrun : s.kernel.point s.kernel.osThis = .user → t ≠ s.kernel.osThis := by
    rintro hu rfl
    rw [hu] at hp
    simp at hp
  cases a with
  | labour u =>
      simp only [Kernel.step, Option.ite_none_right_eq_some, Option.some.injEq] at hk
      obtain ⟨⟨-, hu⟩, rfl⟩ := hk
      have hne : t ≠ u := by
        rintro rfl
        exact hu (Or.inl (h.sleeper hp).1)
      rw [Kernel.labour]
      split_ifs
      · exact hp
      · exact (Function.update_of_ne hne ..).trans hp
  | exit =>
      simp only [Kernel.step, Option.ite_none_right_eq_some, Kernel.exit,
        Kernel.threadUnregister, Option.map_eq_some_iff, Option.some.injEq] at hk
      obtain ⟨hu, k₁, ⟨-, rfl⟩, rfl⟩ := hk
      exact (Function.update_of_ne (hrun hu) ..).trans hp
  | sleep T =>
      simp only [Kernel.step, Option.ite_none_right_eq_some, Option.some.injEq] at hk
      obtain ⟨hu, rfl⟩ := hk
      rw [Kernel.sleep]
      split_ifs
      · exact hp
      · exact (Function.update_of_ne (hrun hu) ..).trans hp
  | sleepResumed =>
      simp only [Kernel.step, Option.ite_none_right_eq_some, Option.some.injEq] at hk
      obtain ⟨-, rfl⟩ := hk
      exact (Function.update_of_ne (hne rfl).symm ..).trans hp
  | semaphoreWait x T =>
      simp only [Kernel.step, Option.ite_none_right_eq_some, Option.some.injEq] at hk
      obtain ⟨hu, rfl⟩ := hk
      rw [Kernel.semaphoreWait]
      split_ifs
      · exact hp
      · exact (Function.update_of_ne (hrun hu) ..).trans hp
  | semaphorePost x =>
      simp only [Kernel.step, Option.map_eq_some_iff] at hk
      obtain ⟨r, hr, rfl⟩ := hk
      rw [Kernel.semaphorePost_of_nil (Bool.eq_true_of_not_eq_false hwake),
        Option.some.injEq] at hr
      exact hr ▸ hp
  | mailWait b T =>
      simp only [Kernel.step, Option.ite_none_right_eq_some, Option.map_eq_some_iff] at hk
      obtain ⟨hu, r, hr, rfl⟩ := hk
      rcases Kernel.mailWait_cases hr with ⟨mail, hm⟩ | hm
      · exact hm ▸ hp
      · exact hm ▸ (Function.update_of_ne (hrun hu) ..).trans hp
  | mailPost b m =>
      simp only [Kernel.step, Option.map_eq_some_iff] at hk
      obtain ⟨r, hr, rfl⟩ := hk
      obtain ⟨⟨mail, hm⟩, -⟩ := Kernel.mailPost_eq_some hr
      rw [hm]
      exact hp
  | mailPostReady u => exact absurd trivial hwake
  | waitResumed =>
      simp only [Kernel.step, Option.ite_none_right_eq_some] at hk
      obtain ⟨hsw, hk⟩ := hk
      cases hq : s.kernel.point s.kernel.osThis with
      | waiting w T woken => exact absurd hq (hi.not_waiting_of_running hsw woken)
      | user | sleeping | exited => simp [hq] at hk
  | systimer u =>
      simp only [Kernel.step, Option.ite_none_right_eq_some, Option.some.injEq] at hk
      obtain ⟨-, rfl⟩ := hk
      rw [Kernel.systimerException, Kernel.markWoken]
      split
      · rename_i w T woken hq
        exact absurd ⟨w, T, woken, hq⟩ hwake
      · exact hp
  | shift top =>
      simp only [Kernel.step, Option.map_eq_some_iff, Kernel.shift] at hk
      obtain ⟨r, ⟨u, -, rfl⟩, rfl⟩ := hk
      exact hp

end TimedInv

namespace SleepInv

/-- **An event leaves a sleep as it is** until the thread comes back. -/
theorem step (h : SleepInv t added Time s) {e : Event} (hok : Asleep t s e)
    (hs : s.step e = some s') : SleepInv t added Time s' := by
  obtain ⟨hok, hne⟩ := hok
  have hi' := (h.toTimedInv.step hok hs).1
  obtain ⟨x, hx, hadded, hdelay⟩ := h.entry
  cases e with
  | kernel a =>
      obtain ⟨hk, hv⟩ := step_kernel hs
      have hne : a = .sleepResumed → s.kernel.osThis ≠ t := fun ha => hne (by rw [ha])
      refine ⟨hi', h.toTimedInv.sleeping_point hok.2.1 hk hne h.point, x, ?_, hadded, hdelay⟩
      have hplaced := (h.toTimedInv.sleeper h.point).2.2
      by_cases hrun : s.kernel.osThis = t
      · rw [TimedInv.timers_of_sleeping (by rw [hk]; rfl) (fun ha => hne ha hrun)
          (hrun ▸ h.point) hv, hx]
      · rw [h.toTimedInv.entry_frame hok.2.2.1 (by rw [hk]; rfl) hv hplaced (Ne.symm hrun), hx]
  | tick =>
      obtain ⟨-, hk, hentry, -⟩ := h.toTimedInv.tick_step hok hs
      exact ⟨hi', hk ▸ h.point, x, hentry ▸ hx, hadded, hdelay⟩
  | exception =>
      obtain ⟨-, -, hpoint, F, k, -, hserved, -⟩ := h.toTimedInv.exception_step hs
      refine ⟨hi', hpoint ▸ h.point, { x with
        wakes := x.wakes ++ List.replicate (F.count (timerOf t)) s.service.clock }, ?_,
        hadded, hdelay⟩
      rw [hserved]
      show (s.service.entry (timerOf t)).map _ = _
      rw [hx]
      rfl

/-- The thread is ready when its timer has expired. -/
lemma inReady_iff (h : SleepInv t added Time s) :
    s.kernel.InReady t ↔ s.kernel.timer t ≠ .armed := by
  obtain ⟨Q, hi⟩ := h.lists
  obtain ⟨hlive, -, -⟩ := h.toTimedInv.sleeper h.point
  have hmem := Kernel.heads_allHeads.activeProc_mem _ ((hi.thread t).priority_le hlive)
  have hready : s.kernel.InReady t ↔ t ∈ Q (.activeProc (s.kernel.priority t).toNat) :=
    hi.lists.onList_iff hmem
  rw [hready, hi.homes t _ hmem, ← hi.awake_iff hlive, Kernel.Awake, h.point]
  simp

/-- **What the invariant says about the time.** -/
theorem law (h : SleepInv t added Time s) : SleepLaw t (added + Time.toNat) s := by
  obtain ⟨⟨Q, hq⟩, R, hr⟩ := h.service
  obtain ⟨e, he, rfl, rfl⟩ := h.entry
  obtain ⟨hlive, -, hplaced⟩ := h.toTimedInv.sleeper h.point
  have hag := h.agrees t hplaced
  rw [he] at hag
  have harmed : s.kernel.timer t = .armed ↔ e.Pending := by
    cases htm : s.kernel.timer t with
    | armed => simpa [htm] using (show e.Pending by rwa [htm] at hag)
    | unarmed => rw [htm] at hag; exact hag.elim
    | fired => simpa [htm] using (show ¬ e.Pending by rwa [htm] at hag)
  have hearly : s.kernel.InReady t → e.added + e.delay.toNat ≤ s.service.clock := by
    intro hready
    have hexp := hr.expired_le _ e he (mt harmed.mpr (h.inReady_iff.mp hready))
    have hel := hr.elapsed _ e he
    omega
  refine ⟨h.point, hearly, fun hir hdue => h.inReady_iff.mpr fun harm => ?_, fun s' hs ht => ?_⟩
  · have hlt := ((hq.accurate.fired _ e he).1 (harmed.mp harm)).2 hir
    exact absurd hdue (not_le.mpr hlt)
  · obtain ⟨P, hi⟩ := h.lists
    obtain ⟨hk, -⟩ := step_kernel hs
    simp only [Kernel.step, Option.ite_none_right_eq_some] at hk
    have hhome := hi.running hk.1.2
    rw [ht, ← hi.awake_iff hlive, Kernel.Awake, h.point] at hhome
    exact hearly (h.inReady_iff.mpr (hhome.resolve_left (by simp)).2)

end SleepInv

end Sleep

end TimedKernel

end ChinaOS
