import ChinaOS.Expiry

/-!
What the owners of timers can rely on.

* `WakeLaw`: no thread is made ready before its delay has passed, and none twice for one
  `OS_timer_add`. `wakeLaw_of_careful`: it holds along every run of the events that `Careful`
  admits. `not_wakeLaw_addLatched`: without these conditions it does not.
* `Accurate`: the ring, the `Time` words and the alarm tell when every pending timer is due.
  `accurate_of_prompt`: they do along every run in which each match is served at once.
  `not_accurate_lateService`: not so if ticks may pass before.
-/

namespace ChinaOS.Ticker

open Ring Deadline Run

namespace Service

/-- What the callers of the timer functions keep to: a timer is not added again before it has
been deleted, and a delay is at least one tick. -/
def Protocol (s : Service) : Event → Prop
  | .add t ms => t ≠ 0 ∧ s.entry t = none ∧ ms ≠ 0
  | _ => True

/-- The timers that are met on a walk from `OS_pTimer`. -/
def InRing (k : Ticker) (t : Int32U) : Prop :=
  k.osPTimer ≠ 0 ∧ ∃ n, k.links.next^[n] k.osPTimer = t

/-- The expired timer whose expiry was at the count `n`. -/
def ExpiredAt (s : Service) (t : Int32U) (n : ℕ) : Prop :=
  ∃ e, s.entry t = some e ∧ ¬ e.Pending ∧ e.start + e.delay.toNat = n

/-- Since each `OS_timer_add` its thread was made ready at most once, and not before the delay
had passed. -/
def WakeLaw (s : Service) : Prop :=
  ∀ t e, s.entry t = some e → e.wakes.length ≤ 1 ∧ ∀ c ∈ e.wakes, e.due ≤ c

/-- The circumstances in which the source keeps `WakeLaw`. -/
def Careful (s : Service) : Event → Prop
  -- no match waits when a timer is added
  | .add _ _ => s.ticker.t0ir = false
  -- when the current timer is deleted and another takes its place, either a match waits and is
  -- that one's as well, or no match waits and that one did not expire at this very count
  | .del t => t = s.ticker.osPTimer → s.ticker.links.next t ≠ t →
      if s.ticker.t0ir then s.ticker.time (s.ticker.links.next t) = s.ticker.time t
      else ¬ s.ExpiredAt (s.ticker.links.next t) s.counted
  -- the counter does not go round once while an expired timer is left in the ring
  | .tick => s.ticker.enabled = true → s.ticker.t0ir = false → ∀ t n, InRing s.ticker t →
      s.ExpiredAt t n → s.counted + 1 < n + 2 ^ 32
  | .exception => True

variable {s s' : Service} {Q : List Int32U} {t : Int32U} {e : Entry}

lemma Inv.inRing (h : Inv s Q) (ht : t ∈ Q) : InRing s.ticker t := by
  have ha := h.active
  cases Q with
  | nil => simp at ht
  | cons c qs =>
      obtain ⟨hc, hring⟩ := ha
      refine ⟨?_, ?_⟩
      · rw [hc]
        exact h.ne_zero List.mem_cons_self
      · rw [hc]
        exact hring.exists_iterate ht

/-- A timer whose turn is a whole turn of the counter away expired at this very count. -/
lemma Inv.expiredAt (h : Inv s Q) (ht : t ∈ Q) (hturn : s.turn t = s.counted + 2 ^ 32) :
    s.ExpiredAt t s.counted := by
  obtain ⟨e, he⟩ := h.exists_entry ht
  have hp : ¬ e.Pending := fun hp => by
    have := h.turn_lt_of_pending he hp
    omega
  refine ⟨e, he, hp, ?_⟩
  rw [turn_of_entry he, Entry.turn, if_neg hp] at hturn
  omega

/-- The service before the first event. -/
lemma inv_start : Inv start [] where
  null := rfl
  free _ _ := ⟨rfl, rfl⟩
  paired _ ht := absurd rfl ht
  active := rfl
  inUse := by simp
  pending _ _ he _ := by simp [start] at he
  sorted := List.Pairwise.nil
  tracks := ⟨0, by simp⟩
  turn_ge := by simp
  start_le _ _ he := by simp [start] at he
  expired_le _ _ he := by simp [start] at he
  alarm := rfl

/-! ### Neither early nor twice -/

/-- The invariant of careful runs: a match that waits is a pending timer's, and the clock is
never behind the counter. -/
structure CarefulInv (s : Service) (Q : List Int32U) : Prop extends Inv s Q where
  due : s.ticker.t0ir = true → Due s Q
  elapsed : ∀ t e, s.entry t = some e → s.counted + e.added ≤ s.clock + e.start
  law : WakeLaw s

namespace CarefulInv

lemma of_add (h : CarefulInv s Q) {ms : Int32U} (hp : s.Protocol (.add t ms))
    (hc : s.Careful (.add t ms)) (hs : s.step (.add t ms) = some s') : ∃ Q', CarefulInv s' Q' := by
  obtain ⟨k, Q', hk, hinv, -, hir⟩ := h.toInv.add hc hp.1 hp.2.1 hp.2.2
  rw [step, hk, Option.map_some, Option.some.injEq] at hs
  subst hs
  have hentry : ∀ u e, (s.added k t ms).entry u = some e →
      e = ⟨s.clock, s.counted, ms, []⟩ ∨ s.entry u = some e := by
    intro u e he
    by_cases hut : u = t
    · exact Or.inl (by simpa [added, hut, eq_comm] using he)
    · exact Or.inr (by simpa [added, Function.update_of_ne hut] using he)
  refine ⟨Q', hinv, fun h' => ?_, fun u e he => ?_, fun u e he => ?_⟩
  · have h' : k.t0ir = true := h'
    rw [hir] at h'
    exact absurd h' Bool.false_ne_true
  · rcases hentry u e he with rfl | he
    · exact (Nat.add_comm _ _).le
    · exact h.elapsed u e he
  · rcases hentry u e he with rfl | he
    · simp
    · exact h.law u e he

lemma of_del (h : CarefulInv s Q) (hc : s.Careful (.del t)) (hs : s.step (.del t) = some s') :
    ∃ Q', CarefulInv s' Q' := by
  have hinv := h.toInv.del (fun hir hcur hn => by
    have := hc hcur hn
    rwa [if_pos hir] at this) hs
  by_cases ht : s.entry t = none
  · rw [h.step_del_free ht, Option.some.injEq] at hs
    exact ⟨Q, hs ▸ h⟩
  rw [h.step_del ht, Option.some.injEq] at hs
  have hentry : ∀ u e, s'.entry u = some e → s.entry u = some e := by
    intro u e he
    rw [← hs] at he
    by_cases hut : u = t
    · simp [deleted, hut] at he
    · simpa [deleted, Function.update_of_ne hut] using he
  have hclock : s'.counted = s.counted ∧ s'.clock = s.clock := by
    rw [← hs]
    exact ⟨rfl, rfl⟩
  refine ⟨Q.erase t, hinv, fun hir' => ?_, fun u e he => ?_, fun u e he => h.law u e (hentry u e he)⟩
  · refine (hinv.due_or_stray hir').resolve_right ?_
    rintro ⟨u, hu, hturn⟩
    have huQ' := List.mem_of_mem_head? hu
    obtain ⟨hut, huQ⟩ := (h.nodup.mem_erase_iff).mp huQ'
    rw [← hs, Inv.turn_deleted_of_ne hut] at hturn
    cases Bool.eq_false_or_eq_true s.ticker.t0ir with
    | inl hir =>
        have := (h.due hir).2.1 u huQ
        exact absurd hturn this.ne
    | inr hir =>
        by_cases hcur : t = s.ticker.osPTimer
        · -- the timer behind the deleted one has taken its place
          have ha := h.active
          cases Q with
          | nil => simp at hu
          | cons c qs =>
              obtain ⟨hcc, hring⟩ := ha
              obtain rfl : t = c := hcur.trans hcc
              rw [List.erase_cons_head] at hu
              cases qs with
              | nil => simp at hu
              | cons v qs =>
                  obtain rfl : v = u := by simpa using hu
                  have hnext : s.ticker.links.next t = v := hring.next_head
                  have hsafe := hc hcur (by rw [hnext]; exact hut)
                  rw [if_neg (by simp [hir]), hnext] at hsafe
                  exact hsafe (h.toInv.expiredAt huQ hturn)
        · rw [← hs] at hir'
          have hk : ((s.ticker.passOn t).unlink t).t0ir = s.ticker.t0ir := by
            rw [passOn_of_ne hcur]
            rfl
          have hir' : ((s.ticker.passOn t).unlink t).t0ir = true := hir'
          rw [hk, hir] at hir'
          exact Bool.false_ne_true hir'
  · rw [hclock.1, hclock.2]
    exact h.elapsed u e (hentry u e he)

lemma of_tick (h : CarefulInv s Q) (hc : s.Careful .tick) (hs : s.step .tick = some s') :
    ∃ Q', CarefulInv s' Q' := by
  have hinv := h.toInv.tick (fun hen hir t ht e he hp => by
    have := hc hen hir t _ (h.toInv.inRing ht) ⟨e, he, hp, rfl⟩
    rwa [Entry.turn, if_neg hp]) hs
  obtain rfl : _ = s' := Option.some.inj hs
  have hcounted : ∀ {P : Prop} [Decidable P], (if P then s.counted + 1 else s.counted) ≤
      s.counted + 1 := by
    intro P _
    split_ifs <;> omega
  refine ⟨Q, hinv, fun hir' => ?_, fun t e he => ?_, h.law⟩
  · refine (hinv.due_or_stray hir').resolve_right ?_
    rintro ⟨c, hcQ, hturn⟩
    have hcQ := List.mem_of_mem_head? hcQ
    have hturn : s.turn c = (if s.ticker.enabled = true ∧ ¬ s.ticker.t0ir = true then s.counted + 1
      else s.counted) + 2 ^ 32 := hturn
    have hle := h.toInv.turn_le hcQ
    split_ifs at hturn with hcount
    · omega
    · cases Bool.eq_false_or_eq_true s.ticker.t0ir with
      | inl hir =>
          have := (h.due hir).2.1 c hcQ
          omega
      | inr hir =>
          have hr := h.toInv.running hir
          cases Q with
          | nil => simp at hcQ
          | cons c' qs => exact hcount ⟨hr.1, by simp [hir]⟩
  · have hel := h.elapsed t e he
    have := hcounted (P := s.ticker.enabled = true ∧ ¬ s.ticker.t0ir = true)
    show (if s.ticker.enabled = true ∧ ¬ s.ticker.t0ir = true then s.counted + 1 else s.counted) +
      e.added ≤ s.clock + 1 + e.start
    omega

lemma of_exception (h : CarefulInv s Q) (hs : s.step .exception = some s') :
    ∃ Q', CarefulInv s' Q' := by
  rw [step] at hs
  split_ifs at hs with hir
  obtain ⟨F, k, Q', hk, hinv, hF, hFQ, -, hkir, hlaw⟩ := h.toInv.exception hir
  rw [hk, Option.map_some, Option.some.injEq] at hs
  subst hs
  refine ⟨Q', hinv, fun h' => ?_, fun t e he => ?_, fun t e he => ?_⟩
  · have h' : k.t0ir = true := h'
    rw [hkir] at h'
    exact absurd h' Bool.false_ne_true
  · rcases Inv.entry_served hF he with ⟨-, he⟩ | ⟨-, e₀, he₀, rfl⟩
    · exact h.elapsed t e he
    · exact h.elapsed t e₀ he₀
  · rcases Inv.entry_served hF he with ⟨-, he⟩ | ⟨ht, e₀, he₀, rfl⟩
    · exact h.law t e he
    · obtain ⟨hnow, -, hpend⟩ := hlaw t ht e₀ he₀
      have hwakes : e₀.wakes = [] := hpend (h.due hir)
      have hel := h.elapsed t e₀ he₀
      rw [hwakes]
      refine ⟨by simp, fun c hc => ?_⟩
      obtain rfl : c = s.clock := by simpa using hc
      show e₀.added + e₀.delay.toNat ≤ s.clock
      omega

end CarefulInv

/-- The invariant holds after every careful run. -/
lemma exists_carefulInv (h : Reach (fun s a => Protocol s a ∧ Careful s a) step start s) :
    ∃ Q, CarefulInv s Q := by
  refine h.invariant (I := fun s => ∃ Q, CarefulInv s Q) ?_ ?_
  · exact ⟨[], inv_start, by simp [start, setup], by simp [start], by simp [WakeLaw, start]⟩
  · rintro s a s' ⟨Q, h⟩ ⟨hp, hc⟩ hs
    cases a with
    | add t ms => exact h.of_add hp hc hs
    | del t => exact h.of_del hc hs
    | tick => exact h.of_tick hc hs
    | exception => exact h.of_exception hs

/-- Every event that the callers and the hardware can produce can be taken. -/
lemma Inv.isSome_step (h : Inv s Q) {a : Event} (hp : s.Protocol a)
    (hadd : ∀ t ms, a = .add t ms → s.ticker.t0ir = false)
    (hexc : a = .exception → s.ticker.t0ir = true) : (s.step a).isSome = true := by
  cases a with
  | add t ms =>
      obtain ⟨k, Q', hk, -⟩ := h.add (hadd t ms rfl) hp.1 hp.2.1 hp.2.2
      rw [step, hk, Option.map_some, Option.isSome_some]
  | del t =>
      by_cases ht : s.entry t = none
      · rw [h.step_del_free ht, Option.isSome_some]
      · rw [h.step_del ht, Option.isSome_some]
  | tick => rfl
  | exception =>
      obtain ⟨F, k, Q', hk, -⟩ := h.exception (hexc rfl)
      rw [step, if_pos (hexc rfl), hk, Option.map_some, Option.isSome_some]

/-- **No early and no repeated wake** along every careful run, which no event of the callers or
the hardware ends. -/
theorem wakeLaw_of_careful (h : Reach (fun s a => Protocol s a ∧ Careful s a) step start s) :
    WakeLaw s ∧ ∀ a, s.Protocol a → s.Careful a →
      (a = .exception → s.ticker.t0ir = true) → (s.step a).isSome = true := by
  obtain ⟨Q, hinv⟩ := exists_carefulInv h
  refine ⟨hinv.law, fun a hp hc hexc => hinv.toInv.isSome_step hp (fun t ms ha => ?_) hexc⟩
  subst ha
  exact hc

/-- Two timers: the first expires and stays in the ring while the counter runs on. -/
theorem wakeLaw_of_careful_twoTimers :
    ∃ s, exec step start [.add 1 1, .add 2 3, .tick, .exception, .tick] = some s ∧
      WakeLaw s ∧ (s.entry 1).map Entry.wakes = some [1] := by
  refine ⟨_, rfl, (wakeLaw_of_careful ?_).1, rfl⟩
  have h₀ : Reach (fun s a => Protocol s a ∧ Careful s a) step start start := Reach.start
  have h₁ := h₀.step (a := Event.add 1 1) (by exact ⟨⟨by decide, rfl, by decide⟩, rfl⟩) rfl
  have h₂ := h₁.step (a := Event.add 2 3) (by exact ⟨⟨by decide, rfl, by decide⟩, rfl⟩) rfl
  have h₃ := h₂.step (a := Event.tick)
    (by exact ⟨trivial, fun _ _ t n _ _ => by show 0 + 1 < n + 2 ^ 32; omega⟩) rfl
  have h₄ := h₃.step (a := Event.exception) (by exact ⟨trivial, trivial⟩) rfl
  exact h₄.step (a := Event.tick)
    (by exact ⟨trivial, fun _ _ t n _ _ => by show 1 + 1 < n + 2 ^ 32; omega⟩) rfl

/-- A timer added while a match waits is taken for one that is due: timer 2, added at clock 1
with a delay of one tick, wakes its thread at clock 1. -/
theorem not_wakeLaw_addLatched : ¬ ∀ s, Reach Protocol step start s → WakeLaw s := by
  intro h
  have h₀ : Reach Protocol step start start := Reach.start
  have h₁ := h₀.step (a := Event.add 1 1) (by exact ⟨by decide, rfl, by decide⟩) rfl
  have h₂ := h₁.step (a := Event.tick) trivial rfl
  have h₃ := h₂.step (a := Event.add 2 1) (by exact ⟨by decide, rfl, by decide⟩) rfl
  have h₄ := h₃.step (a := Event.exception) trivial rfl
  have hwake := (h _ h₄ 2 ⟨1, 1, 1, [1]⟩ rfl).2 1 (by decide)
  exact absurd hwake (by decide)

/-! ### On time -/

/-- The hardware time remaining: none while a match waits. -/
def leftTime (k : Ticker) : Int32U := if k.t0ir then 0 else k.getLeftTime

/-- The timer was added, and has neither expired nor been deleted. -/
def IsPending (s : Service) (t : Int32U) : Prop := ∃ e, s.entry t = some e ∧ e.Pending

/-- The clock at which a timer is due. -/
def due (s : Service) (t : Int32U) : ℕ := (s.entry t).elim 0 Entry.due

/-- What the ring, the `Time` words and the alarm tell about the pending timers. -/
structure Accurate (s : Service) : Prop where
  /-- `OS_pTimer` is pending if any timer is. -/
  current : (∃ t, s.IsPending t) → s.IsPending s.ticker.osPTimer
  /-- The ticks until a timer is due can be read off its `Time`. -/
  remaining : ∀ t, s.IsPending t → s.clock +
    (s.ticker.time t - s.ticker.time s.ticker.osPTimer + leftTime s.ticker).toNat = s.due t
  /-- A walk from `OS_pTimer` meets the pending timers first, as they are due. -/
  ring : (∃ t, s.IsPending t) → ∃ P S : List Int32U, P.head? = some s.ticker.osPTimer ∧
    s.ticker.links.Circle s.ticker.osPTimer (P.tail ++ S) ∧ (∀ t, t ∈ P ↔ s.IsPending t) ∧
    P.Pairwise fun t u => s.due t ≤ s.due u
  /-- The time left is the least of the remaining times. -/
  least : ∀ t, s.IsPending t → s.clock + (leftTime s.ticker).toNat ≤ s.due t
  attained : (∃ t, s.IsPending t) →
    ∃ t, s.IsPending t ∧ s.clock + (leftTime s.ticker).toNat = s.due t
  /-- No timer is overdue, and those that were due have expired at that clock. -/
  fired : ∀ t e, s.entry t = some e →
    (e.Pending → s.clock ≤ e.due ∧ (s.ticker.t0ir = false → s.clock < e.due)) ∧
    ∀ c ∈ e.wakes.head?, c = e.due

/-- What the owners of timers do: delays are short, and an expired timer is deleted before half
a turn of the counter has passed. -/
def Owners (s : Service) : Event → Prop
  | .add t ms => s.Protocol (.add t ms) ∧ ms.toNat < 2 ^ 31
  | .tick => ∀ t e, s.entry t = some e → ∀ c ∈ e.wakes.head?, s.clock + 1 < c + 2 ^ 31
  | _ => True

/-- A match is served before any add or deletion. -/
def Served (s : Service) : Event → Prop
  | .add _ _ => s.ticker.t0ir = false
  | .del _ => s.ticker.t0ir = false
  | _ => True

/-- A match is served before anything else, ticks included. -/
def Prompt (s : Service) (a : Event) : Prop := s.ticker.t0ir = true → a = .exception

/-- The invariant of prompt runs: the clock and the counter advance together as long as the ring
is not empty. -/
structure PromptInv (s : Service) (Q : List Int32U) : Prop extends Inv s Q where
  sync : ∀ t ∈ Q, ∀ e, s.entry t = some e → s.clock + e.start = s.counted + e.added
  short : ∀ t e, s.entry t = some e → e.delay.toNat < 2 ^ 31
  young : ∀ t e, s.entry t = some e → ∀ c ∈ e.wakes.head?, s.clock < c + 2 ^ 31
  first : ∀ t e, s.entry t = some e → ∀ c ∈ e.wakes.head?, c = e.due

namespace PromptInv

lemma of_add (h : PromptInv s Q) {ms : Int32U} (ho : s.Owners (.add t ms))
    (hp : s.Prompt (.add t ms)) (hs : s.step (.add t ms) = some s') : ∃ Q', PromptInv s' Q' := by
  obtain ⟨⟨ht0, ht, hms⟩, hshort⟩ := ho
  have hir : s.ticker.t0ir = false := by
    by_contra hir
    simpa using hp (by simpa using hir)
  obtain ⟨k, Q', hk, hinv, hQ', -⟩ := h.toInv.add hir ht0 ht hms
  rw [step, hk, Option.map_some, Option.some.injEq] at hs
  subst hs
  have hentry : ∀ u e, (s.added k t ms).entry u = some e →
      u = t ∧ e = ⟨s.clock, s.counted, ms, []⟩ ∨ u ≠ t ∧ s.entry u = some e := by
    intro u e he
    by_cases hut : u = t
    · exact Or.inl ⟨hut, by simpa [added, hut, eq_comm] using he⟩
    · exact Or.inr ⟨hut, by simpa [added, Function.update_of_ne hut] using he⟩
  refine ⟨Q', hinv, fun u hu e he => ?_, fun u e he => ?_, fun u e he => ?_, fun u e he => ?_⟩
  · rcases hentry u e he with ⟨-, rfl⟩ | ⟨hut, he⟩
    · exact Nat.add_comm _ _
    · exact h.sync u ((hQ' u hu).resolve_left hut) e he
  · rcases hentry u e he with ⟨-, rfl⟩ | ⟨-, he⟩
    · exact hshort
    · exact h.short u e he
  · rcases hentry u e he with ⟨-, rfl⟩ | ⟨-, he⟩
    · simp
    · exact h.young u e he
  · rcases hentry u e he with ⟨-, rfl⟩ | ⟨-, he⟩
    · simp
    · exact h.first u e he

lemma of_del (h : PromptInv s Q) (hp : s.Prompt (.del t)) (hs : s.step (.del t) = some s') :
    ∃ Q', PromptInv s' Q' := by
  have hinv := h.toInv.del (fun hir => by simpa using hp hir) hs
  by_cases ht : s.entry t = none
  · rw [h.step_del_free ht, Option.some.injEq] at hs
    exact ⟨Q, hs ▸ h⟩
  rw [h.step_del ht, Option.some.injEq] at hs
  subst hs
  have hentry : ∀ u e, (s.deleted ((s.ticker.passOn t).unlink t) t).entry u = some e →
      s.entry u = some e := by
    intro u e he
    by_cases hut : u = t
    · simp [deleted, hut] at he
    · simpa [deleted, Function.update_of_ne hut] using he
  exact ⟨Q.erase t, hinv, fun u hu e he => h.sync u (List.mem_of_mem_erase hu) e (hentry u e he),
    fun u e he => h.short u e (hentry u e he), fun u e he => h.young u e (hentry u e he),
    fun u e he => h.first u e (hentry u e he)⟩

/-- The count at which a timer that has expired did so is less than half a turn ago. -/
lemma counted_lt (h : PromptInv s Q) (ht : t ∈ Q) (he : s.entry t = some e) (hp : ¬ e.Pending)
    {n : ℕ} (hn : ∀ c ∈ e.wakes.head?, s.clock + n < c + 2 ^ 31) :
    s.counted + n < e.start + e.delay.toNat + 2 ^ 31 := by
  obtain ⟨c, hc⟩ : ∃ c, c ∈ e.wakes.head? := by
    cases hw : e.wakes with
    | nil => exact absurd hw hp
    | cons c ws => exact ⟨c, rfl⟩
  have hdue : c = e.added + e.delay.toNat := h.first t e he c hc
  have hlt := hn c hc
  have hsync := h.sync t ht e he
  omega

lemma of_tick (h : PromptInv s Q) (ho : s.Owners .tick) (hp : s.Prompt .tick)
    (hs : s.step .tick = some s') : ∃ Q', PromptInv s' Q' := by
  have hinv := h.toInv.tick (fun _ _ t ht e he hpe => by
    have hlt := h.counted_lt ht he hpe (ho t e he)
    rw [Entry.turn, if_neg hpe]
    omega) hs
  have hir : s.ticker.t0ir = false := by
    by_contra hir
    simpa using hp (by simpa using hir)
  obtain rfl : _ = s' := Option.some.inj hs
  refine ⟨Q, hinv, fun t ht e he => ?_, h.short, ho, h.first⟩
  have hen : s.ticker.enabled = true := by
    have hr := h.toInv.running hir
    cases Q with
    | nil => simp at ht
    | cons c qs => exact hr.1
  have hsync := h.sync t ht e he
  show s.clock + 1 + e.start = (if s.ticker.enabled = true ∧ ¬ s.ticker.t0ir = true then
    s.counted + 1 else s.counted) + e.added
  rw [if_pos ⟨hen, by simp [hir]⟩]
  omega

lemma of_exception (h : PromptInv s Q) (hs : s.step .exception = some s') :
    ∃ Q', PromptInv s' Q' := by
  rw [step] at hs
  split_ifs at hs with hir
  obtain ⟨F, k, Q', hk, hinv, hF, hFQ, hQ', -, hlaw⟩ := h.toInv.exception hir
  rw [hk, Option.map_some, Option.some.injEq] at hs
  subst hs
  refine ⟨Q', hinv, fun t ht e he => ?_, fun t e he => ?_, fun t e he => ?_, fun t e he => ?_⟩
  · rcases Inv.entry_served hF he with ⟨-, he⟩ | ⟨-, e₀, he₀, rfl⟩
    · exact h.sync t (hQ' t ht) e he
    · exact h.sync t (hQ' t ht) e₀ he₀
  · rcases Inv.entry_served hF he with ⟨-, he⟩ | ⟨-, e₀, he₀, rfl⟩
    · exact h.short t e he
    · exact h.short t e₀ he₀
  · rcases Inv.entry_served hF he with ⟨-, he⟩ | ⟨-, e₀, he₀, rfl⟩
    · exact h.young t e he
    · intro c hc
      show s.clock < c + 2 ^ 31
      cases hw : e₀.wakes with
      | nil =>
          obtain rfl : s.clock = c := by simpa [hw] using hc
          omega
      | cons c' ws =>
          obtain rfl : c' = c := by simpa [hw] using hc
          exact h.young t e₀ he₀ c' (by rw [hw]; rfl)
  · rcases Inv.entry_served hF he with ⟨-, he⟩ | ⟨ht, e₀, he₀, rfl⟩
    · exact h.first t e he
    · intro c hc
      show c = e₀.added + e₀.delay.toNat
      cases hw : e₀.wakes with
      | nil =>
          -- a pending timer is served at the count at which it is due
          obtain rfl : s.clock = c := by simpa [hw] using hc
          have hnow := (hlaw t ht e₀ he₀).2.1 hw
          have hsync := h.sync t (hFQ t ht) e₀ he₀
          omega
      | cons c' ws =>
          obtain rfl : c' = c := by simpa [hw] using hc
          exact h.first t e₀ he₀ c' (by rw [hw]; rfl)

end PromptInv

/-- The invariant holds after every prompt run. -/
lemma exists_promptInv (h : Reach (fun s a => Owners s a ∧ Prompt s a) step start s) :
    ∃ Q, PromptInv s Q := by
  refine h.invariant (I := fun s => ∃ Q, PromptInv s Q) ?_ ?_
  · exact ⟨[], inv_start, by simp, by simp [start], by simp [start], by simp [start]⟩
  · rintro s a s' ⟨Q, h⟩ ⟨ho, hp⟩ hs
    cases a with
    | add t ms => exact h.of_add ho hp hs
    | del t => exact h.of_del hp hs
    | tick => exact h.of_tick ho hp hs
    | exception => exact h.of_exception hs

namespace PromptInv

lemma due_of_entry (he : s.entry t = some e) : s.due t = e.due := by
  rw [due, he, Option.elim_some]

/-- For a timer in the ring, the clock and the count are equally far from the moment it is due
and from its turn. -/
lemma clock_add (h : PromptInv s Q) (ht : s.IsPending t) :
    t ∈ Q ∧ s.counted ≤ s.turn t ∧ s.clock + (s.turn t - s.counted) = s.due t ∧
      s.turn t < s.counted + 2 ^ 31 := by
  obtain ⟨e, he, hp⟩ := ht
  have hQ := h.pending t e he hp
  have hge := h.turn_ge t hQ
  have hsync := h.sync t hQ e he
  have hshort := h.short t e he
  have hstart := h.start_le t e he
  have hturn : s.turn t = e.start + e.delay.toNat := by
    rw [turn_of_entry he, Entry.turn, if_pos hp]
  refine ⟨hQ, hge, ?_, by omega⟩
  rw [due_of_entry he, Entry.due]
  omega

/-- Pending timers come before expired ones. -/
lemma turn_ge_of_expired (h : PromptInv s Q) (ht : t ∈ Q) (hp : ¬ s.IsPending t) :
    s.counted + 2 ^ 31 < s.turn t := by
  obtain ⟨e, he⟩ := h.toInv.exists_entry ht
  have hpe : ¬ e.Pending := fun hpe => hp ⟨e, he, hpe⟩
  have hlt := h.counted_lt (n := 0) ht he hpe (h.young t e he)
  rw [turn_of_entry he, Entry.turn, if_neg hpe]
  omega

/-- With a pending timer in the ring, the current timer is the first of them. -/
lemma current (h : PromptInv s Q) (ht : s.IsPending t) : ∃ c qs, Q = c :: qs ∧
    s.ticker.osPTimer = c ∧ s.IsPending c ∧
    leftTime s.ticker = BitVec.ofNat 32 (s.turn c - s.counted) := by
  obtain ⟨hQ, hge, -, hlt⟩ := h.clock_add ht
  have ha := h.active
  cases Q with
  | nil => simp at hQ
  | cons c qs =>
      have hct := h.toInv.turn_head_le hQ
      have hc : s.IsPending c := by
        by_contra hc
        have := h.turn_ge_of_expired List.mem_cons_self hc
        omega
      refine ⟨c, qs, rfl, ha.1, hc, ?_⟩
      cases Bool.eq_false_or_eq_true s.ticker.t0ir with
      | inl hir =>
          rcases h.toInv.due_or_stray hir with hd | ⟨c', hc', hstray⟩
          · rw [leftTime, if_pos hir, hd.1 c rfl, Nat.sub_self]
            rfl
          · obtain rfl : c = c' := by simpa using hc'
            omega
      | inr hir =>
          rw [leftTime, if_neg (by simp [hir]), Inv.getLeftTime_eq (h.toInv.running hir)]

lemma accurate (h : PromptInv s Q) : Accurate s where
  current := by
    rintro ⟨t, ht⟩
    obtain ⟨c, qs, -, hc, hpc, -⟩ := h.current ht
    rwa [hc]
  remaining t ht := by
    obtain ⟨c, qs, rfl, hc, hpc, hleft⟩ := h.current ht
    obtain ⟨htQ, hge, hclock, hlt⟩ := h.clock_add ht
    have hcQ : c ∈ c :: qs := List.mem_cons_self
    have hcge := h.turn_ge c hcQ
    have hword : s.ticker.time t - s.ticker.time s.ticker.osPTimer + leftTime s.ticker =
        BitVec.ofNat 32 (s.turn t - s.counted) := by
      have hoff : ∀ u, s.counted ≤ s.turn u → BitVec.ofNat 32 (s.turn u) =
          BitVec.ofNat 32 (s.turn u - s.counted) + BitVec.ofNat 32 s.counted := fun u hu => by
        rw [← BitVec.ofNat_add, Nat.sub_add_cancel hu]
      rw [hc, hleft, h.tracks.sub htQ hcQ, hoff t hge, hoff c hcge]
      ring
    rw [hword, BitVec.toNat_ofNat, Nat.mod_eq_of_lt (by omega)]
    exact hclock
  ring := by
    classical
    rintro ⟨t, ht⟩
    obtain ⟨c, qs, rfl, hc, hpc, -⟩ := h.current ht
    have hsplit := eq_filter_append (p := s.IsPending) (l := c :: qs)
      (h.sorted.imp_of_mem fun {u v} hu hv huv hpv => by
        by_contra hpu
        obtain ⟨-, -, -, hlt⟩ := h.clock_add hpv
        have := h.turn_ge_of_expired hu hpu
        omega)
    set P := (c :: qs).filter fun u => s.IsPending u with hP
    set S := (c :: qs).filter fun u => ¬ s.IsPending u
    obtain ⟨P', hP'⟩ : ∃ P', P = c :: P' := by
      rw [hP, List.filter_cons_of_pos (by simpa using hpc)]
      exact ⟨_, rfl⟩
    refine ⟨P, S, ?_, ?_, fun u => ?_, ?_⟩
    · rw [hP', hc]
      rfl
    · have hqs : qs = P' ++ S := by
        rw [hP', List.cons_append, List.cons.injEq] at hsplit
        exact hsplit.2
      rw [hc, hP', List.tail_cons, ← hqs]
      exact h.active.2
    · rw [hP, List.mem_filter, decide_eq_true_iff]
      exact ⟨fun hu => hu.2, fun hu => ⟨(h.clock_add hu).1, hu⟩⟩
    · refine (h.sorted.sublist List.filter_sublist).imp_of_mem fun {u v} hu hv huv => ?_
      have hu := h.clock_add (of_decide_eq_true (List.mem_filter.mp hu).2)
      have hv := h.clock_add (of_decide_eq_true (List.mem_filter.mp hv).2)
      omega
  least t ht := by
    obtain ⟨c, qs, rfl, -, hpc, hleft⟩ := h.current ht
    obtain ⟨htQ, hge, hclock, -⟩ := h.clock_add ht
    obtain ⟨-, -, -, hclt⟩ := h.clock_add hpc
    have hct := h.toInv.turn_head_le htQ
    rw [hleft, BitVec.toNat_ofNat, Nat.mod_eq_of_lt (by omega)]
    omega
  attained := by
    rintro ⟨t, ht⟩
    obtain ⟨c, qs, rfl, -, hpc, hleft⟩ := h.current ht
    obtain ⟨-, -, hclock, hclt⟩ := h.clock_add hpc
    refine ⟨c, hpc, ?_⟩
    rw [hleft, BitVec.toNat_ofNat, Nat.mod_eq_of_lt (by omega)]
    exact hclock
  fired t e he := by
    refine ⟨fun hp => ?_, h.first t e he⟩
    obtain ⟨htQ, hge, hclock, -⟩ := h.clock_add ⟨e, he, hp⟩
    rw [due_of_entry he] at hclock
    refine ⟨by omega, fun hir => ?_⟩
    obtain ⟨c, qs, rfl, -⟩ := h.current ⟨e, he, hp⟩
    have hr := h.toInv.running hir
    have hct := h.toInv.turn_head_le htQ
    have hlt : s.counted < s.turn c := hr.2.1
    omega

end PromptInv

/-- **The timer ring is accurate** along every run in which each match is served at once, which
no event of the callers or the hardware ends. -/
theorem accurate_of_prompt (h : Reach (fun s a => Owners s a ∧ Prompt s a) step start s) :
    Accurate s ∧ ∀ a, s.Owners a → s.Prompt a →
      (a = .exception → s.ticker.t0ir = true) → (s.step a).isSome = true := by
  obtain ⟨Q, hinv⟩ := exists_promptInv h
  refine ⟨hinv.accurate, fun a ho hp hexc => hinv.toInv.isSome_step ?_ (fun t ms ha => ?_) hexc⟩
  · cases a with
    | add t ms => exact ho.1
    | del t => trivial
    | tick => trivial
    | exception => trivial
  · subst ha
    by_contra hir
    simpa using hp (by simpa using hir)

/-- Three timers, the last of which goes before the others. -/
theorem accurate_of_prompt_threeTimers :
    ∃ s, exec step start [.add 1 3, .add 2 4, .add 3 1, .tick, .exception, .tick] = some s ∧
      Accurate s ∧ s.ticker.osPTimer = 1 ∧ (s.entry 3).map Entry.wakes = some [1] := by
  refine ⟨_, rfl, (accurate_of_prompt ?_).1, rfl, rfl⟩
  have h₀ : Reach (fun s a => Owners s a ∧ Prompt s a) step start start := Reach.start
  have h₁ := h₀.step (a := Event.add 1 3)
    (by exact ⟨⟨⟨by decide, rfl, by decide⟩, by decide⟩, fun h => absurd h (by decide)⟩) rfl
  have h₂ := h₁.step (a := Event.add 2 4)
    (by exact ⟨⟨⟨by decide, rfl, by decide⟩, by decide⟩, fun h => absurd h (by decide)⟩) rfl
  have h₃ := h₂.step (a := Event.add 3 1)
    (by exact ⟨⟨⟨by decide, rfl, by decide⟩, by decide⟩, fun h => absurd h (by decide)⟩) rfl
  have h₄ := h₃.step (a := Event.tick)
    (by exact ⟨fun t e _ c _ => by show 0 + 1 < c + 2 ^ 31; omega, fun h => absurd h (by decide)⟩) rfl
  have h₅ := h₄.step (a := Event.exception) (by exact ⟨trivial, fun _ => rfl⟩) rfl
  exact h₅.step (a := Event.tick)
    (by exact ⟨fun t e _ c _ => by show 1 + 1 < c + 2 ^ 31; omega, fun h => absurd h (by decide)⟩) rfl

/-- Ticks that pass before a match is served are lost: timer 1, due at clock 1, wakes its thread
at clock 2. -/
theorem not_accurate_lateService :
    ¬ ∀ s, Reach (fun s a => Owners s a ∧ Served s a) step start s → Accurate s := by
  intro h
  have h₀ : Reach (fun s a => Owners s a ∧ Served s a) step start start := Reach.start
  have h₁ := h₀.step (a := Event.add 1 1)
    (by exact ⟨⟨⟨by decide, rfl, by decide⟩, by decide⟩, rfl⟩) rfl
  have h₂ := h₁.step (a := Event.tick)
    (by exact ⟨fun t e _ c _ => by show 0 + 1 < c + 2 ^ 31; omega, trivial⟩) rfl
  have h₃ := h₂.step (a := Event.tick)
    (by exact ⟨fun t e _ c _ => by show 1 + 1 < c + 2 ^ 31; omega, trivial⟩) rfl
  have h₄ := h₃.step (a := Event.exception) (by exact ⟨trivial, trivial⟩) rfl
  have hfired := ((h _ h₄).fired 1 ⟨0, 0, 1, [2]⟩ rfl).2 2 rfl
  exact absurd hfired (by decide)

end Service

end ChinaOS.Ticker
