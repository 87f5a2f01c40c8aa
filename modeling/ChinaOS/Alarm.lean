import ChinaOS.Deadline
import ChinaOS.Ticker

/-!
The invariant of the timer service, and what ticks and adds make of it.

An expired timer stays in the ring until its owner deletes it. To the modular arithmetic of
the source it then looks like a timer that is due a whole turn of the counter later, so every
timer in the ring has a `turn`, the count at which its `Time` comes up next.

* `Entry.turn`: that count.
* `Inv`: the ring that `OS_pTimer` holds lists its timers in the order of their turns, their
  `Time` words are these turns modulo `2 ^ 32`, and the match register stands at the first.
* `Inv.tick`, `Inv.add`: a tick and an add keep the invariant.
-/

namespace ChinaOS.Ticker

open Ring Deadline

/-- The count at which the counter comes to the timer's `Time`: once when it is due, and a turn
later again if it has not been deleted by then. -/
def Entry.turn (e : Entry) : ℕ :=
  if e.Pending then e.start + e.delay.toNat else e.start + e.delay.toNat + 2 ^ 32

namespace Service

/-- The turn of a timer that was added and not deleted. -/
def turn (s : Service) (t : Int32U) : ℕ := (s.entry t).elim 0 Entry.turn

lemma turn_of_entry {s : Service} {t : Int32U} {e : Entry} (h : s.entry t = some e) :
    s.turn t = e.turn := by
  rw [turn, h, Option.elim_some]

/-- The timers that were added and not deleted. -/
def linked (s : Service) : Set Int32U := {t | s.entry t ≠ none}

/-- The ring that `OS_pTimer` holds is `Q`, from the current timer on. -/
def Active (k : Ticker) : List Int32U → Prop
  | [] => k.osPTimer = 0
  | c :: qs => k.osPTimer = c ∧ k.links.Circle c qs

/-- No match waits: the counter runs towards the turn of the current timer, if there is one. -/
def Running (s : Service) : List Int32U → Prop
  | [] => s.ticker.enabled = false
  | c :: _ => s.ticker.enabled = true ∧ s.counted < s.turn c ∧ s.turn c < s.counted + 2 ^ 32 ∧
      s.ticker.timeCounter.toNat + s.turn c = s.ticker.t0mr0.toNat + s.counted

/-- The match that waits is the current timer's, which is pending. -/
def Due (s : Service) (Q : List Int32U) : Prop :=
  (∀ c ∈ Q.head?, s.turn c = s.counted) ∧ (∀ t ∈ Q, s.turn t < s.counted + 2 ^ 32) ∧
    ∀ t ∈ Q, ∀ e, s.entry t = some e → ¬ e.Pending → s.counted < e.turn

/-- The match that waits is of a timer that has just expired: deleting the timer before it in
the ring has set the match register to zero. -/
def Stray (s : Service) (Q : List Int32U) : Prop :=
  ∃ c ∈ Q.head?, s.turn c = s.counted + 2 ^ 32

/-- The invariant, with the ring `Q` that `OS_pTimer` holds. -/
structure Inv (s : Service) (Q : List Int32U) : Prop where
  /-- `NULL` is no timer. -/
  null : s.entry 0 = none
  /-- The links of a timer that is not in use are `NULL`. -/
  free : ∀ t, s.entry t = none → s.ticker.links.next t = 0 ∧ s.ticker.links.prev t = 0
  /-- The timers in use lie on circular lists. -/
  paired : s.ticker.links.Paired s.linked
  /-- `OS_pTimer` holds one of them. -/
  active : Active s.ticker Q
  /-- It has every pending timer, and only timers in use. -/
  inUse : ∀ t ∈ Q, s.entry t ≠ none
  pending : ∀ t e, s.entry t = some e → e.Pending → t ∈ Q
  /-- The ring is in the order of the turns. -/
  sorted : Q.Pairwise fun t u => s.turn t ≤ s.turn u
  /-- The `Time` words are the turns modulo `2 ^ 32`. -/
  tracks : Tracks s.turn s.ticker.time Q
  /-- No turn has gone by. -/
  turn_ge : ∀ t ∈ Q, s.counted ≤ s.turn t
  start_le : ∀ t e, s.entry t = some e → e.start ≤ s.counted
  expired_le : ∀ t e, s.entry t = some e → ¬ e.Pending → e.start + e.delay.toNat ≤ s.counted
  /-- What the hardware is about to do. -/
  alarm : if s.ticker.t0ir then Due s Q ∨ Stray s Q else Running s Q

end Service

/-! ### The hardware -/

section Hardware

variable {k : Ticker}

lemma setTime_of_ne {T : Int32U} (hT : T ≠ 0) :
    k.setTime T = { k with timeCounter := 0, t0mr0 := T, enabled := true } := by
  rw [setTime, matchMr0, if_neg]
  rintro ⟨-, h⟩
  exact hT h.symm

lemma setTime_zero :
    k.setTime 0 = { k with timeCounter := 0, t0mr0 := 0, enabled := false, t0ir := true } := by
  rw [setTime, matchMr0, if_pos ⟨rfl, rfl⟩]

/-- A tick before the match counts. -/
lemma tick_of_ne (he : k.enabled = true) (h : k.timeCounter + 1 ≠ k.t0mr0) :
    k.tick = { k with timeCounter := k.timeCounter + 1 } := by
  rw [tick, if_pos he, matchMr0, if_neg]
  rintro ⟨-, h'⟩
  exact h h'

/-- The tick that reaches the match value raises the interrupt. -/
lemma tick_of_eq (he : k.enabled = true) (h : k.timeCounter + 1 = k.t0mr0) :
    k.tick = { k with timeCounter := 0, enabled := false, t0ir := true } := by
  rw [tick, if_pos he, matchMr0, if_pos ⟨he, h⟩]

lemma tick_of_disabled (he : k.enabled = false) : k.tick = k := by simp [tick, he]

/-- `OS_timer_add` to a ring, once the walk has ended at `q`. -/
lemma osTimerAdd_eq {t ms T q : Int32U} (h0 : k.osPTimer ≠ 0)
    (hT : T = k.time k.osPTimer + ms - k.getLeftTime)
    (hq : { k with time := Function.update k.time t T }.findPlace T ringBound k.osPTimer =
      some q) : k.osTimerAdd t ms =
    some (if k.getLeftTime ≤ ms then
        { k with time := Function.update k.time t T, links := linkAfter k.links t q }
      else { k with
        time := Function.update k.time t T
        links := linkAfter k.links t q }.replace t ms) := by
  rw [osTimerAdd, if_neg h0]
  simp only [← hT, hq, Option.map_some]

/-- A tick concerns the registers only, and takes no interrupt back. -/
lemma tick_frame : k.tick.osPTimer = k.osPTimer ∧ k.tick.links = k.links ∧
    k.tick.time = k.time ∧ (k.t0ir = true → k.tick.t0ir = true) := by
  rw [tick]
  split_ifs
  · rw [matchMr0]
    split_ifs <;> simp
  · simp

end Hardware

namespace Service.Inv

variable {s s' : Service} {Q : List Int32U} {t : Int32U} {e : Entry}

/-! ### Reading the invariant -/

lemma exists_entry (h : Inv s Q) (ht : t ∈ Q) : ∃ e, s.entry t = some e :=
  Option.ne_none_iff_exists'.mp (h.inUse t ht)

lemma turn_le (h : Inv s Q) (ht : t ∈ Q) : s.turn t ≤ s.counted + 2 ^ 32 := by
  obtain ⟨e, he⟩ := h.exists_entry ht
  have hd := e.delay.isLt
  have hs := h.start_le t e he
  rw [turn_of_entry he, Entry.turn]
  split_ifs with hp
  · omega
  · have := h.expired_le t e he hp
    omega

/-- The turn of a pending timer is less than a whole turn of the counter away. -/
lemma turn_lt_of_pending (h : Inv s Q) (he : s.entry t = some e) (hp : e.Pending) :
    s.turn t < s.counted + 2 ^ 32 := by
  have hd := e.delay.isLt
  have hs := h.start_le t e he
  rw [turn_of_entry he, Entry.turn, if_pos hp]
  omega

lemma turn_head_le {c : Int32U} {qs : List Int32U} (h : Inv s (c :: qs)) (ht : t ∈ c :: qs) :
    s.turn c ≤ s.turn t := by
  rcases List.mem_cons.mp ht with rfl | ht
  · exact le_rfl
  · exact (List.pairwise_cons.mp h.sorted).1 t ht

lemma ne_zero (h : Inv s Q) (ht : t ∈ Q) : t ≠ 0 := fun h0 => h.inUse t ht (h0 ▸ h.null)

lemma nodup (h : Inv s Q) : Q.Nodup := by
  have ha := h.active
  cases Q with
  | nil => exact List.nodup_nil
  | cons c qs => exact ha.2.nodup

/-- A walk around the ring is bounded by the number of addresses. -/
lemma length_le (h : Inv s Q) : Q.length ≤ ringBound := by
  have hnd : (Q.map BitVec.toNat).Nodup := h.nodup.map fun _ _ => BitVec.eq_of_toNat_eq
  have hsub : Q.map BitVec.toNat ⊆ List.range ringBound := by
    intro n hn
    obtain ⟨t, -, rfl⟩ := List.mem_map.mp hn
    exact List.mem_range.mpr t.isLt
  have hle := (List.subperm_of_subset hnd hsub).length_le
  rwa [List.length_map, List.length_range] at hle

/-- No match waits as long as the counter runs towards one. -/
lemma running (h : Inv s Q) (hir : s.ticker.t0ir = false) : Running s Q := by
  have ha := h.alarm
  rwa [hir, if_neg Bool.false_ne_true] at ha

lemma due_or_stray (h : Inv s Q) (hir : s.ticker.t0ir = true) : Due s Q ∨ Stray s Q := by
  have ha := h.alarm
  rwa [if_pos hir] at ha

/-! ### A tick -/

lemma tick (h : Inv s Q)
    (hturn : s.ticker.enabled = true → s.ticker.t0ir = false →
      ∀ t ∈ Q, ∀ e, s.entry t = some e → ¬ e.Pending → s.counted + 1 < e.turn)
    (hs : s.step .tick = some s') : Inv s' Q := by
  obtain ⟨h₁, h₂, h₃, h₄⟩ := tick_frame (k := s.ticker)
  obtain rfl : _ = s' := Option.some.inj hs
  -- what a tick leaves alone, whatever becomes of the count and the registers
  have key : ∀ n (k : Ticker), k.osPTimer = s.ticker.osPTimer → k.links = s.ticker.links →
      k.time = s.ticker.time → s.counted ≤ n → (∀ t ∈ Q, n ≤ s.turn t) →
      (if k.t0ir then Due ⟨k, s.clock + 1, n, s.entry⟩ Q ∨ Stray ⟨k, s.clock + 1, n, s.entry⟩ Q
        else Running ⟨k, s.clock + 1, n, s.entry⟩ Q) → Inv ⟨k, s.clock + 1, n, s.entry⟩ Q := by
    intro n k hp hl ht hn hge halarm
    exact {
      null := h.null
      free := fun t ht => by rw [hl]; exact h.free t ht
      paired := by
        show k.links.Paired s.linked
        rw [hl]; exact h.paired
      active := by
        have ha := h.active
        cases Q with
        | nil => exact hp.trans ha
        | cons c qs =>
            show k.osPTimer = c ∧ k.links.Circle c qs
            rw [hp, hl]
            exact ha
      inUse := h.inUse
      pending := h.pending
      sorted := h.sorted
      tracks := h.tracks.congr (fun _ hx => hx) (fun _ _ => rfl) fun x _ => by rw [ht]
      turn_ge := hge
      start_le := fun t e he => (h.start_le t e he).trans hn
      expired_le := fun t e he hp => (h.expired_le t e he hp).trans hn
      alarm := halarm }
  cases hir : s.ticker.t0ir with
  | true =>
      have hk := h₄ hir
      simp only [not_true_eq_false, and_false, if_false]
      refine key _ _ h₁ h₂ h₃ le_rfl h.turn_ge ?_
      rw [if_pos hk]
      exact h.due_or_stray hir
  | false =>
      have hr := h.running hir
      cases Q with
      | nil =>
          have hk := tick_of_disabled hr
          have hr : s.ticker.enabled = false := hr
          simp only [hr, Bool.false_eq_true, false_and, if_false]
          refine key _ _ h₁ h₂ h₃ le_rfl (by simp) ?_
          rw [hk, hir, if_neg Bool.false_ne_true]
          exact hr
      | cons c qs =>
          obtain ⟨hen, hlt, hlt', heq⟩ := hr
          have hc := fun t ht => h.turn_head_le (t := t) ht
          simp only [hen, Bool.false_eq_true, not_false_eq_true, and_self, if_true]
          refine key _ _ h₁ h₂ h₃ (Nat.le_succ _) (fun t ht => hlt.trans_le (hc t ht)) ?_
          have hT := s.ticker.t0mr0.isLt
          have hsucc : (s.ticker.timeCounter + 1).toNat = s.ticker.timeCounter.toNat + 1 := by
            have h1 : (1 : Int32U).toNat = 1 := rfl
            rw [BitVec.toNat_add, h1, Nat.mod_eq_of_lt (by omega)]
          by_cases hm : s.ticker.timeCounter + 1 = s.ticker.t0mr0
          · rw [tick_of_eq hen hm, if_pos rfl]
            have hm' := congrArg BitVec.toNat hm
            rw [hsucc] at hm'
            refine Or.inl ⟨fun c' hc' => ?_, fun t ht => ?_, hturn hen hir⟩
            · obtain rfl : c = c' := by simpa using hc'
              show s.turn c = s.counted + 1
              omega
            · have := h.turn_le ht
              show s.turn t < s.counted + 1 + 2 ^ 32
              omega
          · rw [tick_of_ne hen hm]
            simp only [hir, Bool.false_eq_true, if_false]
            have hm' : s.ticker.timeCounter.toNat + 1 ≠ s.ticker.t0mr0.toNat := fun h' =>
              hm (BitVec.eq_of_toNat_eq (hsucc.trans h'))
            refine ⟨hen, ?_, ?_, ?_⟩
            · show s.counted + 1 < s.turn c
              omega
            · show s.turn c < s.counted + 1 + 2 ^ 32
              omega
            · show (s.ticker.timeCounter + 1).toNat + s.turn c = s.ticker.t0mr0.toNat + (s.counted + 1)
              omega

/-! ### `OS_timer_add` -/

/-- The word `LeftTime` of a counter that runs towards the turn of the current timer. -/
lemma getLeftTime_eq {c : Int32U} {qs : List Int32U} (hr : Running s (c :: qs)) :
    s.ticker.getLeftTime = BitVec.ofNat 32 (s.turn c - s.counted) := by
  obtain ⟨-, hlt, hlt', heq⟩ := hr
  have hT := s.ticker.t0mr0.isLt
  apply BitVec.eq_of_toNat_eq
  rw [getLeftTime, BitVec.toNat_sub_of_le (BitVec.le_def.mpr (by omega)), BitVec.toNat_ofNat,
    Nat.mod_eq_of_lt (by omega)]
  omega

/-- The walk for the place of a timer. `A` holds of the nodes that the walk passes, because
it does not stop at them; it ends at a node of which it holds, where it stops or where the ring
ends. -/
lemma exists_findPlace {k : Ticker} {c T : Int32U} {qs : List Int32U} (hc : k.osPTimer = c)
    (hr : k.links.Circle c qs) {A : Int32U → Prop}
    (hstep : ∀ l p u l', c :: qs = l ++ p :: u :: l' → A p →
      ¬ T - k.time p ≤ k.time u - k.time p → A u)
    (suf : List Int32U) {m : List Int32U} {p : Int32U} {fuel : ℕ}
    (hQ : c :: qs = m ++ p :: suf) (hfuel : suf.length < fuel) (hp : A p) :
    ∃ l₁ q l₂, k.findPlace T fuel p = some q ∧ c :: qs = l₁ ++ q :: l₂ ∧ A q ∧
      ∀ u ∈ l₂.head?, T - k.time q ≤ k.time u - k.time q := by
  induction suf generalizing m p fuel with
  | nil =>
      obtain ⟨fuel, rfl⟩ := Nat.exists_eq_add_of_lt hfuel
      have hnext : k.links.next p = c := hr.next_of_eq hQ
      refine ⟨m, p, [], ?_, hQ, hp, by simp⟩
      rw [findPlace, if_pos (hc.trans hnext.symm)]
  | cons u suf ih =>
      obtain ⟨fuel, rfl⟩ : ∃ n, fuel = n + 1 := ⟨fuel - 1, by omega⟩
      have hnext : k.links.next p = u := hr.next_of_eq hQ
      have hcu : c ≠ u := by
        rintro rfl
        have hnd := hr.nodup
        cases m with
        | nil =>
            obtain ⟨rfl, rfl⟩ : c = p ∧ qs = c :: suf := by simpa using hQ
            simp at hnd
        | cons a m =>
            obtain ⟨rfl, rfl⟩ : c = a ∧ qs = m ++ p :: c :: suf := by simpa using hQ
            simp at hnd
      rw [findPlace, hnext, hc, if_neg hcu]
      by_cases hstop : T - k.time p ≤ k.time u - k.time p
      · exact ⟨m, p, u :: suf, if_pos hstop, hQ, hp, by simpa using hstop⟩
      · rw [if_neg hstop]
        refine ih (m := m ++ [p]) (by simpa using hQ) ?_ (hstep m p u suf hQ hp hstop)
        simpa using hfuel

lemma linkAfter_next (L : Links Int32U) (t p y : Int32U) : (linkAfter L t p).next y =
    if y = p then t else if y = t then L.next p else L.next y := by
  simp [linkAfter, Links.setNext_next]

lemma linkAfter_prev {L : Links Int32U} {t p : Int32U} (h : p ≠ t) (hn : L.next p ≠ t)
    (y : Int32U) : (linkAfter L t p).prev y =
    if y = t then p else if y = L.next p then t else L.prev y := by
  simp only [linkAfter, Links.setNext_prev, Links.setPrev_prev, Links.setPrev_next,
    Links.setNext_next, if_neg h]
  by_cases hy : y = t
  · simp [hy, hn.symm]
  · simp [hy]

lemma turn_added {k : Ticker} {ms : Int32U} : (s.added k t ms).turn t = s.counted + ms.toNat := by
  simp [turn, added, Entry.turn, Entry.Pending]

lemma turn_added_of_ne {k : Ticker} {ms u : Int32U} (hu : u ≠ t) :
    (s.added k t ms).turn u = s.turn u := by
  simp [turn, added, Function.update_of_ne hu]

/-- A new timer `t` in the ring, wherever the code has put it. -/
lemma insert (h : Inv s Q) (ht0 : t ≠ 0) {k : Ticker} {ms : Int32U} {Q' : List Int32U}
    (hQ' : ∀ u, u ∈ Q' ↔ u = t ∨ u ∈ Q)
    (hfree : ∀ u, s.entry u = none → u ≠ t →
      k.links.next u = s.ticker.links.next u ∧ k.links.prev u = s.ticker.links.prev u)
    (hpaired : k.links.Paired (Insert.insert t s.linked)) (hactive : Active k Q')
    (hsorted : Q'.Pairwise fun u v => (s.added k t ms).turn u ≤ (s.added k t ms).turn v)
    (htracks : Tracks (s.added k t ms).turn k.time Q')
    (halarm : k.t0ir = false ∧ Running (s.added k t ms) Q') : Inv (s.added k t ms) Q' where
  null := (Function.update_of_ne ht0.symm _ _).trans h.null
  free u hu := by
    by_cases hut : u = t
    · simp [added, hut] at hu
    · simp only [added, Function.update_of_ne hut] at hu
      show k.links.next u = 0 ∧ k.links.prev u = 0
      rw [(hfree u hu hut).1, (hfree u hu hut).2]
      exact h.free u hu
  paired := by
    have hl : (s.added k t ms).linked = Insert.insert t s.linked := by
      ext u
      by_cases hut : u = t <;> simp [linked, added, hut]
    rw [hl]
    exact hpaired
  active := hactive
  inUse u hu := by
    by_cases hut : u = t
    · simp [added, hut]
    · simpa [added, Function.update_of_ne hut] using h.inUse u (((hQ' u).mp hu).resolve_left hut)
  pending u e he hp := by
    by_cases hut : u = t
    · exact (hQ' u).mpr (Or.inl hut)
    · simp only [added, Function.update_of_ne hut] at he
      exact (hQ' u).mpr (Or.inr (h.pending u e he hp))
  sorted := hsorted
  tracks := htracks
  turn_ge u hu := by
    by_cases hut : u = t
    · rw [hut, turn_added]
      exact Nat.le_add_right _ _
    · rw [turn_added_of_ne hut]
      exact h.turn_ge u (((hQ' u).mp hu).resolve_left hut)
  start_le u e he := by
    by_cases hut : u = t
    · obtain rfl : _ = e := by simpa [added, hut] using he
      exact le_rfl
    · simp only [added, Function.update_of_ne hut] at he
      exact h.start_le u e he
  expired_le u e he hp := by
    by_cases hut : u = t
    · obtain rfl : _ = e := by simpa [added, hut] using he
      exact absurd rfl hp
    · simp only [added, Function.update_of_ne hut] at he
      exact h.expired_le u e he hp
  alarm := by
    have hir : (s.added k t ms).ticker.t0ir = false := halarm.1
    rw [if_neg (by simp [hir])]
    exact halarm.2

lemma notMem_of_entry (h : Inv s Q) (ht : s.entry t = none) : t ∉ Q := fun hm => h.inUse t hm ht

/-- Linking an unused timer behind one in use changes no link of the other unused timers. -/
lemma linkAfter_free (h : Inv s Q) {p u : Int32U} (hp : p ∈ s.linked) (hpt : p ≠ t)
    (hnt : s.ticker.links.next p ≠ t) (hu : s.entry u = none) (hut : u ≠ t) :
    (linkAfter s.ticker.links t p).next u = s.ticker.links.next u ∧
      (linkAfter s.ticker.links t p).prev u = s.ticker.links.prev u := by
  have hup : u ≠ p := fun h' => hp (h' ▸ hu)
  have hun : u ≠ s.ticker.links.next p := fun h' => (h.paired p hp).1 (h' ▸ hu)
  rw [linkAfter_next, linkAfter_prev hpt hnt, if_neg hup, if_neg hut, if_neg hut, if_neg hun]
  exact ⟨rfl, rfl⟩

/-- The add to an empty ring. -/
lemma add_nil (h : Inv s []) (hir : s.ticker.t0ir = false) (ht0 : t ≠ 0)
    (ht : s.entry t = none) {ms : Int32U} (hms : ms ≠ 0) :
    ∃ k, s.ticker.osTimerAdd t ms = some k ∧ Inv (s.added k t ms) [t] ∧
      k.t0ir = false := by
  have hms' : 0 < ms.toNat := Nat.pos_of_ne_zero fun h0 => hms (BitVec.eq_of_toNat_eq h0)
  refine ⟨{ s.ticker with
      osPTimer := t
      links := (s.ticker.links.setNext t t).setPrev t t
      time := Function.update s.ticker.time t ms
      t0mr0 := ms
      timeCounter := 0
      enabled := true }, ?_, ?_, hir⟩
  · have hp : s.ticker.osPTimer = 0 := h.active
    rw [osTimerAdd, if_pos hp, replace, setTime_of_ne hms]
  refine h.insert ht0 (by simp) (fun u _ hut => ?_) ?_ ⟨rfl, ?_⟩ (by simp) ?_ ⟨hir, ?_⟩
  · simp [Links.setNext_next, Links.setPrev_prev, hut]
  · refine h.paired.self (by simp [linked, ht]) (fun y => ?_) fun y => ?_
    · simp [Links.setNext_next]
    · simp [Links.setPrev_prev]
  · rw [Links.Circle, isRing_nil]
    simp [Links.setNext_next, Links.setPrev_prev]
  · refine ⟨ms - BitVec.ofNat 32 (s.counted + ms.toNat), fun u hu => ?_⟩
    obtain rfl : u = t := by simpa using hu
    rw [turn_added]
    show Function.update s.ticker.time u ms u = _
    rw [Function.update_self]
    ring
  · have hlt := ms.isLt
    refine ⟨rfl, ?_, ?_, ?_⟩
    · rw [turn_added]
      exact Nat.lt_add_of_pos_right hms'
    · rw [turn_added]
      exact Nat.add_lt_add_left hlt _
    · rw [turn_added]
      show (0 : Int32U).toNat + (s.counted + ms.toNat) = ms.toNat + s.counted
      simp [Nat.add_comm]

/-- The words of the ring and of the new timer follow their turns. -/
lemma tracks_added {c : Int32U} {qs : List Int32U} (h : Inv s (c :: qs))
    (hr : Running s (c :: qs)) (ht : s.entry t = none) (ms : Int32U) (k : Ticker) :
    Tracks (s.added k t ms).turn (Function.update s.ticker.time t
      (s.ticker.time c + ms - s.ticker.getLeftTime)) (t :: c :: qs) := by
  have hne : ∀ u ∈ c :: qs, u ≠ t := fun u hu h' => h.notMem_of_entry ht (h' ▸ hu)
  have hc : c ∈ c :: qs := List.mem_cons_self
  refine Tracks.cons (h.tracks.congr (fun _ hx => hx) (fun u hu => ?_) fun u hu => ?_) hc ?_
  · rw [turn_added_of_ne (hne u hu)]
  · rw [Function.update_of_ne (hne u hu)]
  · have hge := h.turn_ge c hc
    have hturn : BitVec.ofNat 32 (s.turn c) =
        BitVec.ofNat 32 (s.turn c - s.counted) + BitVec.ofNat 32 s.counted := by
      rw [← BitVec.ofNat_add, Nat.sub_add_cancel hge]
    have hms : BitVec.ofNat 32 (s.counted + ms.toNat) = BitVec.ofNat 32 s.counted + ms := by
      rw [BitVec.ofNat_add, BitVec.ofNat_toNat, BitVec.setWidth_eq]
    rw [Function.update_self, Function.update_of_ne (hne c hc), turn_added,
      turn_added_of_ne (hne c hc), getLeftTime_eq hr, hms, hturn]
    ring

/-- The add to a ring with a current timer, no match waiting. -/
lemma add_cons {c : Int32U} {qs : List Int32U} (h : Inv s (c :: qs))
    (hir : s.ticker.t0ir = false) (ht0 : t ≠ 0) (ht : s.entry t = none) {ms : Int32U}
    (hms : ms ≠ 0) : ∃ k Q', s.ticker.osTimerAdd t ms = some k ∧ Inv (s.added k t ms) Q' ∧
      (∀ u ∈ Q', u = t ∨ u ∈ c :: qs) ∧ k.t0ir = false := by
  have hr := h.running hir
  obtain ⟨hen, hlt, hlt', heq⟩ := h.running hir
  obtain ⟨hc, hring⟩ := h.active
  have hne : ∀ u ∈ c :: qs, u ≠ t := fun u hu h' => h.notMem_of_entry ht (h' ▸ hu)
  have htQ : t ∉ c :: qs := h.notMem_of_entry ht
  have hms' : 0 < ms.toNat := Nat.pos_of_ne_zero fun h0 => hms (BitVec.eq_of_toNat_eq h0)
  have hmslt := ms.isLt
  have hc0 : s.ticker.osPTimer ≠ 0 := by
    rw [hc]
    exact h.ne_zero List.mem_cons_self
  -- what the comparisons of the walk say about turns
  have htr := h.tracks_added hr ht ms s.ticker
  set Time := s.ticker.time c + ms - s.ticker.getLeftTime with hTime
  set word := Function.update s.ticker.time t Time with hword
  set key := (s.added s.ticker t ms).turn with hkey
  have hkt : key t = s.counted + ms.toNat := turn_added
  have hkey' : ∀ u ∈ c :: qs, key u = s.turn u := fun u hu => turn_added_of_ne (hne u hu)
  have hwt : word t = Time := Function.update_self _ _ _
  have hmem : ∀ u ∈ c :: qs, u ∈ t :: c :: qs := fun u hu => List.mem_cons_of_mem t hu
  have hgt : ∀ u ∈ c :: qs, s.counted < key u := fun u hu => by
    rw [hkey' u hu]
    exact hlt.trans_le (h.turn_head_le hu)
  have hle : ∀ u ∈ c :: qs, key u ≤ s.counted + 2 ^ 32 := fun u hu => by
    rw [hkey' u hu]
    exact h.turn_le hu
  have hsorted : (c :: qs).Pairwise fun u v => key u ≤ key v := by
    refine h.sorted.imp_of_mem fun hu hv huv => ?_
    rw [hkey' _ hu, hkey' _ hv]
    exact huv
  have hnb : ∀ l p u l', c :: qs = l ++ p :: u :: l' → p ∈ c :: qs ∧ u ∈ c :: qs ∧ key p ≤ key u := by
    intro l p u l' hQ
    rw [hQ] at hsorted ⊢
    refine ⟨by simp, by simp, ?_⟩
    exact (List.pairwise_cons.mp (List.pairwise_append.mp hsorted).2.1).1 u List.mem_cons_self
  have hleft : s.ticker.getLeftTime ≤ ms ↔ key c ≤ key t := by
    rw [getLeftTime_eq hr, BitVec.le_def, BitVec.toNat_ofNat, Nat.mod_eq_of_lt (by omega), hkt,
      hkey' c List.mem_cons_self]
    omega
  have hlinked : ∀ u ∈ c :: qs, u ∈ s.linked := h.inUse
  -- the links after the walk has ended at `q`
  have hplace : ∀ l₁ q l₂, c :: qs = l₁ ++ q :: l₂ →
      (linkAfter s.ticker.links t q).Paired (Insert.insert t s.linked) ∧
      (∀ u, s.entry u = none → u ≠ t →
        (linkAfter s.ticker.links t q).next u = s.ticker.links.next u ∧
        (linkAfter s.ticker.links t q).prev u = s.ticker.links.prev u) ∧
      ∃ l, c :: l = l₁ ++ q :: t :: l₂ ∧ (linkAfter s.ticker.links t q).Circle c l := by
    intro l₁ q l₂ hQ
    have hq : q ∈ c :: qs := by
      rw [hQ]
      simp
    have hqt := hne q hq
    have hnt := hne _ (hring.next_mem hq)
    exact ⟨h.paired.insert (hlinked q hq) (by simp [linked, ht]) (linkAfter_next _ t q)
        (linkAfter_prev hqt hnt), fun u hu hut => h.linkAfter_free (hlinked q hq) hqt hnt hu hut,
      hring.insertAfter hQ htQ (linkAfter_next _ t q) (linkAfter_prev hqt hnt)⟩
  set k₁ : Ticker := { s.ticker with time := word } with hk₁
  have hadd : ∀ q, k₁.findPlace Time ringBound c = some q → s.ticker.osTimerAdd t ms =
      some (if s.ticker.getLeftTime ≤ ms then { k₁ with links := linkAfter s.ticker.links t q }
        else { k₁ with links := linkAfter s.ticker.links t q }.replace t ms) := by
    intro q hq
    rw [← hc] at hq
    exact osTimerAdd_eq hc0 (by rw [hTime, hc]) hq
  by_cases hct : key c ≤ key t
  · -- the new timer is not the first: the walk passes the timers that are due before it
    obtain ⟨l₁, q, l₂, hfind, hQ, hq, hstop⟩ := exists_findPlace (k := k₁) (T := Time) hc hring
      (A := fun p => key p ≤ key t) (fun l p u l' hQ hp hn => by
        obtain ⟨hpQ, huQ, hpu⟩ := hnb l p u l' hQ
        have h₁ := hgt p hpQ
        have h₂ := hle u huQ
        have hiff := htr.sub_le_iff List.mem_cons_self (hmem p hpQ) (hmem u huQ) hp
          (by omega) hpu (by omega)
        rw [hwt] at hiff
        exact (not_le.mp fun h' => hn (hiff.mpr h')).le) qs (m := []) rfl
      h.length_le hct
    obtain ⟨hpaired, hfree, l, hl, hcircle⟩ := hplace l₁ q l₂ hQ
    have hmem' : ∀ u, u ∈ c :: l ↔ u = t ∨ u ∈ c :: qs := fun u => by
      rw [hl, hQ]
      simp only [List.mem_append, List.mem_cons]
      tauto
    refine ⟨{ k₁ with links := linkAfter s.ticker.links t q }, c :: l, ?_, ?_,
      fun u hu => (hmem' u).mp hu, hir⟩
    · rw [hadd q hfind, if_pos (hleft.mpr hct)]
    refine h.insert ht0 hmem' hfree hpaired ⟨hc, hcircle⟩ ?_ ?_ ⟨hir, hen, ?_⟩
    · rw [hl]
      refine pairwise_insert (hQ ▸ hsorted) hq fun u hu => ?_
      obtain ⟨l', rfl⟩ : ∃ l', l₂ = u :: l' := by
        cases l₂ with
        | nil => simp at hu
        | cons v l' => exact ⟨l', by simpa using hu⟩
      obtain ⟨hqQ, huQ, hqu⟩ := hnb l₁ q u l' hQ
      have h₁ := hgt q hqQ
      have h₂ := hle u huQ
      refine (htr.sub_le_iff List.mem_cons_self (hmem q hqQ) (hmem u huQ) hq (by omega) hqu
        (by omega)).mp ?_
      rw [hwt]
      exact hstop u hu
    · exact htr.congr (fun u hu => List.mem_cons.mpr ((hmem' u).mp hu)) (fun _ _ => rfl)
        fun _ _ => rfl
    · rw [turn_added_of_ne (hne c List.mem_cons_self)]
      exact ⟨hlt, hlt', heq⟩
  · -- the new timer is due before all others: the walk passes the whole ring
    have hct := not_le.mp hct
    have hnot : ∀ l p u l', c :: qs = l ++ p :: u :: l' → ¬ Time - word p ≤ word u - word p := by
      intro l p u l' hQ
      obtain ⟨hpQ, huQ, hpu⟩ := hnb l p u l' hQ
      have h₁ := hle u huQ
      have hcp : key c ≤ key p := by
        rw [hkey' c List.mem_cons_self, hkey' p hpQ]
        exact h.turn_head_le hpQ
      have hlt := htr.lt_sub List.mem_cons_self (hmem p hpQ) (hmem u huQ) (hct.trans_le hcp) hpu
        (by omega)
      rw [hwt] at hlt
      exact BitVec.not_le.mpr hlt
    obtain ⟨l₁, q, l₂, hfind, hQ, -, hstop⟩ := exists_findPlace (k := k₁) (T := Time) hc hring
      (A := fun _ => True) (fun _ _ _ _ _ _ _ => trivial) qs (m := []) rfl h.length_le
      trivial
    obtain rfl : l₂ = [] := by
      cases l₂ with
      | nil => rfl
      | cons u l' => exact absurd (hstop u rfl) (hnot l₁ q u l' hQ)
    obtain ⟨hpaired, hfree, l, hl, hcircle⟩ := hplace l₁ q [] hQ
    have hl' : l = qs ++ [t] := by
      have h' : c :: l = (c :: qs) ++ [t] := by
        rw [hl, hQ]
        simp
      simpa using h'
    have hrot : (linkAfter s.ticker.links t q).Circle t (c :: qs) := by
      rw [hl'] at hcircle
      exact hcircle.rotate
    refine ⟨{ k₁ with
        links := linkAfter s.ticker.links t q
        osPTimer := t
        t0mr0 := ms
        timeCounter := 0
        enabled := true }, t :: c :: qs, ?_, ?_, fun u hu => List.mem_cons.mp hu, hir⟩
    · rw [hadd q hfind, if_neg fun h' => absurd (hleft.mp h') (not_le.mpr hct), replace,
        setTime_of_ne hms]
    refine h.insert ht0 (fun u => List.mem_cons) hfree hpaired ⟨rfl, hrot⟩ ?_ ?_
      ⟨hir, rfl, ?_, ?_, ?_⟩
    · refine List.pairwise_cons.mpr ⟨fun u hu => hct.le.trans ?_, hsorted⟩
      show key c ≤ key u
      rw [hkey' c List.mem_cons_self, hkey' u hu]
      exact h.turn_head_le hu
    · exact htr
    · rw [turn_added]
      exact Nat.lt_add_of_pos_right hms'
    · rw [turn_added]
      exact Nat.add_lt_add_left hmslt _
    · rw [turn_added]
      show (0 : Int32U).toNat + (s.counted + ms.toNat) = ms.toNat + s.counted
      simp [Nat.add_comm]

/-- **`OS_timer_add` keeps the invariant** when no match waits. -/
theorem add (h : Inv s Q) (hir : s.ticker.t0ir = false) (ht0 : t ≠ 0) (ht : s.entry t = none)
    {ms : Int32U} (hms : ms ≠ 0) : ∃ k Q', s.ticker.osTimerAdd t ms = some k ∧
      Inv (s.added k t ms) Q' ∧ (∀ u ∈ Q', u = t ∨ u ∈ Q) ∧ k.t0ir = false := by
  cases Q with
  | nil =>
      obtain ⟨k, hk, hinv, hkir⟩ := h.add_nil hir ht0 ht hms
      exact ⟨k, [t], hk, hinv, fun u hu => Or.inl (List.mem_singleton.mp hu), hkir⟩
  | cons c qs => exact h.add_cons hir ht0 ht hms

end Service.Inv

end ChinaOS.Ticker
