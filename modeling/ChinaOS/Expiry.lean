import ChinaOS.Alarm

/-!
How timers leave the alarm: by `OS_timer_del`, and by expiry.

* `Inv.del`: a deletion keeps the invariant, unless it takes away the current timer while a
  match waits that is not also that of the timer behind it.
* `expire_eq`: the loop of `systimer_exception` goes as far as the `Time` words are equal.
* `Inv.exception`: serving a match keeps the invariant, and makes the threads of those timers
  ready whose turn it is.
-/

namespace ChinaOS.Ticker

open Ring Deadline

section Hardware

variable {k : Ticker}

lemma unlink_next (t y : Int32U) : (k.unlink t).links.next y =
    if y = t then 0 else if y = k.links.prev t then k.links.next t else k.links.next y := by
  simp [unlink, Links.setNext_next]

lemma unlink_prev (t y : Int32U) : (k.unlink t).links.prev y =
    if y = t then 0 else if y = k.links.next t then k.links.prev t else k.links.prev y := by
  simp [unlink, Links.setPrev_prev, Links.setNext_next]

lemma setTime_frame (T : Int32U) : (k.setTime T).osPTimer = k.osPTimer ∧
    (k.setTime T).links = k.links ∧ (k.setTime T).time = k.time ∧
    (k.t0ir = true → (k.setTime T).t0ir = true) := by
  rw [setTime, matchMr0]
  split_ifs <;> simp

lemma passOn_of_ne {t : Int32U} (h : t ≠ k.osPTimer) : k.passOn t = k := by
  rw [passOn, if_neg h]

lemma passOn_of_only (h : k.links.next k.osPTimer = k.osPTimer) :
    k.passOn k.osPTimer = { k with enabled := false, timeCounter := 0, osPTimer := 0 } := by
  rw [passOn, if_pos rfl, if_pos h.symm]

lemma passOn_of_next {u : Int32U} (h : k.links.next k.osPTimer = u) (hu : u ≠ k.osPTimer) :
    k.passOn k.osPTimer =
      { k with osPTimer := u }.setTime (k.time u - k.time k.osPTimer + k.getLeftTime) := by
  rw [passOn, if_pos rfl, if_neg (by rw [h]; exact hu.symm)]
  simp only [h]

end Hardware

namespace Service.Inv

variable {s s' : Service} {Q : List Int32U} {t : Int32U} {e : Entry}

/-! ### `OS_timer_del` -/

lemma turn_deleted_of_ne {k : Ticker} {u : Int32U} (hu : u ≠ t) :
    (s.deleted k t).turn u = s.turn u := by
  simp [turn, deleted, Function.update_of_ne hu]

/-- The ring after a timer has been unlinked from whichever ring it is on. -/
lemma circle_unlink {c : Int32U} {qs : List Int32U} (h : Inv s (c :: qs)) (ht : s.entry t ≠ none)
    (htc : t ≠ c) {L : Links Int32U}
    (hn : ∀ y, y ≠ t → L.next y =
      if y = s.ticker.links.prev t then s.ticker.links.next t else s.ticker.links.next y)
    (hp : ∀ y, y ≠ t → L.prev y =
      if y = s.ticker.links.next t then s.ticker.links.prev t else s.ticker.links.prev y) :
    L.Circle c (qs.erase t) := by
  have hring := h.active.2
  by_cases hmem : t ∈ qs
  · obtain ⟨l₁, l₂, hnot, rfl, herase⟩ := List.exists_erase_eq hmem
    rw [herase]
    exact hring.removeOf hn hp
  · rw [List.erase_of_not_mem hmem]
    have hmem : t ∉ c :: qs := by simp [htc, hmem]
    obtain ⟨-, -, hpn, hnp⟩ := h.paired t ht
    refine hring.congr (fun y hy => ?_) fun y hy => ?_
    · have hyp : y ≠ s.ticker.links.prev t := fun h' => hmem (by
        rw [← hnp, ← h']
        exact hring.next_mem hy)
      rw [hn y fun h' => hmem (h' ▸ hy), if_neg hyp]
    · have hyn : y ≠ s.ticker.links.next t := fun h' => hmem (by
        rw [← hpn, ← h']
        exact hring.prev_mem hy)
      rw [hp y fun h' => hmem (h' ▸ hy), if_neg hyn]

/-- A timer leaves the service, wherever it was linked. -/
lemma remove (h : Inv s Q) (ht : s.entry t ≠ none) {k : Ticker}
    (hactive : Active (k.unlink t) (Q.erase t)) (hlinks : k.links = s.ticker.links)
    (htime : k.time = s.ticker.time)
    (halarm : if k.t0ir then Due (s.deleted (k.unlink t) t) (Q.erase t) ∨
        Stray (s.deleted (k.unlink t) t) (Q.erase t)
      else Running (s.deleted (k.unlink t) t) (Q.erase t)) :
    Inv (s.deleted (k.unlink t) t) (Q.erase t) := by
  have hne : ∀ u ∈ Q.erase t, u ≠ t ∧ u ∈ Q := fun u hu => (h.nodup.mem_erase_iff).mp hu
  have hentry : ∀ u e, (s.deleted (k.unlink t) t).entry u = some e →
      u ≠ t ∧ s.entry u = some e := by
    intro u e he
    by_cases hut : u = t
    · simp [deleted, hut] at he
    · exact ⟨hut, by simpa [deleted, Function.update_of_ne hut] using he⟩
  have hlinked : (s.deleted (k.unlink t) t).linked = s.linked \ {t} := by
    ext u
    by_cases hut : u = t <;> simp [linked, deleted, hut]
  obtain ⟨hn, hp, -, -⟩ := h.paired t ht
  exact {
    null := by
      have h0 : t ≠ 0 := fun h' => ht (h' ▸ h.null)
      exact (Function.update_of_ne h0.symm _ _).trans h.null
    free := fun u hu => by
      show (k.unlink t).links.next u = 0 ∧ (k.unlink t).links.prev u = 0
      rw [unlink_next, unlink_prev, hlinks]
      by_cases hut : u = t
      · simp [hut]
      · have hu' : s.entry u = none := by simpa [deleted, Function.update_of_ne hut] using hu
        have hup : u ≠ s.ticker.links.prev t := fun h' => hp (h' ▸ hu')
        have hun : u ≠ s.ticker.links.next t := fun h' => hn (h' ▸ hu')
        rw [if_neg hut, if_neg hup, if_neg hut, if_neg hun]
        exact h.free u hu'
    paired := by
      rw [hlinked]
      refine h.paired.remove ht (fun y hy => ?_) fun y hy => ?_
      · show (k.unlink t).links.next y = _
        rw [unlink_next, if_neg hy, hlinks]
      · show (k.unlink t).links.prev y = _
        rw [unlink_prev, if_neg hy, hlinks]
    active := hactive
    inUse := fun u hu => by
      obtain ⟨hut, hu⟩ := hne u hu
      simpa [deleted, Function.update_of_ne hut] using h.inUse u hu
    pending := fun u e he hpe => by
      obtain ⟨hut, he⟩ := hentry u e he
      exact (h.nodup.mem_erase_iff).mpr ⟨hut, h.pending u e he hpe⟩
    sorted := by
      refine (h.sorted.sublist List.erase_sublist).imp_of_mem fun hu hv huv => ?_
      rw [turn_deleted_of_ne (hne _ hu).1, turn_deleted_of_ne (hne _ hv).1]
      exact huv
    tracks := by
      refine h.tracks.congr (fun u hu => (hne u hu).2) (fun u hu => ?_) fun u hu => ?_
      · rw [turn_deleted_of_ne (hne u hu).1]
      · show Function.update k.time t 0 u = _
        rw [Function.update_of_ne (hne u hu).1, htime]
    turn_ge := fun u hu => by
      rw [turn_deleted_of_ne (hne u hu).1]
      exact h.turn_ge u (hne u hu).2
    start_le := fun u e he => h.start_le u e (hentry u e he).2
    expired_le := fun u e he hpe => h.expired_le u e (hentry u e he).2 hpe
    alarm := halarm }

/-- A match that waits for a pending timer still waits when a timer behind it has left. -/
lemma due_deleted {P : List Int32U} (hd : Due s Q) (hP : ∀ u ∈ P, u ≠ t ∧ u ∈ Q)
    (hhead : ∀ c ∈ P.head?, s.turn c = s.counted) (k : Ticker) : Due (s.deleted k t) P := by
  refine ⟨fun c hc => ?_, fun u hu => ?_, fun u hu e he hpe => ?_⟩
  · rw [turn_deleted_of_ne (hP c (List.mem_of_mem_head? hc)).1]
    exact hhead c hc
  · rw [turn_deleted_of_ne (hP u hu).1]
    exact hd.2.1 u (hP u hu).2
  · refine hd.2.2 u (hP u hu).2 e ?_ hpe
    simpa [deleted, Function.update_of_ne (hP u hu).1] using he

/-- Deleting a timer that is not the current one leaves the hardware alone. -/
lemma del_other (h : Inv s Q) (ht : s.entry t ≠ none) (hcur : t ≠ s.ticker.osPTimer) :
    Inv (s.deleted ((s.ticker.passOn t).unlink t) t) (Q.erase t) := by
  rw [passOn_of_ne hcur]
  have hP : ∀ u ∈ Q.erase t, u ≠ t ∧ u ∈ Q := fun u hu => (h.nodup.mem_erase_iff).mp hu
  cases Q with
  | nil =>
      refine h.remove ht h.active rfl rfl ?_
      have ha := h.alarm
      split_ifs at ha ⊢ with hir
      · exact Or.inl ⟨by simp, by simp, by simp⟩
      · exact ha
  | cons c qs =>
      obtain ⟨hc, -⟩ := h.active
      have htc : t ≠ c := fun h' => hcur (h'.trans hc.symm)
      have herase : (c :: qs).erase t = c :: qs.erase t := List.erase_cons_tail (by simpa using htc.symm)
      have hturn : ∀ k, (s.deleted k t).turn c = s.turn c := fun k => turn_deleted_of_ne htc.symm
      rw [herase] at hP
      refine h.remove ht ?_ rfl rfl ?_
      · rw [herase]
        refine ⟨hc, h.circle_unlink ht htc (fun y hy => ?_) fun y hy => ?_⟩
        · rw [unlink_next, if_neg hy]
        · rw [unlink_prev, if_neg hy]
      · have ha := h.alarm
        rw [herase]
        split_ifs at ha ⊢ with hir
        · rcases ha with hd | ⟨c', hc', hturn'⟩
          · exact Or.inl (due_deleted hd hP (fun c' hc' => hd.1 c' (by simpa using hc')) _)
          · obtain rfl : c = c' := by simpa using hc'
            exact Or.inr ⟨c, rfl, (hturn _).trans hturn'⟩
        · exact ⟨ha.1, (hturn _).symm ▸ ha.2.1, (hturn _).symm ▸ ha.2.2.1,
            (hturn _).symm ▸ ha.2.2.2⟩

/-- Deleting the only timer stops the counter. -/
lemma del_only {c : Int32U} (h : Inv s [c]) (hc : s.ticker.osPTimer = c) :
    Inv (s.deleted ((s.ticker.passOn c).unlink c) c) ([c].erase c) := by
  have hring := h.active.2
  have hnext : s.ticker.links.next s.ticker.osPTimer = s.ticker.osPTimer := by
    rw [hc]
    exact (isRing_nil.mp hring).1
  have hpass := passOn_of_only hnext
  rw [hc] at hpass
  rw [hpass]
  refine h.remove (h.inUse c List.mem_cons_self) ?_ rfl rfl ?_
  · rw [List.erase_cons_head]
    rfl
  · rw [List.erase_cons_head]
    split_ifs with hir
    · exact Or.inl ⟨by simp, by simp, by simp⟩
    · rfl

/-- Deleting the current timer makes the next one current, and sets the alarm to what is left
until its turn: to nothing, if it has just expired. -/
lemma del_current {c u : Int32U} {qs : List Int32U} (h : Inv s (c :: u :: qs))
    (hc : s.ticker.osPTimer = c)
    (hsafe : s.ticker.t0ir = true → s.ticker.time u = s.ticker.time c) :
    Inv (s.deleted ((s.ticker.passOn c).unlink c) c) ((c :: u :: qs).erase c) := by
  have hring := h.active.2
  have hcQ : c ∈ c :: u :: qs := List.mem_cons_self
  have huQ : u ∈ c :: u :: qs := by simp
  have huc : u ≠ c := by
    rintro rfl
    simpa using h.nodup
  have hnext : s.ticker.links.next s.ticker.osPTimer = u := by
    rw [hc]
    exact hring.next_head
  have hpass := passOn_of_next hnext (by rw [hc]; exact huc)
  rw [hc] at hpass
  set D := s.ticker.time u - s.ticker.time c + s.ticker.getLeftTime with hD
  have hcu : s.turn c ≤ s.turn u := h.turn_head_le huQ
  have hule := h.turn_le huQ
  have hP : ∀ v ∈ u :: qs, v ≠ c ∧ v ∈ c :: u :: qs := by
    intro v hv
    refine ⟨?_, List.mem_cons_of_mem c hv⟩
    rintro rfl
    exact (List.nodup_cons.mp h.nodup).1 hv
  set k₁ : Ticker := { s.ticker with osPTimer := u } with hk₁
  have hframe := setTime_frame (k := k₁) D
  have hturn : ∀ k, (s.deleted k c).turn u = s.turn u := fun k => turn_deleted_of_ne huc
  -- the rest of the ring, from the new current timer on
  have hrot : s.ticker.links.Circle u (qs ++ c :: []) := by
    have h' : s.ticker.links.Circle c ([] ++ u :: qs) := hring
    exact h'.rotate
  rw [hpass]
  refine h.remove (h.inUse c hcQ) ?_ hframe.2.1 hframe.2.2.1 ?_
  · rw [List.erase_cons_head]
    refine ⟨hframe.1, ?_⟩
    have hrem : ((k₁.setTime D).unlink c).links.Circle u (qs ++ []) := hrot.removeOf
      (fun y hy => by rw [unlink_next, if_neg hy, hframe.2.1])
      (fun y hy => by rw [unlink_prev, if_neg hy, hframe.2.1])
    rwa [List.append_nil] at hrem
  · rw [List.erase_cons_head]
    cases Bool.eq_false_or_eq_true s.ticker.t0ir with
    | inl hir =>
        rw [if_pos (hframe.2.2.2 hir)]
        rcases h.due_or_stray hir with hd | ⟨c', hc', hturn'⟩
        · refine Or.inl (due_deleted hd hP (fun v hv => ?_) _)
          obtain rfl : u = v := by simpa using hv
          have hlt := hd.2.1 u huQ
          have hcc := hd.1 c rfl
          rw [← hcc]
          exact (h.tracks.eq_iff huQ hcQ hcu (by omega)).mp (hsafe hir)
        · obtain rfl : c = c' := by simpa using hc'
          refine Or.inr ⟨u, rfl, (hturn _).trans ?_⟩
          exact le_antisymm hule (hturn' ▸ hcu)
    | inr hir =>
        have hr := h.running hir
        obtain ⟨hen, hlt, hlt', heq⟩ := h.running hir
        have hDnat : D = BitVec.ofNat 32 (s.turn u - s.counted) := by
          have hu : BitVec.ofNat 32 (s.turn u) =
              BitVec.ofNat 32 (s.turn u - s.counted) + BitVec.ofNat 32 s.counted := by
            rw [← BitVec.ofNat_add, Nat.sub_add_cancel (h.turn_ge u huQ)]
          have hc' : BitVec.ofNat 32 (s.turn c) =
              BitVec.ofNat 32 (s.turn c - s.counted) + BitVec.ofNat 32 s.counted := by
            rw [← BitVec.ofNat_add, Nat.sub_add_cancel (h.turn_ge c hcQ)]
          rw [hD, h.tracks.sub huQ hcQ, getLeftTime_eq hr, hu, hc']
          ring
        rcases hule.lt_or_eq with hlt₂ | heq₂
        · have hDval : D.toNat = s.turn u - s.counted := by
            rw [hDnat, BitVec.toNat_ofNat, Nat.mod_eq_of_lt (by omega)]
          have hD0 : D ≠ 0 := by
            intro h0
            rw [h0] at hDval
            simp at hDval
            omega
          rw [setTime_of_ne hD0, if_neg (by simp [hk₁, hir])]
          refine ⟨rfl, ?_, ?_, ?_⟩
          · rw [hturn]
            exact hlt.trans_le hcu
          · rw [hturn]
            exact hlt₂
          · rw [hturn]
            show (0 : Int32U).toNat + s.turn u = D.toNat + s.counted
            rw [hDval, Nat.sub_add_cancel (h.turn_ge u huQ)]
            simp
        · have hD0 : D = 0 := by
            rw [hDnat, heq₂, Nat.add_sub_cancel_left]
            rfl
          rw [hD0, setTime_zero, if_pos rfl]
          exact Or.inr ⟨u, rfl, (hturn _).trans heq₂⟩

/-- The links of a timer in use are not `NULL`. -/
lemma links_ne_zero (h : Inv s Q) (ht : s.entry t ≠ none) :
    ¬ (s.ticker.links.prev t = 0 ∨ s.ticker.links.next t = 0) := by
  obtain ⟨hn, hp, -, -⟩ := h.paired t ht
  rintro (h0 | h0)
  · exact hp (h0 ▸ h.null)
  · exact hn (h0 ▸ h.null)

lemma step_del (h : Inv s Q) (ht : s.entry t ≠ none) :
    s.step (.del t) = some (s.deleted ((s.ticker.passOn t).unlink t) t) := by
  simp only [step, osTimerDel, if_neg (h.links_ne_zero ht)]

/-- Deleting a timer that is not in use is refused. -/
lemma step_del_free (h : Inv s Q) (ht : s.entry t = none) : s.step (.del t) = some s := by
  simp only [step, osTimerDel, if_pos (Or.inr (h.free t ht).1 : s.ticker.links.prev t = 0 ∨ _)]

/-- **`OS_timer_del` keeps the invariant**, unless it takes away the current timer while a
match waits and the timer behind it is not due as well. -/
theorem del (h : Inv s Q)
    (hsafe : s.ticker.t0ir = true → t = s.ticker.osPTimer → s.ticker.links.next t ≠ t →
      s.ticker.time (s.ticker.links.next t) = s.ticker.time t)
    (hs : s.step (.del t) = some s') : Inv s' (Q.erase t) := by
  by_cases ht : s.entry t = none
  · rw [h.step_del_free ht] at hs
    obtain rfl : s = s' := Option.some.inj hs
    rwa [List.erase_of_not_mem (h.notMem_of_entry ht)]
  · rw [h.step_del ht] at hs
    obtain rfl : _ = s' := Option.some.inj hs
    by_cases hcur : t = s.ticker.osPTimer
    · have ha := h.active
      match Q, h, ha with
      | [], h, ha => exact absurd (hcur.trans ha) fun h0 => ht (h0 ▸ h.null)
      | [c], h, ⟨hc, _⟩ =>
          obtain rfl : t = c := hcur.trans hc
          exact h.del_only hc
      | c :: u :: qs, h, ⟨hc, hring⟩ =>
          obtain rfl : t = c := hcur.trans hc
          have hnext : s.ticker.links.next t = u := hring.next_head
          have hut : u ≠ t := by
            rintro rfl
            simpa using h.nodup
          refine h.del_current hc fun hir => ?_
          rw [← hnext]
          exact hsafe hir hcur (hnext ▸ hut)
    · exact h.del_other ht hcur

/-! ### `systimer_exception` -/

/-- The loop of `systimer_exception`, from a node `p` on: it makes ready the threads of the
timers `f` behind `p` that have the same `Time`, and ends at the first timer that has not, or
when all have. -/
lemma expire_eq {k : Ticker} {c T : Int32U} {qs : List Int32U} (hc : k.osPTimer = c)
    (hr : k.links.Circle c qs) (suf : List Int32U) {m : List Int32U} {p : Int32U} {fuel : ℕ}
    (hQ : c :: qs = m ++ p :: suf) (hfuel : suf.length < fuel)
    (hT : ∀ u ∈ m ++ [p], k.time u = T) :
    ∃ f R, suf = f ++ R ∧ (∀ u ∈ f, k.time u = T) ∧
      (R = [] ∧ k.expire T fuel p = some (p :: f, { k with osPTimer := 0, enabled := false }) ∨
        ∃ r ∈ R.head?, k.time r ≠ T ∧
          k.expire T fuel p = some (p :: f, { k.setTime (k.time r - T) with osPTimer := r })) := by
  have hp : k.time p = T := hT p (by simp)
  have hpQ : p ∈ c :: qs := by
    rw [hQ]
    simp
  induction suf generalizing m p fuel with
  | nil =>
      obtain ⟨fuel, rfl⟩ : ∃ n, fuel = n + 1 := ⟨fuel - 1, by simp at hfuel; omega⟩
      have hnext : k.links.next p = c := hr.next_of_eq hQ
      have hcT : k.time c = T := by
        cases m with
        | nil =>
            obtain ⟨rfl, -⟩ : c = p ∧ qs = [] := by simpa using hQ
            exact hp
        | cons a m =>
            obtain ⟨rfl, -⟩ : c = a ∧ qs = m ++ [p] := by simpa using hQ
            exact hT c (by simp)
      refine ⟨[], [], rfl, by simp, Or.inl ⟨rfl, ?_⟩⟩
      rw [expire]
      simp [hnext, hcT, hc]
  | cons u suf ih =>
      obtain ⟨fuel, rfl⟩ : ∃ n, fuel = n + 1 := ⟨fuel - 1, by simp at hfuel; omega⟩
      have hnext : k.links.next p = u := hr.next_of_eq hQ
      have hprev : k.links.prev u = p := by
        rw [← hnext]
        exact hr.prev_next hpQ
      by_cases hu : k.time u = T
      · have huc : u ≠ c := by
          rintro rfl
          have hnd := hr.nodup
          cases m with
          | nil =>
              obtain ⟨rfl, rfl⟩ : u = p ∧ qs = u :: suf := by simpa using hQ
              simp at hnd
          | cons a m =>
              obtain ⟨rfl, rfl⟩ : u = a ∧ qs = m ++ p :: u :: suf := by simpa using hQ
              simp at hnd
        have huQ : u ∈ c :: qs := by
          rw [hQ]
          simp
        obtain ⟨f, R, rfl, hf, hR⟩ := ih (m := m ++ [p]) (p := u)
          (by simpa using hQ) (by simpa using hfuel)
          (fun v hv => by
            rcases List.mem_append.mp hv with hv | hv
            · exact hT v hv
            · obtain rfl : v = u := by simpa using hv
              exact hu) hu huQ
        have hexp : k.expire T (fuel + 1) p = (k.expire T fuel u).map fun r => (p :: r.1, r.2) := by
          rw [expire]
          simp [hnext, hu, hc, huc]
        refine ⟨u :: f, R, rfl, ?_, ?_⟩
        · intro v hv
          rcases List.mem_cons.mp hv with rfl | hv
          · exact hu
          · exact hf v hv
        · rcases hR with ⟨rfl, hR⟩ | ⟨r, hr', hrT, hR⟩
          · exact Or.inl ⟨rfl, by rw [hexp, hR, Option.map_some]⟩
          · exact Or.inr ⟨r, hr', hrT, by rw [hexp, hR, Option.map_some]⟩
      · refine ⟨[], u :: suf, rfl, by simp, Or.inr ⟨u, rfl, hu, ?_⟩⟩
        rw [expire]
        simp [hnext, hprev, hp, Ne.symm hu]

lemma wake_of_notMem {F : List Int32U} (n : ℕ) (ht : t ∉ F) :
    wake F n s.entry t = s.entry t := by
  simp [wake, List.count_eq_zero_of_not_mem ht]

lemma wake_of_mem {F : List Int32U} (n : ℕ) (hF : F.Nodup) (ht : t ∈ F)
    (he : s.entry t = some e) :
    wake F n s.entry t = some { e with wakes := e.wakes ++ [n] } := by
  simp [wake, List.count_eq_one_of_mem hF ht, he]

lemma wake_eq_none (F : List Int32U) (n : ℕ) : wake F n s.entry t = none ↔ s.entry t = none := by
  rw [wake, Option.map_eq_none_iff]

/-- What the history of a timer is after its thread has been made ready, or not. -/
lemma entry_served {F : List Int32U} {k : Ticker} (hF : F.Nodup)
    (he : (s.served F k).entry t = some e) :
    t ∉ F ∧ s.entry t = some e ∨
      t ∈ F ∧ ∃ e₀, s.entry t = some e₀ ∧ e = { e₀ with wakes := e₀.wakes ++ [s.clock] } := by
  by_cases ht : t ∈ F
  · have hne : s.entry t ≠ none := fun h0 => by
      have := (wake_eq_none F s.clock).mpr h0
      simp [served, this] at he
    obtain ⟨e₀, he₀⟩ := Option.ne_none_iff_exists'.mp hne
    refine Or.inr ⟨ht, e₀, he₀, ?_⟩
    simpa [served, wake_of_mem _ hF ht he₀, eq_comm] using he
  · refine Or.inl ⟨ht, ?_⟩
    have he : wake F s.clock s.entry t = some e := he
    rwa [wake_of_notMem _ ht] at he

lemma turn_served_of_notMem {F : List Int32U} {k : Ticker} (ht : t ∉ F) :
    (s.served F k).turn t = s.turn t := by
  simp only [turn, served, wake_of_notMem _ ht]

/-- A pending timer that was served has its next turn a turn of the counter later. -/
lemma turn_served_of_mem {F : List Int32U} {k : Ticker} (hF : F.Nodup) (ht : t ∈ F)
    (he : s.entry t = some e) (hp : e.Pending) :
    (s.served F k).turn t = s.turn t + 2 ^ 32 := by
  simp [turn, served, wake_of_mem _ hF ht he, he, Entry.turn, Entry.Pending,
    (show e.wakes = [] from hp)]

/-- Timers are served: `F` are those whose turn it was, and `Q'` is left in the ring. -/
lemma serve (h : Inv s Q) {F Q' : List Int32U} (hF : F.Nodup)
    (hnow : ∀ t ∈ F, ∀ e, s.entry t = some e → e.start + e.delay.toNat ≤ s.counted)
    (hQ' : ∀ t ∈ Q', t ∈ Q) (hrest : ∀ t ∈ Q, t ∉ F → t ∈ Q') {k : Ticker}
    (hlinks : k.links = s.ticker.links) (htime : k.time = s.ticker.time) (hactive : Active k Q')
    (hsorted : Q'.Pairwise fun t u => (s.served F k).turn t ≤ (s.served F k).turn u)
    (hturn : ∀ t ∈ Q', BitVec.ofNat 32 ((s.served F k).turn t) = BitVec.ofNat 32 (s.turn t))
    (hge : ∀ t ∈ Q', s.counted ≤ (s.served F k).turn t)
    (halarm : k.t0ir = false ∧ Running (s.served F k) Q') : Inv (s.served F k) Q' where
  null := (wake_eq_none F s.clock).mpr h.null
  free t ht := by
    show k.links.next t = 0 ∧ k.links.prev t = 0
    rw [hlinks]
    exact h.free t ((wake_eq_none F s.clock).mp ht)
  paired := by
    have hl : (s.served F k).linked = s.linked := by
      ext t
      exact not_congr (wake_eq_none F s.clock)
    rw [hl]
    show k.links.Paired s.linked
    rw [hlinks]
    exact h.paired
  active := hactive
  inUse t ht := fun h0 => h.inUse t (hQ' t ht) ((wake_eq_none F s.clock).mp h0)
  pending t e he hp := by
    rcases entry_served hF he with ⟨hn, he⟩ | ⟨-, e₀, -, rfl⟩
    · exact hrest t (h.pending t e he hp) hn
    · simp [Entry.Pending] at hp
  sorted := hsorted
  tracks := h.tracks.congr hQ' hturn fun t _ => by
    show k.time t = _
    rw [htime]
  turn_ge := hge
  start_le t e he := by
    rcases entry_served hF he with ⟨-, he⟩ | ⟨-, e₀, he₀, rfl⟩
    · exact h.start_le t e he
    · exact h.start_le t e₀ he₀
  expired_le t e he hp := by
    rcases entry_served hF he with ⟨-, he⟩ | ⟨ht, e₀, he₀, rfl⟩
    · exact h.expired_le t e he hp
    · exact hnow t ht e₀ he₀
  alarm := by
    have hir : (s.served F k).ticker.t0ir = false := halarm.1
    rw [if_neg (by simp [hir])]
    exact halarm.2

/-- **`systimer_exception` keeps the invariant.** The timers served are those whose turn it is;
when the match is a pending timer's, all of them are pending. -/
theorem exception (h : Inv s Q) (hir : s.ticker.t0ir = true) :
    ∃ F k Q', s.ticker.systimerException = some (F, k) ∧ Inv (s.served F k) Q' ∧ F.Nodup ∧
      (∀ t ∈ F, t ∈ Q) ∧ (∀ t ∈ Q', t ∈ Q) ∧ k.t0ir = false ∧
      ∀ t ∈ F, ∀ e, s.entry t = some e →
        e.start + e.delay.toNat ≤ s.counted ∧ (e.Pending → e.start + e.delay.toNat = s.counted) ∧
        (Due s Q → e.Pending) := by
  set k₁ : Ticker := { s.ticker with t0ir := false } with hk₁
  have ha := h.active
  cases Q with
  | nil =>
      have hp : k₁.osPTimer = 0 := ha
      refine ⟨[], { k₁ with enabled := false }, [], ?_, ?_, List.nodup_nil, by simp, by simp, rfl,
        by simp⟩
      · rw [systimerException]
        exact if_pos hp
      · exact h.serve List.nodup_nil (by simp) (by simp) (by simp) rfl rfl hp (by simp)
          (by simp) (by simp) ⟨rfl, rfl⟩
  | cons c qs =>
      obtain ⟨hc, hring⟩ := ha
      have hc : k₁.osPTimer = c := hc
      have hcQ : c ∈ c :: qs := List.mem_cons_self
      obtain ⟨f, R, hqs, hf, hres⟩ := expire_eq (k := k₁) (T := s.ticker.time c) hc hring qs
        (m := []) rfl h.length_le (by simp [hk₁])
      subst hqs
      have hexc : s.ticker.systimerException =
          k₁.expire (s.ticker.time c) ringBound c := by
        have h0 : k₁.osPTimer ≠ 0 := by
          rw [hc]
          exact h.ne_zero hcQ
        rw [systimerException]
        simp only [← hk₁]
        rw [if_neg h0, hc]
      have hnd := h.nodup
      have hF : (c :: f).Nodup := by
        refine hnd.sublist ?_
        rw [← List.cons_append]
        exact List.sublist_append_left _ _
      have hFQ : ∀ t ∈ c :: f, t ∈ c :: (f ++ R) := fun t ht => by
        rw [← List.cons_append]
        exact List.mem_append_left R ht
      have hRQ : ∀ t ∈ R, t ∈ c :: (f ++ R) := fun t ht => by
        rw [← List.cons_append]
        exact List.mem_append_right (c :: f) ht
      have hRF : ∀ t ∈ R, t ∉ c :: f := fun t hR hf' => by
        rw [← List.cons_append] at hnd
        exact (List.nodup_append.mp hnd).2.2 t hf' t hR rfl
      have hcle := fun t ht => h.turn_head_le (t := t) ht
      have htime : ∀ t ∈ c :: f, s.ticker.time t = s.ticker.time c := fun t ht => by
        rcases List.mem_cons.mp ht with rfl | ht
        · rfl
        · exact hf t ht
      rw [hexc]
      -- the ring is left empty when all its timers are served
      have hempty : R = [] → (∀ t ∈ c :: f, ∀ e, s.entry t = some e →
          e.start + e.delay.toNat ≤ s.counted) →
          Inv (s.served (c :: f) { k₁ with osPTimer := 0, enabled := false }) [] := by
        rintro rfl hnow
        refine h.serve hF hnow (by simp) (fun t ht hn => ?_) rfl rfl rfl (by simp) (by simp)
          (by simp) ⟨rfl, rfl⟩
        rw [List.append_nil] at ht
        exact absurd ht hn
      rcases h.due_or_stray hir with hd | ⟨c', hc', hstray⟩
      · have hcnow : s.turn c = s.counted := hd.1 c rfl
        have heq : ∀ t ∈ c :: (f ++ R), s.ticker.time t = s.ticker.time c ↔ s.turn t = s.turn c :=
          fun t ht => h.tracks.eq_iff ht hcQ (hcle t ht) (by rw [hcnow]; exact hd.2.1 t ht)
        have hnow : ∀ t ∈ c :: f, s.turn t = s.counted := fun t ht =>
          ((heq t (hFQ t ht)).mp (htime t ht)).trans hcnow
        have hpend : ∀ t ∈ c :: f, ∀ e, s.entry t = some e →
            e.Pending ∧ e.start + e.delay.toNat = s.counted := by
          intro t ht e he
          have hturn := hnow t ht
          rw [turn_of_entry he] at hturn
          have hp : e.Pending := by
            by_contra hp
            exact absurd hturn (hd.2.2 t (hFQ t ht) e he hp).ne'
          refine ⟨hp, ?_⟩
          rwa [Entry.turn, if_pos hp] at hturn
        have hlaw : ∀ t ∈ c :: f, ∀ e, s.entry t = some e → e.start + e.delay.toNat ≤ s.counted ∧
            (e.Pending → e.start + e.delay.toNat = s.counted) ∧
            (Due s (c :: (f ++ R)) → e.Pending) := fun t ht e he =>
          ⟨(hpend t ht e he).2.le, fun _ => (hpend t ht e he).2, fun _ => (hpend t ht e he).1⟩
        rcases hres with ⟨hR, hexp⟩ | ⟨r, hr, hrT, hexp⟩
        · exact ⟨c :: f, _, [], hexp, hempty hR fun t ht e he => (hlaw t ht e he).1, hF, hFQ,
            by simp, rfl, hlaw⟩
        · obtain ⟨R', rfl⟩ : ∃ R', R = r :: R' := by
            cases R with
            | nil => simp at hr
            | cons a R' => exact ⟨R', by simpa using hr⟩
          have hrQ := hRQ r List.mem_cons_self
          have hrturn : s.counted < s.turn r := by
            have hne : s.turn r ≠ s.turn c := fun h' => hrT ((heq r hrQ).mpr h')
            have hle := hcle r hrQ
            omega
          have hrlt := hd.2.1 r hrQ
          set D := k₁.time r - s.ticker.time c with hD
          have hDval : D.toNat = s.turn r - s.turn c :=
            h.tracks.toNat_sub hrQ hcQ (hcle r hrQ) (by omega)
          have hD0 : D ≠ 0 := by
            intro h0
            rw [h0] at hDval
            simp at hDval
            omega
          rw [setTime_of_ne hD0] at hexp
          have hmem : ∀ t ∈ r :: (R' ++ c :: f), t ∈ r :: R' ∨ t ∈ c :: f := fun t ht => by
            rwa [← List.cons_append, List.mem_append] at ht
          refine ⟨c :: f, _, r :: (R' ++ c :: f), hexp, ?_, hF, hFQ, fun t ht => ?_, rfl, hlaw⟩
          · set k₂ : Ticker := { k₁ with
              osPTimer := r, t0mr0 := D, timeCounter := 0, enabled := true } with hk₂
            have hR : ∀ t ∈ r :: R', (s.served (c :: f) k₂).turn t = s.turn t := fun t ht =>
              turn_served_of_notMem (hRF t ht)
            have hFt : ∀ t ∈ c :: f, (s.served (c :: f) k₂).turn t = s.counted + 2 ^ 32 := by
              intro t ht
              obtain ⟨e, he⟩ := h.exists_entry (hFQ t ht)
              rw [turn_served_of_mem hF ht he (hpend t ht e he).1, hnow t ht]
            refine h.serve hF (fun t ht e he => (hlaw t ht e he).1) (fun t ht => ?_)
              (fun t ht hn => ?_) rfl rfl ⟨rfl, ?_⟩ ?_ (fun t ht => ?_) (fun t ht => ?_)
              ⟨rfl, rfl, ?_⟩
            · exact (hmem t ht).elim (hRQ t) (hFQ t)
            · rw [← List.cons_append, List.mem_append] at ht
              rw [← List.cons_append, List.mem_append]
              exact Or.inl (ht.resolve_left hn)
            · exact hring.rotate
            · rw [← List.cons_append]
              refine List.pairwise_append.mpr ⟨?_, ?_, fun t ht u hu => ?_⟩
              · have hs : (r :: R').Pairwise fun t u => s.turn t ≤ s.turn u := by
                  refine h.sorted.sublist ?_
                  rw [← List.cons_append]
                  exact List.sublist_append_right _ _
                refine hs.imp_of_mem fun ht hu htu => ?_
                rw [hR _ ht, hR _ hu]
                exact htu
              · refine List.pairwise_of_forall_mem_list fun t ht u hu => ?_
                rw [hFt t ht, hFt u hu]
              · rw [hR t ht, hFt u hu]
                exact h.turn_le (hRQ t ht)
            · rcases hmem t ht with ht | ht
              · rw [hR t ht]
              · apply BitVec.eq_of_toNat_eq
                rw [hFt t ht, hnow t ht]
                simp
            · rcases hmem t ht with ht | ht
              · rw [hR t ht]
                exact h.turn_ge t (hRQ t ht)
              · rw [hFt t ht]
                exact Nat.le_add_right _ _
            · rw [hR r List.mem_cons_self]
              refine ⟨hrturn, hrlt, ?_⟩
              show (0 : Int32U).toNat + s.turn r = D.toNat + s.counted
              rw [hDval, hcnow, Nat.sub_add_cancel hrturn.le]
              simp
          · exact (hmem t ht).elim (hRQ t) (hFQ t)
      · obtain rfl : c = c' := by simpa using hc'
        have hall : ∀ t ∈ c :: (f ++ R), s.turn t = s.turn c := fun t ht =>
          le_antisymm (hstray ▸ h.turn_le ht) (hcle t ht)
        have hstale : ∀ t ∈ c :: f, ∀ e, s.entry t = some e → ¬ e.Pending := by
          intro t ht e he hp
          have := h.turn_lt_of_pending he hp
          rw [hall t (hFQ t ht), hstray] at this
          exact lt_irrefl _ this
        have hlaw : ∀ t ∈ c :: f, ∀ e, s.entry t = some e → e.start + e.delay.toNat ≤ s.counted ∧
            (e.Pending → e.start + e.delay.toNat = s.counted) ∧
            (Due s (c :: (f ++ R)) → e.Pending) := by
          intro t ht e he
          refine ⟨h.expired_le t e he (hstale t ht e he), fun hp => absurd hp (hstale t ht e he),
            fun hd => ?_⟩
          have := hd.1 c rfl
          omega
        rcases hres with ⟨hR, hexp⟩ | ⟨r, hr, hrT, -⟩
        · exact ⟨c :: f, _, [], hexp, hempty hR fun t ht e he => (hlaw t ht e he).1, hF, hFQ,
            by simp, rfl, hlaw⟩
        · have hrQ := hRQ r (List.mem_of_mem_head? hr)
          exact absurd ((h.tracks.eq_iff hrQ hcQ (hcle r hrQ) (by rw [hall r hrQ]; simp)).mpr
            (hall r hrQ)) hrT

end Service.Inv

end ChinaOS.Ticker
