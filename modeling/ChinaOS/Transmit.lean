import ChinaOS.Ethernet

/-!
The transmitter of the Ethernet driver.

A sender that finds the ring full waits on `SendDone`, which the handler posts when the MAC
has sent a frame. The handler looks at the event of a sent frame only if no frame was
received, and then clears both.

* `Stuck`: a sender waits although the ring is not full, and nothing will wake it.
* `Inv`: a waiting sender has a token, a full ring, or an event of a sent frame that is still
  latched.
* `never_stuck_iff`: no state of a run is stuck exactly if no run of the handler drops the
  event of a sent frame for which a sender waits.
-/

namespace ChinaOS

namespace Ethernet

/-- A sender is at the wait on `SendDone`. -/
def Waiting (s : Ethernet) : Prop := ∃ t n, s.point t = .outWait n

/-- The transmit ring is full. -/
def TxFull (s : Ethernet) : Prop :=
  nextIndex txDescriptorNumber s.txProduceIndex = s.txConsumeIndex

/-- **A stuck transmitter**: a thread is blocked on `SendDone` although the ring is not full,
no event of a sent frame is latched, and the handler is not running. -/
def Stuck (s : Ethernet) : Prop :=
  Waiting s ∧ s.sendDone = 0 ∧ ¬ TxFull s ∧ testBit s.intStatus 7 = false ∧ s.handler = .idle

/-- A run of the handler that has read the events of a received and of a sent frame clears
them, while a sender waits without a token although the ring is not full. -/
def Dropped (s : Ethernet) (a : Act) : Prop :=
  a = .exception ∧ (∃ InteruptStatus, s.handler = .posted InteruptStatus ∧
    testBit InteruptStatus 3 = true ∧ testBit InteruptStatus 7 = true) ∧
  Waiting s ∧ s.sendDone = 0 ∧ ¬ TxFull s

namespace Transmit

/-- The value of `ProduceNext` in a call of `low_level_output`. -/
def produceNext : NetPoint → Option ℕ
  | .outCheck n | .outWait n | .outWrite n => some n
  | _ => none

/-- What holds in every state: the thread that holds `Access` knows where the ring ends, the
handler has posted what it read unless it read both events, and a waiting sender has a token,
a full ring, or an event that is still latched. -/
structure Inv (s : Ethernet) : Prop where
  exclusive : Exclusive s
  next : ∀ t, ∀ n ∈ produceNext (s.point t), n = nextIndex txDescriptorNumber s.txProduceIndex
  posted : ∀ st, s.handler = .posted st → testBit st 7 = true →
    testBit st 3 = true ∨ 0 < s.sendDone
  signal : Waiting s → 0 < s.sendDone ∨ TxFull s ∨ testBit s.intStatus 7 = true

section Steps

variable {s s' : Ethernet} {t u : ThreadId} {p : NetPoint} {a : Act}

lemma holds_of_produceNext {n : ℕ} (h : n ∈ produceNext p) : holds p = true := by
  cases p <;> simp [produceNext] at h <;> rfl

lemma inv_setup : Inv setup :=
  ⟨exclusive_setup, fun t n h => by simp [setup, produceNext] at h,
    fun st h => by simp [setup] at h, fun ⟨t, n, h⟩ => by simp [setup] at h⟩

/-- A statement of a thread that does not touch the transmitter. -/
lemma Inv.goto (hi : Inv s) (he : Exclusive s')
    (hpoint : s'.point = Function.update s.point t p) (hp : produceNext p = none)
    (hprod : s'.txProduceIndex = s.txProduceIndex) (hcons : s'.txConsumeIndex = s.txConsumeIndex)
    (hstatus : s'.intStatus = s.intStatus) (hsend : s'.sendDone = s.sendDone)
    (hhandler : s'.handler = s.handler) : Inv s' := by
  refine ⟨he, fun u n hn => ?_, fun st hst h7 => ?_, fun ⟨u, n, hu⟩ => ?_⟩
  · rw [hpoint, Function.update_apply] at hn
    split_ifs at hn
    · simp [hp] at hn
    · rw [hprod]
      exact hi.next u n hn
  · rw [hsend]
    exact hi.posted st (hhandler ▸ hst) h7
  · rw [hpoint, Function.update_apply] at hu
    split_ifs at hu
    · simp [hu, produceNext] at hp
    · rw [hsend, TxFull, hprod, hcons, hstatus]
      exact hi.signal ⟨u, n, hu⟩

/-- A statement of the thread that holds `Access`: no other sender is in the way. -/
lemma inv_of_own (hs : s.handler = .idle) (he : Exclusive s')
    (hpoint : s'.point = Function.update s.point t p) (hhandler : s'.handler = s.handler)
    (ht : ∀ u ≠ t, holds (s.point u) = false)
    (hnext : ∀ n ∈ produceNext p, n = nextIndex txDescriptorNumber s'.txProduceIndex)
    (hsignal : ∀ n, p = .outWait n → TxFull s') : Inv s' := by
  refine ⟨he, fun u n hn => ?_, fun st hst => ?_, fun ⟨u, n, hu⟩ => ?_⟩
  · rw [hpoint, Function.update_apply] at hn
    split_ifs at hn with hut
    · exact hnext n hn
    · have h1 := holds_of_produceNext hn
      rw [ht u hut] at h1
      simp at h1
  · rw [hhandler, hs] at hst
    simp at hst
  · rw [hpoint, Function.update_apply] at hu
    split_ifs at hu with hut
    · exact Or.inr (Or.inl (hsignal n hu))
    · have h1 := ht u hut
      rw [hu] at h1
      simp [holds] at h1

/-- A statement of a thread. -/
lemma Inv.run (hi : Inv s) (hh : s.handler = .idle) (hs : s.run t = some s') : Inv s' := by
  have he := hi.exclusive.run hs
  have hothers : holds (s.point t) = true → ∀ u ≠ t, holds (s.point u) = false := by
    intro ht u hut
    by_contra hu
    exact hut (hi.exclusive.one u t (Bool.eq_true_of_not_eq_false hu) ht)
  rw [Ethernet.run] at hs
  split at hs
  · simp at hs
  all_goals rename_i hp
  · -- the wait on `Access`
    rw [Option.ite_none_right_eq_some, Option.some.injEq] at hs
    obtain ⟨hpos, rfl⟩ := hs
    exact inv_of_own hh he rfl rfl (fun u _ => hi.exclusive.free hpos u)
      (fun n hn => (Option.some.inj hn).symm) (by simp)
  · -- the test for a full ring
    rename_i ProduceNext
    rw [Option.some.injEq] at hs
    have hnext := hi.next t ProduceNext (by rw [hp]; rfl)
    refine inv_of_own hh he (by rw [← hs]; rfl) (by rw [← hs]; rfl) (hothers (by rw [hp]; rfl))
      (fun n hn => ?_) fun n hn => ?_
    · have hprod : s'.txProduceIndex = s.txProduceIndex := by rw [← hs]; rfl
      rw [hprod, ← hnext]
      split_ifs at hn <;> simpa [produceNext] using hn.symm
    · split_ifs at hn with hfull
      subst hs
      exact hnext.symm.trans hfull
  · -- the wait on `SendDone`
    rename_i ProduceNext
    rw [Option.ite_none_right_eq_some, Option.some.injEq] at hs
    obtain ⟨-, rfl⟩ := hs
    refine inv_of_own hh he rfl rfl (hothers (by rw [hp]; rfl)) (fun n hn => ?_) (by simp)
    have hn' : ProduceNext = n := by simpa [produceNext] using hn
    exact hn' ▸ hi.next t ProduceNext (by rw [hp]; rfl)
  · -- the update of `TxProduceIndex`
    rw [Option.some.injEq] at hs
    subst hs
    exact inv_of_own hh he rfl rfl (hothers (by rw [hp]; rfl)) (by simp [produceNext]) (by simp)
  all_goals first
    | rw [Option.ite_none_right_eq_some, Option.some.injEq] at hs
      exact hs.2 ▸ hi.goto (hs.2 ▸ he) rfl rfl rfl rfl rfl rfl rfl
    | rw [Option.some.injEq] at hs
      subst hs
      refine hi.goto (t := t) he rfl ?_ rfl rfl rfl rfl rfl
      first
        | rfl
        | split_ifs <;> rfl

/-- A statement of the handler that drops nothing. -/
lemma Inv.exception (hi : Inv s) (hnot : ¬ Dropped s .exception) : Inv s.exception := by
  obtain ⟨hpoint, haccess, hprod, hcons, -⟩ := exception_frame s
  have he : Exclusive s.exception := hi.exclusive.step (a := .exception) rfl
  have hnext : ∀ t, ∀ n ∈ produceNext (s.exception.point t),
      n = nextIndex txDescriptorNumber s.exception.txProduceIndex := by
    rw [hpoint, hprod]
    exact hi.next
  have hwait : Waiting s.exception ↔ Waiting s := by rw [Waiting, hpoint, Waiting]
  have hfull : TxFull s.exception ↔ TxFull s := by rw [TxFull, hprod, hcons, TxFull]
  cases hh : s.handler with
  | idle =>
      rw [exception_idle hh] at he hnext hwait hfull ⊢
      exact ⟨he, hnext, fun st hst => by simp at hst, fun hw => hi.signal (hwait.mp hw)⟩
  | read st =>
      rw [exception_read hh] at he hnext hwait hfull ⊢
      refine ⟨he, hnext, fun st' hst h7 => ?_, fun hw => ?_⟩
      · rw [Handler.posted.injEq] at hst
        subst hst
        by_cases h3 : testBit st 3 = true
        · exact Or.inl h3
        · simp [h3, h7]
      · rcases hi.signal (hwait.mp hw) with h | h | h
        · refine Or.inl ?_
          dsimp only
          split_ifs <;> omega
        · exact Or.inr (Or.inl (hfull.mpr h))
        · exact Or.inr (Or.inr h)
  | posted st =>
      rw [exception_posted hh] at he hnext hwait hfull ⊢
      refine ⟨he, hnext, fun st' hst => by simp at hst, fun hw => ?_⟩
      have hw' := hwait.mp hw
      by_cases h7 : testBit st 7 = true
      · -- the event of a sent frame is cleared
        by_contra hnone
        rw [not_or, not_or, hfull, Nat.pos_iff_ne_zero, not_not] at hnone
        rcases hi.posted st hh h7 with h3 | hpos
        · exact hnot ⟨rfl, ⟨st, hh, h3, h7⟩, hw', hnone.1, hnone.2.1⟩
        · exact hpos.ne' hnone.1
      · rcases hi.signal hw' with h | h | h
        · exact Or.inl h
        · exact Or.inr (Or.inl (hfull.mpr h))
        · exact Or.inr (Or.inr (by simp [h, h7]))

/-- An event of the MAC that clears nothing. -/
lemma Inv.event (hi : Inv s) (hpoint : s'.point = s.point) (haccess : s'.access = s.access)
    (hprod : s'.txProduceIndex = s.txProduceIndex) (hsend : s'.sendDone = s.sendDone)
    (hhandler : s'.handler = s.handler)
    (hsignal : TxFull s ∨ testBit s.intStatus 7 = true →
      TxFull s' ∨ testBit s'.intStatus 7 = true) : Inv s' := by
  have he := hi.exclusive
  refine ⟨⟨by rw [hpoint]; exact he.one, by rw [hpoint, haccess]; exact he.free,
    by rw [haccess]; exact he.le_one⟩, ?_, ?_, fun hw => ?_⟩
  · rw [hpoint, hprod]
    exact hi.next
  · rw [hhandler, hsend]
    exact hi.posted
  · rw [Waiting, hpoint] at hw
    rw [hsend]
    exact (hi.signal hw).imp_right hsignal

/-- **A step that drops no event** keeps the invariant. -/
theorem Inv.step (hi : Inv s) (hnot : ¬ Dropped s a) (hs : s.step a = some s') : Inv s' := by
  cases a with
  | output u =>
      have he := hi.exclusive.step hs
      rw [Ethernet.step, Option.ite_none_right_eq_some, Option.some.injEq] at hs
      obtain ⟨-, rfl⟩ := hs
      exact hi.goto he rfl rfl rfl rfl rfl rfl rfl
  | scan =>
      have he := hi.exclusive.step hs
      rw [Ethernet.step, Option.ite_none_right_eq_some, Option.some.injEq] at hs
      obtain ⟨-, rfl⟩ := hs
      exact hi.goto he rfl rfl rfl rfl rfl rfl rfl
  | run u =>
      rw [Ethernet.step, Option.ite_none_right_eq_some] at hs
      exact hi.run hs.1 hs.2
  | exception =>
      rw [Ethernet.step, Option.some.injEq] at hs
      exact hs ▸ hi.exception hnot
  | sent =>
      rw [Ethernet.step, Option.ite_none_right_eq_some, Option.some.injEq] at hs
      obtain ⟨-, rfl⟩ := hs
      exact hi.event rfl rfl rfl rfl rfl fun _ => Or.inr (by simp)
  | received | other i =>
      rw [Ethernet.step, Option.ite_none_right_eq_some, Option.some.injEq] at hs
      obtain ⟨-, rfl⟩ := hs
      exact hi.event rfl rfl rfl rfl rfl fun h => h.imp_right fun h7 => by simp [h7]

lemma Inv.not_stuck (hi : Inv s) : ¬ Stuck s := by
  rintro ⟨hw, hzero, hfull, h7, -⟩
  rcases hi.signal hw with h | h | h
  · omega
  · exact hfull h
  · rw [h7] at h
    simp at h

/-- A dropped event leaves the sender stuck. -/
lemma stuck_of_dropped (hd : Dropped s a) (hs : s.step a = some s') : Stuck s' := by
  obtain ⟨rfl, ⟨st, hh, -, h7⟩, hw, hzero, hfull⟩ := hd
  rw [Ethernet.step, Option.some.injEq, exception_posted hh] at hs
  subst hs
  exact ⟨hw, hzero, hfull, by simp [h7], rfl⟩

/-- **The transmitter.** In a run of senders, the scanning thread, the handler and the MAC
from `ethernet_setup` on, no thread is ever blocked on `SendDone` with room in the ring and no
event to wake it, if and only if no run of the handler that reads the events of a received
and of a sent frame ends while a sender waits without a token although the ring is not
full. -/
theorem never_stuck_iff (as : List Act) :
    Run.Along step (fun _ _ s' => ¬ Stuck s') setup as ↔
      Run.Along step (fun s a _ => ¬ Dropped s a) setup as :=
  Run.along_iff_of_invariant
    (fun _ _ _ hi hnot hs => ⟨hi.step hnot hs, (hi.step hnot hs).not_stuck⟩)
    (fun _ _ _ _ hd hs hnot => hnot (stuck_of_dropped hd hs)) inv_setup

end Steps

/-! ### A frame sent while another one is received -/

/-- Thread 1 fills the ring with two frames, takes the two tokens for a third, and waits. -/
def fillRing : List Act :=
  [.output 1, .run 1, .run 1, .run 1, .run 1, .output 1, .run 1, .run 1, .run 1, .run 1,
    .output 1, .run 1, .run 1, .run 1, .run 1, .run 1, .run 1]

/-- The MAC sends a frame and receives one before the handler runs. -/
def sendAndReceive : List Act := fillRing ++ [.sent, .received, .exception, .exception]

/-- When the handler ends, the sender is stuck. -/
theorem stuck_sendAndReceive :
    (∃ s, Run.exec step setup (sendAndReceive ++ [.exception]) = some s ∧ Stuck s) ∧
      ¬ Run.Along step (fun _ _ s' => ¬ Stuck s') setup (sendAndReceive ++ [.exception]) := by
  obtain ⟨s, hs⟩ : ∃ s, Run.exec step setup (sendAndReceive ++ [.exception]) = some s := ⟨_, rfl⟩
  have hpoint : s.point 1 = .outWait 0 := Run.eq_of_exec (f := fun s => s.point 1) hs rfl
  have hrest : (s.sendDone, s.txProduceIndex, s.txConsumeIndex, testBit s.intStatus 7,
      s.handler) = (0, 2, 1, false, .idle) := Run.eq_of_exec (f := fun s =>
    (s.sendDone, s.txProduceIndex, s.txConsumeIndex, testBit s.intStatus 7, s.handler)) hs rfl
  simp only [Prod.mk.injEq] at hrest
  obtain ⟨hzero, hprod, hcons, h7, hh⟩ := hrest
  have hstuck : Stuck s :=
    ⟨⟨1, 0, hpoint⟩, hzero, by rw [TxFull, hprod, hcons]; decide, h7, hh⟩
  refine ⟨⟨s, hs, hstuck⟩, fun h => ?_⟩
  obtain ⟨-, -, hnot⟩ := h.of_append hs
  exact hnot hstuck

end Transmit

end Ethernet

end ChinaOS
