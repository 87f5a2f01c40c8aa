import ChinaOS.Ethernet

/-!
The receiver of the Ethernet driver.

The handler posts `RecvDone` once for an event of a received frame, however many frames have
come since it was latched, and the scanning thread takes one frame for one token.

* `Inv`: the frames in the ring are the tokens on their way to the scanning thread and the
  frames that came while an earlier event was latched.
* `not_stranded_iff`: the ring of a thread that waits for ever is empty exactly if no frame came
  while an earlier event was latched.
-/

namespace ChinaOS

namespace Ethernet

/-- The scanning thread is blocked on `RecvDone`, no event of a received frame is latched, and
the handler is not running. -/
def ScanBlocked (s : Ethernet) : Prop :=
  s.point scanner = .scanWait ∧ s.recvDone = 0 ∧ testBit s.intStatus 3 = false ∧
    s.handler = .idle

namespace Receive

/-- The frames in the receive ring. -/
def frames (s : Ethernet) : ℕ :=
  (s.rxProduceIndex + (rxDescriptorNumber + 1) - s.rxConsumeIndex) % (rxDescriptorNumber + 1)

/-- The token that the scanning thread has taken for a frame still in the ring. -/
def taken : NetPoint → ℕ
  | .inAccess | .inRead | .inWrite _ => 1
  | _ => 0

/-- The token that the handler has still to post for the latched event. -/
def due (s : Ethernet) : ℕ :=
  match s.handler with
  | .posted InteruptStatus =>
      if testBit InteruptStatus 3 then 0 else if testBit s.intStatus 3 then 1 else 0
  | _ => if testBit s.intStatus 3 then 1 else 0

/-- The points of `ethernet_scan` up to the update of `RxConsumeIndex`. -/
def scans : NetPoint → Bool
  | .scanWait | .inAccess | .inRead | .inWrite _ => true
  | _ => false

/-- What holds in every state: one thread scans, the event that the handler has read is still
latched, and every frame in the ring has a token or came while an event was latched. -/
structure Inv (s : Ethernet) : Prop where
  one : ∀ t ≠ scanner, scans (s.point t) = false
  produce_le : s.rxProduceIndex ≤ rxDescriptorNumber
  consume_le : s.rxConsumeIndex ≤ rxDescriptorNumber
  next : ∀ n, s.point scanner = .inWrite n → n = nextIndex rxDescriptorNumber s.rxConsumeIndex
  latched : ∀ st, s.handler = .read st ∨ s.handler = .posted st → testBit st 3 = true →
    testBit s.intStatus 3 = true
  balance : frames s = s.recvDone + taken (s.point scanner) + due s + s.doubled

section Steps

variable {s s' : Ethernet} {t : ThreadId} {p : NetPoint} {a : Act}

lemma inv_setup : Inv setup :=
  ⟨fun _ _ => rfl, Nat.zero_le _, Nat.zero_le _, fun n h => by simp [setup] at h,
    fun st h => by simp [setup] at h, rfl⟩

lemma nextIndex_le {i : ℕ} (hi : i ≤ rxDescriptorNumber) :
    nextIndex rxDescriptorNumber i ≤ rxDescriptorNumber := by
  unfold nextIndex
  split_ifs <;> omega

/-- The MAC puts a frame into a ring that is not full. -/
lemma frames_received {p c : ℕ} (hp : p ≤ rxDescriptorNumber) (hc : c ≤ rxDescriptorNumber)
    (hroom : nextIndex rxDescriptorNumber p ≠ c) :
    (nextIndex rxDescriptorNumber p + (rxDescriptorNumber + 1) - c) % (rxDescriptorNumber + 1) =
      (p + (rxDescriptorNumber + 1) - c) % (rxDescriptorNumber + 1) + 1 := by
  unfold nextIndex rxDescriptorNumber at *
  split_ifs at * <;> omega

/-- The driver takes a frame from a ring that is not empty. -/
lemma frames_taken {p c : ℕ} (hp : p ≤ rxDescriptorNumber) (hc : c ≤ rxDescriptorNumber)
    (hpos : (p + (rxDescriptorNumber + 1) - c) % (rxDescriptorNumber + 1) ≠ 0) :
    (p + (rxDescriptorNumber + 1) - nextIndex rxDescriptorNumber c) % (rxDescriptorNumber + 1) +
      1 = (p + (rxDescriptorNumber + 1) - c) % (rxDescriptorNumber + 1) := by
  unfold nextIndex rxDescriptorNumber at *
  split_ifs at * <;> omega

lemma frames_eq_zero_iff (hi : Inv s) :
    frames s = 0 ↔ s.rxConsumeIndex = s.rxProduceIndex := by
  have h1 := hi.produce_le
  have h2 := hi.consume_le
  unfold frames rxDescriptorNumber at *
  omega

/-- A statement of a thread that does not scan. -/
lemma Inv.goto (hi : Inv s) (hpoint : s'.point = Function.update s.point t p)
    (hp : scans p = false) (ht : scans (s.point t) = false)
    (hprod : s'.rxProduceIndex = s.rxProduceIndex) (hcons : s'.rxConsumeIndex = s.rxConsumeIndex)
    (hstatus : s'.intStatus = s.intStatus) (hrecv : s'.recvDone = s.recvDone)
    (hhandler : s'.handler = s.handler) (hdoubled : s'.doubled = s.doubled) : Inv s' := by
  have htaken : ∀ p, scans p = false → taken p = 0 := by
    intro p h
    cases p <;> first | rfl | simp [scans] at h
  refine ⟨fun u hu => ?_, hprod ▸ hi.produce_le, hcons ▸ hi.consume_le, fun n hn => ?_, ?_, ?_⟩
  · rw [hpoint, Function.update_apply]
    split_ifs
    · exact hp
    · exact hi.one u hu
  · rw [hpoint, Function.update_apply] at hn
    split_ifs at hn
    · simp [hn, scans] at hp
    · rw [hcons]
      exact hi.next n hn
  · rw [hhandler, hstatus]
    exact hi.latched
  · have hdue : due s' = due s := by rw [due, hhandler, hstatus, due]
    have hframes : frames s' = frames s := by rw [frames, hprod, hcons, frames]
    rw [hdue, hframes, hrecv, hdoubled, hi.balance, hpoint, Function.update_apply]
    split_ifs with h
    · rw [htaken p hp, h, htaken _ ht]
    · rfl

/-- A statement of the scanning thread. -/
lemma Inv.scan (hi : Inv s) (hpoint : s'.point = Function.update s.point scanner p)
    (hprod : s'.rxProduceIndex = s.rxProduceIndex)
    (hle : s'.rxConsumeIndex ≤ rxDescriptorNumber)
    (hnext : ∀ n, p = .inWrite n → n = nextIndex rxDescriptorNumber s'.rxConsumeIndex)
    (hstatus : s'.intStatus = s.intStatus) (hhandler : s'.handler = s.handler)
    (hdoubled : s'.doubled = s.doubled)
    (hbalance : frames s' + (s.recvDone + taken (s.point scanner)) =
      frames s + (s'.recvDone + taken p)) : Inv s' := by
  have hself : s'.point scanner = p := by rw [hpoint, Function.update_self]
  refine ⟨fun u hu => ?_, hprod ▸ hi.produce_le, hle, fun n hn => ?_, ?_, ?_⟩
  · rw [hpoint, Function.update_of_ne hu]
    exact hi.one u hu
  · exact hnext n (hself.symm.trans hn)
  · rw [hhandler, hstatus]
    exact hi.latched
  · have hdue : due s' = due s := by rw [due, hhandler, hstatus, due]
    have hold := hi.balance
    rw [hdue, hdoubled, hself]
    omega

/-- A statement of a thread. -/
lemma Inv.run (hi : Inv s) (hs : s.run t = some s') : Inv s' := by
  have hscan : scans (s.point t) = true → t = scanner := by
    intro ht
    by_contra hne
    rw [hi.one t hne] at ht
    simp at ht
  rw [Ethernet.run] at hs
  split at hs
  · simp at hs
  all_goals rename_i hp
  · rw [Option.ite_none_right_eq_some, Option.some.injEq] at hs
    exact hs.2 ▸ hi.goto rfl rfl (by rw [hp]; rfl) rfl rfl rfl rfl rfl rfl
  · rw [Option.some.injEq] at hs
    subst hs
    refine hi.goto (t := t) rfl ?_ (by rw [hp]; rfl) rfl rfl rfl rfl rfl rfl
    split_ifs <;> rfl
  · rw [Option.ite_none_right_eq_some, Option.some.injEq] at hs
    exact hs.2 ▸ hi.goto rfl rfl (by rw [hp]; rfl) rfl rfl rfl rfl rfl rfl
  · rw [Option.some.injEq] at hs
    exact hs ▸ hi.goto rfl rfl (by rw [hp]; rfl) rfl rfl rfl rfl rfl rfl
  · rw [Option.some.injEq] at hs
    exact hs ▸ hi.goto rfl rfl (by rw [hp]; rfl) rfl rfl rfl rfl rfl rfl
  · rw [Option.some.injEq] at hs
    exact hs ▸ hi.goto rfl rfl (by rw [hp]; rfl) rfl rfl rfl rfl rfl rfl
  · -- the wait on `RecvDone`: the token is taken
    rw [Option.ite_none_right_eq_some, Option.some.injEq] at hs
    obtain ⟨hpos, rfl⟩ := hs
    obtain rfl := hscan (by rw [hp]; rfl)
    refine hi.scan rfl rfl hi.consume_le (by simp) rfl rfl rfl ?_
    rw [hp]
    show frames s + (s.recvDone + 0) = frames s + (s.recvDone - 1 + 1)
    omega
  · -- the wait on `Access`
    rw [Option.ite_none_right_eq_some, Option.some.injEq] at hs
    obtain ⟨-, rfl⟩ := hs
    obtain rfl := hscan (by rw [hp]; rfl)
    exact hi.scan rfl rfl hi.consume_le (by simp) rfl rfl rfl (by rw [hp]; rfl)
  · -- the reads of the indices: with a token there is a frame
    rw [Option.some.injEq] at hs
    obtain rfl := hscan (by rw [hp]; rfl)
    have hne : s.rxConsumeIndex ≠ s.rxProduceIndex := by
      intro heq
      have h1 := (frames_eq_zero_iff hi).mpr heq
      have h2 := hi.balance
      rw [hp, h1] at h2
      simp only [taken] at h2
      omega
    rw [if_pos hne] at hs
    subst hs
    exact hi.scan rfl rfl hi.consume_le (fun n hn => (NetPoint.inWrite.inj hn).symm) rfl rfl rfl
      (by rw [hp]; rfl)
  · -- the update of `RxConsumeIndex`: the frame is taken
    rename_i ConsumeNext
    rw [Option.some.injEq] at hs
    obtain rfl := hscan (by rw [hp]; rfl)
    have hnext := hi.next ConsumeNext hp
    subst hnext hs
    have hpos : frames s ≠ 0 := by
      have h2 := hi.balance
      rw [hp] at h2
      simp only [taken] at h2
      omega
    refine hi.scan rfl rfl (nextIndex_le hi.consume_le) (by simp) rfl rfl rfl ?_
    have htaken := frames_taken hi.produce_le hi.consume_le hpos
    rw [hp]
    show (s.rxProduceIndex + (rxDescriptorNumber + 1) -
      nextIndex rxDescriptorNumber s.rxConsumeIndex) % (rxDescriptorNumber + 1) +
        (s.recvDone + 1) = frames s + (s.recvDone + 0)
    unfold frames
    omega

/-- A statement of the handler. -/
lemma Inv.exception (hi : Inv s) : Inv s.exception := by
  have hbalance := hi.balance
  cases hh : s.handler with
  | idle =>
      have hdue : due s = if testBit s.intStatus 3 then 1 else 0 := by rw [due, hh]
      rw [exception_idle hh]
      refine ⟨hi.one, hi.produce_le, hi.consume_le, hi.next, fun st hst h3 => ?_, ?_⟩
      · have hst' : s.intStatus = st := by simpa using hst
        rw [hst']
        exact h3
      · rw [hdue] at hbalance
        exact hbalance
  | read st =>
      have hdue : due s = if testBit s.intStatus 3 then 1 else 0 := by rw [due, hh]
      have hlatched := hi.latched st (Or.inl hh)
      rw [exception_read hh]
      refine ⟨hi.one, hi.produce_le, hi.consume_le, hi.next, fun st' hst h3 => ?_, ?_⟩
      · have hst' : st = st' := by simpa using hst
        exact hlatched (hst' ▸ h3)
      · rw [hdue] at hbalance
        show frames s = (if testBit st 3 then s.recvDone + 1 else s.recvDone) +
          taken (s.point scanner) + (if testBit st 3 then 0 else
            if testBit s.intStatus 3 then 1 else 0) + s.doubled
        by_cases h3 : testBit st 3 = true
        · rw [hlatched h3, if_pos rfl] at hbalance
          rw [if_pos h3, if_pos h3]
          omega
        · rw [if_neg h3, if_neg h3]
          exact hbalance
  | posted st =>
      have hdue : due s = if testBit st 3 then 0 else if testBit s.intStatus 3 then 1 else 0 := by
        rw [due, hh]
      rw [exception_posted hh]
      refine ⟨hi.one, hi.produce_le, hi.consume_le, hi.next, fun st' hst => by simp at hst, ?_⟩
      rw [hdue] at hbalance
      show frames s = s.recvDone + taken (s.point scanner) +
        (if testBit (s.intStatus &&& ~~~st) 3 then 1 else 0) + s.doubled
      rw [hbalance, testBit_clear]
      by_cases h3 : testBit st 3 = true
      · simp [h3]
      · simp [h3]

/-- An event of the MAC, which latches. -/
lemma Inv.event (hi : Inv s) (hpoint : s'.point = s.point) (hrecv : s'.recvDone = s.recvDone)
    (hhandler : s'.handler = s.handler) (hcons : s'.rxConsumeIndex = s.rxConsumeIndex)
    (hle : s'.rxProduceIndex ≤ rxDescriptorNumber)
    (hlatched : testBit s.intStatus 3 = true → testBit s'.intStatus 3 = true)
    (hbalance : frames s' + (due s + s.doubled) = frames s + (due s' + s'.doubled)) :
    Inv s' := by
  refine ⟨?_, hle, hcons ▸ hi.consume_le, ?_, fun st hst h3 => ?_, ?_⟩
  · rw [hpoint]
    exact hi.one
  · rw [hpoint, hcons]
    exact hi.next
  · rw [hhandler] at hst
    exact hlatched (hi.latched st hst h3)
  · have hold := hi.balance
    rw [hpoint, hrecv]
    omega

/-- The MAC has received a frame: a token becomes due for it unless an event was latched. -/
lemma Inv.received (hi : Inv s)
    (hroom : nextIndex rxDescriptorNumber s.rxProduceIndex ≠ s.rxConsumeIndex) :
    Inv { s with
      rxProduceIndex := nextIndex rxDescriptorNumber s.rxProduceIndex
      intStatus := setBit s.intStatus 3
      doubled := if testBit s.intStatus 3 then s.doubled + 1 else s.doubled } := by
  have hframes := frames_received hi.produce_le hi.consume_le hroom
  have hset : testBit (setBit s.intStatus 3) 3 = true := by simp
  refine hi.event rfl rfl rfl rfl (nextIndex_le hi.produce_le) (fun _ => hset) ?_
  have hdue : ∀ w d, due { s with
        rxProduceIndex := nextIndex rxDescriptorNumber s.rxProduceIndex
        intStatus := w
        doubled := d } = due { s with intStatus := w } := fun w d => rfl
  show (nextIndex rxDescriptorNumber s.rxProduceIndex + (rxDescriptorNumber + 1) -
      s.rxConsumeIndex) % (rxDescriptorNumber + 1) + (due s + s.doubled) = frames s +
        (due { s with intStatus := setBit s.intStatus 3 } +
          if testBit s.intStatus 3 then s.doubled + 1 else s.doubled)
  rw [hframes]
  show frames s + 1 + (due s + s.doubled) = _
  by_cases h3 : testBit s.intStatus 3 = true
  · have hsame : due { s with intStatus := setBit s.intStatus 3 } = due s := by
      unfold due
      rw [hset, h3]
    rw [hsame, if_pos h3]
    omega
  · have hone : due { s with intStatus := setBit s.intStatus 3 } = due s + 1 := by
      cases hh : s.handler with
      | idle | read st => simp only [due, hh, hset, h3, if_true, if_false, Bool.false_eq_true]
      | posted st =>
          have hst : ¬ testBit st 3 = true := fun h => h3 (hi.latched st (Or.inr hh) h)
          simp only [due, hh, hset, h3, hst, if_true, if_false, Bool.false_eq_true]
    rw [hone, if_neg h3]
    omega

/-- **Every step keeps the balance** of frames and tokens. -/
theorem Inv.step (hi : Inv s) (hs : s.step a = some s') : Inv s' := by
  cases a with
  | output u =>
      rw [Ethernet.step, Option.ite_none_right_eq_some, Option.some.injEq] at hs
      exact hs.2 ▸ hi.goto rfl rfl (by rw [hs.1.2]; rfl) rfl rfl rfl rfl rfl rfl
  | scan =>
      rw [Ethernet.step, Option.ite_none_right_eq_some, Option.some.injEq] at hs
      obtain ⟨⟨-, hp⟩, rfl⟩ := hs
      exact hi.scan rfl rfl hi.consume_le (by simp) rfl rfl rfl (by rw [hp]; rfl)
  | run u =>
      rw [Ethernet.step, Option.ite_none_right_eq_some] at hs
      exact hi.run hs.2
  | exception =>
      rw [Ethernet.step, Option.some.injEq] at hs
      exact hs ▸ hi.exception
  | sent =>
      rw [Ethernet.step, Option.ite_none_right_eq_some, Option.some.injEq] at hs
      obtain ⟨-, rfl⟩ := hs
      have h3 : testBit (setBit s.intStatus 7) 3 = testBit s.intStatus 3 := by simp
      refine hi.event rfl rfl rfl rfl hi.produce_le (fun h => h3.trans h) ?_
      simp only [frames, due, h3]
  | received =>
      rw [Ethernet.step, Option.ite_none_right_eq_some, Option.some.injEq] at hs
      obtain ⟨hroom, rfl⟩ := hs
      exact hi.received hroom
  | other i =>
      rw [Ethernet.step, Option.ite_none_right_eq_some, Option.some.injEq] at hs
      obtain ⟨hne, rfl⟩ := hs
      have h3 : testBit (setBit s.intStatus i) 3 = testBit s.intStatus 3 := by
        simp [hne.1.symm]
      refine hi.event rfl rfl rfl rfl hi.produce_le (fun h => h3.trans h) ?_
      simp only [frames, due, h3]

/-! ### The frames that came while an event was latched -/

/-- The MAC receives a frame while the event of an earlier one is still latched. -/
def Doubled (s : Ethernet) (a : Act) : Prop := a = .received ∧ testBit s.intStatus 3 = true

/-- What a statement of a thread leaves alone. -/
lemma run_doubled (hs : s.run t = some s') : s'.doubled = s.doubled := by
  rw [Ethernet.run] at hs
  split at hs
  · simp at hs
  all_goals first
    | rw [Option.ite_none_right_eq_some, Option.some.injEq] at hs
      rw [← hs.2]
      rfl
    | rw [Option.some.injEq] at hs
      rw [← hs]
      rfl

/-- A step counts the frame that it doubles, and no other. -/
lemma step_doubled (hs : s.step a = some s') :
    (Doubled s a → s'.doubled = s.doubled + 1) ∧ (¬ Doubled s a → s'.doubled = s.doubled) := by
  cases a with
  | received =>
      rw [Ethernet.step, Option.ite_none_right_eq_some, Option.some.injEq] at hs
      rw [← hs.2]
      exact ⟨fun h => if_pos h.2, fun h => if_neg fun h3 => h ⟨rfl, h3⟩⟩
  | run u =>
      rw [Ethernet.step, Option.ite_none_right_eq_some] at hs
      exact ⟨fun h => by simp [Doubled] at h, fun _ => run_doubled hs.2⟩
  | exception =>
      rw [Ethernet.step, Option.some.injEq] at hs
      obtain ⟨-, -, -, -, -, -, hdoubled⟩ := exception_frame s
      exact ⟨fun h => by simp [Doubled] at h, fun _ => hs ▸ hdoubled⟩
  | output u | scan | sent | other i =>
      rw [Ethernet.step, Option.ite_none_right_eq_some, Option.some.injEq] at hs
      rw [← hs.2]
      exact ⟨fun h => by simp [Doubled] at h, fun _ => rfl⟩

/-- The count of a run that doubles no frame stays, and that of any other goes up. -/
lemma exec_doubled {as : List Act} (hs : Run.exec step s as = some s') :
    s.doubled ≤ s'.doubled ∧
      (s'.doubled = s.doubled ↔ Run.Along step (fun s a _ => ¬ Doubled s a) s as) := by
  induction as generalizing s with
  | nil =>
      rw [Run.exec, Option.some.injEq] at hs
      exact ⟨(congrArg doubled hs).le, iff_of_true (congrArg doubled hs).symm trivial⟩
  | cons a as ih =>
      rw [Run.exec, Option.bind_eq_some_iff] at hs
      obtain ⟨s₁, hs₁, hs⟩ := hs
      obtain ⟨hle, hiff⟩ := ih hs
      obtain ⟨hyes, hno⟩ := step_doubled hs₁
      by_cases hd : Doubled s a
      · have hup := hyes hd
        refine ⟨by omega, fun h => ?_, fun h => absurd hd (h s₁ hs₁).1⟩
        omega
      · rw [← hno hd]
        exact ⟨hle, fun h => Run.Along.cons hs₁ hd (hiff.mp h), fun h => hiff.mpr (h s₁ hs₁).2⟩

/-- **The receiver.** At the end of any run of the scanning thread, the senders, the handler
and the MAC from `ethernet_setup` on that leaves the scanning thread blocked on `RecvDone`
with no event to wake it, the receive ring is empty if and only if the MAC has received no
frame while the event of an earlier one was still latched. -/
theorem not_stranded_iff {as : List Act} (hs : Run.exec step setup as = some s)
    (hblocked : ScanBlocked s) :
    s.rxConsumeIndex = s.rxProduceIndex ↔
      Run.Along step (fun s a _ => ¬ Doubled s a) setup as := by
  obtain ⟨hpoint, hzero, h3, hh⟩ := hblocked
  have hi : Inv s := Run.invariant_of_exec_all (fun _ _ _ hi h => hi.step h) inv_setup hs
  have hbalance : frames s = s.doubled := by
    have hdue : due s = 0 := by simp only [due, hh, h3, if_false, Bool.false_eq_true]
    rw [hi.balance, hpoint, hzero, hdue]
    simp [taken]
  rw [← frames_eq_zero_iff hi, hbalance]
  exact (exec_doubled hs).2

end Steps

/-! ### Two frames for one event -/

/-- The scanning thread blocks; one frame arrives and is handled, and the thread takes it and
blocks again. -/
def oneFrame : List Act :=
  [.scan, .received, .exception, .exception, .exception, .run 0, .run 0, .run 0, .run 0, .run 0,
    .scan]

/-- A run with one frame at a time leaves nothing behind. -/
theorem not_stranded_iff_oneFrame :
    ∃ s, Run.exec step setup oneFrame = some s ∧ ScanBlocked s ∧
      (s.rxConsumeIndex = s.rxProduceIndex ↔
        Run.Along step (fun s a _ => ¬ Doubled s a) setup oneFrame) := by
  obtain ⟨s, hs⟩ : ∃ s, Run.exec step setup oneFrame = some s := ⟨_, rfl⟩
  have hblocked : (s.point 0, s.recvDone, testBit s.intStatus 3, s.handler) =
      (.scanWait, 0, false, .idle) := Run.eq_of_exec (f := fun s =>
    (s.point 0, s.recvDone, testBit s.intStatus 3, s.handler)) hs rfl
  simp only [Prod.mk.injEq] at hblocked
  exact ⟨s, hs, hblocked, not_stranded_iff hs hblocked⟩

/-- Two frames arrive before the handler runs, which posts `RecvDone` once. -/
def twoFrames : List Act :=
  [.scan, .received, .received, .exception, .exception, .exception, .run 0, .run 0, .run 0,
    .run 0, .run 0, .scan]

/-- The thread takes the first frame and waits for ever for the second. -/
theorem stranded_twoFrames :
    ∃ s, Run.exec step setup twoFrames = some s ∧ ScanBlocked s ∧
      s.rxConsumeIndex ≠ s.rxProduceIndex := by
  obtain ⟨s, hs⟩ : ∃ s, Run.exec step setup twoFrames = some s := ⟨_, rfl⟩
  have hblocked : (s.point 0, s.recvDone, testBit s.intStatus 3, s.handler) =
      (.scanWait, 0, false, .idle) := Run.eq_of_exec (f := fun s =>
    (s.point 0, s.recvDone, testBit s.intStatus 3, s.handler)) hs rfl
  have hindex : (s.rxConsumeIndex, s.rxProduceIndex) = (1, 2) :=
    Run.eq_of_exec (f := fun s => (s.rxConsumeIndex, s.rxProduceIndex)) hs rfl
  simp only [Prod.mk.injEq] at hblocked hindex
  exact ⟨s, hs, hblocked, by omega⟩

end Receive

end Ethernet

end ChinaOS
