import ChinaOS.Bit
import ChinaOS.Run

/-!
The driver `ethernet/netif/ethernetif.c`: `low_level_output`, `ethernet_scan` with
`low_level_input`, and `ethernet_exception`, against the MAC.

The MAC and the driver share a ring of descriptors for each direction, and a word of latched
events. The semaphores are counting semaphores: a wait goes on when the counter is not zero.
The handler runs in an interrupt, so while it runs the MAC may go on but no thread does.

* `step`: a statement of a call, a statement of the handler, or an event of the MAC.
* `Exclusive`: at most one thread is between the wait on `Access` and its post
  (`Exclusive.step`).
-/

namespace ChinaOS

/-- How far a thread has come: outside the driver; in `low_level_output` at the wait on
`Access`, at the test for a full ring, at the wait on `SendDone`, at the update of
`TxProduceIndex`, at the post of `Access`; in `ethernet_scan` at the wait on `RecvDone`, at
the wait on `Access`, at the reads of the indices, at the update of `RxConsumeIndex`, at the
post of `Access`. -/
inductive NetPoint where
  | idle
  | outAccess
  | outCheck (ProduceNext : ℕ)
  | outWait (ProduceNext : ℕ)
  | outWrite (ProduceNext : ℕ)
  | outPost
  | scanWait
  | inAccess
  | inRead
  | inWrite (ConsumeNext : ℕ)
  | inPost
  deriving DecidableEq

/-- Where the handler is: not running; behind the read of `IntStatus`; behind its post. -/
inductive Handler where
  | idle
  | read (InteruptStatus : Int32U)
  | posted (InteruptStatus : Int32U)
  deriving DecidableEq

/-- The registers that the driver and the MAC share, the semaphores, the handler and the
threads. `doubled` counts the frames that the MAC received while the event of an earlier one
was still latched. -/
structure Ethernet where
  txProduceIndex : ℕ
  txConsumeIndex : ℕ
  rxProduceIndex : ℕ
  rxConsumeIndex : ℕ
  intStatus : Int32U
  access : ℕ
  sendDone : ℕ
  recvDone : ℕ
  handler : Handler
  point : ThreadId → NetPoint
  doubled : ℕ

namespace Ethernet

/-- `TxDescriptorNumber`: `NUM_TX_FRAG - 1`. -/
def txDescriptorNumber : ℕ := 2

/-- `RxDescriptorNumber`: `NUM_RX_FRAG - 1`. -/
def rxDescriptorNumber : ℕ := 3

/-- The descriptor behind `i`. -/
def nextIndex (MaxIndex i : ℕ) : ℕ := if MaxIndex < i + 1 then 0 else i + 1

/-- The thread that scans. -/
def scanner : ThreadId := 0

/-- The thread `t` comes to `p`. -/
def goto (s : Ethernet) (t : ThreadId) (p : NetPoint) : Ethernet :=
  { s with point := Function.update s.point t p }

/-- The next statement of the call that the thread is in. -/
def run (s : Ethernet) (t : ThreadId) : Option Ethernet :=
  match s.point t with
  | .idle => none
  | .outAccess =>
      if 0 < s.access then
        some (goto { s with access := s.access - 1 } t
          (.outCheck (nextIndex txDescriptorNumber s.txProduceIndex)))
      else none
  | .outCheck ProduceNext =>
      some (goto s t (if ProduceNext = s.txConsumeIndex then .outWait ProduceNext
        else .outWrite ProduceNext))
  | .outWait ProduceNext =>
      if 0 < s.sendDone then
        some (goto { s with sendDone := s.sendDone - 1 } t (.outCheck ProduceNext))
      else none
  | .outWrite ProduceNext => some (goto { s with txProduceIndex := ProduceNext } t .outPost)
  | .outPost | .inPost => some (goto { s with access := s.access + 1 } t .idle)
  | .scanWait =>
      if 0 < s.recvDone then some (goto { s with recvDone := s.recvDone - 1 } t .inAccess)
      else none
  | .inAccess =>
      if 0 < s.access then some (goto { s with access := s.access - 1 } t .inRead) else none
  | .inRead =>
      some (goto s t (if s.rxConsumeIndex ≠ s.rxProduceIndex then
        .inWrite (nextIndex rxDescriptorNumber s.rxConsumeIndex) else .inPost))
  | .inWrite ConsumeNext => some (goto { s with rxConsumeIndex := ConsumeNext } t .inPost)

/-- The next statement of `ethernet_exception`. -/
def exception (s : Ethernet) : Ethernet :=
  match s.handler with
  | .idle => { s with handler := .read s.intStatus }
  | .read InteruptStatus =>
      let s := { s with handler := .posted InteruptStatus }
      if testBit InteruptStatus 3 then { s with recvDone := s.recvDone + 1 }
      else if testBit InteruptStatus 7 then { s with sendDone := s.sendDone + 1 }
      else s
  | .posted InteruptStatus =>
      { s with handler := .idle, intStatus := s.intStatus &&& ~~~InteruptStatus }

/-- What may happen next: a thread calls `low_level_output`, the scanning thread calls
`ethernet_scan`, a thread or the handler goes on, the MAC has sent a queued frame, has
received one, or latches another event. -/
inductive Act where
  | output (t : ThreadId)
  | scan
  | run (t : ThreadId)
  | exception
  | sent
  | received
  | other (i : ℕ)

/-- One step. The MAC drops a frame for which the ring has no descriptor. -/
def step (s : Ethernet) : Act → Option Ethernet
  | .output t =>
      if s.handler = .idle ∧ s.point t = .idle then some (s.goto t .outAccess) else none
  | .scan =>
      if s.handler = .idle ∧ s.point scanner = .idle then some (s.goto scanner .scanWait)
      else none
  | .run t => if s.handler = .idle then s.run t else none
  | .exception => some s.exception
  | .sent =>
      if s.txConsumeIndex ≠ s.txProduceIndex then
        some { s with
          txConsumeIndex := nextIndex txDescriptorNumber s.txConsumeIndex
          intStatus := setBit s.intStatus 7 }
      else none
  | .received =>
      if nextIndex rxDescriptorNumber s.rxProduceIndex ≠ s.rxConsumeIndex then
        some { s with
          rxProduceIndex := nextIndex rxDescriptorNumber s.rxProduceIndex
          intStatus := setBit s.intStatus 3
          doubled := if testBit s.intStatus 3 then s.doubled + 1 else s.doubled }
      else none
  | .other i =>
      if i ≠ 3 ∧ i ≠ 7 then some { s with intStatus := setBit s.intStatus i } else none

/-- The state behind `ethernet_setup`. -/
def setup : Ethernet where
  txProduceIndex := 0
  txConsumeIndex := 0
  rxProduceIndex := 0
  rxConsumeIndex := 0
  intStatus := 0
  access := 1
  sendDone := 2
  recvDone := 0
  handler := .idle
  point := fun _ => .idle
  doubled := 0

/-! ### The bits of the event word -/

@[simp] lemma testBit_setBit (s : Int32U) (i j : ℕ) :
    testBit (setBit s i) j = (testBit s j || decide (j < 32 ∧ j = i)) := by
  rw [testBit_eq, testBit_eq, getLsbD_setBit]

@[simp] lemma testBit_clear (s t : Int32U) (j : ℕ) :
    testBit (s &&& ~~~t) j = (testBit s j && !testBit t j) := by
  rw [testBit_eq, testBit_eq, testBit_eq, BitVec.getLsbD_and, BitVec.getLsbD_not]
  by_cases hj : j < 32
  · simp [hj]
  · simp [BitVec.getLsbD_of_ge s j (by omega)]

/-! ### Access -/

/-- The points between the wait on `Access` and its post. -/
def holds : NetPoint → Bool
  | .outCheck _ | .outWait _ | .outWrite _ | .outPost | .inRead | .inWrite _ | .inPost => true
  | _ => false

/-- At most one thread holds `Access`, and none while its counter is not zero. -/
structure Exclusive (s : Ethernet) : Prop where
  one : ∀ t u, holds (s.point t) = true → holds (s.point u) = true → t = u
  free : 0 < s.access → ∀ t, holds (s.point t) = false
  le_one : s.access ≤ 1

lemma exclusive_setup : Exclusive setup :=
  ⟨fun t u h => by simp [setup, holds] at h, fun _ _ => rfl, le_rfl⟩

section Exclusive

variable {s s' : Ethernet} {t u : ThreadId} {p : NetPoint} {a : Act}

/-- A statement that neither takes nor gives back `Access`. -/
lemma Exclusive.goto (h : Exclusive s) (hp : holds p = holds (s.point t))
    (hpoint : s'.point = Function.update s.point t p) (ha : s'.access = s.access) :
    Exclusive s' := by
  have heq : ∀ u, holds (s'.point u) = holds (s.point u) := by
    intro u
    rw [hpoint, Function.update_apply]
    split_ifs with hut
    · rw [hut, hp]
    · rfl
  refine ⟨fun u v hu hv => ?_, fun hpos u => ?_, by rw [ha]; exact h.le_one⟩
  · rw [heq] at hu hv
    exact h.one u v hu hv
  · rw [heq]
    exact h.free (ha ▸ hpos) u

/-- The wait on `Access` that goes on. -/
lemma Exclusive.acquire (h : Exclusive s) (hpos : 0 < s.access)
    (hpoint : s'.point = Function.update s.point t p) (ha : s'.access = s.access - 1) :
    Exclusive s' := by
  have hle := h.le_one
  have hother : ∀ u, holds (s'.point u) = true → u = t := by
    intro u hu
    by_contra hut
    rw [hpoint, Function.update_of_ne hut, h.free hpos u] at hu
    simp at hu
  refine ⟨fun u v hu hv => (hother u hu).trans (hother v hv).symm, fun hpos' => ?_, ?_⟩ <;> omega

/-- The post of `Access`. -/
lemma Exclusive.release (h : Exclusive s) (ht : holds (s.point t) = true)
    (hp : holds p = false) (hpoint : s'.point = Function.update s.point t p)
    (ha : s'.access = s.access + 1) : Exclusive s' := by
  have hzero : s.access = 0 := by
    by_contra hne
    rw [h.free (Nat.pos_of_ne_zero hne) t] at ht
    simp at ht
  have hnone : ∀ u, holds (s'.point u) = false := by
    intro u
    rw [hpoint, Function.update_apply]
    split_ifs with hut
    · exact hp
    · by_contra hu
      exact hut (h.one u t (Bool.eq_true_of_not_eq_false hu) ht)
  refine ⟨fun u v hu => ?_, fun _ => hnone, by omega⟩
  rw [hnone u] at hu
  simp at hu

/-- A statement of a thread. -/
lemma Exclusive.run (h : Exclusive s) (hs : s.run t = some s') : Exclusive s' := by
  rw [Ethernet.run] at hs
  split at hs
  · simp at hs
  all_goals rename_i hp
  · rw [Option.ite_none_right_eq_some, Option.some.injEq] at hs
    exact hs.2 ▸ h.acquire hs.1 rfl rfl
  · rw [Option.some.injEq] at hs
    subst hs
    refine h.goto (t := t) ?_ rfl rfl
    rw [hp]
    split_ifs <;> rfl
  · rw [Option.ite_none_right_eq_some, Option.some.injEq] at hs
    exact hs.2 ▸ h.goto (by rw [hp]; rfl) rfl rfl
  · rw [Option.some.injEq] at hs
    exact hs ▸ h.goto (by rw [hp]; rfl) rfl rfl
  · rw [Option.some.injEq] at hs
    exact hs ▸ h.release (by rw [hp]; rfl) rfl rfl rfl
  · rw [Option.some.injEq] at hs
    exact hs ▸ h.release (by rw [hp]; rfl) rfl rfl rfl
  · rw [Option.ite_none_right_eq_some, Option.some.injEq] at hs
    exact hs.2 ▸ h.goto (by rw [hp]; rfl) rfl rfl
  · rw [Option.ite_none_right_eq_some, Option.some.injEq] at hs
    exact hs.2 ▸ h.acquire hs.1 rfl rfl
  · rw [Option.some.injEq] at hs
    subst hs
    refine h.goto (t := t) ?_ rfl rfl
    rw [hp]
    split_ifs <;> rfl
  · rw [Option.some.injEq] at hs
    exact hs ▸ h.goto (by rw [hp]; rfl) rfl rfl

lemma exception_idle (hh : s.handler = .idle) :
    s.exception = { s with handler := .read s.intStatus } := by
  rw [exception, hh]

/-- One semaphore at most is posted, and `SendDone` only where no frame was received. -/
lemma exception_read {st : Int32U} (hh : s.handler = .read st) :
    s.exception = { s with
      handler := .posted st
      recvDone := if testBit st 3 then s.recvDone + 1 else s.recvDone
      sendDone := if testBit st 3 then s.sendDone
        else if testBit st 7 then s.sendDone + 1 else s.sendDone } := by
  rw [exception, hh]
  dsimp only
  split_ifs <;> rfl

lemma exception_posted {st : Int32U} (hh : s.handler = .posted st) :
    s.exception = { s with handler := .idle, intStatus := s.intStatus &&& ~~~st } := by
  rw [exception, hh]

/-- What the handler leaves alone. -/
lemma exception_frame (s : Ethernet) : s.exception.point = s.point ∧
    s.exception.access = s.access ∧ s.exception.txProduceIndex = s.txProduceIndex ∧
    s.exception.txConsumeIndex = s.txConsumeIndex ∧
    s.exception.rxProduceIndex = s.rxProduceIndex ∧
    s.exception.rxConsumeIndex = s.rxConsumeIndex ∧ s.exception.doubled = s.doubled := by
  rw [exception]
  split
  · simp
  · dsimp only
    split_ifs <;> simp
  · simp

/-- **Access is exclusive** in every state. -/
theorem Exclusive.step (h : Exclusive s) (hs : s.step a = some s') : Exclusive s' := by
  cases a with
  | output u =>
      rw [Ethernet.step, Option.ite_none_right_eq_some, Option.some.injEq] at hs
      exact hs.2 ▸ h.goto (by rw [hs.1.2]; rfl) rfl rfl
  | scan =>
      rw [Ethernet.step, Option.ite_none_right_eq_some, Option.some.injEq] at hs
      exact hs.2 ▸ h.goto (by rw [hs.1.2]; rfl) rfl rfl
  | run u =>
      rw [Ethernet.step, Option.ite_none_right_eq_some] at hs
      exact h.run hs.2
  | exception =>
      rw [Ethernet.step, Option.some.injEq] at hs
      obtain ⟨hp, ha, -⟩ := exception_frame s
      subst hs
      exact ⟨by rw [hp]; exact h.one, by rw [hp, ha]; exact h.free, by rw [ha]; exact h.le_one⟩
  | sent | received | other i =>
      rw [Ethernet.step, Option.ite_none_right_eq_some, Option.some.injEq] at hs
      exact hs.2 ▸ ⟨h.one, h.free, h.le_one⟩

end Exclusive

end Ethernet

end ChinaOS
