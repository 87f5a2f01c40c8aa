import ChinaOS.Run

/-!
The timeouts of `ethernet/core/timers.c`.

The network thread keeps one list of timeouts, each with the time that is left after the one before
it. It waits for a message as long as the first one is not due, and calls its handler if none has
come by then.

* `sysTimeout`, `sysUntimeout`, `waited`, `expired`: the functions of the source; the last two are
  the branches of `sys_timeouts_mbox_fetch`.
* `due`: the list with absolute times.
* `Agenda`: what the list is for, a list of times in order. `timeouts_refine`: in any run the list
  is an agenda, and every handler is called exactly at its time.
-/

namespace ChinaOS

namespace Timeouts

/-- A handler with its argument; both are compared as pointers. A null handler is not called. -/
structure Handler where
  h : ℕ
  arg : ℕ
  deriving DecidableEq

/-- `struct sys_timeo`. -/
structure SysTimeo where
  time : BitVec 32
  call : Handler
  deriving DecidableEq

/-! ### The functions of the source -/

/-- The loop of `sys_timeout`, from a timeout that is not behind the new one. -/
def insertBehind (call : Handler) : BitVec 32 → List SysTimeo → List SysTimeo
  | _, [] => []
  | time, t :: next =>
      let time := time - t.time
      match next with
      | [] => [t, ⟨time, call⟩]
      | n :: rest =>
          if n.time > time then t :: ⟨time, call⟩ :: { n with time := n.time - time } :: rest
          else t :: insertBehind call time (n :: rest)

/-- `sys_timeout`; the pool has room for `pool` timeouts. -/
def sysTimeout (pool : ℕ) (msecs : BitVec 32) (call : Handler) (l : List SysTimeo) :
    List SysTimeo :=
  if pool ≤ l.length then l
  else
    match l with
    | [] => [⟨msecs, call⟩]
    | t :: rest =>
        if t.time > msecs then ⟨msecs, call⟩ :: { t with time := t.time - msecs } :: rest
        else insertBehind call msecs (t :: rest)

/-- `sys_untimeout`. -/
def sysUntimeout (call : Handler) : List SysTimeo → List SysTimeo
  | [] => []
  | t :: rest =>
      if t.call = call then
        match rest with
        | [] => []
        | n :: rest => { n with time := n.time + t.time } :: rest
      else t :: sysUntimeout call rest

/-- A message has come after `timeNeeded`. -/
def waited (timeNeeded : BitVec 32) : List SysTimeo → List SysTimeo
  | [] => []
  | t :: rest =>
      { t with time := if timeNeeded < t.time then t.time - timeNeeded else 0 } :: rest

/-- No message has come within the time of the first timeout, which is taken off the list. -/
def expired : List SysTimeo → Option (SysTimeo × List SysTimeo)
  | [] => none
  | t :: rest => some (t, rest)

/-- What may happen to the list. -/
inductive Event where
  | timeout (msecs : BitVec 32) (call : Handler)
  | untimeout (call : Handler)
  | message (timeNeeded : BitVec 32)
  | expire

/-- The list, the time since the beginning, and the calls of handlers with their times. -/
structure State where
  list : List SysTimeo
  now : ℕ
  calls : List (ℕ × Handler)

/-- The call of the handler of a timeout. -/
def called (now : ℕ) (call : Handler) : List (ℕ × Handler) :=
  if call.h = 0 then [] else [(now, call)]

/-- One event. -/
def step (pool : ℕ) (s : State) : Event → Option State
  | .timeout msecs call => some { s with list := sysTimeout pool msecs call s.list }
  | .untimeout call => some { s with list := sysUntimeout call s.list }
  | .message timeNeeded =>
      some { s with list := waited timeNeeded s.list, now := s.now + timeNeeded.toNat }
  | .expire => do
      let (t, rest) ← expired s.list
      let now := s.now + t.time.toNat
      some ⟨rest, now, s.calls ++ called now t.call⟩

/-- The message has come before the first timeout is due. -/
def Prompt (s : State) : Event → Prop
  | .message timeNeeded => ∀ t ∈ s.list.head?, timeNeeded.toNat ≤ t.time.toNat
  | _ => True

/-! ### What the list is for -/

/-- Times at which handlers are to be called, in order. -/
structure Agenda where
  pending : List (ℕ × Handler)
  now : ℕ
  calls : List (ℕ × Handler)

/-- A new entry is put behind those that are due at the same time; a call is made at its time. -/
def Agenda.step (pool : ℕ) (a : Agenda) : Event → Option Agenda
  | .timeout msecs call =>
      some (if pool ≤ a.pending.length then a
        else
          { a with
            pending := a.pending.orderedInsert (fun x y => x.1 < y.1) (a.now + msecs.toNat, call) })
  | .untimeout call => some { a with pending := a.pending.eraseP fun x => x.2 = call }
  | .message timeNeeded => some { a with now := a.now + timeNeeded.toNat }
  | .expire =>
      match a.pending with
      | [] => none
      | x :: pending => some ⟨pending, x.1, a.calls ++ called x.1 x.2⟩

/-- The times at which the timeouts are due. -/
def due (now : ℕ) : List SysTimeo → List (ℕ × Handler)
  | [] => []
  | t :: rest => (now + t.time.toNat, t.call) :: due (now + t.time.toNat) rest

section Due

variable {now pool : ℕ} {l rest : List SysTimeo} {t n : SysTimeo} {time msecs : BitVec 32}
  {call : Handler} {x : ℕ × Handler}

@[simp] lemma length_due : (due now l).length = l.length := by
  induction l generalizing now with
  | nil => rfl
  | cons t l ih => rw [due, List.length_cons, List.length_cons, ih]

lemma toNat_sub_of_le {a b : BitVec 32} (h : b.toNat ≤ a.toNat) :
    (a - b).toNat = a.toNat - b.toNat := BitVec.toNat_sub_of_le (BitVec.le_def.mpr h)

/-- A timeout in front of the others. -/
lemma due_insert_front (h : time.toNat < n.time.toNat) :
    due now (⟨time, call⟩ :: { n with time := n.time - time } :: rest) =
      (now + time.toNat, call) :: due now (n :: rest) := by
  have hsub : now + time.toNat + (n.time - time).toNat = now + n.time.toNat := by
    rw [toNat_sub_of_le h.le]
    omega
  simp only [due, hsub]

/-- **The loop** puts the new timeout in its place. -/
lemma due_insertBehind (h : t.time.toNat ≤ time.toNat) :
    due now (insertBehind call time (t :: rest)) =
      (due now (t :: rest)).orderedInsert (fun x y => x.1 < y.1) (now + time.toNat, call) := by
  induction rest generalizing now t time with
  | nil =>
      have hsub : now + t.time.toNat + (time - t.time).toNat = now + time.toNat := by
        rw [toNat_sub_of_le h]
        omega
      rw [insertBehind]
      simp only [due, hsub]
      rw [List.orderedInsert_of_not_le _ _ (by dsimp only; omega)]
      rfl
  | cons n rest ih =>
      have hsub : now + t.time.toNat + (time - t.time).toNat = now + time.toNat := by
        rw [toNat_sub_of_le h]
        omega
      rw [due, List.orderedInsert_of_not_le _ _ (by dsimp only; omega), insertBehind]
      split_ifs with hn
      · have hn : (time - t.time).toNat < n.time.toNat := BitVec.lt_def.mp hn
        rw [due, due_insert_front hn, hsub, due, List.orderedInsert_cons_of_le]
        dsimp only
        omega
      · have hn : ¬ (time - t.time).toNat < n.time.toNat := fun h => hn (BitVec.lt_def.mpr h)
        rw [due, ih (Nat.le_of_not_lt hn), hsub]

/-- **`sys_timeout`** puts the new timeout in its place, if there is room for it. -/
lemma due_sysTimeout : due now (sysTimeout pool msecs call l) =
    if pool ≤ l.length then due now l
    else (due now l).orderedInsert (fun x y => x.1 < y.1) (now + msecs.toNat, call) := by
  cases l with
  | nil =>
      rw [sysTimeout]
      split_ifs
      · rfl
      · rfl
  | cons t rest =>
      rw [sysTimeout]
      split_ifs with hpool ht
      · rfl
      · have ht : msecs.toNat < t.time.toNat := BitVec.lt_def.mp ht
        rw [due_insert_front ht, due, List.orderedInsert_cons_of_le]
        dsimp only
        omega
      · exact due_insertBehind (Nat.le_of_not_lt fun h => ht (BitVec.lt_def.mpr h))

/-- The time that is left of every timeout fits a word. -/
def Fits (now : ℕ) (l : List SysTimeo) : Prop := ∀ x ∈ due now l, x.1 < now + 2 ^ 32

lemma due_mono : ∀ x ∈ due now l, now ≤ x.1 := by
  induction l generalizing now with
  | nil => simp [due]
  | cons t l ih =>
      intro x hx
      rw [due, List.mem_cons] at hx
      rcases hx with rfl | hx
      · exact Nat.le_add_right _ _
      · exact (Nat.le_add_right _ _).trans (ih x hx)

/-- **`sys_untimeout`** takes the first timeout with this handler off the list. -/
lemma due_sysUntimeout {now₀ : ℕ} (h0 : now₀ ≤ now) (h : ∀ x ∈ due now l, x.1 < now₀ + 2 ^ 32) :
    due now (sysUntimeout call l) = (due now l).eraseP fun x => x.2 = call := by
  induction l generalizing now with
  | nil => rfl
  | cons t rest ih =>
      rw [due, List.eraseP_cons]
      by_cases hc : t.call = call
      · simp only [sysUntimeout, if_pos hc, decide_eq_true hc, cond_true]
        cases rest with
        | nil => rfl
        | cons n rest =>
            -- the time of the one taken off is given to the next one
            have hlt := h (now + t.time.toNat + n.time.toNat, n.call) (by simp [due])
            have hadd : now + (n.time + t.time).toNat = now + t.time.toNat + n.time.toNat := by
              rw [BitVec.toNat_add, Nat.mod_eq_of_lt (by omega)]
              omega
            simp only [due, hadd]
      · have hrest : ∀ x ∈ due (now + t.time.toNat) rest, x.1 < now₀ + 2 ^ 32 := fun x hx =>
          h x (List.mem_cons_of_mem _ hx)
        simp only [sysUntimeout, if_neg hc, decide_eq_false hc, cond_false]
        rw [due, ih (by omega) hrest]

/-- **A message** that has come in time changes no time at which a handler is due. -/
lemma due_waited (h : ∀ t ∈ l.head?, time.toNat ≤ t.time.toNat) :
    due (now + time.toNat) (waited time l) = due now l := by
  cases l with
  | nil => rfl
  | cons t rest =>
      have hle : time.toNat ≤ t.time.toNat := h t rfl
      have hleft : (if time < t.time then t.time - time else 0).toNat =
          t.time.toNat - time.toNat := by
        split_ifs with hlt
        · exact toNat_sub_of_le hle
        · have : ¬ time.toNat < t.time.toNat := fun h => hlt (BitVec.lt_def.mpr h)
          rw [show (0 : BitVec 32).toNat = 0 from rfl]
          omega
      have hsum : now + time.toNat + (t.time.toNat - time.toNat) = now + t.time.toNat := by omega
      simp only [waited, due, hleft, hsum]

end Due

/-! ### The list is an agenda -/

/-- What the list is, as an agenda. -/
def agenda (s : State) : Agenda := ⟨due s.now s.list, s.now, s.calls⟩

section Run

variable {pool : ℕ} {s s' : State} {e : Event} {es : List Event}

/-- **One event**, on the list and on the agenda. -/
lemma agenda_step (hf : Fits s.now s.list) (hp : Prompt s e) (hs : step pool s e = some s') :
    (agenda s).step pool e = some (agenda s') ∧ Fits s'.now s'.list := by
  cases e with
  | timeout msecs call =>
      obtain rfl : _ = s' := Option.some.inj hs
      refine ⟨?_, ?_⟩
      · simp only [agenda, Agenda.step, length_due, due_sysTimeout]
        split_ifs <;> rfl
      · intro x hx
        rw [due_sysTimeout] at hx
        split_ifs at hx
        · exact hf x hx
        · rcases (List.mem_orderedInsert _).mp hx with rfl | hx
          · have := msecs.isLt
            show s.now + msecs.toNat < s.now + 2 ^ 32
            omega
          · exact hf x hx
  | untimeout call =>
      obtain rfl : _ = s' := Option.some.inj hs
      have hdue : due s.now (sysUntimeout call s.list) = (due s.now s.list).eraseP _ :=
        due_sysUntimeout le_rfl hf
      refine ⟨?_, fun x hx => ?_⟩
      · simp only [agenda, Agenda.step, hdue]
      · rw [hdue] at hx
        exact hf x (List.mem_of_mem_eraseP hx)
  | message timeNeeded =>
      obtain rfl : _ = s' := Option.some.inj hs
      have hdue : due (s.now + timeNeeded.toNat) (waited timeNeeded s.list) = due s.now s.list :=
        due_waited hp
      refine ⟨?_, fun x hx => ?_⟩
      · simp only [agenda, Agenda.step, hdue]
      · rw [hdue] at hx
        exact (hf x hx).trans_le (by show s.now + 2 ^ 32 ≤ s.now + timeNeeded.toNat + 2 ^ 32; omega)
  | expire =>
      obtain ⟨l, now, calls⟩ := s
      cases l with
      | nil => simp [step, expired] at hs
      | cons t rest =>
          obtain rfl : _ = s' := Option.some.inj hs
          refine ⟨rfl, fun x hx => ?_⟩
          have hx : x ∈ due (now + t.time.toNat) rest := hx
          have := hf x (List.mem_cons_of_mem _ hx)
          show x.1 < now + t.time.toNat + 2 ^ 32
          dsimp only at this
          omega

/-- The pending entries of an agenda are in order and not in the past. -/
def Ordered (a : Agenda) : Prop := a.pending.Pairwise (fun x y => x.1 ≤ y.1) ∧
  ∀ x ∈ a.pending, a.now ≤ x.1

lemma ordered_agenda : Ordered (agenda s) := by
  refine ⟨?_, due_mono⟩
  show (due s.now s.list).Pairwise _
  generalize s.now = now
  induction s.list generalizing now with
  | nil => exact .nil
  | cons t l ih => exact List.pairwise_cons.mpr ⟨due_mono, ih _⟩

/-- **The list of timeouts is an agenda.** Take any run of calls of `sys_timeout` and
`sys_untimeout`, of messages that come before the first timeout is due, and of timeouts that are
served. The list behaves like an agenda of absolute times: a timeout is put behind those that are
due at the same time, `sys_untimeout` takes the first one with its handler away and leaves the
times of the others, and every handler is called exactly at its time, in order, and once. -/
theorem timeouts_refine {s₀ s : State} (h : Run.exec (step pool) s₀ es = some s)
    (hf : Fits s₀.now s₀.list) (hp : Run.Along (step pool) (fun s e _ => Prompt s e) s₀ es) :
    Run.exec (Agenda.step pool) (agenda s₀) es = some (agenda s) ∧ Ordered (agenda s) := by
  refine ⟨?_, ordered_agenda⟩
  induction es generalizing s₀ with
  | nil =>
      obtain rfl : s₀ = s := Option.some.inj h
      rfl
  | cons e es ih =>
      rw [Run.exec, Option.bind_eq_some_iff] at h
      obtain ⟨s₁, hs, h⟩ := h
      obtain ⟨he, hp⟩ := hp s₁ hs
      obtain ⟨ha, hf⟩ := agenda_step hf he hs
      rw [Run.exec, ha, Option.bind_some]
      exact ih h hf hp

/-- A timer of 250 ms and one of 100 ms; a message after 40 ms. -/
theorem timeouts_refine_two : ∃ s, Run.exec (step 8) ⟨[], 0, []⟩ [.timeout 250 ⟨1, 0⟩,
      .timeout 100 ⟨2, 0⟩, .message 40, .expire, .expire] = some s ∧
    agenda s = ⟨[], 250, [(100, ⟨2, 0⟩), (250, ⟨1, 0⟩)]⟩ := by
  obtain ⟨s, hs⟩ : ∃ s, Run.exec (step 8) ⟨[], 0, []⟩ [.timeout 250 ⟨1, 0⟩,
      .timeout 100 ⟨2, 0⟩, .message 40, .expire, .expire] = some s := ⟨_, rfl⟩
  refine ⟨s, hs, ?_⟩
  have h := (timeouts_refine hs (fun x hx => absurd hx List.not_mem_nil) ?_).1
  · exact Option.some.inj (h.symm.trans rfl)
  · refine .cons rfl trivial (.cons rfl trivial (.cons rfl ?_ (.cons rfl trivial
      (.cons rfl trivial trivial))))
    intro t ht
    obtain rfl : _ = t := Option.some.inj ht
    decide

end Run

end Timeouts

end ChinaOS
