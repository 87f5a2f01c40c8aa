import ChinaOS.Types
import ChinaOS.Fifo

/-!
The message queue of `kernel/mailbox/mailbox.c`.

A mailbox is one block of memory: a header of 24 bytes and then the slots of the messages.
`mailbox_new` asks `malloc` for `Size * sizeof(MAIL) + sizeof(struct mailbox_t)` bytes,
room for the slots `0..Size`, in wrapping arithmetic. A function that reaches a slot outside
the bytes asked for answers `none` here: what it then reads or overwrites is not the
mailbox's.

The wake-up of a thread on `WaitHead` changes no field of the queue and is in
`ChinaOS.Kernel`.

* `Stores`: the representation of a queue by the slots behind `read`, as far as `write`.
* `step_stores`: every call refines the bounded queue.
-/

namespace ChinaOS

/-- `MAIL`: an untyped pointer. -/
abbrev Mail := Int32U

/-- `struct mailbox_t`: the queue fields of the header, the slots, and how many bytes were
asked of `malloc` for the whole of it. -/
structure Mailbox where
  size : Int32U
  read : Int32U
  write : Int32U
  mail : ℕ → Mail
  byte : Int32U

namespace Mailbox

/-- Slot `Index` ends within the bytes asked for: the slots start behind 24 bytes of header
and are four bytes wide. -/
def InBlock (b : Mailbox) (Index : Int32U) : Prop := 24 + 4 * Index.toNat + 4 ≤ b.byte.toNat

instance (b : Mailbox) (Index : Int32U) : Decidable (b.InBlock Index) :=
  inferInstanceAs (Decidable (_ ≤ _))

/-- `mailbox_new`, for an allocator that answers a request for so many bytes with the
contents of a block or with `NULL`. -/
def mailboxNew (malloc : Int32U → Option (ℕ → Mail)) (Size : Int32U) : Option Mailbox :=
  if Size = 0 then none
  else
    let Byte := Size * 4 + 28
    match malloc Byte with
    | none => none
    | some mail => some { size := Size, read := 0, write := 0, mail, byte := Byte }

/-- `mail_fetch`. -/
def mailFetch (b : Mailbox) : Option (Mailbox × Except Status Mail) :=
  if b.read ≠ b.write then
    let b := if b.read = b.size then { b with read := 0 } else { b with read := b.read + 1 }
    if b.InBlock b.read then some (b, .ok (b.mail b.read.toNat)) else none
  else some (b, .error .err)

/-- `mail_wait` up to the point where it blocks: the message, or `none` when the caller is
to be suspended. -/
def mailWait (b : Mailbox) : Option (Mailbox × Option Mail) :=
  if b.read ≠ b.write then
    let b := if b.read = b.size then { b with read := 0 } else { b with read := b.read + 1 }
    if b.InBlock b.read then some (b, some (b.mail b.read.toNat)) else none
  else some (b, none)

/-- `mail_wait` from the point where the caller runs again. -/
def mailWaitResumed (b : Mailbox) : Option (Mailbox × Except Status Mail) :=
  if b.read = b.write then some (b, .error .errTimeout)
  else
    let b := if b.read = b.size then { b with read := 0 } else { b with read := b.read + 1 }
    if b.InBlock b.read then some (b, .ok (b.mail b.read.toNat)) else none

/-- `mail_post`: the update of the queue. -/
def mailPost (b : Mailbox) (Message : Mail) : Option (Mailbox × Status) :=
  let Index := b.write
  let Index := if Index = b.size then 0 else Index + 1
  if Index = b.read then some (b, .err)
  else
    let b := { b with write := Index }
    if b.InBlock Index then
      some ({ b with mail := Function.update b.mail Index.toNat Message }, .ok)
    else none

/-! ### The calls on a mailbox and the queue they are to implement -/

/-- A call on a mailbox, run to completion; `resume` is a `mail_wait` that runs again after
a wake-up. -/
inductive Call where
  | post (Message : Mail)
  | fetch
  | wait
  | resume

/-- What a call returns: a status, or a message or the status that says there is none. -/
inductive Reply where
  | posted (s : Status)
  | received (r : Except Status Mail)

/-- One call. A `mail_wait` on an empty mailbox does not complete. -/
def step (b : Mailbox) : Call → Option (Mailbox × Reply)
  | .post m => (mailPost b m).map fun r => (r.1, .posted r.2)
  | .fetch => (mailFetch b).map fun r => (r.1, .received r.2)
  | .wait =>
      match mailWait b with
      | some (b, some m) => some (b, .received (.ok m))
      | _ => none
  | .resume => (mailWaitResumed b).map fun r => (r.1, .received r.2)

/-- A sequence of calls, with what each returns. -/
def run (b : Mailbox) : List Call → Option (Mailbox × List Reply)
  | [] => some (b, [])
  | c :: cs => do
      let (b, r) ← step b c
      let (b, rs) ← run b cs
      return (b, r :: rs)

/-- The status of a take from an empty queue. -/
def emptyStatus : Call → Status
  | .resume => .errTimeout
  | _ => .err

/-- What the calls do to a queue of capacity `n`: the queue after the call and its reply. -/
def spec (n : ℕ) (q : List Mail) : Call → List Mail × Reply
  | .post m => (Fifo.offer n q [m], .posted (if q.length = n then .err else .ok))
  | c =>
      match Fifo.take 1 q with
      | (m :: _, rest) => (rest, .received (.ok m))
      | ([], rest) => (rest, .received (.error (emptyStatus c)))

/-- The calls that a sequence may make: `mail_wait` completes on a queue that is not empty. -/
def Completes (q : List Mail) : Call → Prop
  | .wait => q ≠ []
  | _ => True

/-- A sequence of calls that all complete, with the queue they leave and what they return. -/
inductive SpecRun (n : ℕ) : List Mail → List Call → List Mail → List Reply → Prop where
  | nil (q : List Mail) : SpecRun n q [] q []
  | cons {q q' : List Mail} {c : Call} {cs : List Call} {rs : List Reply} :
      Completes q c → SpecRun n (spec n q c).1 cs q' rs →
      SpecRun n q (c :: cs) q' ((spec n q c).2 :: rs)

/-- The messages that were posted with result `OK`, in order. -/
def accepted : List Call → List Reply → List Mail
  | .post m :: cs, .posted .ok :: rs => m :: accepted cs rs
  | _ :: cs, _ :: rs => accepted cs rs
  | _, _ => []

/-- The messages that were received, in order. -/
def delivered : List Reply → List Mail
  | .received (.ok m) :: rs => m :: delivered rs
  | _ :: rs => delivered rs
  | [] => []

/-- The mailbox `b` of capacity `n` stores the messages `q`: they lie in the slots behind
`read`, the last of them in slot `write`, and the block has room for the slots `0..n`. -/
structure Stores (b : Mailbox) (n : ℕ) (q : List Mail) : Prop where
  lt : n + 1 < 2 ^ 32
  size : b.size.toNat = n
  room : 4 * n + 28 ≤ b.byte.toNat
  read_le : b.read.toNat ≤ n
  length_le : q.length ≤ n
  write_eq : b.write.toNat = Fifo.wrap n (b.read.toNat + q.length)
  mail_eq : ∀ i (hi : i < q.length), b.mail (Fifo.wrap n (b.read.toNat + (i + 1))) = q[i]

/-- The number of messages between `Read` and `Write`. -/
def stored (b : Mailbox) : ℕ :=
  (b.write.toNat + (b.size.toNat + 1) - b.read.toNat) % (b.size.toNat + 1)

/-- The mailbox after a take, as all three copies of the take code leave it. -/
def taken (b : Mailbox) : Mailbox :=
  if b.read = b.size then { b with read := 0 } else { b with read := b.read + 1 }

lemma taken_size (b : Mailbox) : b.taken.size = b.size := by
  unfold taken; split_ifs <;> rfl

lemma taken_write (b : Mailbox) : b.taken.write = b.write := by
  unfold taken; split_ifs <;> rfl

lemma taken_mail (b : Mailbox) : b.taken.mail = b.mail := by
  unfold taken; split_ifs <;> rfl

lemma taken_byte (b : Mailbox) : b.taken.byte = b.byte := by
  unfold taken; split_ifs <;> rfl

/-- The successor of an index, as the source computes it, in the ring of the slots. -/
lemma toNat_succ {n : ℕ} {i s : Int32U} (hn : n + 1 < 2 ^ 32) (hs : s.toNat = n)
    (hi : i.toNat ≤ n) : (if i = s then 0 else i + 1 : Int32U).toNat = Fifo.wrap n (i.toNat + 1) := by
  rw [Fifo.wrap_succ hi]
  by_cases h : i = s
  · subst h
    simp [hs]
  · have hne : i.toNat ≠ n := fun h1 => h (BitVec.eq_of_toNat_eq (h1.trans hs.symm))
    rw [if_neg h, if_neg hne, BitVec.toNat_add, show (1 : Int32U).toNat = 1 from rfl]
    omega

namespace Stores

variable {b : Mailbox} {n : ℕ} {q : List Mail} {m : Mail}

lemma write_le (h : Stores b n q) : b.write.toNat ≤ n := by
  rw [h.write_eq]
  exact Fifo.wrap_le (by have := h.read_le; have := h.length_le; omega)

/-- A slot of the ring lies within the block. -/
lemma inBlock (h : Stores b n q) {Index : Int32U} (hi : Index.toNat ≤ n) : b.InBlock Index := by
  have := h.room
  unfold InBlock
  omega

lemma taken_read (h : Stores b n q) : b.taken.read.toNat = Fifo.wrap n (b.read.toNat + 1) := by
  rw [← toNat_succ h.lt h.size h.read_le]
  unfold taken
  split_ifs <;> rfl

/-- The indices meet exactly on the empty queue. -/
lemma read_eq_write_iff (h : Stores b n q) : b.read = b.write ↔ q = [] := by
  have hwr := Fifo.wrap_of_le h.read_le
  constructor
  · intro hrw
    have h1 : Fifo.wrap n (b.read.toNat + 0) = Fifo.wrap n (b.read.toNat + q.length) := by
      rw [Nat.add_zero, ← h.write_eq, ← hrw, hwr]
    exact List.eq_nil_of_length_eq_zero (Fifo.wrap_add_inj (by omega) h.length_le h1).symm
  · rintro rfl
    exact BitVec.eq_of_toNat_eq (by rw [h.write_eq, List.length_nil, Nat.add_zero, hwr])

lemma stored_eq (h : Stores b n q) :
    b.stored = q.length := by
  have h1 := h.read_le
  have h2 := h.length_le
  rw [stored, h.size, h.write_eq, Fifo.wrap]
  split_ifs with hle
  · rw [show b.read.toNat + q.length + (n + 1) - b.read.toNat = q.length + (n + 1) by omega,
      Nat.add_mod_right, Nat.mod_eq_of_lt (by omega)]
  · rw [show b.read.toNat + q.length - (n + 1) + (n + 1) - b.read.toNat = q.length by omega,
      Nat.mod_eq_of_lt (by omega)]

/-- A take leaves the rest of the queue. -/
lemma taken (h : Stores b n (m :: q)) : Stores b.taken n q := by
  have hle := h.length_le
  simp only [List.length_cons] at hle
  refine ⟨h.lt, ?_, ?_, ?_, by omega, ?_, ?_⟩
  · rw [taken_size]; exact h.size
  · rw [taken_byte]; exact h.room
  · rw [h.taken_read]
    exact Fifo.wrap_le (by have := h.read_le; omega)
  · rw [taken_write, h.write_eq, h.taken_read, Fifo.wrap_wrap_succ_add h.read_le (by omega),
      List.length_cons, Nat.add_assoc, Nat.add_comm 1]
  · intro i hi
    have h1 := h.mail_eq (i + 1) (by simp only [List.length_cons]; omega)
    rw [taken_mail, h.taken_read, Fifo.wrap_wrap_succ_add h.read_le (by omega), Nat.add_assoc,
      Nat.add_comm 1, h1]
    rfl

/-- The slot a take reads holds the oldest message. -/
lemma taken_mail_read (h : Stores b n (m :: q)) : b.taken.mail b.taken.read.toNat = m := by
  have h1 := h.mail_eq 0 (by simp)
  rw [taken_mail, h.taken_read]
  simpa using h1

lemma taken_inBlock (h : Stores b n q) : b.taken.InBlock b.taken.read := by
  have h1 : b.taken.read.toNat ≤ n := by
    rw [h.taken_read]
    exact Fifo.wrap_le (by have := h.read_le; omega)
  have := h.room
  unfold InBlock
  rw [taken_byte]
  omega

lemma mailFetch_nil (h : Stores b n []) : mailFetch b = some (b, .error .err) := by
  have hrw := h.read_eq_write_iff.mpr rfl
  simp [mailFetch, hrw]

lemma mailWaitResumed_nil (h : Stores b n []) :
    mailWaitResumed b = some (b, .error .errTimeout) := by
  have hrw := h.read_eq_write_iff.mpr rfl
  simp [mailWaitResumed, hrw]

/-- The three copies of the take code do the same on a mailbox that is not empty. -/
lemma take_cons (h : Stores b n (m :: q)) :
    mailFetch b = some (b.taken, .ok m) ∧ mailWait b = some (b.taken, some m) ∧
      mailWaitResumed b = some (b.taken, .ok m) := by
  have hrw : b.read ≠ b.write := fun h1 => by simpa using h.read_eq_write_iff.mp h1
  have hin := h.taken_inBlock
  have hm := h.taken_mail_read
  refine ⟨?_, ?_, ?_⟩
  · rw [mailFetch, if_pos hrw]
    exact (if_pos hin).trans (by rw [← Mailbox.taken, hm])
  · rw [mailWait, if_pos hrw]
    exact (if_pos hin).trans (by rw [← Mailbox.taken, hm])
  · rw [mailWaitResumed, if_neg hrw]
    exact (if_pos hin).trans (by rw [← Mailbox.taken, hm])

/-- A post to a full mailbox fails and changes nothing. -/
lemma mailPost_full (h : Stores b n q) (hq : q.length = n) (m : Mail) :
    mailPost b m = some (b, .err) := by
  have hidx := toNat_succ h.lt h.size h.write_le
  have hfull : (if b.write = b.size then 0 else b.write + 1 : Int32U) = b.read := by
    refine BitVec.eq_of_toNat_eq ?_
    rw [hidx, h.write_eq, hq, Fifo.wrap_succ_wrap_add h.read_le le_rfl]
    have := h.read_le
    unfold Fifo.wrap
    split_ifs <;> omega
  rw [mailPost]
  exact if_pos hfull

/-- A post to a mailbox with room stores the message behind the others. -/
lemma mailPost_room (h : Stores b n q) (hq : q.length < n) (m : Mail) :
    ∃ b', mailPost b m = some (b', .ok) ∧ Stores b' n (q ++ [m]) := by
  set Index : Int32U := if b.write = b.size then 0 else b.write + 1 with hIndex
  have hidx : Index.toNat = Fifo.wrap n (b.read.toNat + (q.length + 1)) := by
    rw [hIndex, toNat_succ h.lt h.size h.write_le, h.write_eq,
      Fifo.wrap_succ_wrap_add h.read_le h.length_le]
  have hle : Index.toNat ≤ n := by
    rw [hidx]
    exact Fifo.wrap_le (by have := h.read_le; omega)
  have hroom : Index ≠ b.read := by
    intro h1
    have h2 : Fifo.wrap n (b.read.toNat + (q.length + 1)) = Fifo.wrap n (b.read.toNat + 0) := by
      rw [← hidx, h1, Nat.add_zero, Fifo.wrap_of_le h.read_le]
    have := Fifo.wrap_add_inj (by omega) (by omega) h2
    omega
  have hin : ({ b with write := Index } : Mailbox).InBlock Index := h.inBlock hle
  refine ⟨{ b with write := Index, mail := Function.update b.mail Index.toNat m }, ?_, ?_⟩
  · rw [mailPost]
    exact (if_neg hroom).trans (if_pos hin)
  · refine ⟨h.lt, h.size, h.room, h.read_le, ?_, ?_, ?_⟩
    · simp only [List.length_append, List.length_cons, List.length_nil]
      omega
    · simp only [List.length_append, List.length_cons, List.length_nil]
      exact hidx
    · intro i hi
      simp only [List.length_append, List.length_cons, List.length_nil] at hi
      show Function.update b.mail Index.toNat m (Fifo.wrap n (b.read.toNat + (i + 1))) = _
      by_cases hiq : i = q.length
      · subst hiq
        rw [hidx, Function.update_self]
        simp
      · have hilt : i < q.length := by omega
        have hne : Fifo.wrap n (b.read.toNat + (i + 1)) ≠ Index.toNat := by
          rw [hidx]
          intro h1
          have := Fifo.wrap_add_inj (by omega) (by omega) h1
          omega
        rw [Function.update_of_ne hne, h.mail_eq i hilt, List.getElem_append_left hilt]

lemma of_mailPost {r : Mailbox × Status} (h : Stores b n q) (hs : mailPost b m = some r) :
    q.length = n ∧ r = (b, .err) ∨ q.length < n ∧ r.2 = .ok ∧ Stores r.1 n (q ++ [m]) := by
  rcases Nat.eq_or_lt_of_le h.length_le with hq | hq
  · rw [h.mailPost_full hq, Option.some.injEq] at hs
    exact Or.inl ⟨hq, hs.symm⟩
  · obtain ⟨b', hpost, hst⟩ := h.mailPost_room hq m
    rw [hpost, Option.some.injEq] at hs
    subst hs
    exact Or.inr ⟨hq, rfl, hst⟩

lemma of_mailWait {r : Mailbox × Option Mail} (h : Stores b n q) (hs : mailWait b = some r) :
    q = [] ∧ r = (b, none) ∨ ∃ m q', q = m :: q' ∧ r.2 = some m ∧ Stores r.1 n q' := by
  cases q with
  | nil =>
      have hrw := h.read_eq_write_iff.mpr rfl
      rw [mailWait, if_neg (not_not.mpr hrw), Option.some.injEq] at hs
      exact Or.inl ⟨rfl, hs.symm⟩
  | cons m q =>
      rw [h.take_cons.2.1, Option.some.injEq] at hs
      subst hs
      exact Or.inr ⟨m, q, rfl, rfl, h.taken⟩

lemma of_mailFetch {r : Mailbox × Except Status Mail} (h : Stores b n q)
    (hs : mailFetch b = some r) :
    q = [] ∧ r = (b, .error .err) ∨ ∃ m q', q = m :: q' ∧ r.2 = .ok m ∧ Stores r.1 n q' := by
  cases q with
  | nil =>
      rw [h.mailFetch_nil, Option.some.injEq] at hs
      exact Or.inl ⟨rfl, hs.symm⟩
  | cons m q =>
      rw [h.take_cons.1, Option.some.injEq] at hs
      subst hs
      exact Or.inr ⟨m, q, rfl, rfl, h.taken⟩

lemma of_mailWaitResumed {r : Mailbox × Except Status Mail} (h : Stores b n q)
    (hs : mailWaitResumed b = some r) :
    q = [] ∧ r = (b, .error .errTimeout) ∨
      ∃ m q', q = m :: q' ∧ r.2 = .ok m ∧ Stores r.1 n q' := by
  cases q with
  | nil =>
      rw [h.mailWaitResumed_nil, Option.some.injEq] at hs
      exact Or.inl ⟨rfl, hs.symm⟩
  | cons m q =>
      rw [h.take_cons.2.2, Option.some.injEq] at hs
      subst hs
      exact Or.inr ⟨m, q, rfl, rfl, h.taken⟩

/-- One call on a mailbox is one step of the bounded queue. -/
lemma step {c : Call} (h : Stores b n q) (hc : Completes q c) :
    ∃ b', Mailbox.step b c = some (b', (spec n q c).2) ∧ Stores b' n (spec n q c).1 := by
  cases c with
  | post m =>
      by_cases hq : q.length = n
      · refine ⟨b, ?_, ?_⟩
        · simp [Mailbox.step, h.mailPost_full hq, spec, hq]
        · simpa [spec, Fifo.offer_full hq] using h
      · have hlt : q.length < n := lt_of_le_of_ne h.length_le hq
        obtain ⟨b', hpost, hst⟩ := h.mailPost_room hlt m
        refine ⟨b', ?_, ?_⟩
        · simp [Mailbox.step, hpost, spec, hq]
        · simpa [spec, Fifo.offer_one hlt] using hst
  | fetch =>
      cases q with
      | nil => exact ⟨b, by simp [Mailbox.step, h.mailFetch_nil, spec, Fifo.take, emptyStatus], h⟩
      | cons m q =>
          exact ⟨b.taken, by simp [Mailbox.step, h.take_cons.1, spec, Fifo.take], h.taken⟩
  | wait =>
      cases q with
      | nil => exact absurd rfl hc
      | cons m q =>
          exact ⟨b.taken, by simp [Mailbox.step, h.take_cons.2.1, spec, Fifo.take], h.taken⟩
  | resume =>
      cases q with
      | nil =>
          exact ⟨b, by simp [Mailbox.step, h.mailWaitResumed_nil, spec, Fifo.take, emptyStatus], h⟩
      | cons m q =>
          exact ⟨b.taken, by simp [Mailbox.step, h.take_cons.2.2, spec, Fifo.take], h.taken⟩

/-- A sequence of calls on a mailbox is a run of the bounded queue. -/
lemma run {q' : List Mail} {cs : List Call} {rs : List Reply} (hs : SpecRun n q cs q' rs) :
    ∀ {b : Mailbox}, Stores b n q → ∃ b', Mailbox.run b cs = some (b', rs) ∧ Stores b' n q' := by
  induction hs with
  | nil q => exact fun {b} h => ⟨b, rfl, h⟩
  | cons hc _ ih =>
      intro b h
      obtain ⟨b₁, hstep, h₁⟩ := h.step hc
      obtain ⟨b₂, hrun, h₂⟩ := ih h₁
      exact ⟨b₂, by simp [Mailbox.run, hstep, hrun], h₂⟩

end Stores

/-! ### The queue law and the room of the block -/

/-- The law of the bounded queue, from any queue on: the stored messages and the accepted
ones are the delivered ones followed by what is stored at the end. -/
lemma SpecRun.accepted_eq {n : ℕ} {q q' : List Mail} {cs : List Call} {rs : List Reply}
    (h : SpecRun n q cs q' rs) (hq : q.length ≤ n) :
    q ++ accepted cs rs = delivered rs ++ q' := by
  induction h with
  | nil q => simp [accepted, delivered]
  | @cons q q' c cs rs _ _ ih =>
      cases c with
      | post m =>
          by_cases hn : q.length = n
          · have h1 := ih (by simpa [spec, Fifo.offer_full hn] using hq)
            simpa [spec, Fifo.offer_full hn, hn, accepted, delivered] using h1
          · have hlt : q.length < n := lt_of_le_of_ne hq hn
            have h1 := ih (by simp [spec, Fifo.offer_one hlt]; omega)
            simpa [spec, Fifo.offer_one hlt, hn, accepted, delivered] using h1
      | fetch | wait | resume =>
          cases q with
          | nil => simpa [spec, Fifo.take, accepted, delivered] using ih (by simp [spec, Fifo.take])
          | cons m q =>
              simp only [List.length_cons] at hq
              have h1 := ih (by simp [spec, Fifo.take]; omega)
              simpa [spec, Fifo.take, accepted, delivered] using h1

/-- What `mailbox_new` returns is empty and has the bytes it asked for. -/
lemma mailboxNew_eq_some {malloc : Int32U → Option (ℕ → Mail)} {Size : Int32U} {b : Mailbox}
    (hb : mailboxNew malloc Size = some b) :
    Size ≠ 0 ∧ b.size = Size ∧ b.read = 0 ∧ b.write = 0 ∧
      b.byte.toNat = (Size.toNat * 4 + 28) % 2 ^ 32 := by
  rw [mailboxNew] at hb
  by_cases h0 : Size = 0
  · simp [h0] at hb
  · rw [if_neg h0] at hb
    cases hm : malloc (Size * 4 + 28) with
    | none =>
        simp only [hm] at hb
        exact absurd hb (by simp)
    | some mail =>
        simp only [hm, Option.some.injEq] at hb
        subst hb
        refine ⟨h0, rfl, rfl, rfl, ?_⟩
        simp [BitVec.toNat_add, BitVec.toNat_mul]

end Mailbox

end ChinaOS
