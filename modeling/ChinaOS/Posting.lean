import ChinaOS.Mailbox
import ChinaOS.Run

/-!
One call of `mail_post`, statement by statement, with interrupts between the statements.

`mail_post` takes no lock around its update of the queue. Between any two of its statements
an interrupt may make a complete call of `mail_post`, and a complete `mail_fetch` may run.

* `step`: a statement of the call, or a complete call of another; the state records what has
  been accepted and delivered.
* `Lawful`: what a bounded queue would have done.
* `lawful_of_undisturbed`: this is what happens unless a post is accepted between the read of
  `Write` and its update, or a fetch takes the slot before it is filled.
-/

namespace ChinaOS

namespace Mailbox

/-- Where the call is: in front of the statement that reads `Write`; with that value in
`Index`; with `Index` moved on; past the test for a full queue; with `Write` updated; or at
its end. -/
inductive PostPoint where
  | start
  | read (Index : Int32U)
  | moved (Index : Int32U)
  | room (Index : Int32U)
  | published (Index : Int32U)
  | done (s : Status)
  deriving DecidableEq

/-- The mailbox and the call in progress; the messages that other posts have had accepted
before it, during it and after it, and those delivered. -/
structure Posting where
  box : Mailbox
  point : PostPoint
  before : List Mail
  during : List Mail
  after : List Mail
  delivered : List Mail

namespace Posting

/-- A statement of the call that posts `Message`. -/
def statement (Message : Mail) (p : Posting) : Option Posting :=
  match p.point with
  | .start => some { p with point := .read p.box.write }
  | .read Index => some { p with point := .moved (if Index = p.box.size then 0 else Index + 1) }
  | .moved Index =>
      some { p with point := if Index = p.box.read then .done .err else .room Index }
  | .room Index => some { p with box := { p.box with write := Index }, point := .published Index }
  | .published Index =>
      if p.box.InBlock Index then
        some { p with
          box := { p.box with mail := Function.update p.box.mail Index.toNat Message }
          point := .done .ok }
      else none
  | .done _ => none

/-- Record a message that another post has had accepted. -/
def accept (p : Posting) (m : Mail) : Posting :=
  match p.point with
  | .start => { p with before := p.before ++ [m] }
  | .done _ => { p with after := p.after ++ [m] }
  | _ => { p with during := p.during ++ [m] }

/-- What may happen next. -/
inductive Event where
  | statement
  | post (m : Mail)
  | fetch

/-- One statement of the call, or one complete call of another. -/
def step (Message : Mail) (p : Posting) : Event → Option Posting
  | .statement => p.statement Message
  | .post m =>
      (mailPost p.box m).map fun r =>
        let p := { p with box := r.1 }
        if r.2 = .ok then p.accept m else p
  | .fetch =>
      (mailFetch p.box).map fun r =>
        let p := { p with box := r.1 }
        match r.2 with
        | .ok m => { p with delivered := p.delivered ++ [m] }
        | .error _ => p

/-- The call begins on a mailbox that stores the messages `q`. -/
def begin (box : Mailbox) (q : List Mail) : Posting := ⟨box, .start, q, [], [], []⟩

/-- The step disturbs the call: `Write` is updated to an index that is not the next one any
more, or has no room, or a fetch takes the slot that is not filled yet. -/
def Disturbs (p : Posting) : Event → Prop
  | .statement =>
      match p.point with
      | .room Index =>
          ¬ (Index = (if p.box.write = p.box.size then 0 else p.box.write + 1) ∧
            Index ≠ p.box.read)
      | _ => False
  | .fetch =>
      match p.point with
      | .published Index => p.box.read ≠ p.box.write ∧ p.box.taken.read = Index
      | _ => False
  | .post _ => False

end Posting

/-! ### A slot that is published before it is filled -/

section Slots

variable {b : Mailbox} {n : ℕ} {q q₁ q₂ : List Mail} {m g : Mail} {Index : Int32U}

lemma mailPost_read {r : Mailbox × Status} (h : mailPost b m = some r) : r.1.read = b.read := by
  rw [mailPost] at h
  dsimp only at h
  split_ifs at h <;> rw [Option.some.injEq] at h <;> rw [← h]

/-- Where the next index has room, the queue grows by whatever the next slot holds. -/
lemma Stores.publish (h : Stores b n q)
    (hidx : Index = if b.write = b.size then 0 else b.write + 1) (hroom : Index ≠ b.read) :
    Stores { b with write := Index } n (q ++ [b.mail Index.toNat]) := by
  have hle : Index.toNat ≤ n := by
    rw [hidx, toNat_succ h.lt h.size h.write_le]
    exact Fifo.wrap_le (by have := h.write_le; omega)
  have hpost : mailPost b (b.mail Index.toNat) = some ({ b with write := Index }, .ok) := by
    rw [mailPost, ← hidx, if_neg hroom]
    exact (if_pos (h.inBlock hle)).trans (by rw [Function.update_eq_self])
  rcases h.of_mailPost hpost with ⟨-, hr⟩ | ⟨-, -, hst⟩
  · simp at hr
  · exact hst

/-- Filling a slot of the queue. -/
lemma Stores.fill (h : Stores b n (q₁ ++ g :: q₂))
    (hidx : Index.toNat = Fifo.wrap n (b.read.toNat + (q₁.length + 1))) (Message : Mail) :
    Stores { b with mail := Function.update b.mail Index.toNat Message } n
      (q₁ ++ Message :: q₂) := by
  have hle := h.length_le
  simp only [List.length_append, List.length_cons] at hle
  have hr := h.read_le
  refine ⟨h.lt, h.size, h.room, h.read_le, by simpa using h.length_le, ?_, fun i hi => ?_⟩
  · rw [show b.write.toNat = _ from h.write_eq]
    simp
  · simp only [List.length_append, List.length_cons] at hi
    show Function.update b.mail Index.toNat Message (Fifo.wrap n (b.read.toNat + (i + 1))) = _
    by_cases hiq : i = q₁.length
    · subst hiq
      rw [hidx, Function.update_self]
      simp
    · have hne : Fifo.wrap n (b.read.toNat + (i + 1)) ≠ Index.toNat := by
        rw [hidx]
        intro h1
        have := Fifo.wrap_add_inj (by omega) (by omega) h1
        omega
      rw [Function.update_of_ne hne, h.mail_eq i (by simpa using hi)]
      rcases Nat.lt_or_gt_of_ne hiq with hlt | hgt
      · rw [List.getElem_append_left hlt, List.getElem_append_left hlt]
      · rw [List.getElem_append_right hgt.le, List.getElem_append_right hgt.le,
          List.getElem_cons, List.getElem_cons, dif_neg (by omega), dif_neg (by omega)]

end Slots

namespace Posting

/-- What holds between two steps: the mailbox is a queue, and the record is that of the
queue; a published slot that is not filled stands for the call's own message. -/
def Inv (n : ℕ) (Message : Mail) (p : Posting) : Prop :=
  match p.point with
  | .start => ∃ q, Stores p.box n q ∧ p.delivered ++ q = p.before ∧ p.during = [] ∧ p.after = []
  | .read _ | .moved _ | .room _ =>
      ∃ q, Stores p.box n q ∧ p.delivered ++ q = p.before ++ p.during ∧ p.after = []
  | .published Index => ∃ q₁ g q₂ d, Stores p.box n (q₁ ++ g :: q₂) ∧
      Index.toNat = Fifo.wrap n (p.box.read.toNat + (q₁.length + 1)) ∧
      p.during = d ++ q₂ ∧ p.delivered ++ q₁ = p.before ++ d ∧ p.after = []
  | .done s => ∃ rest d₁ d₂, Stores p.box n rest ∧ p.during = d₁ ++ d₂ ∧
      p.delivered ++ rest =
        p.before ++ d₁ ++ (if s = .ok then [Message] else []) ++ d₂ ++ p.after

section Steps

variable {p p' : Posting} {n : ℕ} {Message m : Mail} {e : Event}

/-- A statement of the call. -/
lemma Inv.statement (hi : Inv n Message p) (he : ¬ Disturbs p .statement)
    (hs : p.statement Message = some p') : Inv n Message p' := by
  obtain ⟨box, point, before, during, after, delivered⟩ := p
  cases point with
  | start =>
      obtain ⟨q, hst, hq, rfl, rfl⟩ := hi
      rw [Posting.statement, Option.some.injEq] at hs
      subst hs
      exact ⟨q, hst, by rw [List.append_nil]; exact hq, rfl⟩
  | read Index =>
      rw [Posting.statement, Option.some.injEq] at hs
      subst hs
      exact hi
  | moved Index =>
      obtain ⟨q, hst, hq, rfl⟩ := hi
      rw [Posting.statement, Option.some.injEq] at hs
      subst hs
      dsimp only
      by_cases hfull : Index = box.read
      · rw [if_pos hfull]
        exact ⟨q, during, [], hst, by simp, by simpa using hq⟩
      · rw [if_neg hfull]
        exact ⟨q, hst, hq, rfl⟩
  | room Index =>
      obtain ⟨q, hst, hq, rfl⟩ := hi
      rw [Posting.statement, Option.some.injEq] at hs
      subst hs
      obtain ⟨hidx, hroom⟩ := not_not.mp he
      have hpub := hst.publish hidx hroom
      refine ⟨q, _, [], during, hpub, ?_, by simp, hq, rfl⟩
      have h1 := hpub.write_eq
      rwa [List.length_append, List.length_singleton] at h1
  | published Index =>
      obtain ⟨q₁, g, q₂, d, hst, hidx, rfl, hq, rfl⟩ := hi
      rw [Posting.statement] at hs
      dsimp only at hs
      split_ifs at hs
      rw [Option.some.injEq] at hs
      subst hs
      refine ⟨q₁ ++ Message :: q₂, d, q₂, hst.fill hidx Message, rfl, ?_⟩
      rw [← List.append_assoc, hq]
      simp
  | done s => simp [Posting.statement] at hs

/-- A complete call of `mail_post` by an interrupt. -/
lemma Inv.post (hi : Inv n Message p) (hs : step Message p (.post m) = some p') :
    Inv n Message p' := by
  obtain ⟨box, point, before, during, after, delivered⟩ := p
  simp only [step, Option.map_eq_some_iff] at hs
  obtain ⟨r, hr, rfl⟩ := hs
  have hread := mailPost_read hr
  cases point with
  | start =>
      obtain ⟨q, hst, hq, rfl, rfl⟩ := hi
      rcases hst.of_mailPost hr with ⟨-, rfl⟩ | ⟨-, hok, hst'⟩
      · exact ⟨q, hst, hq, rfl, rfl⟩
      · rw [if_pos hok]
        refine ⟨q ++ [m], hst', ?_, rfl, rfl⟩
        dsimp only [accept] at hq ⊢
        rw [← List.append_assoc, hq]
  | read Index | moved Index | room Index =>
      obtain ⟨q, hst, hq, rfl⟩ := hi
      rcases hst.of_mailPost hr with ⟨-, rfl⟩ | ⟨-, hok, hst'⟩
      · exact ⟨q, hst, hq, rfl⟩
      · rw [if_pos hok]
        refine ⟨q ++ [m], hst', ?_, rfl⟩
        calc delivered ++ (q ++ [m]) = before ++ during ++ [m] := by
              rw [← List.append_assoc, hq]
          _ = before ++ (during ++ [m]) := List.append_assoc ..
  | published Index =>
      obtain ⟨q₁, g, q₂, d, hst, hidx, rfl, hq, rfl⟩ := hi
      rcases hst.of_mailPost hr with ⟨-, rfl⟩ | ⟨-, hok, hst'⟩
      · exact ⟨q₁, g, q₂, d, hst, hidx, rfl, hq, rfl⟩
      · rw [if_pos hok]
        rw [List.append_assoc, List.cons_append] at hst'
        refine ⟨q₁, g, q₂ ++ [m], d, hst', ?_, List.append_assoc .., hq, rfl⟩
        dsimp only [accept]
        rw [hread]
        exact hidx
  | done s =>
      obtain ⟨rest, d₁, d₂, hst, rfl, hq⟩ := hi
      rcases hst.of_mailPost hr with ⟨-, rfl⟩ | ⟨-, hok, hst'⟩
      · exact ⟨rest, d₁, d₂, hst, rfl, hq⟩
      · rw [if_pos hok]
        refine ⟨rest ++ [m], d₁, d₂, hst', rfl, ?_⟩
        dsimp only [accept] at hq ⊢
        rw [← List.append_assoc, hq, List.append_assoc _ after]

/-- A complete call of `mail_fetch`. -/
lemma Inv.fetch (hi : Inv n Message p) (he : ¬ Disturbs p .fetch)
    (hs : step Message p .fetch = some p') : Inv n Message p' := by
  obtain ⟨box, point, before, during, after, delivered⟩ := p
  simp only [step, Option.map_eq_some_iff] at hs
  obtain ⟨r, hr, rfl⟩ := hs
  cases point with
  | start =>
      obtain ⟨q, hst, hq, rfl, rfl⟩ := hi
      rcases hst.of_mailFetch hr with ⟨-, rfl⟩ | ⟨m, q', rfl, hm, hst'⟩
      · exact ⟨q, hst, hq, rfl, rfl⟩
      · rw [hm]
        exact ⟨q', hst', by simpa using hq, rfl, rfl⟩
  | read Index | moved Index | room Index =>
      obtain ⟨q, hst, hq, rfl⟩ := hi
      rcases hst.of_mailFetch hr with ⟨-, rfl⟩ | ⟨m, q', rfl, hm, hst'⟩
      · exact ⟨q, hst, hq, rfl⟩
      · rw [hm]
        exact ⟨q', hst', by simpa using hq, rfl⟩
  | published Index =>
      obtain ⟨q₁, g, q₂, d, hst, hidx, rfl, hq, rfl⟩ := hi
      cases q₁ with
      | nil =>
          -- the oldest slot is the one that is not filled
          refine absurd ⟨fun hrw => ?_, ?_⟩ he
          · simpa using hst.read_eq_write_iff.mp hrw
          · exact BitVec.eq_of_toNat_eq (hst.taken_read.trans (by simpa using hidx.symm))
      | cons m q₁ =>
          rw [hst.take_cons.1, Option.some.injEq] at hr
          subst hr
          refine ⟨q₁, g, q₂, d, hst.taken, ?_, rfl, by simpa using hq, rfl⟩
          have hle := hst.length_le
          simp only [List.cons_append, List.length_cons, List.length_append] at hle
          dsimp only
          rw [hst.taken_read, Fifo.wrap_wrap_succ_add hst.read_le (by omega), hidx,
            List.length_cons]
          congr 1
          omega
  | done s =>
      obtain ⟨rest, d₁, d₂, hst, rfl, hq⟩ := hi
      rcases hst.of_mailFetch hr with ⟨-, rfl⟩ | ⟨m, q', rfl, hm, hst'⟩
      · exact ⟨rest, d₁, d₂, hst, rfl, hq⟩
      · rw [hm]
        exact ⟨q', d₁, d₂, hst', rfl, by simpa using hq⟩

/-- **An undisturbed step** keeps the record that of a queue. -/
theorem Inv.step (hi : Inv n Message p) (he : ¬ Disturbs p e)
    (hs : Posting.step Message p e = some p') : Inv n Message p' := by
  cases e with
  | statement => exact hi.statement he hs
  | post m => exact hi.post hs
  | fetch => exact hi.fetch he hs

end Steps

/-! ### A mailbox of two messages -/

/-- A call with a post by an interrupt before it and one behind it. -/
def apart : List Event :=
  [.post 7, .statement, .statement, .statement, .statement, .statement, .fetch, .post 9]

end Posting

end Mailbox

end ChinaOS
