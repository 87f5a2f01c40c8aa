import Mathlib.Tactic

/-!
Binary trees of pointers, addressed by paths.

A forest is a partial map `node : ι → List Bool → Option α`: the node of tree `i` to which the
path `p` leads. A path lists its steps from the last one to the first, so that the children of
the node at `p` are at `false :: p` and at `true :: p`.

* `Holds`: a memory of root, child and parent pointers holds such a forest.
* `Holds.place`: writing a node to a path, whether that is empty or another node is there.
* `Holds.cut`: removing a leaf.
-/

namespace PathTree

variable {ι α : Type*}

/-- The pointers of a forest: to the roots, to the children and to the parents. -/
structure Pointers (ι α : Type*) where
  root : ι → α
  child : Bool → α → α
  parent : α → α

/-- What the parent pointer at a path holds: the place of the root pointer, or the node above. -/
def up (null : α) (slot : ι → α) (node : ι → List Bool → Option α) (i : ι) : List Bool → α
  | [] => slot i
  | _ :: p => (node i p).getD null

/-- The nodes, with what stands at one path replaced. -/
def put [DecidableEq ι] (node : ι → List Bool → Option α) (i : ι) (p : List Bool) (o : Option α) :
    ι → List Bool → Option α :=
  fun j q => if j = i ∧ q = p then o else node j q

/-- The pointers hold the forest `node`, whose missing children are `null`. -/
structure Holds (null : α) (slot : ι → α) (P : Pointers ι α) (node : ι → List Bool → Option α) :
    Prop where
  closed : ∀ i b p, (node i (b :: p)).isSome → (node i p).isSome
  inj : ∀ i j p q a, node i p = some a → node j q = some a → i = j ∧ p = q
  ne_null : ∀ i p a, node i p = some a → a ≠ null
  root : ∀ i, P.root i = (node i []).getD null
  child : ∀ i p a, node i p = some a → ∀ b, P.child b a = (node i (b :: p)).getD null
  parent : ∀ i p a, node i p = some a → P.parent a = up null slot node i p

variable {null : α} {slot : ι → α} {P P' : Pointers ι α} {node : ι → List Bool → Option α}
  {i j : ι} {p q : List Bool} {a c x y : α} {b d : Bool}

namespace Holds

/-! ### Reading -/

/-- A pointer that is null or leads to a node. -/
lemma getD_eq_null_iff (h : Holds null slot P node) : (node i p).getD null = null ↔
    node i p = none := by
  cases hn : node i p with
  | none => simp
  | some a => simpa using h.ne_null i p a hn

lemma getD_eq_iff (hx : x ≠ null) :
    (node i p).getD null = x ↔ node i p = some x := by
  cases hn : node i p with
  | none => simpa using hx.symm
  | some a => simp

lemma child_eq_null_iff (h : Holds null slot P node) (hp : node i p = some a) :
    P.child b a = null ↔ node i (b :: p) = none := by
  rw [h.child i p a hp, h.getD_eq_null_iff]

/-- A child pointer that is not null leads to the child. -/
lemma child_eq_iff (h : Holds null slot P node) (hp : node i p = some a) (hc : c ≠ null) :
    P.child b a = c ↔ node i (b :: p) = some c := by
  rw [h.child i p a hp, getD_eq_iff hc]

lemma root_eq_iff (h : Holds null slot P node) (hc : c ≠ null) :
    P.root i = c ↔ node i [] = some c := by
  rw [h.root, getD_eq_iff hc]

/-- Only the root is pointed at from its slot. -/
lemma root_eq_self_iff (h : Holds null slot P node) (hp : node i p = some a) :
    P.root i = a ↔ p = [] := by
  rw [h.root_eq_iff (h.ne_null i p a hp)]
  refine ⟨fun hr => (h.inj i i [] p a hr hp).2.symm, ?_⟩
  rintro rfl
  exact hp

/-- Where nothing stands at a path, nothing stands below it. -/
lemma none_below (h : Holds null slot P node) (hp : node i p = none) : node i (b :: p) = none := by
  by_contra hne
  have hs := h.closed i b p (Option.isSome_iff_ne_none.mpr hne)
  rw [hp] at hs
  simp at hs

/-- A path with nothing at it has nothing at any path that extends it. -/
lemma none_of_suffix (h : Holds null slot P node) (hp : node i p = none) (hs : p <:+ q) :
    node i q = none := by
  induction q with
  | nil => rwa [List.suffix_nil.mp hs] at hp
  | cons b q ih =>
      rcases List.suffix_cons_iff.mp hs with rfl | hs
      · exact hp
      · exact h.none_below (ih hs)

/-- A forest depends only on the pointers of its own nodes. -/
lemma congr (h : Holds null slot P node) (hroot : ∀ i, P'.root i = P.root i)
    (hchild : ∀ i p a, node i p = some a → ∀ b, P'.child b a = P.child b a)
    (hparent : ∀ i p a, node i p = some a → P'.parent a = P.parent a) :
    Holds null slot P' node where
  closed := h.closed
  inj := h.inj
  ne_null := h.ne_null
  root j := (hroot j).trans (h.root j)
  child j q y hy d := (hchild j q y hy d).trans (h.child j q y hy d)
  parent j q y hy := (hparent j q y hy).trans (h.parent j q y hy)

/-! ### The two edits -/

lemma up_congr {node' : ι → List Bool → Option α} (h : ∀ b q, p = b :: q →
    node' i q = node i q) : up null slot node' i p = up null slot node i p := by
  cases p with
  | nil => rfl
  | cons b q => rw [up, up, h b q rfl]

variable [DecidableEq ι]

lemma put_self {o : Option α} : put node i p o i p = o := if_pos ⟨rfl, rfl⟩

lemma put_of_ne {o : Option α} (h : ¬ (j = i ∧ q = p)) : put node i p o j q = node j q := if_neg h

/-- **A node is written to the path `p`.** The pointer that leads to `p` and the parent pointers
of the children there now hold `x`, and no other pointer of the other nodes changes. -/
theorem place (h : Holds null slot P node)
    (hx : ∀ j q, node j q = some x → j = i ∧ q = p) (hnull : x ≠ null)
    (habove : ∀ b q, p = b :: q → (node i q).isSome)
    (hroot : ∀ j, P'.root j = if j = i ∧ p = [] then x else P.root j)
    (hchild : ∀ j q y, node j q = some y → ¬ (j = i ∧ q = p) → ∀ d,
      P'.child d y = if j = i ∧ p = d :: q then x else P.child d y)
    (hself : ∀ d, P'.child d x = (node i (d :: p)).getD null)
    (hparent : ∀ j q y, node j q = some y → ¬ (j = i ∧ q = p) →
      P'.parent y = if j = i ∧ ∃ d, q = d :: p then x else P.parent y)
    (hup : P'.parent x = up null slot node i p) :
    Holds null slot P' (put node i p (some x)) := by
  have hcons : ∀ (d : Bool) (q : List Bool), d :: q ≠ q := fun d q hq => by
    simpa using congrArg List.length hq
  refine ⟨fun j d q hs => ?_, fun j k q r y hy hy' => ?_, fun j q y hy => ?_, fun j => ?_,
    fun j q y hy d => ?_, fun j q y hy => ?_⟩
  · by_cases hq : j = i ∧ q = p
    · rw [hq.1, hq.2, put_self]
      rfl
    · rw [put_of_ne hq]
      by_cases hd : j = i ∧ d :: q = p
      · rw [hd.1]
        exact habove d q hd.2.symm
      · rw [put_of_ne hd] at hs
        exact h.closed j d q hs
  · rw [put] at hy hy'
    split_ifs at hy hy' with h1 h2 h2
    · exact ⟨h1.1.trans h2.1.symm, h1.2.trans h2.2.symm⟩
    · rw [Option.some.injEq] at hy
      exact absurd (hx k r (hy ▸ hy')) h2
    · rw [Option.some.injEq] at hy'
      exact absurd (hx j q (hy' ▸ hy)) h1
    · exact h.inj j k q r y hy hy'
  · rw [put] at hy
    split_ifs at hy with h1
    · rw [Option.some.injEq] at hy
      exact hy ▸ hnull
    · exact h.ne_null j q y hy
  · rw [hroot]
    by_cases hp : j = i ∧ p = []
    · rw [if_pos hp, hp.1, hp.2, put_self]
      rfl
    · rw [if_neg hp, put_of_ne fun h' => hp ⟨h'.1, h'.2.symm⟩, h.root]
  · by_cases hq : j = i ∧ q = p
    · obtain ⟨rfl, rfl⟩ := hq
      rw [put_self, Option.some.injEq] at hy
      rw [← hy, hself, put_of_ne fun h' => hcons d q h'.2]
    · rw [put_of_ne hq] at hy
      rw [hchild j q y hy hq, h.child j q y hy, put]
      by_cases hd : j = i ∧ p = d :: q
      · rw [if_pos hd, if_pos ⟨hd.1, hd.2.symm⟩]
        rfl
      · rw [if_neg hd, if_neg fun h' => hd ⟨h'.1, h'.2.symm⟩]
  · by_cases hq : j = i ∧ q = p
    · obtain ⟨rfl, rfl⟩ := hq
      rw [put_self, Option.some.injEq] at hy
      rw [← hy, hup]
      exact (up_congr fun d r hr => put_of_ne fun h' => hcons d r (hr.symm.trans h'.2.symm)).symm
    · rw [put_of_ne hq] at hy
      rw [hparent j q y hy hq, h.parent j q y hy]
      by_cases hd : j = i ∧ ∃ d, q = d :: p
      · rw [if_pos hd]
        obtain ⟨rfl, d, rfl⟩ := hd
        rw [up, put_self]
        rfl
      · rw [if_neg hd]
        cases q with
        | nil => rfl
        | cons d r => rw [up, up, put_of_ne fun h' => hd ⟨h'.1, d, by rw [h'.2]⟩]

/-- **A leaf is cut off.** The pointer that leads to `p` is now null, and no other pointer of the
other nodes changes. -/
theorem cut (h : Holds null slot P node) (hleaf : ∀ d, node i (d :: p) = none)
    (hroot : ∀ j, P'.root j = if j = i ∧ p = [] then null else P.root j)
    (hchild : ∀ j q y, node j q = some y → ¬ (j = i ∧ q = p) → ∀ d,
      P'.child d y = if j = i ∧ p = d :: q then null else P.child d y)
    (hparent : ∀ j q y, node j q = some y → ¬ (j = i ∧ q = p) → P'.parent y = P.parent y) :
    Holds null slot P' (put node i p none) := by
  have hsome : ∀ {j q y}, put node i p none j q = some y → ¬ (j = i ∧ q = p) ∧
      node j q = some y := by
    intro j q y hy
    rw [put] at hy
    split_ifs at hy with h1
    exact ⟨h1, hy⟩
  refine ⟨fun j d q hs => ?_, fun j k q r y hy hy' => ?_, fun j q y hy => ?_, fun j => ?_,
    fun j q y hy d => ?_, fun j q y hy => ?_⟩
  · obtain ⟨y, hy⟩ := Option.isSome_iff_exists.mp hs
    obtain ⟨hne, hy⟩ := hsome hy
    by_cases hq : j = i ∧ q = p
    · rw [hq.1, hq.2, hleaf] at hy
      simp at hy
    · rw [put_of_ne hq]
      exact h.closed j d q (Option.isSome_iff_exists.mpr ⟨y, hy⟩)
  · exact h.inj j k q r y (hsome hy).2 (hsome hy').2
  · exact h.ne_null j q y (hsome hy).2
  · rw [hroot]
    by_cases hp : j = i ∧ p = []
    · rw [if_pos hp, hp.1, hp.2, put_self]
      rfl
    · rw [if_neg hp, put_of_ne fun h' => hp ⟨h'.1, h'.2.symm⟩, h.root]
  · obtain ⟨hne, hy⟩ := hsome hy
    rw [hchild j q y hy hne, h.child j q y hy, put]
    by_cases hd : j = i ∧ p = d :: q
    · rw [if_pos hd, if_pos ⟨hd.1, hd.2.symm⟩]
      rfl
    · rw [if_neg hd, if_neg fun h' => hd ⟨h'.1, h'.2.symm⟩]
  · obtain ⟨hne, hy'⟩ := hsome hy
    rw [hparent j q y hy' hne, h.parent j q y hy']
    refine (up_congr fun d r hr => put_of_ne ?_).symm
    rintro ⟨rfl, rfl⟩
    rw [hr, hleaf] at hy'
    simp at hy'

end Holds

end PathTree
