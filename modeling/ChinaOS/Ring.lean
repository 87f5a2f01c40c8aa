import Mathlib.Data.List.Chain
import Mathlib.Data.List.Nodup
import Mathlib.Data.Fintype.Card
import Mathlib.Tactic

/-!
Circular doubly linked lists over an arbitrary type of nodes.

A pair of link functions `next, prev : α → α` is a memory of nodes, well formed or not.
`IsRing next prev h l` says that the nodes of `l`, in this order, form one circular list
through the node `h`: each neighbour points at the other and no node repeats.

* `IsRing.insert`, `IsRing.remove`: the two edits, stated on the link words they leave
  behind, so that any memory holding such links can use them.
* `IsRing.congr`: a ring reads only the `next` and `prev` words of its own nodes.
* `IsRing.next_mem`, `IsRing.unique`: a ring is closed under `next` and is determined by
  its head.
* `IsRing.rotate`: every node of a ring may serve as its head.
* `Links`: a pair of link functions with the writes that change one word.
* `Rings`: a family of circular lists without common nodes, with the edits that insert a
  node (`Rings.insert`), remove one (`Rings.remove`), start a new list (`Rings.init`) and pass
  a list on to another head (`Rings.behead`).
-/

namespace Ring

variable {α : Type*}

/-- The relation between neighbours: each points at the other. -/
def Linked (next prev : α → α) (x y : α) : Prop := next x = y ∧ prev y = x

/-- The nodes of `l` form a circular list headed by `h`, which is not itself in `l`. -/
structure IsRing (next prev : α → α) (h : α) (l : List α) : Prop where
  chain : (h :: l ++ [h]).IsChain (Linked next prev)
  nodup : (h :: l).Nodup

section Basic

variable {next prev next' prev' : α → α} {h x y : α} {l l₁ l₂ : List α}

/-- The empty ring is a head that points at itself both ways. -/
lemma isRing_nil : IsRing next prev h [] ↔ next h = h ∧ prev h = h := by
  refine ⟨fun hr => ?_, fun hh => ⟨?_, by simp⟩⟩
  · have hc := hr.chain
    simpa [Linked] using hc
  · simpa [Linked] using hh

lemma IsRing.notMem (hr : IsRing next prev h l) : h ∉ l := (List.nodup_cons.mp hr.nodup).1

lemma IsRing.nodup_tail (hr : IsRing next prev h l) : l.Nodup := (List.nodup_cons.mp hr.nodup).2

/-- The chain of a ring, cut at a node of it. -/
lemma isChain_cut {R : α → α → Prop} (l₁ l₂ : List α) (h x : α) :
    (h :: (l₁ ++ x :: l₂) ++ [h]).IsChain R ↔
      (h :: l₁ ++ [x]).IsChain R ∧ (x :: l₂ ++ [h]).IsChain R := by
  rw [show h :: (l₁ ++ x :: l₂) ++ [h] = (h :: l₁) ++ x :: (l₂ ++ [h]) by simp,
    List.isChain_split]
  simp

/-- Every node of a ring may serve as its head. -/
lemma IsRing.rotate (hr : IsRing next prev h (l₁ ++ x :: l₂)) :
    IsRing next prev x (l₂ ++ h :: l₁) := by
  obtain ⟨h1, h2⟩ := (isChain_cut l₁ l₂ h x).mp hr.chain
  refine ⟨(isChain_cut l₂ l₁ x h).mpr ⟨h2, h1⟩, ?_⟩
  have hperm : (x :: (l₂ ++ h :: l₁)).Perm (h :: (l₁ ++ x :: l₂)) := by
    rw [show x :: (l₂ ++ h :: l₁) = (x :: l₂) ++ (h :: l₁) by simp,
      show h :: (l₁ ++ x :: l₂) = (h :: l₁) ++ (x :: l₂) by simp]
    exact List.perm_append_comm
  exact hperm.nodup_iff.mpr hr.nodup

/-- A ring reads only the `next` and `prev` words of its own nodes. -/
lemma IsRing.congr (hr : IsRing next prev h l) (hn : ∀ y ∈ h :: l, next' y = next y)
    (hp : ∀ y ∈ h :: l, prev' y = prev y) : IsRing next' prev' h l := by
  refine ⟨hr.chain.imp_of_mem_imp fun a b ha hb hab => ?_, hr.nodup⟩
  have ha' : a ∈ h :: l := by simp at ha ⊢; tauto
  have hb' : b ∈ h :: l := by simp at hb ⊢; tauto
  exact ⟨(hn a ha').trans hab.1, (hp b hb').trans hab.2⟩

/-- The first node of a ring, or the head again if there is none. -/
lemma IsRing.next_head (hr : IsRing next prev h l) : next h = l.headD h := by
  cases l with
  | nil => exact (isRing_nil.mp hr).1
  | cons a l =>
      have hc := hr.chain
      simp only [List.cons_append, List.isChain_cons_cons] at hc
      exact hc.1.1

/-- The successor of a node in the middle of a ring. -/
lemma IsRing.next_of_append (hr : IsRing next prev h (l₁ ++ x :: l₂)) :
    next x = l₂.headD h := by
  have h1 := hr.rotate.next_head
  cases l₂ <;> simpa using h1

/-- The successor of a node of a ring, head or not. -/
lemma IsRing.next_of_eq (hr : IsRing next prev h l) (he : h :: l = l₁ ++ x :: l₂) :
    next x = l₂.headD h := by
  cases l₁ with
  | nil =>
      obtain ⟨rfl, rfl⟩ : h = x ∧ l = l₂ := by simpa using he
      exact hr.next_head
  | cons a l₁ =>
      obtain ⟨rfl, rfl⟩ : h = a ∧ l = l₁ ++ x :: l₂ := by simpa using he
      exact hr.next_of_append

/-- The predecessor of a node in the middle of a ring. -/
lemma IsRing.prev_of_append (hr : IsRing next prev h (l₁ ++ x :: l₂)) :
    prev x = (h :: l₁).getLast (by simp) := by
  obtain ⟨h1, -⟩ := (isChain_cut l₁ l₂ h x).mp hr.chain
  have h2 := h1.rel_getLast_head_of_append (by simp) (by simp)
  simpa using h2.2

/-- The predecessor of the head is the last node. -/
lemma IsRing.prev_head (hr : IsRing next prev h l) : prev h = (h :: l).getLast (by simp) := by
  have h2 := hr.chain.rel_getLast_head_of_append (by simp) (by simp)
  simpa using h2.2

/-- A ring is empty exactly when its head points at itself. -/
lemma IsRing.next_head_eq_iff (hr : IsRing next prev h l) : next h = h ↔ l = [] := by
  rw [hr.next_head]
  cases l with
  | nil => simp
  | cons a l =>
      have := hr.notMem
      simp only [List.headD_cons, reduceCtorEq, iff_false]
      rintro rfl
      simp at this

/-- Every node of a ring is reached from the head. -/
lemma IsRing.exists_iterate (hr : IsRing next prev h l) (hx : x ∈ h :: l) :
    ∃ n, next^[n] h = x := by
  have hchain : ∀ (m : List α) (a : α), (a :: m).IsChain (Linked next prev) → x ∈ a :: m →
      ∃ n, next^[n] a = x := by
    intro m
    induction m with
    | nil =>
        intro a _ hx
        exact ⟨0, (List.mem_singleton.mp hx).symm⟩
    | cons b m ih =>
        intro a hm hx
        rcases List.mem_cons.mp hx with rfl | hx
        · exact ⟨0, rfl⟩
        · rw [List.isChain_cons_cons] at hm
          obtain ⟨n, hn⟩ := ih b hm.2 hx
          refine ⟨n + 1, ?_⟩
          rw [Function.iterate_succ_apply, hm.1.1, hn]
  exact hchain (l ++ [h]) h hr.chain (List.mem_append_left [h] hx)

/-- A ring is closed under `next`. -/
lemma IsRing.next_mem (hr : IsRing next prev h l) (hx : x ∈ h :: l) : next x ∈ h :: l := by
  rcases List.mem_cons.mp hx with rfl | hx
  · rw [hr.next_head]
    cases l <;> simp
  · obtain ⟨l₁, l₂, rfl⟩ := List.append_of_mem hx
    rw [hr.next_of_append]
    cases l₂ <;> simp

/-- A ring is closed under `prev`. -/
lemma IsRing.prev_mem (hr : IsRing next prev h l) (hx : x ∈ h :: l) : prev x ∈ h :: l := by
  rcases List.mem_cons.mp hx with rfl | hx
  · rw [hr.prev_head]
    exact List.getLast_mem _
  · obtain ⟨l₁, l₂, rfl⟩ := List.append_of_mem hx
    rw [hr.prev_of_append]
    have := List.getLast_mem (l := h :: l₁) (by simp)
    simp only [List.mem_cons, List.mem_append] at this ⊢
    tauto

/-- Each node of a ring is the `next` of its `prev`. -/
lemma IsRing.next_prev (hr : IsRing next prev h l) (hx : x ∈ h :: l) : next (prev x) = x := by
  have key : ∀ (l₁ l₂ : List α), h :: l ++ [h] = l₁ ++ x :: l₂ → l₁ ≠ [] →
      next (prev x) = x := by
    intro l₁ l₂ he hne
    have hc := hr.chain
    rw [he] at hc
    have h2 := hc.rel_getLast_head_of_append hne (by simp)
    simp only [List.head_cons] at h2
    rw [h2.2]
    exact h2.1
  rcases List.mem_cons.mp hx with rfl | hx
  · exact key (x :: l) [] rfl (by simp)
  · obtain ⟨l₁, l₂, rfl⟩ := List.append_of_mem hx
    exact key (h :: l₁) (l₂ ++ [h]) (by simp) (by simp)

/-- Each node of a ring is the `prev` of its `next`. -/
lemma IsRing.prev_next (hr : IsRing next prev h l) (hx : x ∈ h :: l) : prev (next x) = x := by
  rcases List.mem_cons.mp hx with rfl | hx
  · cases l with
    | nil =>
        have h1 := isRing_nil.mp hr
        rw [h1.1, h1.2]
    | cons a l =>
        have hc := hr.chain
        simp only [List.cons_append, List.isChain_cons_cons] at hc
        rw [hc.1.1, hc.1.2]
  · obtain ⟨l₁, l₂, rfl⟩ := List.append_of_mem hx
    have hrot := hr.rotate
    have hc := hrot.chain
    cases l₂ with
    | nil =>
        simp only [List.cons_append, List.nil_append, List.isChain_cons_cons] at hc
        rw [hc.1.1, hc.1.2]
    | cons a l₂ =>
        simp only [List.cons_append, List.isChain_cons_cons] at hc
        rw [hc.1.1, hc.1.2]

/-- No node but the head of an empty ring is its own neighbour. -/
lemma IsRing.next_ne (hr : IsRing next prev h l) (hx : x ∈ l) : next x ≠ x := by
  obtain ⟨l₁, l₂, rfl⟩ := List.append_of_mem hx
  rw [Ne, hr.rotate.next_head_eq_iff]
  simp

lemma IsRing.prev_ne (hr : IsRing next prev h l) (hx : x ∈ l) : prev x ≠ x := by
  intro hp
  have h1 := hr.next_prev (List.mem_cons_of_mem h hx)
  rw [hp] at h1
  exact hr.next_ne hx h1

/-- A node has the same node on both sides exactly if it is alone with the head. -/
lemma IsRing.next_eq_prev_iff (hr : IsRing next prev h l) (hx : x ∈ l) :
    next x = prev x ↔ l = [x] := by
  obtain ⟨l₁, l₂, rfl⟩ := List.append_of_mem hx
  have hnd := hr.nodup
  rw [hr.next_of_append, hr.prev_of_append]
  have hlast := List.getLast_mem (l := h :: l₁) (by simp)
  cases l₂ with
  | nil =>
      rcases List.eq_nil_or_concat l₁ with rfl | ⟨m, q, rfl⟩
      · simp
      · rw [List.headD_nil]
        refine iff_of_false (fun he => ?_) fun he => ?_
        · have hq : h = q := by simpa using he
          simp [hq] at hnd
        · have hlen := congrArg List.length he
          simp at hlen
  | cons b l₂ =>
      rw [List.headD_cons]
      refine iff_of_false (fun he => ?_) ?_
      · rw [← he] at hlast
        rw [← List.cons_append, List.nodup_append] at hnd
        exact hnd.2.2 b hlast b (by simp) rfl
      · intro he
        have hlen := congrArg List.length he
        simp at hlen
        omega

/-- Following `next` from any node of a ring leads to its head. -/
lemma IsRing.head_of_closed {S : α → Prop} (hr : IsRing next prev h l) (hx : x ∈ l) (hS : S x)
    (hclosed : ∀ y ∈ l, S y → S (next y)) : S h := by
  obtain ⟨l₁, l₂, rfl⟩ := List.append_of_mem hx
  induction l₂ generalizing l₁ x with
  | nil =>
      have h1 := hclosed x (by simp) hS
      rwa [hr.next_of_append] at h1
  | cons y l₂ ih =>
      have h1 := hclosed x (by simp) hS
      rw [hr.next_of_append, List.headD_cons] at h1
      have happ : l₁ ++ x :: y :: l₂ = (l₁ ++ [x]) ++ y :: l₂ := by simp
      rw [happ] at hr hclosed
      exact ih h1 (l₁ ++ [x]) hr (by simp) hclosed

/-- Two chains of successors that start alike and end in the same first repetition of the
head are the same. -/
lemma isChain_next_unique {e : α} : ∀ {l l' : List α} {a : α},
    (a :: l ++ [e]).IsChain (Linked next prev) → (a :: l' ++ [e]).IsChain (Linked next prev) →
      e ∉ l → e ∉ l' → l = l'
  | [], [], _, _, _, _, _ => rfl
  | [], b :: l', a, h1, h2, _, hb => by
      simp only [List.cons_append, List.nil_append, List.isChain_cons_cons] at h1 h2
      have : b = e := h2.1.1.symm.trans h1.1.1
      simp [this] at hb
  | b :: l, [], a, h1, h2, hb, _ => by
      simp only [List.cons_append, List.nil_append, List.isChain_cons_cons] at h1 h2
      have : b = e := h1.1.1.symm.trans h2.1.1
      simp [this] at hb
  | b :: l, c :: l', a, h1, h2, hb, hc => by
      simp only [List.cons_append, List.isChain_cons_cons] at h1 h2
      have hbc : b = c := h1.1.1.symm.trans h2.1.1
      subst hbc
      simp only [List.mem_cons, not_or] at hb hc
      rw [isChain_next_unique (a := b) (by simpa using h1.2) (by simpa using h2.2) hb.2 hc.2]

/-- A ring is determined by its head. -/
lemma IsRing.unique (hr : IsRing next prev h l₁) (hr' : IsRing next prev h l₂) : l₁ = l₂ :=
  isChain_next_unique hr.chain hr'.chain hr.notMem hr'.notMem

/-! ### The two edits -/

/-- A chain of neighbours reads the `next` words of all its nodes but the last and the
`prev` words of all but the first. -/
lemma isChain_congr {e : α} : ∀ {l : List α}, (l ++ [e]).IsChain (Linked next prev) →
    (∀ y ∈ l, next' y = next y) → (∀ y ∈ (l ++ [e]).tail, prev' y = prev y) →
      (l ++ [e]).IsChain (Linked next' prev')
  | [], _, _, _ => by simp
  | [a], hc, hn, hp => by
      simp only [List.cons_append, List.nil_append, List.isChain_cons_cons, Linked] at hc ⊢
      simp only [List.cons_append, List.nil_append, List.tail_cons] at hp
      rw [hn a (by simp), hp e (by simp)]
      exact ⟨hc.1, by simp⟩
  | a :: b :: l, hc, hn, hp => by
      simp only [List.cons_append, List.isChain_cons_cons, Linked] at hc ⊢
      simp only [List.cons_append, List.tail_cons] at hp
      have ih := isChain_congr (l := b :: l) (e := e) (by simpa using hc.2)
        (fun y hy => hn y (List.mem_cons_of_mem a hy))
        (fun y hy => hp y (List.mem_cons_of_mem b (by simpa using hy)))
      rw [hn a (by simp), hp b (by simp)]
      exact ⟨hc.1, by simpa using ih⟩

/-- **Insertion after the head**: the head's successor becomes `x`, which is linked between
them, and no other link word of the ring changes. -/
theorem IsRing.insert (hr : IsRing next prev h l) (hx : x ∉ h :: l)
    (hnh : next' h = x) (hnx : next' x = next h) (hpx : prev' x = h)
    (hpn : prev' (next h) = x) (hn : ∀ y ∈ l, next' y = next y)
    (hp : ∀ y ∈ h :: l, y ≠ next h → prev' y = prev y) : IsRing next' prev' h (x :: l) := by
  have hnd := hr.nodup
  refine ⟨?_, by simp only [List.nodup_cons, List.mem_cons, not_or] at hx hnd ⊢; tauto⟩
  cases l with
  | nil =>
      have h1 := isRing_nil.mp hr
      rw [h1.1] at hnx hpn
      simp [Linked, hnh, hnx, hpx, hpn]
  | cons a l =>
      have hna : next h = a := by simpa using hr.next_head
      rw [hna] at hnx hpn hp
      have hc := hr.chain
      simp only [List.cons_append, List.isChain_cons_cons] at hc ⊢
      refine ⟨⟨hnh, hpx⟩, ⟨hnx, hpn⟩, ?_⟩
      -- past the two new links only pairs of old neighbours remain
      refine isChain_congr (l := a :: l) (by simpa using hc.2) hn fun y hy => ?_
      simp only [List.cons_append, List.tail_cons, List.mem_append, List.mem_singleton] at hy
      simp only [List.nodup_cons, List.mem_cons, not_or] at hnd
      refine hp y (by simp only [List.mem_cons]; tauto) ?_
      rintro rfl
      tauto

/-- **Removal of the head's successor**: its two neighbours are linked to each other, and no
other link word of what remains changes. -/
theorem IsRing.remove (hr : IsRing next prev h (x :: l)) (hnh : next' h = next x)
    (hpn : prev' (next x) = h) (hn : ∀ y ∈ l, next' y = next y)
    (hp : ∀ y ∈ h :: l, y ≠ next x → prev' y = prev y) : IsRing next' prev' h l := by
  have hnd := hr.nodup
  have hxn : next x = l.headD h :=
    (show IsRing next prev h ([] ++ x :: l) from hr).next_of_append
  refine ⟨?_, by simp only [List.nodup_cons, List.mem_cons, not_or] at hnd ⊢; tauto⟩
  cases l with
  | nil =>
      simp only [List.headD_nil] at hxn
      rw [hxn] at hnh hpn
      simp [Linked, hnh, hpn]
  | cons a l =>
      simp only [List.headD_cons] at hxn
      rw [hxn] at hnh hpn hp
      have hc := hr.chain
      simp only [List.cons_append, List.isChain_cons_cons] at hc ⊢
      refine ⟨⟨hnh, hpn⟩, ?_⟩
      refine isChain_congr (l := a :: l) (by simpa using hc.2.2) hn fun y hy => ?_
      simp only [List.cons_append, List.tail_cons, List.mem_append, List.mem_singleton] at hy
      simp only [List.nodup_cons, List.mem_cons, not_or] at hnd
      refine hp y (by simp only [List.mem_cons]; tauto) ?_
      rintro rfl
      tauto

/-- **Insertion after any node**: the new node goes behind the last node of `h :: l₁`. -/
theorem IsRing.insertAt {p : α} (hr : IsRing next prev h (l₁ ++ l₂))
    (hpl : p = (h :: l₁).getLast (by simp)) (hx : x ∉ h :: (l₁ ++ l₂))
    (hnh : next' p = x) (hnx : next' x = next p) (hpx : prev' x = p)
    (hpn : prev' (next p) = x) (hn : ∀ y ∈ h :: (l₁ ++ l₂), y ≠ p → next' y = next y)
    (hp : ∀ y ∈ h :: (l₁ ++ l₂), y ≠ next p → prev' y = prev y) :
    IsRing next' prev' h (l₁ ++ x :: l₂) := by
  rcases List.eq_nil_or_concat l₁ with rfl | ⟨m, q, rfl⟩
  · have hph : p = h := by simpa using hpl
    subst hph
    refine hr.insert hx hnh hnx hpx hpn (fun y hy => hn y ?_ ?_) hp
    · simp only [List.nil_append, List.mem_cons]
      exact Or.inr hy
    · rintro rfl
      exact hr.notMem hy
  · have hpq : p = q := by rw [hpl]; simp
    subst hpq
    rw [List.concat_eq_append, List.append_assoc] at hr
    have hrot : IsRing next prev p (l₂ ++ h :: m) := hr.rotate
    have hmem : ∀ y, y ∈ p :: (l₂ ++ h :: m) → y ∈ h :: (m.concat p ++ l₂) := by
      intro y hy
      simp only [List.concat_eq_append, List.mem_cons, List.mem_append] at hy ⊢
      tauto
    have hins : IsRing next' prev' p ((x :: l₂) ++ h :: m) := by
      refine hrot.insert ?_ hnh hnx hpx hpn (fun y hy => ?_) (fun y hy => hp y (hmem y hy))
      · exact fun h1 => hx (hmem x h1)
      · refine hn y (hmem y (List.mem_cons_of_mem p hy)) ?_
        rintro rfl
        exact hrot.notMem hy
    have hback : IsRing next' prev' h (m ++ p :: x :: l₂) := hins.rotate
    simpa using hback

/-- Insertion after a node of the ring, written with the head in the list. -/
lemma IsRing.insertAfter [DecidableEq α] {p : α} (hr : IsRing next prev h l) (he : h :: l = l₁ ++ p :: l₂)
    (hx : x ∉ h :: l)
    (hn : ∀ y, next' y = if y = p then x else if y = x then next p else next y)
    (hp : ∀ y, prev' y = if y = x then p else if y = next p then x else prev y) :
    ∃ l', h :: l' = l₁ ++ p :: x :: l₂ ∧ IsRing next' prev' h l' := by
  obtain ⟨m, hm, rfl⟩ : ∃ m, h :: m = l₁ ++ [p] ∧ l = m ++ l₂ := by
    cases l₁ with
    | nil =>
        obtain ⟨rfl, rfl⟩ : h = p ∧ l = l₂ := by simpa using he
        exact ⟨[], rfl, rfl⟩
    | cons a l₁ =>
        obtain ⟨rfl, rfl⟩ : h = a ∧ l = l₁ ++ p :: l₂ := by simpa using he
        exact ⟨l₁ ++ [p], rfl, by simp⟩
  have hpl : p = (h :: m).getLast (by simp) := by simp [hm]
  have hpm : p ∈ h :: (m ++ l₂) := by rw [he]; simp
  have hxp : p ≠ x := fun h' => hx (h' ▸ hpm)
  have hnx : next p ≠ x := fun h' => hx (h' ▸ hr.next_mem hpm)
  have hne : ∀ y ∈ h :: (m ++ l₂), y ≠ x := fun y hy h' => hx (h' ▸ hy)
  refine ⟨m ++ x :: l₂, by rw [← List.cons_append, hm]; simp, ?_⟩
  refine hr.insertAt hpl hx ?_ ?_ ?_ ?_ (fun y hy hyp => ?_) fun y hy hyn => ?_
  · rw [hn, if_pos rfl]
  · rw [hn, if_neg hxp.symm, if_pos rfl]
  · rw [hp, if_pos rfl]
  · rw [hp, if_neg hnx, if_pos rfl]
  · rw [hn, if_neg hyp, if_neg (hne y hy)]
  · rw [hp, if_neg (hne y hy), if_neg hyn]

/-- **Removal of any node**: its two neighbours are linked to each other. -/
theorem IsRing.removeAt (hr : IsRing next prev h (l₁ ++ x :: l₂))
    (hnp : next' (prev x) = next x) (hpn : prev' (next x) = prev x)
    (hn : ∀ y ∈ h :: (l₁ ++ l₂), y ≠ prev x → next' y = next y)
    (hp : ∀ y ∈ h :: (l₁ ++ l₂), y ≠ next x → prev' y = prev y) :
    IsRing next' prev' h (l₁ ++ l₂) := by
  have hpl := hr.prev_of_append
  rcases List.eq_nil_or_concat l₁ with rfl | ⟨m, q, rfl⟩
  · have hph : prev x = h := by simpa using hpl
    rw [hph] at hnp hpn hn
    refine hr.remove hnp hpn (fun y hy => hn y ?_ ?_) hp
    · simp only [List.nil_append, List.mem_cons]
      exact Or.inr hy
    · rintro rfl
      exact hr.notMem (List.mem_cons_of_mem x hy)
  · have hpq : prev x = q := by rw [hpl]; simp
    subst hpq
    rw [List.concat_eq_append, List.append_assoc] at hr
    have hrot : IsRing next prev (prev x) ((x :: l₂) ++ h :: m) := hr.rotate
    have hmem : ∀ y, y ∈ prev x :: (l₂ ++ h :: m) → y ∈ h :: (m.concat (prev x) ++ l₂) := by
      intro y hy
      simp only [List.concat_eq_append, List.mem_cons, List.mem_append] at hy ⊢
      tauto
    have hrem : IsRing next' prev' (prev x) (l₂ ++ h :: m) := by
      refine hrot.remove hnp hpn (fun y hy => ?_) (fun y hy => hp y (hmem y hy))
      refine hn y (hmem y (List.mem_cons_of_mem _ hy)) ?_
      rintro rfl
      exact hrot.notMem (List.mem_cons_of_mem x hy)
    have hback : IsRing next' prev' h (m ++ prev x :: l₂) := hrem.rotate
    simpa using hback

/-- Removal of a node, by the link words of all other nodes. -/
lemma IsRing.removeOf [DecidableEq α] (hr : IsRing next prev h (l₁ ++ x :: l₂))
    (hn : ∀ y, y ≠ x → next' y = if y = prev x then next x else next y)
    (hp : ∀ y, y ≠ x → prev' y = if y = next x then prev x else prev y) :
    IsRing next' prev' h (l₁ ++ l₂) := by
  have hx : x ∈ l₁ ++ x :: l₂ := by simp
  have hne : ∀ y ∈ h :: (l₁ ++ l₂), y ≠ x := by
    rintro y hy rfl
    have hnd := hr.nodup
    rw [← List.cons_append, List.nodup_middle, List.nodup_cons] at hnd
    exact hnd.1 hy
  refine hr.removeAt ?_ ?_ (fun y hy hyp => ?_) fun y hy hyn => ?_
  · rw [hn _ (hr.prev_ne hx), if_pos rfl]
  · rw [hp _ (hr.next_ne hx), if_pos rfl]
  · rw [hn y (hne y hy), if_neg hyp]
  · rw [hp y (hne y hy), if_neg hyn]

end Basic

/-! ### A memory of links -/

/-- The two link words of every node. -/
structure Links (α : Type*) where
  next : α → α
  prev : α → α

namespace Links

variable [DecidableEq α] (L : Links α) (x y z : α)

/-- `x->next = y`. -/
def setNext : Links α := { L with next := Function.update L.next x y }

/-- `x->prev = y`. -/
def setPrev : Links α := { L with prev := Function.update L.prev x y }

@[simp] lemma setNext_prev : (L.setNext x y).prev = L.prev := rfl

@[simp] lemma setPrev_next : (L.setPrev x y).next = L.next := rfl

lemma setNext_next : (L.setNext x y).next z = if z = x then y else L.next z := by
  simp [setNext, Function.update_apply]

lemma setPrev_prev : (L.setPrev x y).prev z = if z = x then y else L.prev z := by
  simp [setPrev, Function.update_apply]

/-- The nodes of `l` form a circular list headed by `h` in this memory. -/
abbrev Circle (L : Links α) (h : α) (l : List α) : Prop := IsRing L.next L.prev h l

/-- The nodes of `S` lie on circular lists, however many: each has its two neighbours in `S`,
and they point back at it. -/
def Paired (L : Links α) (S : Set α) : Prop :=
  ∀ x ∈ S, L.next x ∈ S ∧ L.prev x ∈ S ∧ L.prev (L.next x) = x ∧ L.next (L.prev x) = x

namespace Paired

variable {L L' : Links α} {S : Set α} {p x : α}

/-- A node that points at itself both ways is one more list. -/
lemma self (h : L.Paired S) (hx : x ∉ S)
    (hn : ∀ y, L'.next y = if y = x then x else L.next y)
    (hp : ∀ y, L'.prev y = if y = x then x else L.prev y) : L'.Paired (insert x S) := by
  intro y hy
  rcases Set.mem_insert_iff.mp hy with rfl | hy
  · simp [hn, hp]
  · obtain ⟨h₁, h₂, h₃, h₄⟩ := h y hy
    have hyx : y ≠ x := fun h => hx (h ▸ hy)
    have hnx : L.next y ≠ x := fun h => hx (h ▸ h₁)
    have hpx : L.prev y ≠ x := fun h => hx (h ▸ h₂)
    simp [hn, hp, hyx, hnx, hpx, h₁, h₂, h₃, h₄]

/-- A new node goes behind the node `p`. -/
lemma insert (h : L.Paired S) (hpS : p ∈ S) (hx : x ∉ S)
    (hn : ∀ y, L'.next y = if y = p then x else if y = x then L.next p else L.next y)
    (hp : ∀ y, L'.prev y = if y = x then p else if y = L.next p then x else L.prev y) :
    L'.Paired (insert x S) := by
  obtain ⟨hp₁, -, hp₃, -⟩ := h p hpS
  have hpx : p ≠ x := fun h => hx (h ▸ hpS)
  have hnpx : L.next p ≠ x := fun h => hx (h ▸ hp₁)
  intro y hy
  rcases Set.mem_insert_iff.mp hy with rfl | hy
  · simp [hn, hp, hpS, hp₁, hpx.symm, hnpx]
  · obtain ⟨h₁, h₂, h₃, h₄⟩ := h y hy
    have hyx : y ≠ x := fun h => hx (h ▸ hy)
    have hnx : L.next y ≠ x := fun h => hx (h ▸ h₁)
    have hpvx : L.prev y ≠ x := fun h => hx (h ▸ h₂)
    refine ⟨?_, ?_, ?_, ?_⟩
    · rw [hn]
      split_ifs <;> simp [h₁]
    · rw [hp, if_neg hyx]
      split_ifs <;> simp [h₂]
    · rw [hn]
      by_cases hyp : y = p
      · simp [hyp, hp]
      · have hne : L.next y ≠ L.next p := fun h => hyp (h₃.symm.trans ((congrArg L.prev h).trans hp₃))
        simp [hyp, hyx, hp, hnx, hne, h₃]
    · rw [hp, if_neg hyx]
      by_cases hyp : y = L.next p
      · simp [hyp, hn, hpx.symm]
      · have hne : L.prev y ≠ p := fun h => hyp (h₄.symm.trans (congrArg L.next h))
        simp [hyp, hn, hne, hpvx, h₄]

/-- The two neighbours of a node are linked to each other. -/
lemma remove (h : L.Paired S) (hx : x ∈ S)
    (hn : ∀ y, y ≠ x → L'.next y = if y = L.prev x then L.next x else L.next y)
    (hp : ∀ y, y ≠ x → L'.prev y = if y = L.next x then L.prev x else L.prev y) :
    L'.Paired (S \ {x}) := by
  obtain ⟨hx₁, hx₂, hx₃, hx₄⟩ := h x hx
  rintro y ⟨hy, hyx⟩
  have hyx : y ≠ x := hyx
  obtain ⟨h₁, h₂, h₃, h₄⟩ := h y hy
  have hnext : L'.next y ∈ S \ {x} ∧ L'.prev (L'.next y) = y := by
    rw [hn y hyx]
    by_cases hyp : y = L.prev x
    · have hnx : L.next x ≠ x := fun h' => by
        rw [h'] at hx₃
        exact hyx (hyp.trans hx₃)
      rw [if_pos hyp, hp _ hnx, if_pos rfl]
      exact ⟨⟨hx₁, hnx⟩, hyp.symm⟩
    · have hny : L.next y ≠ x := fun h' => hyp (by rw [← h', h₃])
      have hne : L.next y ≠ L.next x := fun h' => hyx (by rw [← h₃, h', hx₃])
      rw [if_neg hyp, hp _ hny, if_neg hne]
      exact ⟨⟨h₁, hny⟩, h₃⟩
  have hprev : L'.prev y ∈ S \ {x} ∧ L'.next (L'.prev y) = y := by
    rw [hp y hyx]
    by_cases hyn : y = L.next x
    · have hpx : L.prev x ≠ x := fun h' => by
        rw [h'] at hx₄
        exact hyx (hyn.trans hx₄)
      rw [if_pos hyn, hn _ hpx, if_pos rfl]
      exact ⟨⟨hx₂, hpx⟩, hyn.symm⟩
    · have hpy : L.prev y ≠ x := fun h' => hyn (by rw [← h', h₄])
      have hne : L.prev y ≠ L.prev x := fun h' => hyx (by rw [← h₄, h', hx₄])
      rw [if_neg hyn, hn _ hpy, if_neg hne]
      exact ⟨⟨h₂, hpy⟩, h₄⟩
  exact ⟨hnext.1, hprev.1, hnext.2, hprev.2⟩

end Paired

end Links

/-! ### Families of rings -/

variable {ι : Type*}

/-- The heads `head i` with `i ∈ I` carry circular lists `Q i`, no two of which have a node
in common. -/
structure Rings (L : Links α) (I : Set ι) (head : ι → α) (Q : ι → List α) : Prop where
  circle : ∀ i ∈ I, L.Circle (head i) (Q i)
  disjoint : ∀ i ∈ I, ∀ j ∈ I, i ≠ j → ∀ x ∈ head i :: Q i, x ∉ head j :: Q j

namespace Rings

variable {L L' : Links α} {I : Set ι} {head : ι → α} {Q : ι → List α} {i j : ι} {x y : α}

/-- A node lies in one ring only. -/
lemma eq_of_mem (hr : Rings L I head Q) (hi : i ∈ I) (hj : j ∈ I) (hx : x ∈ head i :: Q i)
    (hx' : x ∈ head j :: Q j) : i = j := by
  by_contra hne
  exact hr.disjoint i hi j hj hne x hx hx'

lemma head_notMem (hr : Rings L I head Q) (hi : i ∈ I) (hj : j ∈ I) : head j ∉ Q i := by
  intro hmem
  have hij := hr.eq_of_mem hi hj (List.mem_cons_of_mem _ hmem) List.mem_cons_self
  subst hij
  exact (hr.circle i hi).notMem hmem

lemma nodup (hr : Rings L I head Q) (hi : i ∈ I) : (Q i).Nodup := (hr.circle i hi).nodup_tail

lemma next_head (hr : Rings L I head Q) (hi : i ∈ I) : L.next (head i) = (Q i).headD (head i) :=
  (hr.circle i hi).next_head

/-- A ring is empty exactly when its head points at itself. -/
lemma next_head_eq_iff (hr : Rings L I head Q) (hi : i ∈ I) :
    L.next (head i) = head i ↔ Q i = [] := (hr.circle i hi).next_head_eq_iff

lemma mono {J : Set ι} (hr : Rings L I head Q) (hJ : J ⊆ I) : Rings L J head Q :=
  ⟨fun i hi => hr.circle i (hJ hi), fun i hi j hj => hr.disjoint i (hJ hi) j (hJ hj)⟩

/-- A family reads only the links of its own nodes. -/
lemma congr (hr : Rings L I head Q) (hn : ∀ i ∈ I, ∀ x ∈ head i :: Q i, L'.next x = L.next x)
    (hp : ∀ i ∈ I, ∀ x ∈ head i :: Q i, L'.prev x = L.prev x) : Rings L' I head Q :=
  ⟨fun i hi => (hr.circle i hi).congr (hn i hi) (hp i hi), hr.disjoint⟩

section Edits

variable [DecidableEq α] [DecidableEq ι]

/-- **Insertion behind the head** of ring `i` of a node that is in no ring. -/
theorem insert (hr : Rings L I head Q) (hi : i ∈ I) (hx : ∀ j ∈ I, x ∉ head j :: Q j)
    (hn : ∀ y, L'.next y = if y = head i then x else if y = x then L.next (head i) else L.next y)
    (hp : ∀ y, L'.prev y = if y = x then head i else if y = L.next (head i) then x
      else L.prev y) :
    Rings L' I head (Function.update Q i (x :: Q i)) := by
  have hmem : L.next (head i) ∈ head i :: Q i := (hr.circle i hi).next_mem List.mem_cons_self
  have hne : ∀ j ∈ I, ∀ y ∈ head j :: Q j, y ≠ x := fun j hj y hy h => hx j hj (h ▸ hy)
  refine ⟨fun j hj => ?_, fun j hj k hk hjk y hy => ?_⟩
  · by_cases hji : j = i
    · subst hji
      rw [Function.update_self]
      have hxh : x ≠ head j := fun h => hx j hj (h ▸ List.mem_cons_self)
      refine (hr.circle j hj).insert (hx j hj) (by simp [hn]) (by simp [hn, hxh]) (by simp [hp])
        (by simp [hp, hne j hj _ hmem]) (fun y hy => ?_) fun y hy hyn => ?_
      · have hyh : y ≠ head j := fun h => (hr.circle j hj).notMem (h ▸ hy)
        simp [hn, hyh, hne j hj y (List.mem_cons_of_mem _ hy)]
      · simp [hp, hyn, hne j hj y hy]
    · rw [Function.update_of_ne hji]
      -- the other rings do not contain the two nodes whose links change
      refine (hr.circle j hj).congr (fun y hy => ?_) fun y hy => ?_
      · have hyh : y ≠ head i := fun h =>
          hr.disjoint j hj i hi hji y hy (h ▸ List.mem_cons_self)
        simp [hn, hyh, hne j hj y hy]
      · have hyn : y ≠ L.next (head i) := fun h => hr.disjoint j hj i hi hji y hy (h ▸ hmem)
        simp [hp, hyn, hne j hj y hy]
  · intro hy'
    rw [Function.update_apply] at hy hy'
    split_ifs at hy hy' with h1 h2 h2
    · exact hjk (h1.trans h2.symm)
    · simp only [List.mem_cons] at hy
      rcases hy with h | h | h
      · exact hr.disjoint j hj k hk hjk y (h ▸ List.mem_cons_self) hy'
      · exact hx k hk (h ▸ hy')
      · exact hr.disjoint j hj k hk hjk y (h1 ▸ List.mem_cons_of_mem _ h) hy'
    · simp only [List.mem_cons] at hy'
      rcases hy' with h | h | h
      · exact hr.disjoint k hk j hj (Ne.symm hjk) y (h ▸ List.mem_cons_self) hy
      · exact hx j hj (h ▸ hy)
      · exact hr.disjoint k hk j hj (Ne.symm hjk) y (h2 ▸ List.mem_cons_of_mem _ h) hy
    · exact hr.disjoint j hj k hk hjk y hy hy'

/-- **Removal** of a node from ring `i`: its neighbours are linked to each other. -/
theorem remove (hr : Rings L I head Q) (hi : i ∈ I) (hx : x ∈ Q i)
    (hn : ∀ y, L'.next y = if y = L.prev x then L.next x else L.next y)
    (hp : ∀ y, L'.prev y = if y = L.next x then L.prev x else L.prev y) :
    Rings L' I head (Function.update Q i ((Q i).erase x)) := by
  have hxm : x ∈ head i :: Q i := List.mem_cons_of_mem _ hx
  have hnext := (hr.circle i hi).next_mem hxm
  have hprev := (hr.circle i hi).prev_mem hxm
  refine ⟨fun j hj => ?_, fun j hj k hk hjk y hy => ?_⟩
  · by_cases hji : j = i
    · subst hji
      rw [Function.update_self]
      obtain ⟨l₁, l₂, hQ⟩ := List.append_of_mem hx
      have hnot : x ∉ l₁ := by
        have hnd := hr.nodup hj
        rw [hQ, List.nodup_append] at hnd
        exact fun h => hnd.2.2 x h x List.mem_cons_self rfl
      have hc := hr.circle j hj
      rw [hQ] at hc
      rw [hQ, List.erase_append_right _ hnot, List.erase_cons_head]
      refine hc.removeAt (by simp [hn]) (by simp [hp]) (fun y _ hy => ?_) fun y _ hy => ?_
      · rw [hn, if_neg hy]
      · rw [hp, if_neg hy]
    · rw [Function.update_of_ne hji]
      refine (hr.circle j hj).congr (fun y hy => ?_) fun y hy => ?_
      · have hyp : y ≠ L.prev x := fun h => hr.disjoint j hj i hi hji y hy (h ▸ hprev)
        rw [hn, if_neg hyp]
      · have hyn : y ≠ L.next x := fun h => hr.disjoint j hj i hi hji y hy (h ▸ hnext)
        rw [hp, if_neg hyn]
  · have hsub : ∀ k, y ∈ head k :: Function.update Q i ((Q i).erase x) k → y ∈ head k :: Q k := by
      intro k hyk
      rw [Function.update_apply] at hyk
      split_ifs at hyk with hki
      · subst hki
        rcases List.mem_cons.mp hyk with h | h
        · exact h ▸ List.mem_cons_self
        · exact List.mem_cons_of_mem _ (List.mem_of_mem_erase h)
      · exact hyk
    exact fun hy' => hr.disjoint j hj k hk hjk y (hsub j hy) (hsub k hy')

/-- **A new ring** from a head that is in no ring and points at itself. -/
theorem init (hr : Rings L I head Q) (hi : ∀ j ∈ I, head i ∉ head j :: Q j)
    (hn : ∀ y, L'.next y = if y = head i then y else L.next y)
    (hp : ∀ y, L'.prev y = if y = head i then y else L.prev y) :
    Rings L' (Insert.insert i I) head (Function.update Q i []) := by
  have hne : ∀ j ∈ I, j ≠ i := fun j hj h => hi j hj (h ▸ List.mem_cons_self)
  refine ⟨fun j hj => ?_, fun j hj k hk hjk y hy => ?_⟩
  · rcases hj with rfl | hj
    · rw [Function.update_self]
      exact isRing_nil.mpr ⟨by simp [hn], by simp [hp]⟩
    · rw [Function.update_of_ne (hne j hj)]
      refine (hr.circle j hj).congr (fun y hy => ?_) fun y hy => ?_
      · have hyh : y ≠ head i := fun h => hi j hj (h ▸ hy)
        rw [hn, if_neg hyh]
      · have hyh : y ≠ head i := fun h => hi j hj (h ▸ hy)
        rw [hp, if_neg hyh]
  · intro hy'
    rcases hj with rfl | hj <;> rcases hk with rfl | hk
    · exact hjk rfl
    · rw [Function.update_self, List.mem_singleton] at hy
      rw [Function.update_of_ne (hne k hk)] at hy'
      exact hi k hk (hy ▸ hy')
    · rw [Function.update_self, List.mem_singleton] at hy'
      rw [Function.update_of_ne (hne j hj)] at hy
      exact hi j hj (hy' ▸ hy)
    · rw [Function.update_of_ne (hne j hj)] at hy
      rw [Function.update_of_ne (hne k hk)] at hy'
      exact hr.disjoint j hj k hk hjk y hy hy'

/-- **The head of a ring leaves it**, and its last node becomes the head. -/
theorem behead {I : Set α} {Q : α → List α} {l : List α} {r : α} (hr : Rings L I id Q)
    (hx : x ∈ I) (hQ : Q x = l ++ [r])
    (hn : ∀ y, L'.next y = if y = L.prev x then L.next x else L.next y)
    (hp : ∀ y, L'.prev y = if y = L.next x then L.prev x else L.prev y) :
    Rings L' (Insert.insert r (I \ {x})) id (Function.update Q r l) := by
  have hc := hr.circle x hx
  have hrot : L.Circle r (x :: l) := by
    rw [hQ] at hc
    exact hc.rotate
  have hnext := hc.next_mem List.mem_cons_self
  have hprev := hc.prev_mem List.mem_cons_self
  have hne : ∀ j ∈ I, j ≠ r := by
    rintro j hj rfl
    exact hr.head_notMem hx hj (by rw [hQ]; simp)
  have hrot' : L.Circle r ([] ++ x :: l) := hrot
  have hcirc : L'.Circle r l := hrot'.removeOf (fun y _ => hn y) fun y _ => hp y
  have hsub : ∀ y ∈ r :: l, y ∈ x :: Q x := by
    intro y hy
    rw [hQ]
    simp only [List.mem_cons, List.mem_append, List.not_mem_nil, or_false] at hy ⊢
    tauto
  refine ⟨fun j hj => ?_, fun j hj k hk hjk y hy hy' => ?_⟩
  · rcases hj with rfl | ⟨hj, hjx⟩
    · rw [Function.update_self]
      exact hcirc
    · rw [Function.update_of_ne (hne j hj)]
      refine (hr.circle j hj).congr (fun y hy => ?_) fun y hy => ?_
      · have hyp : y ≠ L.prev x := fun h => hr.disjoint j hj x hx hjx y hy (h ▸ hprev)
        rw [hn, if_neg hyp]
      · have hyn : y ≠ L.next x := fun h => hr.disjoint j hj x hx hjx y hy (h ▸ hnext)
        rw [hp, if_neg hyn]
  · rcases hj with rfl | ⟨hj, hjx⟩ <;> rcases hk with rfl | ⟨hk, hkx⟩
    · exact hjk rfl
    · rw [Function.update_self] at hy
      rw [Function.update_of_ne (hne k hk)] at hy'
      exact hr.disjoint x hx k hk (Ne.symm hkx) y (hsub y hy) hy'
    · rw [Function.update_self] at hy'
      rw [Function.update_of_ne (hne j hj)] at hy
      exact hr.disjoint x hx j hj (Ne.symm hjx) y (hsub y hy') hy
    · rw [Function.update_of_ne (hne j hj)] at hy
      rw [Function.update_of_ne (hne k hk)] at hy'
      exact hr.disjoint j hj k hk hjk y hy hy'

end Edits

end Rings

end Ring
