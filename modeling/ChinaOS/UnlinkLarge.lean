import ChinaOS.InsertLarge

/-!
`unlink_large_chunk`.

* `rightmostLoop_spec`: the descent to a leaf.
* `relink_spec`: the last part of the function writes the chunk `pReplace` to the path of
  `pChunk`, with its children.
* `Forest.unlink`: the function takes the chunk out of the trees, whether it is in a ring, a node
  with a ring, an inner node or a leaf, and changes nothing but their records.
-/

namespace ChinaOS

namespace Heap

open Records

section Relink

variable {F : ℕ → Option ℕ} {v v' : ℕ → ℕ → ℕ} {node : ℕ → List Bool → Option ℕ}
  {i n : ℕ} {p q : List Bool} {a c r x y : ℕ} {d e : Bool} {h h' : Heap}
  {own : ℕ → ℕ → Prop} {m₀ : ℕ → ℕ}

lemma childOffset_ne_zero (d : Bool) : childOffset d ≠ 0 := by
  rcases childOffset_cases d with h | h <;> rw [h] <;> decide

lemma childOffset_ne_parent (d : Bool) : childOffset d ≠ 24 := by
  rcases childOffset_cases d with h | h <;> rw [h] <;> decide

/-- The fields of a memory hold the trees `node`, of large chunks. -/
structure Trees (F : ℕ → Option ℕ) (v : ℕ → ℕ → ℕ) (node : ℕ → List Bool → Option ℕ) : Prop where
  holds : PathTree.Holds null treeSlot (pointers v) node
  large : ∀ i p a, node i p = some a → ∃ n, F a = some n ∧ 264 < n
  index : ∀ i p a, node i p = some a → i < 32 ∧ v a 28 = i

lemma Forest.trees {map : Int32U} {ring : ℕ → List ℕ} (hf : Forest v map F node ring) :
    Trees F v node := by
  refine ⟨hf.tree, fun i p a ha => ?_, fun i p a ha => ⟨hf.shape.index_lt ha, ?_⟩⟩
  · obtain ⟨n, hn, hlt, -⟩ := hf.shape.node_spec i p a ha
    exact ⟨n, hn, hlt⟩
  · obtain ⟨n, hn, hlt, hi, -⟩ := hf.shape.node_spec i p a ha
    rw [hf.index a n hn hlt, hi]

/-- The record and the field of the pointer that leads to a path. -/
def edge (node : ℕ → List Bool → Option ℕ) (i : ℕ) : List Bool → ℕ × ℕ
  | [] => (treeSlot i, 0)
  | d :: q => ((node i q).getD null, childOffset d)

lemma Trees.own_edge (ht : Trees F v node) (hx : node i p = some x) :
    OwnLarge F (edge node i p).1 (edge node i p).2 := by
  cases p with
  | nil => exact Or.inr ⟨i, (ht.index i [] x hx).1, rfl, rfl⟩
  | cons d q =>
      obtain ⟨c, hc⟩ := Option.isSome_iff_exists.mp (ht.holds.closed i d q (by rw [hx]; rfl))
      obtain ⟨n, hn, hlt⟩ := ht.large i q c hc
      rw [edge, hc]
      exact ownLarge_childOffset hn hlt

/-- **The parent** of the chunk gets `pReplace` for a child. -/
lemma relinkParent_spec (hv : View (OwnLarge F) m₀ h.mem v) (hF : Chunks F)
    (ht : Trees F v node) (hx : node i p = some x) :
    View (OwnLarge F) m₀ (h.relinkParent x r).mem
        (setField v (edge node i p).1 (edge node i p).2 r) ∧
      (h.relinkParent x r).treeMap =
        (if p = [] ∧ r = null then clearBit h.treeMap i else h.treeMap) ∧
      (h.relinkParent x r).sameMap = h.sameMap ∧ (h.relinkParent x r).lock = h.lock := by
  obtain ⟨n, hn, hlt⟩ := ht.large i p x hx
  obtain ⟨hi, hidx⟩ := ht.index i p x hx
  have hown := ht.own_edge hx
  have hindex : h.index x = i := (hv.read x 28 (ownLarge_field hn hlt (by norm_num))).trans hidx
  have hparent : h.parent x = PathTree.up null treeSlot node i p :=
    (hv.read x 24 (ownLarge_field hn hlt (by norm_num))).trans (ht.holds.parent i p x hx)
  have hroot : x = h.mem (treeSlot i) ↔ p = [] := by
    have hslot : h.mem (treeSlot i) = (pointers v).root i :=
      (hv.read (treeSlot i) 0 (Or.inr ⟨i, hi, rfl, rfl⟩)).trans (if_pos hi).symm
    rw [hslot, eq_comm]
    exact ht.holds.root_eq_self_iff hx
  have hw := hv.write hF.apart_large hown (w := r)
  rw [relinkParent, hindex]
  cases p with
  | nil =>
      have hslot : x ≠ treeSlot i := hF.ne_slot hn
      have hindex' : (h.write (treeSlot i) r).index x = i := by
        refine (hw.read x 28 (ownLarge_field hn hlt (by norm_num))).trans ?_
        rw [edge, setField_of_ne hslot, hidx]
      rw [if_pos (hroot.mpr rfl)]
      dsimp only
      rw [hindex']
      by_cases hr : r = null
      · rw [if_pos hr, if_pos ⟨rfl, hr⟩]
        exact ⟨hw, rfl, rfl, rfl⟩
      · rw [if_neg hr, if_neg fun h' => hr h'.2]
        exact ⟨hw, rfl, rfl, rfl⟩
  | cons d q =>
      obtain ⟨c, hc⟩ := Option.isSome_iff_exists.mp (ht.holds.closed i d q (by rw [hx]; rfl))
      obtain ⟨k, hk, hklt⟩ := ht.large i q c hc
      rw [PathTree.up, hc, Option.getD_some] at hparent
      rw [edge, hc, Option.getD_some] at hw
      -- the child of the parent is the left one exactly if the step is to the left
      have hleft : h.child c 0 = x ↔ d = false := by
        have hread : h.child c 0 = (pointers v).child false c :=
          hv.read c (childOffset false) (ownLarge_childOffset hk hklt)
        rw [hread, ht.holds.child_eq_iff hc (ht.holds.ne_null i _ x hx)]
        refine ⟨fun h0 => ?_, fun h0 => h0 ▸ hx⟩
        have hpath := (ht.holds.inj i i _ _ x h0 hx).2
        exact (List.cons.inj hpath).1.symm
      have hmem : (h.setChild c d.toNat r).mem = Function.update h.mem (c + childOffset d) r := by
        rw [← childAddr_eq]
        rfl
      have heq : (if h.child c 0 = x then h.setChild c 0 r else h.setChild c 1 r) =
          h.setChild c d.toNat r := by
        cases d with
        | false => exact if_pos (hleft.mpr rfl)
        | true => exact if_neg fun h0 => Bool.noConfusion (hleft.mp h0)
      rw [if_neg fun h0 => List.cons_ne_nil d q (hroot.mp h0), hparent, heq, edge, hc,
        if_neg fun h0 => List.cons_ne_nil d q h0.1, hmem]
      exact ⟨hw, rfl, rfl, rfl⟩

/-- The fields behind `relinkChild`. -/
def movedChild (v : ℕ → ℕ → ℕ) (x r : ℕ) (d : Bool) : ℕ → ℕ → ℕ :=
  if v x (childOffset d) = null then v
  else setField (setField v r (childOffset d) (v x (childOffset d))) (v x (childOffset d)) 24 r

lemma movedChild_of_ne {o : ℕ} (ho : o ≠ 24) (hne : y ≠ r ∨ o ≠ childOffset d) :
    movedChild v x r d y o = v y o := by
  rw [movedChild]
  split_ifs
  · rfl
  · rw [setField_of_offset_ne ho, setField, if_neg]
    rintro ⟨rfl, rfl⟩
    exact hne.elim (fun h => h rfl) fun h => h rfl

lemma movedChild_self : movedChild v x r d r (childOffset d) =
    if v x (childOffset d) = null then v r (childOffset d) else v x (childOffset d) := by
  rw [movedChild]
  split_ifs
  · rfl
  · rw [setField_of_offset_ne (childOffset_ne_parent d), setField_self]

lemma movedChild_parent : movedChild v x r d y 24 =
    if y ≠ null ∧ v x (childOffset d) = y then r else v y 24 := by
  have ho := (childOffset_ne_parent d).symm
  rw [movedChild]
  by_cases h : v x (childOffset d) = null
  · rw [if_pos h, if_neg]
    rintro ⟨hy, rfl⟩
    exact hy h
  · rw [if_neg h, setField_same, setField_of_offset_ne ho]
    by_cases hy : y = v x (childOffset d)
    · rw [if_pos hy, if_pos ⟨hy ▸ h, hy.symm⟩]
    · rw [if_neg hy, if_neg fun h' => hy h'.2.symm]

lemma relinkChild_spec (hv : View own m₀ h.mem v) (hap : Apart own)
    (hx : own x (childOffset d)) (hr : own r (childOffset d))
    (hc : v x (childOffset d) ≠ null → own (v x (childOffset d)) 24) :
    View own m₀ (h.relinkChild x r d.toNat).mem (movedChild v x r d) ∧
      (h.relinkChild x r d.toNat).treeMap = h.treeMap ∧
      (h.relinkChild x r d.toNat).sameMap = h.sameMap ∧
      (h.relinkChild x r d.toNat).lock = h.lock := by
  have hread : h.child x d.toNat = v x (childOffset d) := by
    rw [Heap.child, childAddr_eq]
    exact hv.read x _ hx
  rw [relinkChild, hread, movedChild]
  by_cases hnull : v x (childOffset d) = null
  · rw [if_neg (not_not.mpr hnull), if_pos hnull]
    exact ⟨hv, rfl, rfl, rfl⟩
  · rw [if_pos hnull, if_neg hnull]
    have hw := hv.write hap hr (w := v x (childOffset d))
    rw [← childAddr_eq] at hw
    exact ⟨hw.write hap (hc hnull), rfl, rfl, rfl⟩

/-- What `relink` does to the fields, where `pReplace` is `r`, not `NULL`. -/
structure Relinked (v v' : ℕ → ℕ → ℕ) (node : ℕ → List Bool → Option ℕ) (i : ℕ) (p : List Bool)
    (x r : ℕ) : Prop where
  root : ∀ j, v' (treeSlot j) 0 =
    setField v (edge node i p).1 (edge node i p).2 r (treeSlot j) 0
  child : ∀ y ≠ r, ∀ d, v' y (childOffset d) =
    setField v (edge node i p).1 (edge node i p).2 r y (childOffset d)
  self : ∀ d, v' r (childOffset d) =
    if v x (childOffset d) = null then v r (childOffset d) else v x (childOffset d)
  up : v' r 24 = v x 24
  parent : ∀ y, y ≠ r → y ≠ null → v' y 24 =
    if ∃ d, v x (childOffset d) = y then r else v y 24
  other : ∀ y o, o = 8 ∨ o = 12 ∨ o = 28 → v' y o = v y o

/-- A node has a parent, or the slot of its tree. -/
lemma Trees.parent_ne_null (ht : Trees F v node) (hx : node i p = some x) : v x 24 ≠ null := by
  have hup : v x 24 = _ := ht.holds.parent i p x hx
  rw [hup]
  cases p with
  | nil =>
      show treeSlot i ≠ 0
      unfold treeSlot mallocor
      omega
  | cons d q =>
      obtain ⟨c, hc⟩ := Option.isSome_iff_exists.mp (ht.holds.closed i d q (by rw [hx]; rfl))
      rw [PathTree.up, hc]
      exact ht.holds.ne_null i q c hc

/-- The pointer at a slot leads to the root. -/
lemma edge_root {j : ℕ} : setField v (edge node i p).1 (edge node i p).2 r (treeSlot j) 0 =
      if j = i ∧ p = [] then r else v (treeSlot j) 0 := by
  cases p with
  | nil => simp [edge, setField, treeSlot_inj]
  | cons d q =>
      rw [edge, setField_of_offset_ne (childOffset_ne_zero d).symm,
        if_neg fun h' => List.cons_ne_nil d q h'.2]

/-- The pointer that leads to a path is none of a chunk that is no node, and no parent. -/
lemma Trees.edge_other {o : ℕ} (ht : Trees F v node) (hx : node i p = some x)
    (ho : o ≠ 0) (hy : o = 8 ∨ o = 12 ∨ o = 24 ∨ o = 28 ∨ ∀ j q, node j q ≠ some y) :
    setField v (edge node i p).1 (edge node i p).2 r y o = v y o := by
  cases p with
  | nil => exact setField_of_offset_ne ho
  | cons d q =>
      obtain ⟨c, hc⟩ := Option.isSome_iff_exists.mp (ht.holds.closed i d q (by rw [hx]; rfl))
      rw [edge, hc, Option.getD_some, setField, if_neg]
      rintro ⟨rfl, rfl⟩
      rcases childOffset_cases d with h | h <;>
        rcases hy with hy | hy | hy | hy | hy <;> first | omega | exact hy i q hc

/-- The child pointers of a node lead to its children. -/
lemma Trees.edge_child {j : ℕ} (ht : Trees F v node) (hx : node i p = some x)
    (hy : node j q = some y) :
    setField v (edge node i p).1 (edge node i p).2 r y (childOffset d) =
      if j = i ∧ p = d :: q then r else v y (childOffset d) := by
  cases p with
  | nil =>
      rw [edge, setField_of_offset_ne (childOffset_ne_zero d),
        if_neg fun h' => List.cons_ne_nil d q h'.2.symm]
  | cons e t =>
      obtain ⟨c, hc⟩ := Option.isSome_iff_exists.mp (ht.holds.closed i e t (by rw [hx]; rfl))
      rw [edge, hc, Option.getD_some, setField]
      by_cases hyc : j = i ∧ e :: t = d :: q
      · obtain ⟨rfl, he⟩ := hyc
        obtain ⟨rfl, rfl⟩ := List.cons.inj he
        rw [hc, Option.some.injEq] at hy
        rw [if_pos ⟨hy.symm, rfl⟩, if_pos ⟨rfl, rfl⟩]
      · rw [if_neg hyc, if_neg]
        rintro ⟨rfl, he⟩
        obtain ⟨rfl, rfl⟩ := ht.holds.inj j i q t y hy hc
        exact hyc ⟨rfl, by rw [childOffset_inj.mp he]⟩

/-- **`pReplace` takes the place of the chunk.** -/
lemma relink_spec (hv : View (OwnLarge F) m₀ h.mem v) (hF : Chunks F) (ht : Trees F v node)
    (hx : node i p = some x) (hr : F r = some n) (hlt : 264 < n) (hrx : r ≠ x)
    (hrn : ∀ j q, node j q ≠ some r) :
    ∃ v', View (OwnLarge F) m₀ (h.relink x r).mem v' ∧ Relinked v v' node i p x r ∧
      (h.relink x r).treeMap = h.treeMap ∧ (h.relink x r).sameMap = h.sameMap ∧
      (h.relink x r).lock = h.lock := by
  obtain ⟨k, hk, hklt⟩ := ht.large i p x hx
  have hap := hF.apart_large
  have hrnull : r ≠ null := hF.pos_of hr
  have hparent : h.parent x = v x 24 := hv.read x 24 (ownLarge_field hk hklt (by norm_num))
  obtain ⟨hv₁, hmap₁, hsame₁, hlock₁⟩ := relinkParent_spec (r := r) hv hF ht hx
  set h₁ := h.relinkParent x r
  have hv₂ := hv₁.write hap (ownLarge_field hr hlt (by norm_num) (o := 24)) (w := v x 24)
  set v₁ := setField v (edge node i p).1 (edge node i p).2 r with hv₁'
  set v₂ := setField v₁ r 24 (v x 24) with hv₂'
  -- the children of the chunk
  have hx₂ : ∀ d, v₂ x (childOffset d) = v x (childOffset d) := by
    intro d
    rw [hv₂', setField_of_ne hrx.symm, hv₁', ht.edge_child hx hx, if_neg]
    exact fun h' => by simpa using congrArg List.length h'.2
  have hchild : ∀ d, v x (childOffset d) ≠ null → node i (d :: p) = some (v x (childOffset d)) :=
    fun d hd => (ht.holds.child_eq_iff hx hd).mp rfl
  have hne : ∀ d, v x (childOffset d) ≠ null → v x (childOffset d) ≠ r := fun d hd he =>
    hrn i (d :: p) (he ▸ hchild d hd)
  have hown : ∀ d, v x (childOffset d) ≠ null → OwnLarge F (v x (childOffset d)) 24 := by
    intro d hd
    obtain ⟨m, hm, hmlt⟩ := ht.large i _ _ (hchild d hd)
    exact ownLarge_field hm hmlt (by norm_num)
  have hx₃ : ∀ d, movedChild v₂ x r false x (childOffset d) = v x (childOffset d) := fun d => by
    rw [movedChild_of_ne (childOffset_ne_parent d) (Or.inl hrx.symm), hx₂]
  obtain ⟨hv₃, hmap₃, hsame₃, hlock₃⟩ := relinkChild_spec (d := false)
    (h := h₁.setParent r (v x 24)) hv₂ hap (ownLarge_childOffset hk hklt)
    (ownLarge_childOffset hr hlt) (by rw [hx₂]; exact hown false)
  obtain ⟨hv₄, hmap₄, hsame₄, hlock₄⟩ := relinkChild_spec (d := true) (x := x) (r := r) hv₃ hap
    (ownLarge_childOffset hk hklt) (ownLarge_childOffset hr hlt) (by rw [hx₃]; exact hown true)
  have heq : h.relink x r = ((h₁.setParent r (v x 24)).relinkChild x r false.toNat).relinkChild x
      r true.toNat := by
    rw [relink, hparent]
    dsimp only
    rw [if_pos (ht.parent_ne_null hx), if_pos hrnull]
    rfl
  rw [heq]
  refine ⟨_, hv₄, ⟨fun j => ?_, fun y hy d => ?_, fun d => ?_, ?_, fun y hy hnull => ?_,
    fun y o ho => ?_⟩, ?_, ?_, ?_⟩
  · have h0 := fun d => (childOffset_ne_zero d).symm
    rw [movedChild_of_ne (by decide) (Or.inr (h0 true)),
      movedChild_of_ne (by decide) (Or.inr (h0 false)), hv₂', setField_of_offset_ne (by decide)]
  · have h24 := childOffset_ne_parent d
    rw [movedChild_of_ne h24 (Or.inl hy), movedChild_of_ne h24 (Or.inl hy), hv₂',
      setField_of_ne hy]
  · have hr₂ : v₂ r (childOffset d) = v r (childOffset d) := by
      rw [hv₂', setField_of_offset_ne (childOffset_ne_parent d), hv₁',
        ht.edge_other hx (childOffset_ne_zero d) (by simp [hrn])]
    cases d with
    | false =>
        rw [movedChild_of_ne (by decide) (Or.inr (by decide)), movedChild_self, hx₂, hr₂]
    | true =>
        rw [movedChild_self, hx₃, movedChild_of_ne (by decide) (Or.inr (by decide)), hr₂]
  · have hno : ∀ d, ¬ (r ≠ null ∧ v x (childOffset d) = r) := fun d h' =>
      hne d (h'.2 ▸ hrnull) h'.2
    rw [movedChild_parent, hx₃, if_neg (hno true), movedChild_parent, hx₂, if_neg (hno false),
      hv₂', setField_self]
  · rw [movedChild_parent, hx₃, movedChild_parent, hx₂, hv₂', setField_of_ne hy, hv₁',
      ht.edge_other hx (by decide) (by simp)]
    simp only [hnull, ne_eq, not_false_eq_true, true_and, Bool.exists_bool]
    by_cases h0 : v x (childOffset false) = y <;> by_cases h1 : v x (childOffset true) = y <;>
      simp [h0, h1]
  · have h24 : o ≠ 24 := by omega
    have hc : ∀ d, o ≠ childOffset d := fun d => by
      rcases childOffset_cases d with h | h <;> omega
    rw [movedChild_of_ne h24 (Or.inr (hc true)), movedChild_of_ne h24 (Or.inr (hc false)), hv₂',
      setField_of_offset_ne h24, hv₁', ht.edge_other hx (by omega) (by omega)]
  · rw [hmap₄, hmap₃]
    show h₁.treeMap = h.treeMap
    rw [hmap₁, if_neg fun h' => hrnull h'.2]
  · rw [hsame₄, hsame₃]
    exact hsame₁
  · rw [hlock₄, hlock₃]
    exact hlock₁

/-- A chunk that is no node keeps its place. -/
lemma Relinked.mate (hrl : Relinked v v' node i p x r) (ht : Trees F v node)
    (hx : node i p = some x) (hy : y ≠ r) (hnull : y ≠ null) (hyn : ∀ j q, node j q ≠ some y) :
    v' y 24 = v y 24 ∧ ∀ d, v' y (childOffset d) = v y (childOffset d) := by
  refine ⟨?_, fun d => ?_⟩
  · rw [hrl.parent y hy hnull, if_neg]
    rintro ⟨d, rfl⟩
    exact hyn i (d :: p) ((ht.holds.child_eq_iff hx hnull).mp rfl)
  · rw [hrl.child y hy d, ht.edge_other hx (childOffset_ne_zero d) (by simp [hyn])]

/-- **The trees with a new node at a path.** -/
theorem Trees.replace (ht : Trees F v node) (hrl : Relinked v v' node i p x r)
    (hx : node i p = some x) (hr : F r = some n) (hlt : 264 < n) (hnull : r ≠ null)
    (hrn : ∀ j q, node j q ≠ some r) (hidx : v r 28 = i)
    (hleaf : ∀ d, v r (childOffset d) = null) :
    Trees F v' (PathTree.put node i p (some r)) := by
  have hcases : ∀ {j q a}, PathTree.put node i p (some r) j q = some a →
      (j = i ∧ q = p ∧ a = r) ∨ node j q = some a := by
    intro j q a ha
    rw [PathTree.put] at ha
    split_ifs at ha with h
    · rw [Option.some.injEq] at ha
      exact Or.inl ⟨h.1, h.2, ha.symm⟩
    · exact Or.inr ha
  refine ⟨ht.holds.place (fun j q h => absurd h (hrn j q)) hnull (fun d q h => ?_) (fun j => ?_)
    (fun j q y hy hne d => ?_) (fun d => ?_) (fun j q y hy hne => ?_) ?_, fun j q a ha => ?_,
    fun j q a ha => ?_⟩
  · exact ht.holds.closed i d q (by rw [← h, hx]; rfl)
  · have hi := (ht.index i p x hx).1
    by_cases hj : j < 32
    · simp only [pointers, if_pos hj]
      rw [hrl.root j, edge_root]
    · have hne : ¬ (j = i ∧ p = []) := fun h' => hj (h'.1 ▸ hi)
      simp only [pointers, if_neg hj]
      rw [if_neg hne]
  · have hyr : y ≠ r := fun he => hrn j q (he ▸ hy)
    exact (hrl.child y hyr d).trans (ht.edge_child hx hy)
  · refine (hrl.self d).trans ?_
    rw [hleaf d, ← ht.holds.child i p x hx d]
    show _ = v x (childOffset d)
    split_ifs with h
    · exact h.symm
    · rfl
  · have hyr : y ≠ r := fun he => hrn j q (he ▸ hy)
    have hyn := ht.holds.ne_null j q y hy
    refine (hrl.parent y hyr hyn).trans ?_
    have hiff : (∃ d, v x (childOffset d) = y) ↔ j = i ∧ ∃ d, q = d :: p := by
      constructor
      · rintro ⟨d, hd⟩
        have hd' : node i (d :: p) = some y := (ht.holds.child_eq_iff hx hyn).mp hd
        obtain ⟨hj, hq⟩ := ht.holds.inj j i q _ y hy hd'
        exact ⟨hj, d, hq⟩
      · rintro ⟨hj, d, hq⟩
        refine ⟨d, (ht.holds.child_eq_iff hx hyn).mpr ?_⟩
        rw [← hj, ← hq, hy]
    simp only [hiff]
    rfl
  · exact hrl.up.trans (ht.holds.parent i p x hx)
  · rcases hcases ha with ⟨-, -, rfl⟩ | ha
    · exact ⟨n, hr, hlt⟩
    · exact ht.large j q a ha
  · rw [hrl.other a 28 (Or.inr (Or.inr rfl))]
    rcases hcases ha with ⟨rfl, -, rfl⟩ | ha
    · exact ⟨(ht.index j p x hx).1, hidx⟩
    · exact ht.index j q a ha

/-! ### The descent -/

/-- **The descent to a leaf** goes right where it can, and ends as no path is longer than the
bits of a size. -/
lemma rightmostLoop_spec (hv : View (OwnLarge F) m₀ h.mem v) (ht : Trees F v node)
    (hlen : ∀ q b, node i q = some b → q.length ≤ 32) : ∀ fuel e t c a, node i t = some c →
      node i (e :: t) = some a → 32 < fuel + (e :: t).length →
      ∃ e' t' c' r, t <:+ t' ∧ node i t' = some c' ∧ node i (e' :: t') = some r ∧
        (∀ d, node i (d :: e' :: t') = none) ∧
        rightmostLoop h fuel (childAddr c e.toNat) a = some (childAddr c' e'.toNat, r) := by
  intro fuel
  induction fuel with
  | zero =>
      intro e t c a _ ha hfuel
      have := hlen (e :: t) a ha
      omega
  | succ fuel ih =>
      intro e t c a hc ha hfuel
      obtain ⟨n, hn, hlt⟩ := ht.large i _ a ha
      have hread : ∀ d : Bool, h.child a d.toNat = (pointers v).child d a := fun d => by
        rw [Heap.child, childAddr_eq]
        exact hv.read a _ (ownLarge_childOffset hn hlt)
      have hnull : ∀ d : Bool, h.child a d.toNat = null ↔ node i (d :: e :: t) = none := fun d => by
        rw [hread, ht.holds.child_eq_null_iff ha]
      -- one step to the child `d`
      have hstep : ∀ d : Bool, h.child a d.toNat ≠ null → ∃ e' t' c' r, t <:+ t' ∧
          node i t' = some c' ∧ node i (e' :: t') = some r ∧
          (∀ d, node i (d :: e' :: t') = none) ∧
          rightmostLoop h fuel (childAddr a d.toNat) (h.child a d.toNat) =
            some (childAddr c' e'.toNat, r) := by
        intro d hd
        have hchild : node i (d :: e :: t) = some (h.child a d.toNat) :=
          (ht.holds.child_eq_iff ha hd).mp (hread d).symm
        obtain ⟨e', t', c', r, hs, hrest⟩ := ih d (e :: t) a (h.child a d.toNat) ha hchild
          (by rw [List.length_cons]; omega)
        exact ⟨e', t', c', r, (List.suffix_cons e t).trans hs, hrest⟩
      rw [rightmostLoop]
      by_cases h1 : h.child a true.toNat = null
      · by_cases h0 : h.child a false.toNat = null
        · refine ⟨e, t, c, a, List.suffix_rfl, hc, ha, fun d => ?_, ?_⟩
          · cases d with
            | false => exact (hnull false).mp h0
            | true => exact (hnull true).mp h1
          · exact (if_neg (not_not.mpr h1)).trans (if_neg (not_not.mpr h0))
        · obtain ⟨e', t', c', r, hs, hc', hr, hleaf, hloop⟩ := hstep false h0
          exact ⟨e', t', c', r, hs, hc', hr, hleaf,
            (if_neg (not_not.mpr h1)).trans ((if_pos h0).trans hloop)⟩
      · obtain ⟨e', t', c', r, hs, hc', hr, hleaf, hloop⟩ := hstep true h1
        exact ⟨e', t', c', r, hs, hc', hr, hleaf, (if_pos h1).trans hloop⟩

end Relink

section Unlink

variable {F : ℕ → Option ℕ} {v v' v₁ : ℕ → ℕ → ℕ} {map : Int32U}
  {node : ℕ → List Bool → Option ℕ} {ring : ℕ → List ℕ} {i n : ℕ} {p q : List Bool}
  {a b c r x y : ℕ} {l : List ℕ} {h h' : Heap}

/-- The links of the rings are no pointers of the trees. -/
lemma Trees.congr (ht : Trees F v node) (hv : ∀ y o, o ≠ 8 → o ≠ 12 → v' y o = v y o) :
    Trees F v' node := by
  refine ⟨ht.holds.congr (fun j => ?_) (fun j q y _ d => ?_) fun j q y _ => ?_, ht.large,
    fun j q y hy => ?_⟩
  · simp only [pointers]
    rw [hv _ 0 (by decide) (by decide)]
  · rcases childOffset_cases d with h | h <;>
      exact hv y _ (by rw [h]; decide) (by rw [h]; decide)
  · exact hv y 24 (by decide) (by decide)
  · rw [hv y 28 (by decide) (by decide)]
    exact ht.index j q y hy

/-- **A leaf is cut off** the trees. -/
theorem Trees.cut (ht : Trees F v node) (hr : node i p = some r)
    (hleaf : ∀ d, node i (d :: p) = none) :
    Trees F (setField v (edge node i p).1 (edge node i p).2 null) (PathTree.put node i p none) := by
  have hi := (ht.index i p r hr).1
  have hsome : ∀ {j q a}, PathTree.put node i p none j q = some a → node j q = some a := by
    intro j q a ha
    rw [PathTree.put] at ha
    split_ifs at ha
    exact ha
  refine ⟨ht.holds.cut hleaf (fun j => ?_) (fun j q y hy _ d => ht.edge_child hr hy)
    (fun j q y _ _ => ht.edge_other hr (by decide) (by simp)), fun j q a ha => ht.large j q a
    (hsome ha), fun j q a ha => ?_⟩
  · by_cases hj : j < 32
    · simp only [pointers, if_pos hj]
      rw [edge_root]
    · have hne : ¬ (j = i ∧ p = []) := fun h' => hj (h'.1 ▸ hi)
      simp only [pointers, if_neg hj]
      rw [if_neg hne]
  · rw [ht.edge_other hr (by decide) (by simp)]
    exact ht.index j q a (hsome ha)

/-- The index of a chunk that stays. -/
lemma index_of_erase (hindex : ∀ a n, F a = some n → 264 < n → v a 28 = treeSizeToIndex (n - 8))
    (hv : ∀ y, v' y 28 = v y 28) : ∀ a k, Function.update F x none a = some k → 264 < k →
      v' a 28 = treeSizeToIndex (k - 8) := by
  intro a k ha hlt
  rw [hv]
  exact hindex a k (eq_some_of_erase ha).2 hlt

/-- A chunk of a ring is no node. -/
lemma Forest.ring_ne_node (hf : Forest v map F node ring) (ha : a ∈ nodes node) (hb : b ∈ ring a) :
    ∀ j q, node j q ≠ some b := by
  intro j q hq
  exact hf.rings.head_notMem ha (mem_nodes hq) hb

lemma Forest.ring_ne_null (hf : Forest v map F node ring) (hF : Chunks F) (ha : a ∈ nodes node)
    (hb : b ∈ ring a) : b ≠ null := by
  obtain ⟨j, q, hq⟩ := ha
  obtain ⟨k, hk, -⟩ := hf.shape.size_of_mem hq (List.mem_cons_of_mem a hb)
  exact hF.pos_of hk

/-- **A chunk leaves a ring.** -/
theorem Forest.leaveRing (hf : Forest v map F node ring) (hb : node i p = some b)
    (hx : x ∈ ring b) :
    Forest (setField (setField v (v x 8) 12 (v x 12)) (v x 12) 8 (v x 8)) map
      (Function.update F x none) node (Function.update ring b ((ring b).erase x)) := by
  have hv : ∀ y o, o ≠ 8 → o ≠ 12 → setField (setField v (v x 8) 12 (v x 12)) (v x 12) 8 (v x 8)
      y o = v y o := fun y o h8 h12 => by
    rw [setField_of_offset_ne h8, setField_of_offset_ne h12]
  refine ⟨hf.shape.leave hf.rings hb hx, (hf.trees.congr hv).holds,
    hf.rings.remove (mem_nodes hb) hx (fun y => ?_) (fun y => ?_), fun a ha c hc => ?_,
    index_of_erase hf.index fun y => hv y 28 (by decide) (by decide), hf.map⟩
  · show setField _ _ 8 _ y 8 = _
    rw [setField_same, setField_of_offset_ne (by decide)]
    rfl
  · show setField _ _ 8 _ y 12 = _
    rw [setField_of_offset_ne (by decide), setField_same]
    rfl
  · have hca : c ∈ ring a := by
      rw [Function.update_apply] at hc
      split_ifs at hc with hab
      · exact hab ▸ List.mem_of_mem_erase hc
      · exact hc
    obtain ⟨h24, hchild⟩ := hf.mate_null a ha c hca
    rw [hv c 24 (by decide) (by decide)]
    refine ⟨h24, fun d => ?_⟩
    rw [← hchild d]
    rcases childOffset_cases d with h | h <;>
      exact hv c _ (by rw [h]; decide) (by rw [h]; decide)

/-- **A node leaves, and the last of its ring takes its place.** -/
theorem Forest.leaveHead (hf : Forest v map F node ring) (hF : Chunks F) (hx : node i p = some x)
    (hl : ring x = l ++ [r]) (hv : v₁ = setField (setField v (v x 8) 12 r) r 8 (v x 8))
    (hrl : Relinked v₁ v' node i p x r) :
    Forest v' map (Function.update F x none) (PathTree.put node i p (some r))
      (Function.update ring r l) := by
  have hrx : r ∈ ring x := by rw [hl]; simp
  have hxn := mem_nodes hx
  have hrn := hf.ring_ne_node hxn hrx
  obtain ⟨n, hr, -, hlt, hi⟩ := hf.shape.size_of_mem hx (List.mem_cons_of_mem x hrx)
  have hv₁ : ∀ y o, o ≠ 8 → o ≠ 12 → v₁ y o = v y o := fun y o h8 h12 => by
    rw [hv, setField_of_offset_ne h8, setField_of_offset_ne h12]
  have hv₁c : ∀ y d, v₁ y (childOffset d) = v y (childOffset d) := fun y d => by
    rcases childOffset_cases d with h | h <;>
      exact hv₁ y _ (by rw [h]; decide) (by rw [h]; decide)
  have hv₁28 : ∀ y, v₁ y 28 = v y 28 := fun y => hv₁ y 28 (by decide) (by decide)
  have ht₁ := hf.trees.congr hv₁
  have ht' : Trees F v' (PathTree.put node i p (some r)) := by
    refine ht₁.replace hrl hx hr hlt (hF.pos_of hr) hrn ?_ fun d => ?_
    · rw [hv₁28, hf.index r n hr hlt, hi]
    · rw [hv₁c]
      exact (hf.mate_null x hxn r hrx).2 d
  have hprev : v x 12 = r := by
    have h1 : v x 12 = _ := (hf.rings.circle x hxn).prev_head
    rw [h1, List.getLast_cons (by simp [hl])]
    simp [hl]
  have hnodes : nodes (PathTree.put node i p (some r)) ⊆ Insert.insert r (nodes node \ {x}) := by
    rintro a ⟨j, q, ha⟩
    rw [PathTree.put] at ha
    split_ifs at ha with h
    · rw [Option.some.injEq] at ha
      exact Or.inl ha.symm
    · refine Or.inr ⟨mem_nodes ha, ?_⟩
      rintro rfl
      exact h (hf.shape.inj ha hx)
  refine ⟨hf.shape.promote hf.rings hx hl, ht'.holds,
    (hf.rings.behead hxn hl (fun y => ?_) fun y => ?_).mono hnodes, fun a ha b hb => ?_,
    index_of_erase hf.index fun y => ?_, fun j hj => ?_⟩
  · show v' y 8 = _
    rw [hrl.other y 8 (Or.inl rfl), hv, setField_same, setField_of_offset_ne (by decide)]
    show _ = if y = v x 12 then v x 8 else v y 8
    rw [hprev]
  · show v' y 12 = _
    rw [hrl.other y 12 (Or.inr (Or.inl rfl)), hv, setField_of_offset_ne (by decide), setField_same]
    show _ = if y = v x 8 then v x 12 else v y 12
    rw [hprev]
  · -- `b` was in the ring of an old node, and it is not `r`
    have hold : ∃ c ∈ nodes node, b ∈ ring c ∧ b ≠ r := by
      rcases hnodes ha with rfl | ⟨han, hax⟩
      · rw [Function.update_self] at hb
        have hnd := hf.rings.nodup hxn
        rw [hl, List.nodup_append] at hnd
        exact ⟨x, hxn, by rw [hl]; exact List.mem_append_left _ hb,
          fun h => hnd.2.2 b hb a List.mem_cons_self h⟩
      · have har : a ≠ r := by
          rintro rfl
          obtain ⟨j, q, hq⟩ := han
          exact hrn j q hq
        rw [Function.update_of_ne har] at hb
        refine ⟨a, han, hb, ?_⟩
        rintro rfl
        exact hax (hf.rings.eq_of_mem han hxn (List.mem_cons_of_mem _ hb)
          (List.mem_cons_of_mem _ hrx))
    obtain ⟨c, hc, hbc, hbr⟩ := hold
    obtain ⟨h24, hchild⟩ := hf.mate_null c hc b hbc
    obtain ⟨h24', hchild'⟩ := hrl.mate ht₁ hx hbr (hf.ring_ne_null hF hc hbc)
      (hf.ring_ne_node hc hbc)
    refine ⟨?_, fun d => ?_⟩
    · rw [h24', hv₁ b 24 (by decide) (by decide), h24]
    · rw [hchild', hv₁c, hchild]
  · rw [hrl.other y 28 (Or.inr (Or.inr rfl)), hv₁28]
  · rw [hf.map j hj, PathTree.put]
    split_ifs with h
    · rw [h.1, h.2, hx]
      exact iff_of_true rfl rfl
    · rfl

/-- The trees with one path cut off hold the other nodes. -/
lemma nodes_cut (hs : Shape F node ring) (hr : node i q = some r)
    (ha : PathTree.put node i q none c p = some a) : a ≠ r ∧ node c p = some a := by
  rw [PathTree.put] at ha
  split_ifs at ha with h
  refine ⟨?_, ha⟩
  rintro rfl
  exact h (hs.inj ha hr)

/-- **An inner node leaves, and a leaf from below takes its place.** -/
theorem Forest.leaveInner (hf : Forest v map F node ring) (hF : Chunks F) (hx : node i p = some x)
    (hring : ring x = []) (hr : node i q = some r) (hpq : p <:+ q) (hne : p ≠ q)
    (hleaf : ∀ d, node i (d :: q) = none)
    (hv : v₁ = setField v (edge node i q).1 (edge node i q).2 null)
    (hrl : Relinked v₁ v' (PathTree.put node i q none) i p x r) :
    Forest v' map (Function.update F x none)
      (PathTree.put (PathTree.put node i q none) i p (some r)) ring := by
  have ht := hf.trees
  obtain ⟨n, hn, hlt⟩ := ht.large i q r hr
  have ht₁ : Trees F v₁ (PathTree.put node i q none) := hv ▸ ht.cut hr hleaf
  have hx₁ : PathTree.put node i q none i p = some x := by
    rw [PathTree.Holds.put_of_ne fun h => hne h.2, hx]
  have hrn : ∀ j q', PathTree.put node i q none j q' ≠ some r := fun j q' h =>
    (nodes_cut hf.shape hr h).1 rfl
  have hv₁ : ∀ y o, o = 8 ∨ o = 12 ∨ o = 24 ∨ o = 28 → v₁ y o = v y o := fun y o ho => by
    rw [hv, ht.edge_other hr (by omega) (by tauto)]
  have ht' : Trees F v' (PathTree.put (PathTree.put node i q none) i p (some r)) := by
    refine ht₁.replace hrl hx₁ hn hlt (hF.pos_of hn) hrn ?_ fun d => ?_
    · rw [hv₁ r 28 (by simp), (ht.index i q r hr).2]
    · rw [hv, ht.edge_child hr hr, if_neg fun h => by simpa using congrArg List.length h.2,
        hf.child_eq hr, hleaf]
      rfl
  have hput : PathTree.put (PathTree.put node i q none) i p (some r) =
      PathTree.put (PathTree.put (PathTree.put node i p none) i q none) i p (some r) := by
    funext j q'
    by_cases h : j = i ∧ q' = p
    · simp only [PathTree.put, if_pos h]
    · simp only [PathTree.put, if_neg h]
  have hshape : Shape (Function.update F x none)
      (PathTree.put (PathTree.put node i q none) i p (some r)) ring := by
    rw [hput]
    refine (hf.shape.cutLeaf hf.rings hx hring).moveUp PathTree.Holds.put_self ?_ hpq
    rw [PathTree.Holds.put_of_ne fun h => hne h.2.symm, hr]
  have hnodes : nodes (PathTree.put (PathTree.put node i q none) i p (some r)) ⊆ nodes node := by
    rintro a ⟨j, q', ha⟩
    rw [PathTree.put] at ha
    split_ifs at ha with h
    · rw [Option.some.injEq] at ha
      exact ha ▸ mem_nodes hr
    · exact mem_nodes (nodes_cut hf.shape hr ha).2
  refine ⟨hshape, ht'.holds, (hf.rings.congr (fun a ha b hb => ?_) fun a ha b hb => ?_).mono hnodes,
    fun a ha b hb => ?_, index_of_erase hf.index fun y => ?_, fun j hj => ?_⟩
  · show v' b 8 = v b 8
    rw [hrl.other b 8 (by simp), hv₁ b 8 (by simp)]
  · show v' b 12 = v b 12
    rw [hrl.other b 12 (by simp), hv₁ b 12 (by simp)]
  · have han := hnodes ha
    have hbn := hf.ring_ne_node han hb
    have hbr : b ≠ r := fun h => hbn i q (h ▸ hr)
    obtain ⟨h24, hchild⟩ := hf.mate_null a han b hb
    obtain ⟨h24', hchild'⟩ := hrl.mate ht₁ hx₁ hbr (hf.ring_ne_null hF han hb)
      fun j q' h => hbn j q' (nodes_cut hf.shape hr h).2
    refine ⟨?_, fun d => ?_⟩
    · rw [h24', hv₁ b 24 (by simp), h24]
    · rw [hchild', hv, ht.edge_other hr (childOffset_ne_zero d) (by simp [hbn]), hchild]
  · rw [hrl.other y 28 (by simp), hv₁ y 28 (by simp)]
  · have hq : q ≠ [] := by
      rintro rfl
      exact hne (List.suffix_nil.mp hpq)
    rw [hf.map j hj, PathTree.put]
    split_ifs with h
    · rw [h.1, h.2, hx]
      exact iff_of_true rfl rfl
    · rw [PathTree.Holds.put_of_ne fun h' => hq h'.2.symm]

/-- **A leaf leaves.** -/
theorem Forest.leaveLeaf (hf : Forest v map F node ring) (hx : node i p = some x)
    (hring : ring x = []) (hleaf : ∀ d, node i (d :: p) = none) :
    Forest (setField v (edge node i p).1 (edge node i p).2 null)
      (if p = [] then clearBit map i else map) (Function.update F x none)
      (PathTree.put node i p none) ring := by
  have ht := hf.trees
  have hnodes : nodes (PathTree.put node i p none) ⊆ nodes node := by
    rintro a ⟨j, q, ha⟩
    exact mem_nodes (nodes_cut hf.shape hx ha).2
  refine ⟨hf.shape.cutLeaf hf.rings hx hring, (ht.cut hx hleaf).holds,
    (hf.rings.congr (fun a _ b _ => ?_) fun a _ b _ => ?_).mono hnodes, fun a ha b hb => ?_,
    index_of_erase hf.index fun y => ht.edge_other hx (by decide) (by simp), fun j hj => ?_⟩
  · exact ht.edge_other hx (by decide) (by simp)
  · exact ht.edge_other hx (by decide) (by simp)
  · have hbn := hf.ring_ne_node (hnodes ha) hb
    rw [ht.edge_other hx (by decide) (by simp)]
    refine ⟨(hf.mate_null a (hnodes ha) b hb).1, fun d => ?_⟩
    rw [ht.edge_other hx (childOffset_ne_zero d) (by simp [hbn])]
    exact (hf.mate_null a (hnodes ha) b hb).2 d
  · rw [PathTree.put]
    by_cases hp : p = []
    · subst hp
      rw [if_pos rfl, getLsbD_clearBit]
      by_cases hji : j = i
      · simp [hji]
      · simp [hji, hf.map j hj]
    · rw [if_neg hp, if_neg fun h => hp h.2.symm, hf.map j hj]

/-! ### The function -/

/-- The chunk is in a ring. -/
lemma unlink_mate (hf : Forest (fields h) h.treeMap F node ring) (hF : Chunks F)
    (hb : node i p = some b) (hx : x ∈ ring b) :
    ∃ h', h.unlinkLargeChunk x = some h' ∧ LargeEdit F h h' ∧
      ∃ node' ring', Forest (fields h') h'.treeMap (Function.update F x none) node' ring' := by
  have hxm : x ∈ b :: ring b := List.mem_cons_of_mem b hx
  have hbn := mem_nodes hb
  have hcirc := hf.rings.circle b hbn
  have hown : ∀ y ∈ b :: ring b, ∀ o, 8 ≤ o ∧ o % 4 = 0 ∧ o ≤ 28 → OwnLarge F y o := by
    intro y hy o ho
    obtain ⟨k, hk, -, hlt, -⟩ := hf.shape.size_of_mem hb hy
    exact ownLarge_field hk hlt ho
  have hv := ((View.refl (m := h.mem)).write hF.apart_large
    (hown _ (hcirc.next_mem hxm) 12 (by norm_num)) (w := h.freePrev x)).write hF.apart_large
      (hown _ (hcirc.prev_mem hxm) 8 (by norm_num)) (w := h.freeNext x)
  have hprev : h.freePrev x ≠ x := hcirc.prev_ne hx
  have hparent : ((h.setFreePrev (h.freeNext x) (h.freePrev x)).setFreeNext (h.freePrev x)
      (h.freeNext x)).parent x = null := by
    refine (hv.read x 24 (hown x hxm 24 (by norm_num))).trans ?_
    rw [setField_of_offset_ne (by decide), setField_of_offset_ne (by decide)]
    exact (hf.mate_null b hbn x hx).1
  have heq : h.unlinkLargeChunk x = some ((h.setFreePrev (h.freeNext x)
      (h.freePrev x)).setFreeNext (h.freePrev x) (h.freeNext x)) := by
    rw [unlinkLargeChunk, if_neg (hf.ring_ne_null hF hbn hx), chooseReplace, if_pos hprev]
    dsimp only [Option.map_some]
    rw [relink, hparent]
    exact congrArg some (if_neg (not_not.mpr rfl))
  exact ⟨_, heq, ⟨hv.frame, rfl, rfl⟩, _, _, (hf.leaveRing hb hx).congr fun y o hy =>
    hv.read y o (ownLarge_of_update hy)⟩

/-- The chunk is a node with a ring. -/
lemma unlink_head (hf : Forest (fields h) h.treeMap F node ring) (hF : Chunks F)
    (hx : node i p = some x) (hring : ring x ≠ []) :
    ∃ h', h.unlinkLargeChunk x = some h' ∧ LargeEdit F h h' ∧
      ∃ node' ring', Forest (fields h') h'.treeMap (Function.update F x none) node' ring' := by
  obtain ⟨l, r, hl⟩ : ∃ l r, ring x = l ++ [r] :=
    ⟨_, _, (List.dropLast_append_getLast hring).symm⟩
  have hxn := mem_nodes hx
  have hrx : r ∈ ring x := by rw [hl]; simp
  have hcirc := hf.rings.circle x hxn
  have hown : ∀ y ∈ x :: ring x, ∀ o, 8 ≤ o ∧ o % 4 = 0 ∧ o ≤ 28 → OwnLarge F y o := by
    intro y hy o ho
    obtain ⟨k, hk, -, hlt, -⟩ := hf.shape.size_of_mem hx hy
    exact ownLarge_field hk hlt ho
  have hprev : h.freePrev x = r := by
    have h1 : h.freePrev x = _ := hcirc.prev_head
    rw [h1, List.getLast_cons hring]
    simp [hl]
  have hrx' : r ≠ x := by
    rintro rfl
    exact hf.rings.head_notMem hxn hxn hrx
  have hv := ((View.refl (m := h.mem)).write hF.apart_large
    (hown _ (hcirc.next_mem List.mem_cons_self) 12 (by norm_num)) (w := r)).write hF.apart_large
      (hown r (List.mem_cons_of_mem x hrx) 8 (by norm_num)) (w := h.freeNext x)
  obtain ⟨n, hr, -, hlt, -⟩ := hf.shape.size_of_mem hx (List.mem_cons_of_mem x hrx)
  have ht₁ : Trees F (setField (setField (fields h) (fields h x 8) 12 r) r 8 (fields h x 8)) node :=
    hf.trees.congr fun y o h8 h12 => by
      rw [setField_of_offset_ne h8, setField_of_offset_ne h12]
  obtain ⟨v', hv', hrl, hmap, hsame, hlock⟩ := relink_spec
    (h := (h.setFreePrev (h.freeNext x) r).setFreeNext r (h.freeNext x)) hv hF ht₁ hx hr hlt hrx'
      (hf.ring_ne_node hxn hrx)
  have heq : h.unlinkLargeChunk x = some (((h.setFreePrev (h.freeNext x) r).setFreeNext r
      (h.freeNext x)).relink x r) := by
    rw [unlinkLargeChunk, if_neg (hf.tree.ne_null i p x hx), chooseReplace, hprev, if_pos hrx']
    rfl
  refine ⟨_, heq, ⟨hv'.frame, hsame, hlock⟩, PathTree.put node i p (some r),
    Function.update ring r l, ?_⟩
  rw [hmap]
  exact (hf.leaveHead hF hx hl rfl hrl).congr fun y o hy => hv'.read y o (ownLarge_of_update hy)

/-- The chunk is a node without a ring. -/
lemma unlink_single (hf : Forest (fields h) h.treeMap F node ring) (hF : Chunks F)
    (hx : node i p = some x) (hring : ring x = []) :
    ∃ h', h.unlinkLargeChunk x = some h' ∧ LargeEdit F h h' ∧
      ∃ node' ring', Forest (fields h') h'.treeMap (Function.update F x none) node' ring' := by
  have ht := hf.trees
  have hxn := mem_nodes hx
  obtain ⟨n, hn, hlt⟩ := ht.large i p x hx
  have hv₀ : View (OwnLarge F) h.mem h.mem (fields h) := View.refl
  have hprev : h.freePrev x = x := by
    have h1 : h.freePrev x = _ := (hf.rings.circle x hxn).prev_head
    rw [h1]
    simp [hring]
  have hread : ∀ d : Bool, h.child x d.toNat = (pointers (fields h)).child d x := fun d => by
    rw [Heap.child, childAddr_eq]
    rfl
  have hnull : ∀ d : Bool, h.child x d.toNat = null ↔ node i (d :: p) = none := fun d => by
    rw [hread, ht.holds.child_eq_null_iff hx]
  have hlen : ∀ q b, node i q = some b → q.length ≤ 32 := fun q b hb =>
    (hf.shape.length_le hb).trans (by unfold treeBits; omega)
  -- the chunk has a child, from which the descent starts
  have hinner : ∀ d : Bool, h.child x d.toNat ≠ null → h.chooseReplace x =
      (rightmostLoop h loopFuel (childAddr x d.toNat) (h.child x d.toNat)).map
        (fun r => (h.write r.1 null, r.2)) →
      ∃ h', h.unlinkLargeChunk x = some h' ∧ LargeEdit F h h' ∧
        ∃ node' ring', Forest (fields h') h'.treeMap (Function.update F x none) node' ring' := by
    intro d hd hchoose
    have hchild : node i (d :: p) = some (h.child x d.toNat) :=
      (ht.holds.child_eq_iff hx hd).mp (hread d).symm
    obtain ⟨e, t, c, r, hpt, hc, hr, hleaf, hloop⟩ := rightmostLoop_spec hv₀ ht hlen loopFuel d p x
      _ hx hchild (by rw [loopFuel]; omega)
    obtain ⟨k, hk, hklt⟩ := ht.large i _ r hr
    obtain ⟨m, hm, hmlt⟩ := ht.large i t c hc
    have hpq : p <:+ e :: t := hpt.trans (List.suffix_cons e t)
    have hne : p ≠ e :: t := by
      rintro rfl
      have := hpt.length_le
      rw [List.length_cons] at this
      omega
    have hrx : r ≠ x := by
      rintro rfl
      exact hne (hf.shape.inj hx hr).2
    have hx₁ : PathTree.put node i (e :: t) none i p = some x := by
      rw [PathTree.Holds.put_of_ne fun h => hne h.2, hx]
    have hv₁ := hv₀.write hF.apart_large (ht.own_edge hr) (w := null)
    have haddr : (edge node i (e :: t)).1 + (edge node i (e :: t)).2 = childAddr c e.toNat := by
      rw [edge, hc, Option.getD_some, childAddr_eq]
    rw [haddr] at hv₁
    obtain ⟨v', hv', hrl, hmap, hsame, hlock⟩ := relink_spec
      (h := h.write (childAddr c e.toNat) null) hv₁ hF (ht.cut hr hleaf) hx₁ hk hklt hrx
        fun j q' h' => (nodes_cut hf.shape hr h').1 rfl
    have heq : h.unlinkLargeChunk x =
        some ((h.write (childAddr c e.toNat) null).relink x r) := by
      rw [unlinkLargeChunk, if_neg (hf.tree.ne_null i p x hx), hchoose, hloop]
      rfl
    refine ⟨_, heq, ⟨hv'.frame, hsame, hlock⟩,
      PathTree.put (PathTree.put node i (e :: t) none) i p (some r), ring, ?_⟩
    rw [hmap]
    exact (hf.leaveInner hF hx hring hr hpq hne hleaf rfl hrl).congr fun y o hy =>
      hv'.read y o (ownLarge_of_update hy)
  by_cases h1 : h.child x true.toNat = null
  · by_cases h0 : h.child x false.toNat = null
    · have hleaf : ∀ d, node i (d :: p) = none := fun d => by
        cases d with
        | false => exact (hnull false).mp h0
        | true => exact (hnull true).mp h1
      obtain ⟨hv, hmap, hsame, hlock⟩ := relinkParent_spec (r := null) hv₀ hF ht hx
      have heq : h.unlinkLargeChunk x = some (h.relinkParent x null) := by
        rw [unlinkLargeChunk, if_neg (hf.tree.ne_null i p x hx), chooseReplace,
          if_neg (not_not.mpr hprev)]
        have hc : (if h.child x 1 ≠ null then (rightmostLoop h loopFuel (childAddr x 1)
            (h.child x 1)).map (fun r => (h.write r.1 null, r.2))
            else if h.child x 0 ≠ null then (rightmostLoop h loopFuel (childAddr x 0)
              (h.child x 0)).map (fun r => (h.write r.1 null, r.2)) else some (h, null)) =
            some (h, null) := (if_neg (not_not.mpr h1)).trans (if_neg (not_not.mpr h0))
        rw [hc]
        have hp : h.parent x ≠ null := ht.parent_ne_null hx
        exact congrArg some ((if_pos hp).trans (if_neg (not_not.mpr rfl)))
      refine ⟨_, heq, ⟨hv.frame, hsame, hlock⟩, PathTree.put node i p none, ring, ?_⟩
      rw [hmap]
      simp only [and_true]
      exact (hf.leaveLeaf hx hring hleaf).congr fun y o hy => hv.read y o (ownLarge_of_update hy)
    · refine hinner false h0 ?_
      rw [chooseReplace, if_neg (not_not.mpr hprev)]
      exact (if_neg (not_not.mpr h1)).trans (if_pos h0)
  · refine hinner true h1 ?_
    rw [chooseReplace, if_neg (not_not.mpr hprev)]
    exact if_pos h1

/-- **`unlink_large_chunk`** takes a chunk out of the trees. -/
theorem Forest.unlink (hf : Forest (fields h) h.treeMap F node ring) (hF : Chunks F)
    (hx : F x = some n) (hn : 264 < n) :
    ∃ h', h.unlinkLargeChunk x = some h' ∧ LargeEdit F h h' ∧
      ∃ node' ring', Forest (fields h') h'.treeMap (Function.update F x none) node' ring' := by
  obtain ⟨i, p, b, hb, rfl | hxb⟩ := hf.shape.complete x n hx hn
  · by_cases hring : ring x = []
    · exact unlink_single hf hF hb hring
    · exact unlink_head hf hF hb hring
  · exact unlink_mate hf hF hb hxb

end Unlink

end Heap

end ChinaOS
