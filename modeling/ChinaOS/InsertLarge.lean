import ChinaOS.Forest

/-!
`insert_large_chunk`.

* `Forest.attach`, `Forest.join`: the fields behind an insertion as a leaf, or into a ring.
* `insertLargeLoop_spec`: the descent ends at the place for the new chunk, and it ends before its
  path is longer than the bits of a size.
* `Forest.insert`: the function adds the chunk to the trees, and changes nothing but their
  records.
-/

namespace ChinaOS

namespace Heap

open Records

section Insert

variable {F : ℕ → Option ℕ} {v v' : ℕ → ℕ → ℕ} {map map' : Int32U}
  {node : ℕ → List Bool → Option ℕ} {ring : ℕ → List ℕ} {i n : ℕ} {p : List Bool}
  {a x : ℕ} {h : Heap}

/-- A chunk that is not in the trees yet. -/
lemma Forest.ne_new (hf : Forest v map F node ring) (hx : F x = none) {a : ℕ}
    (ha : a ∈ nodes node) {b : ℕ} (hb : b ∈ a :: ring a) : b ≠ x := by
  obtain ⟨i, p, hp⟩ := ha
  obtain ⟨k, hk, -⟩ := hf.shape.size_of_mem hp hb
  rintro rfl
  rw [hx] at hk
  simp at hk

/-- The index of a tree and the large chunks, with one more. -/
lemma index_of_update (hindex : ∀ a n, F a = some n → 264 < n → v a 28 = treeSizeToIndex (n - 8))
    (hi : treeSizeToIndex (n - 8) = i) (hv : ∀ y, v' y 28 = if y = x then i else v y 28) :
    ∀ a k, Function.update F x (some n) a = some k → 264 < k →
      v' a 28 = treeSizeToIndex (k - 8) := by
  intro a k ha hlt
  rw [hv]
  by_cases hax : a = x
  · rw [hax, Function.update_self, Option.some.injEq] at ha
    rw [if_pos hax, ← ha, hi]
  · rw [Function.update_of_ne hax] at ha
    rw [if_neg hax]
    exact hindex a k ha hlt

/-- **A new leaf** at the path `p`: the word that leads there, and the fields of the chunk. -/
theorem Forest.attach (hf : Forest v map F node ring)
    (hF : Chunks (Function.update F x (some n))) (hx : F x = none) (hn : 264 < n)
    (hi : treeSizeToIndex (n - 8) = i) (hp : node i p = none)
    (habove : ∀ b q, p = b :: q → (node i q).isSome)
    (hagrees : Trie.Agrees (treeBits i) (n - 8) p) (hnew : ∀ q a, node i q = some a → F a ≠ some n)
    (hroot : ∀ j < 32, v' (treeSlot j) 0 = if j = i ∧ p = [] then x else v (treeSlot j) 0)
    (hedge : ∀ d q y, p = d :: q → node i q = some y → v' y (childOffset d) = x)
    (hchild : ∀ y ≠ x, ∀ d, (∀ q, p = d :: q → node i q ≠ some y) →
      v' y (childOffset d) = v y (childOffset d))
    (hself : ∀ d, v' x (childOffset d) = null) (hparent : ∀ y ≠ x, v' y 24 = v y 24)
    (hup : v' x 24 = PathTree.up null treeSlot node i p)
    (hnext : ∀ y, v' y 8 = if y = x then x else v y 8)
    (hprev : ∀ y, v' y 12 = if y = x then x else v y 12)
    (hindex : ∀ y, v' y 28 = if y = x then i else v y 28)
    (hmap : ∀ j < 32, map'.getLsbD j = (map.getLsbD j || decide (j = i ∧ p = []))) :
    Forest v' map' (Function.update F x (some n)) (PathTree.put node i p (some x))
      (Function.update ring x []) := by
  have hnull : x ≠ null := hF.pos_of (Function.update_self ..)
  have hi32 : i < 32 := hi ▸ treeSizeToIndex_lt (by omega)
  have hxn : ∀ a ∈ nodes node, x ∉ a :: ring a := fun a ha hmem => hf.ne_new hx ha hmem rfl
  have hbelow : ∀ d, node i (d :: p) = none := fun d => hf.tree.none_below hp
  refine ⟨hf.shape.attach hx hn hi hp hagrees hnew, ?_, ?_, fun a ha b hb => ?_,
    index_of_update hf.index hi hindex, fun j hj => ?_⟩
  · refine hf.tree.place (fun j q hjq => ?_) hnull habove (fun j => ?_) (fun j q y hy hne d => ?_)
      (fun d => ?_) (fun j q y hy hne => ?_) hup
    · exact absurd List.mem_cons_self (hxn x (mem_nodes hjq))
    · by_cases hj : j < 32
      · simp only [pointers, if_pos hj]
        exact hroot j hj
      · simp only [pointers, if_neg hj]
        have hne : ¬ (j = i ∧ p = []) := fun h' => hj (h'.1 ▸ hi32)
        rw [if_neg hne]
    · have hyx : y ≠ x := hf.ne_new hx (mem_nodes hy) List.mem_cons_self
      show v' y (childOffset d) = if j = i ∧ p = d :: q then x else v y (childOffset d)
      split_ifs with hd
      · exact hedge d q y hd.2 (hd.1 ▸ hy)
      · refine hchild y hyx d fun q' hq' hy' => hd ?_
        obtain ⟨rfl, rfl⟩ := hf.tree.inj j i q q' y hy hy'
        exact ⟨rfl, hq'⟩
    · rw [hbelow]
      exact hself d
    · have hyx : y ≠ x := hf.ne_new hx (mem_nodes hy) List.mem_cons_self
      rw [if_neg]
      · exact hparent y hyx
      · rintro ⟨rfl, d, rfl⟩
        rw [hbelow] at hy
        simp at hy
  · have hown : ∀ (w : ℕ → ℕ) y, (if y = x then x else w y) = if y = id x then y else w y := by
      intro w y
      show _ = if y = x then y else w y
      split_ifs with hy
      · exact hy.symm
      · rfl
    refine (hf.rings.init (i := x) hxn (fun y => (hnext y).trans (hown (links v).next y))
      fun y => (hprev y).trans (hown (links v).prev y)).mono ?_
    rintro a ⟨j, q, ha⟩
    rw [PathTree.put] at ha
    split_ifs at ha with hjq
    · rw [Option.some.injEq] at ha
      exact Or.inl ha.symm
    · exact Or.inr (mem_nodes ha)
  · have hax : a = x ∨ (a ≠ x ∧ a ∈ nodes node) := by
      obtain ⟨j, q, ha⟩ := ha
      rw [PathTree.put] at ha
      split_ifs at ha with hjq
      · rw [Option.some.injEq] at ha
        exact Or.inl ha.symm
      · exact Or.inr ⟨hf.ne_new hx (mem_nodes ha) List.mem_cons_self, mem_nodes ha⟩
    rcases hax with rfl | ⟨hax, ha⟩
    · simp at hb
    · rw [Function.update_of_ne hax] at hb
      have hbx : b ≠ x := hf.ne_new hx ha (List.mem_cons_of_mem a hb)
      obtain ⟨hb24, hbchild⟩ := hf.mate_null a ha b hb
      rw [hparent b hbx]
      refine ⟨hb24, fun d => ?_⟩
      rw [hchild b hbx d, hbchild d]
      -- the new leaf hangs at a node, and `b` is none
      rintro q - hq
      exact hf.rings.head_notMem ha (mem_nodes hq) hb
  · rw [hmap j hj, Bool.or_eq_true, hf.map j hj, decide_eq_true_iff, PathTree.put]
    by_cases hji : j = i ∧ [] = p
    · rw [if_pos hji]
      exact iff_of_true (Or.inr ⟨hji.1, hji.2.symm⟩) rfl
    · rw [if_neg hji]
      refine or_iff_left fun h' => hji ⟨h'.1, h'.2.symm⟩

/-- **A new chunk in the ring** of the node `a`: it goes behind the node. -/
theorem Forest.join (hf : Forest v map F node ring) (hx : F x = none)
    (hi : treeSizeToIndex (n - 8) = i) (ha : node i p = some a) (han : F a = some n)
    (hroot : ∀ j < 32, v' (treeSlot j) 0 = v (treeSlot j) 0)
    (hchild : ∀ y, ∀ d, v' y (childOffset d) = if y = x then null else v y (childOffset d))
    (hparent : ∀ y, v' y 24 = if y = x then null else v y 24)
    (hnext : ∀ y, v' y 8 = if y = a then x else if y = x then v a 8 else v y 8)
    (hprev : ∀ y, v' y 12 = if y = x then a else if y = v a 8 then x else v y 12)
    (hindex : ∀ y, v' y 28 = if y = x then i else v y 28) :
    Forest v' map (Function.update F x (some n)) node (Function.update ring a (x :: ring a)) := by
  have hxn : ∀ b ∈ nodes node, x ∉ b :: ring b := fun b hb hmem => hf.ne_new hx hb hmem rfl
  have hne : ∀ j q y, node j q = some y → y ≠ x := fun j q y hy =>
    hf.ne_new hx (mem_nodes hy) List.mem_cons_self
  refine ⟨hf.shape.join hx ha han, hf.tree.congr (fun j => ?_) (fun j q y hy d => ?_)
    fun j q y hy => ?_, hf.rings.insert (mem_nodes ha) hxn hnext hprev, fun b hb c hc => ?_,
    index_of_update hf.index hi hindex, hf.map⟩
  · simp only [pointers]
    split_ifs with hj
    · exact hroot j hj
    · rfl
  · exact (hchild y d).trans (if_neg (hne j q y hy))
  · exact (hparent y).trans (if_neg (hne j q y hy))
  · rw [hparent]
    by_cases hcx : c = x
    · rw [if_pos hcx]
      exact ⟨rfl, fun d => (hchild c d).trans (if_pos hcx)⟩
    · have hmem : c ∈ ring b := by
        rw [Function.update_apply] at hc
        split_ifs at hc with hba
        · exact hba ▸ (List.mem_cons.mp hc).resolve_left hcx
        · exact hc
      rw [if_neg hcx]
      obtain ⟨hc24, hcchild⟩ := hf.mate_null b hb c hmem
      exact ⟨hc24, fun d => (hchild c d).trans ((if_neg hcx).trans (hcchild d))⟩

/-! ### The function -/

/-- Only fields of large records and the bitmap of the trees change. -/
structure LargeEdit (F : ℕ → Option ℕ) (h h' : Heap) : Prop where
  mem : ∀ w, (∀ x o, OwnLarge F x o → w ≠ x + o) → h'.mem w = h.mem w
  sameMap : h'.sameMap = h.sameMap
  lock : h'.lock = h.lock

lemma ownLarge_mono (hx : F x = none) {y o : ℕ} (hy : OwnLarge F y o) :
    OwnLarge (Function.update F x (some n)) y o := by
  refine hy.imp_left fun ⟨k, hk, hle, ho⟩ => ⟨k, ?_, hle, ho⟩
  rw [Function.update_of_ne, hk]
  rintro rfl
  rw [hx] at hk
  simp at hk

lemma ownLarge_of_update {y o : ℕ} (hy : OwnLarge (Function.update F x none) y o) :
    OwnLarge F y o := by
  exact hy.imp_left fun ⟨k, hk, hle, ho⟩ => ⟨k, (eq_some_of_erase hk).2, hle, ho⟩

lemma childAddr_eq (d : Bool) : childAddr a d.toNat = a + childOffset d := by
  rw [childAddr, childOffset, Nat.add_assoc]

/-- The chunk hangs below `pNode`. -/
def attachLeaf (h : Heap) (pChunk pNode k : ℕ) : Heap :=
  let h := h.write (childAddr pNode k) pChunk
  let h := h.setParent pChunk pNode
  let h := h.setFreeNext pChunk pChunk
  h.setFreePrev pChunk pChunk

/-- The chunk is in the ring behind `pNode`. -/
def attachMate (h : Heap) (pChunk pNode : ℕ) : Heap :=
  let h := h.setParent pChunk null
  let h := h.setFreeNext pChunk (h.freeNext pNode)
  let h := h.setFreePrev pChunk pNode
  let h := h.setFreePrev (h.freeNext pNode) pChunk
  h.setFreeNext pNode pChunk

/-- **The descent** of `insert_large_chunk` from the node at `p`: it comes to the node of the
same size, or to a node with no child where the size leads. The bits of the size are enough, as
two sizes with the same bits are equal. -/
lemma insertLargeLoop_spec (hf : Forest (fields h) map F node ring) (hF : Chunks F)
    (hsize : ∀ a k, F a = some k → h.getChunkSize a = k) (hi : treeSizeToIndex (n - 8) = i)
    (hn : 264 < n) (hn32 : n < 2 ^ 32) : ∀ fuel p a, node i p = some a →
      Trie.Agrees (treeBits i) (n - 8) p → treeBits i < fuel + p.length →
      (∀ q b, Trie.Agrees (treeBits i) (n - 8) q → q.length < p.length → node i q = some b →
        F b ≠ some n) →
      ∃ q b, node i q = some b ∧
        ((F b = some n ∧ insertLargeLoop x n fuel h a
            ((n - 8) * 2 ^ (leftshiftForTreeIndex i + p.length) % 2 ^ 32) =
              some (h.attachMate x b)) ∨
          ∃ d, node i (d :: q) = none ∧ Trie.Agrees (treeBits i) (n - 8) (d :: q) ∧
            (∀ r c, node i r = some c → F c ≠ some n) ∧ insertLargeLoop x n fuel h a
              ((n - 8) * 2 ^ (leftshiftForTreeIndex i + p.length) % 2 ^ 32) =
                some (h.attachLeaf x b d.toNat)) := by
  intro fuel
  induction fuel with
  | zero =>
      intro p a ha _ hfuel _
      have := hf.shape.length_le ha
      omega
  | succ fuel ih =>
      intro p a ha hagrees hfuel hpath
      have hk := hf.keyed hF i
      obtain ⟨k, hak, hklt, hki, hkagrees⟩ := hf.shape.node_spec i p a ha
      rw [insertLargeLoop, hsize a k hak]
      by_cases hnk : n = k
      · subst hnk
        exact ⟨p, a, ha, Or.inl ⟨hak, by rw [if_neg (not_not.mpr rfl)]; rfl⟩⟩
      · rw [if_pos hnk]
        have hle := hF.le a k hak
        have hpos := hF.pos a k hak
        have hlen : p.length < treeBits i := by
          by_contra hge
          have hfull : p.length = treeBits i := le_antisymm hagrees.length_le (not_lt.mp hge)
          have habove := sameAbove_of_index (s := n - 8) (t := k - 8) (by omega) (by omega)
            (by omega) (by omega) (by rw [hi, hki])
          rw [hi] at habove
          have := Trie.eq_of_agrees hagrees hkagrees hfull habove
          omega
        have hstep := bitMap_step (s := n - 8) hlen
        set d := (n - 8).testBit (treeBits i - 1 - p.length) with hd
        have hagrees' : Trie.Agrees (treeBits i) (n - 8) (d :: p) := ⟨hlen, hd.symm, hagrees⟩
        have hchild : h.mem (childAddr a d.toNat) = (node i (d :: p)).getD null := by
          rw [childAddr_eq]
          exact hf.child_eq ha d
        have hpath' : ∀ q b, Trie.Agrees (treeBits i) (n - 8) q → q.length < (d :: p).length →
            node i q = some b → F b ≠ some n := by
          intro q b hq hqlen hb
          by_cases hlt : q.length < p.length
          · exact hpath q b hq hlt hb
          · rw [List.length_cons] at hqlen
            have hqp : q = p := (hq.suffix hagrees (by omega)).eq_of_length (by omega)
            rw [hqp, ha, Option.some.injEq] at hb
            rw [← hb, hak, Ne, Option.some.injEq]
            exact fun he => hnk he.symm
        dsimp only
        rw [hstep, hchild]
        cases hc : node i (d :: p) with
        | none =>
            refine ⟨p, a, ha, Or.inr ⟨d, hc, hagrees', fun r c hr hFc => ?_, ?_⟩⟩
            · -- a node of this size would be on the path
              obtain ⟨m, hm, -, -, hmagrees⟩ := hf.shape.node_spec i r c hr
              rw [hFc, Option.some.injEq] at hm
              subst hm
              rcases Nat.lt_or_ge r.length (d :: p).length with hlt | hge
              · exact hpath' r c hmagrees hlt hr hFc
              · rw [hf.tree.none_of_suffix hc (hagrees'.suffix hmagrees hge)] at hr
                simp at hr
            · rw [Option.getD_none, if_neg (not_not.mpr rfl)]
              rfl
        | some c =>
            have hcnull : c ≠ null := hf.tree.ne_null i _ c hc
            rw [Option.getD_some, if_pos hcnull, bitMap_shift]
            have hih := ih (d :: p) c hc hagrees' (by rw [List.length_cons]; omega) hpath'
            rw [List.length_cons, ← Nat.add_assoc] at hih
            exact hih

/-- The chunk is the root of the tree `Index`. -/
def attachRoot (h : Heap) (pChunk Index : ℕ) : Heap :=
  let h := { h with treeMap := setBit h.treeMap Index }
  let h := h.write (treeSlot Index) pChunk
  let h := h.setParent pChunk (treeSlot Index)
  (h.setFreePrev pChunk pChunk).setFreeNext pChunk pChunk

/-- The headers of the chunks `F` hold their sizes. -/
def Sized (h : Heap) (F : ℕ → Option ℕ) : Prop := ∀ a n, F a = some n → h.thisInfo a = n

lemma Sized.getChunkSize (hs : Sized h F) (hF : Chunks F) (ha : F a = some n) :
    h.getChunkSize a = n := by
  have hle := hF.le a n ha
  have hpos := hF.pos a n ha
  have halign := (hF.aligned a n ha).2
  rw [Heap.getChunkSize, hs a n ha, and_not_one (by omega) (by omega)]

/-- The functions on the trees keep the headers. -/
lemma Sized.of_edit {F' : ℕ → Option ℕ} {h' : Heap} (hs : Sized h F) (hF' : Chunks F')
    (hsub : ∀ a n, F a = some n → F' a = some n)
    (hmem : ∀ w, (∀ x o, OwnLarge F' x o → w ≠ x + o) → h'.mem w = h.mem w) : Sized h' F :=
  fun a n ha => (hmem (a + 4) fun _ _ hy => hF'.tag_ne (hsub a n ha) (Or.inr rfl)
    (Or.inr hy)).trans (hs a n ha)

lemma treeSlot_inj {j : ℕ} : treeSlot i = treeSlot j ↔ i = j := by
  simp only [treeSlot]
  omega

/-- A slot is no chunk. -/
lemma Chunks.ne_slot (hF : Chunks F) (ha : F a = some n) : a ≠ treeSlot i := by
  have h1 := hF.le a n ha
  simp only [treeSlot, mallocor]
  omega

/-- The fields of a new node. -/
def initNode (h : Heap) (pChunk Index : ℕ) : Heap :=
  ((h.setIndex pChunk Index).setChild pChunk 1 null).setChild pChunk 0 null

/-- The fields after the first writes. -/
def initFields (v : ℕ → ℕ → ℕ) (x i : ℕ) : ℕ → ℕ → ℕ :=
  setField (setField (setField v x 28 i) x 20 null) x 16 null

/-- `insert_large_chunk` in its parts. -/
lemma insertLargeChunk_eq {s : ℕ} (hi : treeSizeToIndex s = i) : h.insertLargeChunk x s =
    if testBit h.treeMap i = false then some ((h.initNode x i).attachRoot x i)
    else insertLargeLoop x (wadd s 8) loopFuel (h.initNode x i) (h.mem (treeSlot i))
      ((s <<< leftshiftForTreeIndex i) % 2 ^ 32) := by
  rw [← hi]
  rfl

section Views

variable {own : ℕ → ℕ → Prop} {m₀ : ℕ → ℕ} {b : ℕ} {d : Bool}

lemma view_initNode (hv : View own m₀ h.mem v) (hap : Apart own)
    (hx : ∀ o, 16 ≤ o ∧ o % 4 = 0 ∧ o ≤ 28 → own x o) :
    View own m₀ (h.initNode x i).mem (initFields v x i) :=
  ((hv.write hap (hx 28 (by norm_num))).write hap (hx 20 (by norm_num))).write hap
    (hx 16 (by norm_num))

lemma view_attachLeaf (hv : View own m₀ h.mem v) (hap : Apart own)
    (hx : ∀ o, 8 ≤ o ∧ o % 4 = 0 ∧ o ≤ 28 → own x o) (hb : own b (childOffset d)) :
    View own m₀ (h.attachLeaf x b d.toNat).mem
      (setField (setField (setField (setField v b (childOffset d) x) x 24 b) x 8 x) x 12 x) := by
  have h₁ := hv.write hap hb (w := x)
  rw [← childAddr_eq] at h₁
  exact ((h₁.write hap (hx 24 (by norm_num))).write hap (hx 8 (by norm_num))).write hap
    (hx 12 (by norm_num))

lemma view_attachMate (hv : View own m₀ h.mem v) (hap : Apart own)
    (hx : ∀ o, 8 ≤ o ∧ o % 4 = 0 ∧ o ≤ 28 → own x o) (hb : own b 8) (hbx : b ≠ x)
    (hnext : own (v b 8) 12) :
    View own m₀ (h.attachMate x b).mem (setField (setField (setField (setField (setField v x 24
      null) x 8 (v b 8)) x 12 b) (v b 8) 12 x) b 8 x) := by
  have h₁ := hv.write hap (hx 24 (by norm_num)) (w := null)
  have hr₁ : (h.setParent x null).freeNext b = v b 8 :=
    (h₁.read b 8 hb).trans (setField_of_ne hbx)
  have h₃ := (h₁.write hap (hx 8 (by norm_num)) (w := v b 8)).write hap (hx 12 (by norm_num))
    (w := b)
  have hr₃ : (((h.setParent x null).setFreeNext x (v b 8)).setFreePrev x b).freeNext b = v b 8 := by
    refine (h₃.read b 8 hb).trans ?_
    rw [setField_of_ne hbx, setField_of_ne hbx, setField_of_ne hbx]
  have heq : h.attachMate x b = ((((h.setParent x null).setFreeNext x (v b 8)).setFreePrev x
      b).setFreePrev (v b 8) x).setFreeNext b x := by
    simp only [attachMate, hr₁, hr₃]
  rw [heq]
  exact (h₃.write hap hnext).write hap hb

end Views

section Fields

variable {b : ℕ} {d : Bool}

/-- The fields behind an insertion into an empty tree. -/
lemma Forest.attach_root (hf : Forest v map F node ring)
    (hF : Chunks (Function.update F x (some n))) (hx : F x = none) (hn : 264 < n)
    (hi : treeSizeToIndex (n - 8) = i) (hempty : node i [] = none) :
    Forest (setField (setField (setField (setField (initFields v x i) (treeSlot i) 0 x) x 24
        (treeSlot i)) x 12 x) x 8 x) (setBit map i) (Function.update F x (some n))
      (PathTree.put node i [] (some x)) (Function.update ring x []) := by
  have hself : Function.update F x (some n) x = some n := Function.update_self ..
  have hslot : ∀ j, treeSlot j ≠ x := fun j => (hF.ne_slot hself).symm
  have hi32 : i < 32 := hi ▸ treeSizeToIndex_lt (by omega)
  have hnone : ∀ q, node i q = none := fun q => hf.tree.none_of_suffix hempty List.nil_suffix
  refine hf.attach hF hx hn hi hempty (fun b q h => by simp at h) trivial
    (fun q a h => ?_) (fun j _ => ?_) (fun d q y h => by simp at h) (fun y hy d _ => ?_)
    (fun d => ?_) (fun y hy => ?_) ?_ (fun y => ?_) (fun y => ?_) (fun y => ?_) fun j hj => ?_
  · rw [hnone] at h
    simp at h
  · simp [setField, initFields, hslot, treeSlot_inj]
  · cases d <;> simp [setField, initFields, childOffset, hy]
  · cases d <;> simp [setField, initFields, childOffset]
  · simp [setField, initFields, hy]
  · simp [setField, PathTree.up]
  · simp [setField, initFields]
  · simp [setField, initFields]
  · simp [setField, initFields]
  · rw [getLsbD_setBit]
    by_cases hji : j = i <;> simp [hji, hi32]

/-- The fields behind an insertion as a leaf below the node `b`. -/
lemma Forest.attach_leaf (hf : Forest v map F node ring)
    (hF : Chunks (Function.update F x (some n))) (hx : F x = none) (hn : 264 < n)
    (hi : treeSizeToIndex (n - 8) = i) (hb : node i p = some b) (hfree : node i (d :: p) = none)
    (hagrees : Trie.Agrees (treeBits i) (n - 8) (d :: p))
    (hnew : ∀ q a, node i q = some a → F a ≠ some n) :
    Forest (setField (setField (setField (setField (initFields v x i) b (childOffset d) x) x 24
        b) x 8 x) x 12 x) map (Function.update F x (some n))
      (PathTree.put node i (d :: p) (some x)) (Function.update ring x []) := by
  have hself : Function.update F x (some n) x = some n := Function.update_self ..
  have hslot : ∀ j, treeSlot j ≠ x := fun j => (hF.ne_slot hself).symm
  have hbx : b ≠ x := hf.ne_new hx (mem_nodes hb) List.mem_cons_self
  have hbslot : ∀ j, treeSlot j ≠ b := by
    intro j
    obtain ⟨k, hk, -⟩ := hf.shape.node_spec i p b hb
    exact ((hF.of_update hx).ne_slot hk).symm
  refine hf.attach hF hx hn hi hfree (fun e q h => ?_) hagrees hnew (fun j _ => ?_)
    (fun e q y h hy => ?_) (fun y hy e h => ?_) (fun e => ?_) (fun y hy => ?_) ?_ (fun y => ?_)
    (fun y => ?_) (fun y => ?_) fun j _ => ?_
  · obtain ⟨-, rfl⟩ := List.cons.inj h
    rw [hb]
    rfl
  · simp [setField, initFields, hslot, hbslot]
  · obtain ⟨rfl, rfl⟩ := List.cons.inj h
    rw [hb, Option.some.injEq] at hy
    subst hy
    cases d <;> simp [setField, childOffset]
  · have hne : ¬ (y = b ∧ childOffset e = childOffset d) := by
      rintro ⟨rfl, he⟩
      exact h p (by rw [childOffset_inj.mp he]) hb
    cases e <;> simp_all [setField, initFields, childOffset]
  · cases e <;> simp [setField, initFields, childOffset, hbx.symm]
  · rcases childOffset_cases d with h | h <;> simp [setField, initFields, hy, h]
  · simp [setField, PathTree.up, hb]
  · rcases childOffset_cases d with h | h <;> simp [setField, initFields, h]
  · rcases childOffset_cases d with h | h <;> simp [setField, initFields, h]
  · rcases childOffset_cases d with h | h <;> simp [setField, initFields, h]
  · simp

/-- The fields behind an insertion into the ring of the node `b`. -/
lemma Forest.attach_mate (hf : Forest v map F node ring)
    (hF : Chunks (Function.update F x (some n))) (hx : F x = none)
    (hi : treeSizeToIndex (n - 8) = i) (hb : node i p = some b) (hbn : F b = some n) :
    Forest (setField (setField (setField (setField (setField (initFields v x i) x 24 null) x 8
        (v b 8)) x 12 b) (v b 8) 12 x) b 8 x) map (Function.update F x (some n)) node
      (Function.update ring b (x :: ring b)) := by
  have hself : Function.update F x (some n) x = some n := Function.update_self ..
  have hslot : ∀ j, treeSlot j ≠ x := fun j => (hF.ne_slot hself).symm
  have hbx : b ≠ x := hf.ne_new hx (mem_nodes hb) List.mem_cons_self
  have hnext : v b 8 ≠ x := by
    have hmem := (hf.rings.circle b (mem_nodes hb)).next_mem List.mem_cons_self
    exact hf.ne_new hx (mem_nodes hb) hmem
  refine hf.join hx hi hb hbn (fun j _ => ?_) (fun y d => ?_) (fun y => ?_) (fun y => ?_)
    (fun y => ?_) fun y => ?_
  · simp [setField, initFields, hslot]
  · cases d <;> simp [setField, initFields, childOffset]
  · simp [setField, initFields]
  · simp [setField, initFields]
  · by_cases hy : y = x
    · subst hy
      simp [setField, hnext.symm]
    · simp [setField, initFields, hy]
  · simp [setField, initFields]

end Fields

/-- **`insert_large_chunk`** adds a chunk to the trees. -/
theorem Forest.insert (hf : Forest (fields h) h.treeMap F node ring)
    (hF : Chunks (Function.update F x (some n))) (hs : Sized h F) (hx : F x = none)
    (hn : 264 < n) :
    ∃ h', h.insertLargeChunk x (n - 8) = some h' ∧
      LargeEdit (Function.update F x (some n)) h h' ∧
      ∃ node' ring', Forest (fields h') h'.treeMap (Function.update F x (some n)) node' ring' := by
  obtain ⟨i, hi⟩ : ∃ i, treeSizeToIndex (n - 8) = i := ⟨_, rfl⟩
  have hself : Function.update F x (some n) x = some n := Function.update_self ..
  have hi32 : i < 32 := hi ▸ treeSizeToIndex_lt (by omega)
  have hF₀ : Chunks F := hF.of_update hx
  have hle := hF.le x n hself
  have hpos := hF.pos x n hself
  have hap := hF.apart_large
  have hslot : ∀ j, treeSlot j ≠ x := fun j => (hF.ne_slot hself).symm
  have hxown : ∀ o, 8 ≤ o ∧ o % 4 = 0 ∧ o ≤ 28 → OwnLarge (Function.update F x (some n)) x o :=
    fun o ho => ownLarge_field hself hn ho
  have hother : ∀ y o, OwnLarge F y o → y ≠ x := by
    rintro y o (⟨k, hk, -⟩ | ⟨j, -, rfl, -⟩)
    · rintro rfl
      rw [hx] at hk
      simp at hk
    · exact hslot j
  have hmono : ∀ y o, OwnLarge F y o → OwnLarge (Function.update F x (some n)) y o :=
    fun y o hy => ownLarge_mono hx hy
  have v₁ := view_initNode (i := i) (View.refl (m := h.mem)) hap fun o ho =>
    hxown o ⟨by omega, ho.2.1, ho.2.2⟩
  -- the other records are as before
  have hf₁ : Forest (fields (h.initNode x i)) h.treeMap F node ring :=
    hf.congr fun y o hy => by
      rw [fields, v₁.read y o (hmono y o hy)]
      simp [initFields, setField, hother y o hy, fields]
  have hs₁ : Sized (h.initNode x i) F := hs.of_edit hF (fun a k ha => by
    rw [Function.update_of_ne, ha]
    rintro rfl
    rw [hx] at ha
    simp at ha) v₁.frame
  have hbit : testBit h.treeMap i = (node i []).isSome := by
    rw [testBit_eq, Bool.eq_iff_iff]
    exact hf.map i hi32
  cases hroot : node i [] with
  | none =>
      have heq : h.insertLargeChunk x (n - 8) = some ((h.initNode x i).attachRoot x i) := by
        rw [insertLargeChunk_eq hi, hbit, hroot]
        rfl
      have v₄ := (((v₁.write hap (hmono _ _ (Or.inr ⟨i, hi32, rfl, rfl⟩)) (w := x)).write hap
        (hxown 24 (by norm_num)) (w := treeSlot i)).write hap (hxown 12 (by norm_num))
          (w := x)).write hap (hxown 8 (by norm_num)) (w := x)
      exact ⟨_, heq, ⟨v₄.frame, rfl, rfl⟩, _, _,
        (hf.attach_root hF hx hn hi hroot).congr v₄.read⟩
  | some a =>
      have hpath : ∀ q b, Trie.Agrees (treeBits i) (n - 8) q → q.length < ([] : List Bool).length →
          node i q = some b → F b ≠ some n := fun q b _ hq => by simp at hq
      obtain ⟨p, b, hb, hcase⟩ := insertLargeLoop_spec (x := x) hf₁ hF₀
        (fun c k hc => hs₁.getChunkSize hF₀ hc) hi hn (by omega) loopFuel [] a hroot trivial
        (by unfold treeBits loopFuel; simp; omega) hpath
      have heq : h.insertLargeChunk x (n - 8) = insertLargeLoop x n loopFuel (h.initNode x i) a
          ((n - 8) * 2 ^ (leftshiftForTreeIndex i + ([] : List Bool).length) % 2 ^ 32) := by
        have hr : h.mem (treeSlot i) = a := by
          have h1 := hf.root_eq hi32
          rwa [hroot] at h1
        rw [insertLargeChunk_eq hi, hbit, hroot, if_neg (by simp), hr, wadd_of_lt (by omega),
          Nat.sub_add_cancel (by omega), Nat.shiftLeft_eq]
        rfl
      obtain ⟨k, hbk, hk, -⟩ := hf.shape.node_spec i p b hb
      rcases hcase with ⟨hbn, hloop⟩ | ⟨d, hfree, hagrees, hnew, hloop⟩
      · have hbx : b ≠ x := hf.ne_new hx (mem_nodes hb) List.mem_cons_self
        have hv : initFields (fields h) x i b 8 = fields h b 8 := by
          simp [initFields, setField]
        obtain ⟨m, hm, -, hmlt, -⟩ := hf.shape.size_of_mem hb
          ((hf.rings.circle b (mem_nodes hb)).next_mem List.mem_cons_self)
        have v₅ := view_attachMate v₁ hap hxown (hmono _ _ (ownLarge_field hbk hk (by norm_num)))
          hbx (hmono _ _ (hv ▸ ownLarge_field hm hmlt (by norm_num)))
        refine ⟨_, heq.trans hloop, ⟨v₅.frame, rfl, rfl⟩, _, _,
          (hf.attach_mate hF hx hi hb hbn).congr fun y o hy => ?_⟩
        rw [← hv]
        exact v₅.read y o hy
      · have v₄ := view_attachLeaf v₁ hap hxown (hmono _ _ (ownLarge_childOffset hbk hk))
          (b := b) (d := d)
        exact ⟨_, heq.trans hloop, ⟨v₄.frame, rfl, rfl⟩, _, _,
          (hf.attach_leaf hF hx hn hi hb hfree hagrees hnew).congr v₄.read⟩

end Insert

end Heap

end ChinaOS
