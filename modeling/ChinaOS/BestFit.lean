import ChinaOS.UnlinkLarge

/-!
The search in the trees.

* `leftmostLoop_spec`, `descendLoop_spec`: the loops of `checkout_large_chunk_in_tree` find the
  least chunk that fits.
* `Forest.checkoutLarge`, `Forest.checkoutSmall`: the two functions take the least chunk that is
  not less than the request, and the least chunk of all.
-/

namespace ChinaOS

namespace Heap

open Records Trie Forest

section BestFit

variable {F : ℕ → Option ℕ} {v : ℕ → ℕ → ℕ} {map : Int32U} {node : ℕ → List Bool → Option ℕ}
  {ring : ℕ → List ℕ} {i j n s : ℕ} {p q : List Bool} {a b c x pChunk rsize : ℕ} {h : Heap}
  {S : Set ℕ} {o : Option ℕ}

/-! ### Margins -/

/-- The best chunk so far, and by how much it is too great; no chunk, and the least margin that a
chunk shows which is too small. -/
def Margin (F : ℕ → Option ℕ) (s pChunk rsize : ℕ) : Option ℕ → Prop
  | none => pChunk = null ∧ rsize = 2 ^ 32 - (s + 8)
  | some b => pChunk = b ∧ ∃ n, F b = some n ∧ s + 8 ≤ n ∧ n < 2 ^ 32 ∧ rsize = n - (s + 8)

lemma memSize_of (ha : F a = some n) : memSize F a = n - 8 := by
  rw [memSize, ha]
  rfl

/-- **A chunk is looked at**: its wrapped difference is less than the margin exactly if it fits
and is better than the best so far. -/
theorem Margin.look (hm : Margin F s pChunk rsize o) (hb : Best (memSize F) s S o)
    (hs : s + 8 < 2 ^ 32) (ha : F a = some n) (hn : 264 < n) (hn32 : n < 2 ^ 32) :
    ∃ o', Best (memSize F) s (insert a S) o' ∧
      Margin F s (if wsub n (s + 8) < rsize then a else pChunk)
        (if wsub n (s + 8) < rsize then wsub n (s + 8) else rsize) o' := by
  have hkey := memSize_of ha
  by_cases hfit : s + 8 ≤ n
  · have hw : wsub n (s + 8) = n - (s + 8) := wsub_of_le hfit hn32
    rw [hw]
    by_cases hlt : n - (s + 8) < rsize
    · rw [if_pos hlt, if_pos hlt]
      refine ⟨some a, hb.insert_better (by omega) fun c hc => ?_, rfl, n, ha, hfit, hn32, rfl⟩
      rw [hc] at hm
      obtain ⟨-, k, hk, hle, hk32, hr⟩ := hm
      rw [hkey, memSize_of hk]
      omega
    · rw [if_neg hlt, if_neg hlt]
      refine ⟨o, hb.insert_other ?_, hm⟩
      cases o with
      | none => exact absurd hm.2 (by omega)
      | some c =>
          obtain ⟨-, k, hk, hle, hk32, hr⟩ := hm
          refine Or.inr ⟨c, rfl, ?_⟩
          rw [hkey, memSize_of hk]
          omega
  · have hw : wsub n (s + 8) = n + 2 ^ 32 - (s + 8) := wsub_of_lt (not_le.mp hfit)
    have hge : ¬ wsub n (s + 8) < rsize := by
      rw [hw]
      cases o with
      | none =>
          obtain ⟨-, hr⟩ := hm
          omega
      | some c =>
          obtain ⟨-, k, hk, hle, hk32, hr⟩ := hm
          omega
    rw [if_neg hge, if_neg hge]
    exact ⟨o, hb.insert_other (Or.inl (by omega)), hm⟩

/-! ### The loops -/

variable (hf : Forest (fields h) map F node ring) (hF : Chunks F) (hs : Sized h F)

include hf hF in
/-- The nodes have a size. -/
lemma node_size (ha : node i p = some a) : ∃ n, F a = some n ∧ 264 < n ∧ n < 2 ^ 32 := by
  obtain ⟨n, hn, hlt, -⟩ := hf.shape.node_spec i p a ha
  have hle := hF.le a n hn
  have hpos := hF.pos a n hn
  exact ⟨n, hn, hlt, by omega⟩

include hf in
lemma length_le (ha : node i p = some a) : p.length ≤ 32 :=
  (hf.shape.length_le ha).trans (by unfold treeBits; omega)

include hf in
/-- The leftmost child. -/
lemma letfmostChild_eq (ha : node i p = some a) : ∃ d,
    h.letfmostChild a = (node i (d :: p)).getD null ∧
      (d = true → node i (false :: p) = none) ∧
      (node i (d :: p) = none → node i (true :: p) = none) := by
  have hc0 : h.child a 0 = (node i (false :: p)).getD null := hf.child_eq ha false
  have hc1 : h.child a 1 = (node i (true :: p)).getD null := hf.child_eq ha true
  rw [letfmostChild, hc0, hc1]
  cases h0 : node i (false :: p) with
  | none => exact ⟨true, if_neg (not_not.mpr rfl), fun _ => rfl, fun h => h⟩
  | some l =>
      refine ⟨false, ?_, fun h => Bool.noConfusion h, fun h => ?_⟩
      · rw [h0]
        exact if_pos (hf.tree.ne_null i _ l h0)
      · rw [h0] at h
        simp at h

include hf hF hs in
/-- **The leftmost walk** finds the best chunk of a subtree in which all chunks fit. -/
theorem leftmostLoop_spec (hs32 : s + 8 < 2 ^ 32) : ∀ fuel p S o pChunk rsize,
    33 < fuel + p.length → p.length ≤ 33 → Margin F s pChunk rsize o → Best (memSize F) s S o →
    (∀ c, Below (node i) p c → s ≤ memSize F c) →
    ∃ o' pC r, h.leftmostLoop (s + 8) fuel ((node i p).getD null) pChunk rsize = some pC ∧
      Margin F s pC r o' ∧ Best (memSize F) s (S ∪ {c | Below (node i) p c}) o' := by
  have hk := hf.keyed hF i
  intro fuel
  induction fuel with
  | zero =>
      intro p S o pChunk rsize hfuel hlen
      omega
  | succ fuel ih =>
      intro p S o pChunk rsize hfuel hlen hm hb hfit
      rw [leftmostLoop]
      cases hp : node i p with
      | none =>
          refine ⟨o, pChunk, rsize, if_neg (not_not.mpr rfl), hm, hb.enlarge (fun c hc => Or.inl hc)
            fun c hc hle => ?_⟩
          rcases hc with hc | hc
          · exact ⟨c, hc, hle, le_rfl⟩
          · exact absurd hc (hk.not_below hp)
      | some a =>
          obtain ⟨n, hn, hlt, hn32⟩ := node_size hf hF hp
          obtain ⟨d, hd, hd1, hd2⟩ := letfmostChild_eq hf hp
          obtain ⟨o₁, hb₁, hm₁⟩ := hm.look hb hs32 hn hlt hn32
          have hplen := length_le hf hp
          obtain ⟨o', pC, r, hloop, hm', hb'⟩ := ih (d :: p) (insert a S) o₁ _ _
            (by rw [List.length_cons]; omega) (by rw [List.length_cons]; omega) hm₁ hb₁
            fun c hc => hfit c hc.of_cons
          refine ⟨o', pC, r, ?_, hm', Best.leftmost hk hp hfit hd1 hd2 hb'⟩
          rw [Option.getD_some, if_pos (hf.tree.ne_null i p a hp), hs.getChunkSize hF hn, hd,
            ← hloop]
          dsimp only
          split_ifs <;> rfl

include hf in
/-- The walk changes nothing where the margin is zero already. -/
lemma leftmostLoop_zero {C : ℕ} : ∀ fuel p, 33 < fuel + p.length → p.length ≤ 33 →
    h.leftmostLoop C fuel ((node i p).getD null) x 0 = some x := by
  intro fuel
  induction fuel with
  | zero =>
      intro p hfuel hlen
      omega
  | succ fuel ih =>
      intro p hfuel hlen
      rw [leftmostLoop]
      cases hp : node i p with
      | none => exact if_neg (not_not.mpr rfl)
      | some a =>
          obtain ⟨d, hd, -⟩ := letfmostChild_eq hf hp
          have hplen := length_le hf hp
          rw [Option.getD_some, if_pos (hf.tree.ne_null i p a hp), hd]
          dsimp only
          rw [if_neg (Nat.not_lt_zero _)]
          exact ih (d :: p) (by rw [List.length_cons]; omega) (by rw [List.length_cons]; omega)

/-- The last right child that was passed. -/
def bigTree (node : ℕ → List Bool → Option ℕ) (i : ℕ) (r : Option (List Bool)) : ℕ :=
  (r.bind (node i)).getD null

include hf hF hs in
/-- **The descent** along the bits of the size ends at a chunk of that size, or it has seen all
chunks that could be the best, up to those below the last right child that it passed. -/
theorem descendLoop_spec (hs256 : 256 ≤ s) (hs32 : s + 8 < 2 ^ 32) (hi : treeSizeToIndex s = i) :
    ∀ fuel p a S r o pChunk rsize, node i p = some a → 32 < fuel + p.length →
    Frontier (treeBits i) (memSize F) (node i) s p S r → Margin F s pChunk rsize o → rsize ≠ 0 →
    Best (memSize F) s S o →
    (∃ b q, node i q = some b ∧ memSize F b = s ∧
      h.descendLoop (s + 8) fuel a (bigTree node i r)
        (s * 2 ^ (leftshiftForTreeIndex i + p.length) % 2 ^ 32) pChunk rsize = some (b, b, 0)) ∨
    ∃ q r' S' o' pC rs, node i q = none ∧ Frontier (treeBits i) (memSize F) (node i) s q S' r' ∧
      Margin F s pC rs o' ∧ Best (memSize F) s S' o' ∧
      h.descendLoop (s + 8) fuel a (bigTree node i r)
        (s * 2 ^ (leftshiftForTreeIndex i + p.length) % 2 ^ 32) pChunk rsize =
          some (bigTree node i r', pC, rs) := by
  have hk := hf.keyed hF i
  have habove : ∀ p a, node i p = some a → SameAbove (treeBits i) s (memSize F a) := by
    intro p a ha
    obtain ⟨n, hn, hlt, hni, -⟩ := hf.shape.node_spec i p a ha
    obtain ⟨m, hm, -, hm32⟩ := node_size hf hF ha
    rw [hn, Option.some.injEq] at hm
    rw [memSize_of hn, ← hi]
    exact sameAbove_of_index hs256 (by omega) (by omega) (by omega) (by rw [hi, hni])
  intro fuel
  induction fuel with
  | zero =>
      intro p a S r o pChunk rsize ha hfuel
      have := length_le hf ha
      omega
  | succ fuel ih =>
      intro p a S r o pChunk rsize ha hfuel hfr hm hr0 hb
      obtain ⟨n, hn, hlt, hn32⟩ := node_size hf hF ha
      have hkey := memSize_of hn
      obtain ⟨o₁, hb₁, hm₁⟩ := hm.look hb hs32 hn hlt hn32
      have hzero : wsub n (s + 8) = 0 ↔ memSize F a = s := by
        rw [hkey]
        unfold wsub
        omega
      -- the search goes on with the child where the size leads
      have hrest : wsub n (s + 8) ≠ 0 → ∃ r₁ d, bigTree node i r₁ =
            (if h.child a 1 ≠ null ∧ h.child a 1 ≠ h.child a (Bool.toNat d) then h.child a 1
              else bigTree node i r) ∧
            ((s * 2 ^ (leftshiftForTreeIndex i + p.length) % 2 ^ 32) >>> 31) &&& 1 = d.toNat ∧
            h.child a d.toNat = (node i (d :: p)).getD null ∧
            Frontier (treeBits i) (memSize F) (node i) s (d :: p) (insert a S) r₁ := by
        intro hne
        have hlen : p.length < treeBits i := by
          by_contra hge
          have hfull : p.length = treeBits i :=
            le_antisymm hfr.agrees.length_le (not_lt.mp hge)
          exact hne (hzero.mpr (eq_of_agrees hfr.agrees (hk.agrees p a ha) hfull
            (habove p a ha)).symm)
        have hbit := bitMap_step (s := s) hlen
        have hchild : ∀ d : Bool, h.child a d.toNat = (node i (d :: p)).getD null := fun d => by
          rw [Heap.child, childAddr_eq]
          exact hf.child_eq ha d
        cases hd : s.testBit (treeBits i - 1 - p.length) with
        | true =>
            refine ⟨r, true, ?_, by rw [hbit, hd], hchild true,
              hfr.goRight hk habove ha hlen hd⟩
            rw [if_neg fun h' => h'.2 rfl]
        | false =>
            refine ⟨_, false, ?_, by rw [hbit, hd], hchild false,
              hfr.goLeft hk habove ha hlen hd⟩
            have h1 : h.child a 1 = (node i (true :: p)).getD null := hchild true
            rw [h1, hchild false]
            cases hr : node i (true :: p) with
            | none => simp [null]
            | some c =>
                have hcn : c ≠ null := hf.tree.ne_null i _ c hr
                have hcl : c ≠ (node i (false :: p)).getD null := by
                  intro hc
                  have hl := (PathTree.Holds.getD_eq_iff hcn).mp hc.symm
                  have := (hf.tree.inj i i _ _ c hr hl).2
                  simp at this
                simp [bigTree, hr, hcn, hcl]
      rw [descendLoop, hs.getChunkSize hF hn]
      simp only [decide_eq_true_eq]
      by_cases h0 : wsub n (s + 8) = 0
      · have hbetter : wsub n (s + 8) < rsize := by omega
        refine Or.inl ⟨a, p, ha, hzero.mp h0, ?_⟩
        rw [if_pos hbetter, if_pos hbetter, if_pos ⟨hbetter, h0⟩, h0]
      · obtain ⟨r₁, d, hbig, hbit, hchild, hfr'⟩ := hrest h0
        have hr₁ : (if wsub n (s + 8) < rsize then wsub n (s + 8) else rsize) ≠ 0 := by
          split_ifs
          · exact h0
          · exact hr0
        rw [if_neg fun h' => hr₁ h'.2, hbit, ← hbig, hchild]
        cases hc : node i (d :: p) with
        | none => exact Or.inr ⟨d :: p, r₁, insert a S, o₁, _, _, hc, hfr', hm₁, hb₁, if_pos rfl⟩
        | some c =>
            rw [Option.getD_some, if_neg (hf.tree.ne_null i _ c hc), bitMap_shift]
            have hih := ih (d :: p) c (insert a S) r₁ o₁ _ _ hc
              (by rw [List.length_cons]; omega) hfr' hm₁ hr₁ hb₁
            rw [List.length_cons, ← Nat.add_assoc] at hih
            exact hih

/-! ### The trees together -/

lemma Margin.eq (hm : Margin F s pChunk rsize o) : pChunk = o.getD null := by
  cases o with
  | none => exact hm.1
  | some b => exact hm.1

/-- `left_bits` of one bit: all the bits above it. -/
lemma getLsbD_leftBits {i j : ℕ} (hj : j < 32) :
    (leftBits (1#32 <<< i)).getLsbD j = decide (i < j) := by
  have hx : ∀ k, ((1#32 <<< i) <<< 1).getLsbD k = decide (k < 32 ∧ k = i + 1) := by
    intro k
    rw [← BitVec.shiftLeft_add, getLsbD_one_shiftLeft]
  have hex : (∃ k < j, decide (k < 32 ∧ k = i + 1) = true) ↔ i + 1 < j := by
    refine ⟨?_, fun h => ⟨i + 1, h, decide_eq_true ⟨by omega, rfl⟩⟩⟩
    rintro ⟨k, hk, h⟩
    have := of_decide_eq_true h
    omega
  rw [leftBits, BitVec.getLsbD_or, BitVec.getLsbD_neg]
  simp only [hx, hex]
  rcases Nat.lt_trichotomy j (i + 1) with h | h | h
  · have h1 : ¬ i < j := by omega
    have h2 : ¬ j = i + 1 := by omega
    have h3 : ¬ i + 1 < j := by omega
    simp [h1, h2, h3]
  · simp [h, show i + 1 < 32 by omega]
  · have h1 : i < j := by omega
    have h2 : ¬ j = i + 1 := by omega
    simp [h, h1, h2, hj]

include hf in
/-- The next tree that is not empty. -/
lemma nextTree_spec (hmap : h.treeMap = map) :
    (h.nextTree i null null = null ∧ ∀ k > i, node k [] = none) ∨
      ∃ k > i, (node k []).isSome ∧ (∀ j, i < j → j < k → node j [] = none) ∧
        h.nextTree i null null = (node k []).getD null := by
  have hbit : ∀ k < 32, (h.treeMap &&& leftBits (1#32 <<< i)).getLsbD k = true ↔
      i < k ∧ (node k []).isSome := by
    intro k hk
    rw [BitVec.getLsbD_and, getLsbD_leftBits hk, Bool.and_eq_true, hmap, hf.map k hk,
      decide_eq_true_iff, and_comm]
  have hlarge : ∀ k, 32 ≤ k → node k [] = none := by
    intro k hk
    by_contra hne
    obtain ⟨a, ha⟩ := Option.ne_none_iff_exists'.mp hne
    have := hf.shape.index_lt ha
    omega
  rw [nextTree, if_pos ⟨rfl, rfl⟩]
  dsimp only
  rcases eq_zero_or_lowest (h.treeMap &&& leftBits (1#32 <<< i)) with h0 | ⟨k, hk, hset, hlow⟩
  · refine Or.inl ⟨if_neg (not_not.mpr h0), fun k hik => ?_⟩
    by_cases hk : k < 32
    · by_contra hne
      have hset := (hbit k hk).mpr ⟨hik, Option.isSome_iff_ne_none.mpr hne⟩
      rw [h0] at hset
      simp at hset
    · exact hlarge k (not_lt.mp hk)
  · obtain ⟨hik, hsome⟩ := (hbit k hk).mp hset
    refine Or.inr ⟨k, hik, hsome, fun j hij hjk => ?_, ?_⟩
    · by_contra hne
      have hset := (hbit j (by omega)).mpr ⟨hij, Option.isSome_iff_ne_none.mpr hne⟩
      rw [hlow j hjk] at hset
      simp at hset
    · have hne : h.treeMap &&& leftBits (1#32 <<< i) ≠ 0 := by
        intro h0
        rw [h0] at hset
        simp at hset
      rw [if_pos hne, bitScanForward_of_lowest hset hlow, if_neg (by omega)]
      exact hf.root_eq hk

include hf in
/-- A tree of a higher index holds greater chunks. -/
lemma memSize_lt (ha : node i p = some a) (hc : node j q = some c) (hij : i < j) :
    memSize F a < memSize F c := by
  obtain ⟨n, hn, hlt, hni, -⟩ := hf.shape.node_spec i p a ha
  obtain ⟨k, hk, hklt, hkj, -⟩ := hf.shape.node_spec j q c hc
  rw [memSize_of hn, memSize_of hk]
  exact lt_of_index_lt (by omega) (by omega) (by rw [hni, hkj]; exact hij)

include hf in
/-- **The best of the forest** is the best of a tree, where all before it are too small. -/
lemma best_forest (hb : Best (memSize F) s {c | Below (node i) [] c} o)
    (hbelow : ∀ j < i, ∀ p a, node j p = some a → memSize F a < s)
    (habove : o = none → ∀ j > i, node j [] = none) : Best (memSize F) s (nodes node) o := by
  refine hb.enlarge ?_ fun a ⟨j, p, ha⟩ hle => ?_
  · rintro a ⟨q, -, hq⟩
    exact mem_nodes hq
  · rcases Nat.lt_trichotomy j i with hji | rfl | hji
    · exact absurd hle (not_le.mpr (hbelow j hji p a ha))
    · exact ⟨a, below_nil ha, hle, le_rfl⟩
    · cases o with
      | none =>
          have hnone := hf.tree.none_of_suffix (habove rfl j hji) (List.nil_suffix (l := p))
          rw [ha] at hnone
          simp at hnone
      | some b =>
          obtain ⟨hmem, hsb, -⟩ := hb
          obtain ⟨q, -, hq⟩ := id hmem
          exact ⟨b, hmem, hsb, (memSize_lt hf hq ha hji).le⟩

include hf hF hs in
/-- **The search goes on in the next tree**, where the tree of the size holds nothing that
fits. -/
lemma search_next (hmap : h.treeMap = map) (hs256 : 256 ≤ s) (hs32 : s + 8 < 2 ^ 32)
    (hi : treeSizeToIndex s = i) (hnone : Best (memSize F) s {c | Below (node i) [] c} none) :
    ∃ o, Best (memSize F) s (nodes node) o ∧
      h.leftmostLoop (s + 8) loopFuel (h.nextTree i null null) null (2 ^ 32 - (s + 8)) =
        some (o.getD null) := by
  -- the trees up to that of the size hold nothing that fits
  have hlow : ∀ j ≤ i, ∀ p a, node j p = some a → memSize F a < s := by
    intro j hj p a ha
    rcases Nat.lt_or_eq_of_le hj with hji | rfl
    · obtain ⟨n, hn, hlt, hnj, -⟩ := hf.shape.node_spec j p a ha
      rw [memSize_of hn]
      exact lt_of_index_lt (by omega) hs256 (by rw [hnj, hi]; exact hji)
    · exact hnone a (below_nil ha)
  rcases nextTree_spec (i := i) hf hmap with ⟨hnext, hempty⟩ | ⟨k, hik, hroot, hbetween, hnext⟩
  · refine ⟨none, best_forest hf hnone (fun j hj => hlow j hj.le) fun _ => hempty, ?_⟩
    rw [hnext]
    rfl
  · have hkey : ∀ p a, node k p = some a → s ≤ memSize F a := by
      intro p a ha
      obtain ⟨n, hn, hlt, hnk, -⟩ := hf.shape.node_spec k p a ha
      rw [memSize_of hn]
      exact (lt_of_index_lt hs256 (by omega) (by rw [hnk, hi]; exact hik)).le
    obtain ⟨o, pC, r, hloop, hm, hb⟩ := leftmostLoop_spec (i := k) hf hF hs hs32 loopFuel [] ∅ none
      null _ (by rw [loopFuel]; omega) (by simp) ⟨rfl, rfl⟩ best_empty
      fun c ⟨q, _, hq⟩ => hkey q c hq
    rw [Set.empty_union] at hb
    rw [hnext, hloop, hm.eq]
    refine ⟨o, best_forest hf hb (fun j hj p a ha => ?_) fun ho j hj => ?_, rfl⟩
    · rcases Nat.lt_or_ge i j with hij | hij
      · have hnone := hf.tree.none_of_suffix (hbetween j hij hj) (List.nil_suffix (l := p))
        rw [ha] at hnone
        simp at hnone
      · exact hlow j hij p a ha
    · -- the root of the next tree fits
      subst ho
      obtain ⟨a, ha⟩ := Option.isSome_iff_exists.mp hroot
      exact absurd (hb a (below_nil ha)) (not_lt.mpr (hkey [] a ha))

include hf hF hs in
/-- **The search** of `checkout_large_chunk_in_tree` finds the least chunk that fits. -/
theorem search_spec (hmap : h.treeMap = map) (hs256 : 256 ≤ s) (hs32 : s + 8 < 2 ^ 32) :
    ∃ o, Best (memSize F) s (nodes node) o ∧ h.checkoutLargeChunkInTree s =
      (h.unlinkLargeChunk (o.getD null)).map fun h' => (h', o.getD null) := by
  obtain ⟨i, hi⟩ : ∃ i, treeSizeToIndex s = i := ⟨_, rfl⟩
  have hi32 : i < 32 := hi ▸ treeSizeToIndex_lt hs256
  have hk := hf.keyed hF i
  have hr0 : wsub 0 (s + 8) = 2 ^ 32 - (s + 8) := by
    unfold wsub
    omega
  have hroot : h.mem (treeSlot i) = (node i []).getD null := hf.root_eq hi32
  have heq : ∀ f pC, (if (node i []).getD null ≠ null then
        h.descendLoop (s + 8) loopFuel ((node i []).getD null) null
          ((s <<< leftshiftForTreeIndex i) % 2 ^ 32) null (2 ^ 32 - (s + 8))
      else some (null, null, 2 ^ 32 - (s + 8))) = some f →
      h.leftmostLoop (s + 8) loopFuel (h.nextTree i f.1 f.2.1) f.2.1 f.2.2 = some pC →
      h.checkoutLargeChunkInTree s = (h.unlinkLargeChunk pC).map fun h' => (h', pC) := by
    intro f pC hfound hloop
    rw [checkoutLargeChunkInTree, hi, chunkHead, wadd_of_lt hs32, hr0, hroot, hfound, Option.bind_some, hloop, Option.bind_some]
  cases hp : node i [] with
  | none =>
      rw [hp] at heq
      have hnone : Best (memSize F) s {c | Below (node i) [] c} none :=
        fun c hc => absurd hc (hk.not_below hp)
      obtain ⟨o, hb, hloop⟩ := search_next hf hF hs hmap hs256 hs32 hi hnone
      exact ⟨o, hb, heq _ _ (if_neg (not_not.mpr rfl)) hloop⟩
  | some a =>
      rw [hp, Option.getD_some, if_pos (hf.tree.ne_null i _ a hp), Nat.shiftLeft_eq] at heq
      rcases descendLoop_spec hf hF hs hs256 hs32 hi loopFuel [] a ∅ none none null
        (2 ^ 32 - (s + 8)) hp (by rw [loopFuel]; omega) frontier_nil ⟨rfl, rfl⟩ (by omega)
        best_empty with ⟨b, q, hq, hkey, hloop⟩ | ⟨q, r, S, o, pC, rs, hq, hfr, hm, hb, hloop⟩
      · -- a chunk of the size
        have hbn : b ≠ null := hf.tree.ne_null i q b hq
        refine ⟨some b, ⟨mem_nodes hq, hkey.ge, fun c _ hc => hkey.le.trans hc⟩,
          heq _ b hloop ?_⟩
        have hzero := leftmostLoop_zero (x := b) (C := s + 8) (i := i) hf loopFuel q
          (by rw [loopFuel]; omega) (by have := length_le hf hq; omega)
        rw [hq, Option.getD_some] at hzero
        rw [nextTree, if_neg fun h' => hbn h'.1, hzero]
      · have hqlen := hfr.agrees.length_le
        have hbits : treeBits i ≤ 32 := by unfold treeBits; omega
        have hright : ∀ t ∈ r, t.length ≤ 33 ∧ (node i t).getD null ≠ null := by
          intro t ht
          obtain ⟨c, hc⟩ := Option.isSome_iff_exists.mp (hfr.right t ht).1
          have := length_le hf hc
          rw [hc]
          exact ⟨by omega, hf.tree.ne_null i t c hc⟩
        by_cases hnull : bigTree node i r = null ∧ pC = null
        · -- nothing fits in this tree
          have hr : r = none := by
            cases r with
            | none => rfl
            | some t => exact absurd hnull.1 (hright t rfl).2
          have ho : o = none := by
            cases o with
            | none => rfl
            | some b =>
                obtain ⟨hpC, n, hn, -⟩ := hm
                exact absurd (hpC ▸ hnull.2) (hF.pos_of hn)
          subst hr ho
          have hnone : Best (memSize F) s {c | Below (node i) [] c} none := by
            refine hfr.best hk hq fun c hc => ?_
            rcases hc with hc | ⟨t, ht, -⟩
            · exact hb c hc
            · simp at ht
          obtain ⟨o, hbest, hnext⟩ := search_next hf hF hs hmap hs256 hs32 hi hnone
          refine ⟨o, hbest, heq _ _ hloop ?_⟩
          rw [hnull.1, hm.1, hm.2]
          exact hnext
        · -- the walk goes through what is below the last right child
          obtain ⟨t, ht, htlen, htfit, hbelow⟩ : ∃ t, bigTree node i r = (node i t).getD null ∧
              t.length ≤ 33 ∧ (∀ c, Below (node i) t c → s ≤ memSize F c) ∧
              {c | Below (node i) t c} = {c | ∃ t ∈ r, Below (node i) t c} := by
            cases r with
            | none =>
                refine ⟨q, by rw [hq]; rfl, by omega, fun c hc => absurd hc (hk.not_below hq), ?_⟩
                ext c
                simp [hk.not_below hq]
            | some t =>
                refine ⟨t, rfl, (hright t rfl).1, fun c hc => ((hfr.right t rfl).2 c hc).1, ?_⟩
                ext c
                simp
          obtain ⟨o', pC', rs', hwalk, hm', hb'⟩ := leftmostLoop_spec hf hF hs hs32 loopFuel t S o
            pC rs (by rw [loopFuel]; omega) htlen hm hb htfit
          rw [hbelow] at hb'
          -- something fits in this tree
          have hsome : o' ≠ none := by
            rintro rfl
            refine hnull ⟨?_, ?_⟩
            · cases r with
              | none => rfl
              | some t' =>
                  obtain ⟨c, hc⟩ := Option.isSome_iff_exists.mp (hfr.right t' rfl).1
                  have hbc := below_self hc
                  exact absurd (hb' c (Or.inr ⟨t', rfl, hbc⟩))
                    (not_lt.mpr ((hfr.right t' rfl).2 c hbc).1)
            · cases o with
              | none => exact hm.1
              | some b => exact absurd (hb' b (Or.inl hb.1)) (not_lt.mpr hb.2.1)
          have hlow : ∀ j < i, ∀ p c, node j p = some c → memSize F c < s := by
            intro j hj p c hc
            obtain ⟨n, hn, hlt, hnj, -⟩ := hf.shape.node_spec j p c hc
            rw [memSize_of hn]
            exact lt_of_index_lt (by omega) hs256 (by rw [hnj, hi]; exact hj)
          refine ⟨o', best_forest hf (hfr.best hk hq hb') hlow fun ho => absurd ho hsome,
            heq _ _ hloop ?_⟩
          rw [nextTree, if_neg hnull, ← hm'.eq, ht]
          exact hwalk

/-! ### The least chunk -/

include hf hF hs in
/-- **The loop** of `checkout_small_chunk_in_tree` finds the least chunk of a subtree. -/
theorem smallestLoop_spec : ∀ fuel p a S b FreeSize, node i p = some a → 32 < fuel + p.length →
    a ∈ S → Best (memSize F) 0 S (some b) → F b = some FreeSize → 264 < FreeSize →
    ∃ c, h.smallestLoop fuel a FreeSize b = some c ∧
      Best (memSize F) 0 (S ∪ {c | Below (node i) p c}) (some c) := by
  have hk := hf.keyed hF i
  intro fuel
  induction fuel with
  | zero =>
      intro p a S b FreeSize ha hfuel
      have := length_le hf ha
      omega
  | succ fuel ih =>
      intro p a S b FreeSize ha hfuel haS hb hFb hlt
      obtain ⟨d, hd, hd1, hd2⟩ := letfmostChild_eq hf ha
      have hfit : ∀ c, Below (node i) p c → 0 ≤ memSize F c := fun c _ => Nat.zero_le _
      have hins : insert a S = S := Set.insert_eq_of_mem haS
      rw [smallestLoop, hd]
      cases hc : node i (d :: p) with
      | none =>
          refine ⟨b, if_neg (not_not.mpr rfl), Best.leftmost hk ha hfit hd1 hd2 ?_⟩
          rw [hins]
          refine hb.enlarge (fun c hc => Or.inl hc) fun c hcS hle => ?_
          rcases hcS with hcS | hcS
          · exact ⟨c, hcS, hle, le_rfl⟩
          · exact absurd hcS (hk.not_below hc)
      | some c =>
          obtain ⟨n, hn, hnlt, -⟩ := node_size hf hF hc
          have hfuel' : 32 < fuel + (d :: p).length := by rw [List.length_cons]; omega
          have hset : insert c S ∪ {x | Below (node i) (d :: p) x} =
              insert a S ∪ {x | Below (node i) (d :: p) x} := by
            rw [hins, Set.insert_union]
            exact Set.insert_eq_of_mem (Or.inr (below_self hc))
          rw [Option.getD_some, if_pos (hf.tree.ne_null i _ c hc)]
          have hinfo : h.thisInfo c = n := hs c n hn
          dsimp only
          rw [hinfo]
          by_cases hless : n < FreeSize
          · rw [if_pos hless]
            have hbetter : Best (memSize F) 0 (insert c S) (some c) := by
              refine hb.insert_better (Nat.zero_le _) fun b' hb' => ?_
              rw [Option.some.injEq] at hb'
              rw [← hb', memSize_of hn, memSize_of hFb]
              omega
            obtain ⟨e, hloop, hbest⟩ := ih (d :: p) c (insert c S) c n hc hfuel'
              (Set.mem_insert c S) hbetter hn hnlt
            exact ⟨e, hloop, Best.leftmost hk ha hfit hd1 hd2 (hset ▸ hbest)⟩
          · rw [if_neg hless]
            have hother : Best (memSize F) 0 (insert c S) (some b) := by
              refine hb.insert_other (Or.inr ⟨b, rfl, ?_⟩)
              rw [memSize_of hn, memSize_of hFb]
              omega
            obtain ⟨e, hloop, hbest⟩ := ih (d :: p) c (insert c S) b FreeSize hc hfuel'
              (Set.mem_insert c S) hother hFb hlt
            exact ⟨e, hloop, Best.leftmost hk ha hfit hd1 hd2 (hset ▸ hbest)⟩

/-! ### The functions -/

include hf in
/-- The chunks of the rings are as great as their nodes. -/
lemma exists_same (ha : F a = some n) (hn : 264 < n) : ∃ b ∈ nodes node, F b = some n := by
  obtain ⟨p, b, hb, hbn, -⟩ := hf.shape.exists_node ha hn
  exact ⟨b, mem_nodes hb, hbn⟩

end BestFit

section Checkout

variable {F : ℕ → Option ℕ} {node : ℕ → List Bool → Option ℕ} {ring : ℕ → List ℕ} {s x n : ℕ}
  {h h' : Heap}

/-- The large chunk `x` was taken out of the trees. -/
structure TakenOut (F : ℕ → Option ℕ) (h h' : Heap) (x n : ℕ) : Prop where
  size : F x = some n
  large : 264 < n
  edit : LargeEdit F h h'
  forest : ∃ node' ring', Forest (fields h') h'.treeMap (Function.update F x none) node' ring'

/-- **`checkout_large_chunk_in_tree`** takes the least large chunk that fits, if there is one. -/
theorem Forest.checkoutLarge (hf : Forest (fields h) h.treeMap F node ring) (hF : Chunks F)
    (hs : Sized h F) (hs256 : 256 ≤ s) (hs32 : s + 8 < 2 ^ 32) :
    (h.checkoutLargeChunkInTree s = some (h, null) ∧
      ∀ a n, F a = some n → 264 < n → n - 8 < s) ∨
    ∃ x n h', h.checkoutLargeChunkInTree s = some (h', x) ∧ TakenOut F h h' x n ∧ s ≤ n - 8 ∧
      ∀ a k, F a = some k → 264 < k → s ≤ k - 8 → n ≤ k := by
  obtain ⟨o, hb, heq⟩ := search_spec hf hF hs rfl hs256 hs32
  cases o with
  | none =>
      refine Or.inl ⟨heq, fun a n ha hn => ?_⟩
      obtain ⟨b, hbn, hFb⟩ := exists_same hf ha hn
      have := hb b hbn
      rwa [memSize_of hFb] at this
  | some x =>
      obtain ⟨⟨i, p, hx⟩, hle, hmin⟩ := hb
      obtain ⟨n, hn, hlt, -⟩ := node_size hf hF hx
      rw [memSize_of hn] at hle hmin
      obtain ⟨h', hunlink, hedit, hforest⟩ := hf.unlink hF hn hlt
      refine Or.inr ⟨x, n, h', ?_, ⟨hn, hlt, hedit, hforest⟩, hle, fun a k ha hk hfit => ?_⟩
      · rw [heq, Option.getD_some, hunlink]
        rfl
      · obtain ⟨b, hbn, hFb⟩ := exists_same hf ha hk
        have := hmin b hbn (by rwa [memSize_of hFb])
        rw [memSize_of hFb] at this
        omega

/-- **`checkout_small_chunk_in_tree`** takes the least large chunk, if there is one. -/
theorem Forest.checkoutSmall (hf : Forest (fields h) h.treeMap F node ring) (hF : Chunks F)
    (hs : Sized h F) :
    (h.checkoutSmallChunkInTree = some (h, null) ∧ ∀ a n, F a = some n → n ≤ 264) ∨
    ∃ x n h', h.checkoutSmallChunkInTree = some (h', x) ∧ TakenOut F h h' x n ∧
      ∀ a k, F a = some k → 264 < k → n ≤ k := by
  rw [checkoutSmallChunkInTree]
  rcases eq_zero_or_lowest h.treeMap with h0 | ⟨k, hk, hset, hlow⟩
  · refine Or.inl ⟨if_pos h0, fun a n ha => ?_⟩
    by_contra hn
    obtain ⟨i, p, b, hb, -⟩ := hf.shape.complete a n ha (not_le.mp hn)
    have hroot : node i [] = none := by
      by_contra hne
      have hset := (hf.map i (hf.shape.index_lt hb)).mpr (Option.isSome_iff_ne_none.mpr hne)
      rw [h0] at hset
      simp at hset
    rw [hf.tree.none_of_suffix hroot List.nil_suffix] at hb
    simp at hb
  · have hne : h.treeMap ≠ 0 := by
      intro h0
      rw [h0] at hset
      simp at hset
    obtain ⟨a, ha⟩ := Option.isSome_iff_exists.mp ((hf.map k hk).mp hset)
    obtain ⟨m, hm, hmlt, -⟩ := node_size hf hF ha
    have hroot : h.mem (treeSlot k) = a := by
      have h1 : h.mem (treeSlot k) = _ := hf.root_eq hk
      rw [h1, ha, Option.getD_some]
    have hsingle : Best (memSize F) 0 {a} (some a) :=
      ⟨rfl, Nat.zero_le _, fun c hc _ => by rw [Set.mem_singleton_iff.mp hc]⟩
    obtain ⟨x, hloop, hb⟩ := smallestLoop_spec hf hF hs loopFuel [] a {a} a m ha
      (by rw [loopFuel]; omega) rfl hsingle hm hmlt
    have hunion : {a} ∪ {c | Below (node k) [] c} = {c | Below (node k) [] c} := by
      rw [Set.singleton_union]
      exact Set.insert_eq_of_mem (below_self ha)
    rw [hunion] at hb
    -- the trees before it are empty
    have hempty : ∀ j < k, ∀ p c, node j p = some c → memSize F c < 0 := by
      intro j hj p c hc
      have hnone : node j [] = none := by
        by_contra hne
        have hjset := (hf.map j (by omega)).mpr (Option.isSome_iff_ne_none.mpr hne)
        rw [hlow j hj] at hjset
        simp at hjset
      rw [hf.tree.none_of_suffix hnone List.nil_suffix] at hc
      simp at hc
    have hbest := best_forest hf hb hempty fun ho => by simp at ho
    obtain ⟨⟨i, p, hx⟩, -, hmin⟩ := hbest
    obtain ⟨n, hn, hlt, -⟩ := node_size hf hF hx
    obtain ⟨h', hunlink, hedit, hforest⟩ := hf.unlink hF hn hlt
    refine Or.inr ⟨x, n, h', ?_, ⟨hn, hlt, hedit, hforest⟩, fun c l hc hl => ?_⟩
    · rw [if_neg hne, bitScanForward_of_lowest hset hlow]
      dsimp only
      rw [hroot, hs a m hm, hloop, Option.bind_some, hunlink]
      rfl
    · obtain ⟨b, hbn, hFb⟩ := exists_same hf hc hl
      have := hmin b hbn (Nat.zero_le _)
      rw [memSize_of hFb, memSize_of hn] at this
      omega

end Checkout

end Heap

end ChinaOS
