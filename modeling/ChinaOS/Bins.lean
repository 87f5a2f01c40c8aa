import ChinaOS.TreeBins

/-!
The lists and the trees together: the bins of a heap.

* `Bins`: the bins hold exactly the chunks `F`, the small ones in the lists and the large ones in
  the trees. `BinEdit`: only the records of the bins change.
* `Bins.checkin`, `Bins.unlinkChunk`: a chunk goes into the bins, or out of them.
* `Bins.checkoutChunk`: the search of `malloc` takes a chunk that fits, if there is one.
-/

namespace ChinaOS

namespace Heap

open Records Trie Forest

/-- The bins of the heap hold exactly the chunks `F`. -/
structure Bins (h : Heap) (F : ℕ → Option ℕ) : Prop where
  groups : ∃ box, Groups (fields h) h.sameMap F box
  forest : ∃ node ring, Forest (fields h) h.treeMap F node ring

/-- Only fields of the records of the bins, and the bitmaps, change. -/
structure BinEdit (F : ℕ → Option ℕ) (h h' : Heap) : Prop where
  mem : ∀ w, (∀ x o, Own F x o → w ≠ x + o) → h'.mem w = h.mem w
  lock : h'.lock = h.lock

section Bins

variable {F F' : ℕ → Option ℕ} {h h' : Heap} {x n : ℕ}

lemma SmallEdit.binEdit (he : SmallEdit F h h') : BinEdit F h h' :=
  ⟨fun w hw => he.mem w fun x o hx => hw x o (Or.inl hx), he.lock⟩

lemma LargeEdit.binEdit (he : LargeEdit F h h') : BinEdit F h h' :=
  ⟨fun w hw => he.mem w fun x o hx => hw x o (Or.inr hx), he.lock⟩

/-- The lists depend on the small chunks only. -/
lemma Groups.congr_chunks {v : ℕ → ℕ → ℕ} {map : Int32U} {box : ℕ → List ℕ}
    (hg : Groups v map F box) (hF : ∀ a n, n ≤ 264 → (F' a = some n ↔ F a = some n)) :
    Groups v map F' box := by
  refine ⟨hg.rings, fun i hi a => (hg.mem_iff i hi a).trans ?_, hg.map⟩
  exact exists_congr fun n => by
    constructor
    · rintro ⟨ha, hn, hi⟩
      exact ⟨(hF a n hn).mpr ha, hn, hi⟩
    · rintro ⟨ha, hn, hi⟩
      exact ⟨(hF a n hn).mp ha, hn, hi⟩

/-- The functions on the lists keep the trees. -/
lemma SmallEdit.forest {node : ℕ → List Bool → Option ℕ} {ring : ℕ → List ℕ}
    (he : SmallEdit F h h') (hF : Chunks F) (hf : Forest (fields h) h.treeMap F node ring) :
    Forest (fields h') h'.treeMap F node ring := by
  rw [he.treeMap]
  exact hf.congr fun x o hx => he.mem (x + o) fun y p hy he' => hF.small_ne_large hy hx he'.symm

/-- The functions on the trees keep the lists. -/
lemma LargeEdit.groups {box : ℕ → List ℕ} (he : LargeEdit F h h') (hF : Chunks F)
    (hg : Groups (fields h) h.sameMap F box) : Groups (fields h') h'.sameMap F box := by
  rw [he.sameMap]
  exact hg.congr hF fun x o hx => he.mem (x + o) fun y p hy => hF.small_ne_large hx hy

/-- A chunk more or less of the other kind. -/
lemma update_iff {o : Option ℕ} {P : ℕ → Prop} (hx : ∀ n, F x = some n → ¬ P n)
    (ho : ∀ n, o = some n → ¬ P n) : ∀ a n, P n → (Function.update F x o a = some n ↔
      F a = some n) := by
  intro a n hn
  by_cases ha : a = x
  · subst ha
    rw [Function.update_self]
    exact iff_of_false (fun h => ho n h hn) fun h => hx n h hn
  · rw [Function.update_of_ne ha]

namespace Bins

/-- The bins depend on their records only. -/
lemma congr (hb : Bins h F) (hF : Chunks F)
    (hmem : ∀ x o, Own F x o → h'.mem (x + o) = h.mem (x + o)) (hsame : h'.sameMap = h.sameMap)
    (htree : h'.treeMap = h.treeMap) : Bins h' F := by
  obtain ⟨⟨box, hg⟩, node, ring, hf⟩ := hb
  refine ⟨⟨box, ?_⟩, node, ring, ?_⟩
  · rw [hsame]
    exact hg.congr hF fun x o hx => hmem x o (Or.inl hx)
  · rw [htree]
    exact hf.congr fun x o hx => hmem x o (Or.inr hx)

lemma isSmall_iff (hn : 16 ≤ n) : isSmall (n - 8) = true ↔ n ≤ 264 := by
  rw [isSmall, decide_eq_true_iff]
  omega

/-- **A chunk goes into its bin.** -/
theorem checkin (hb : Bins h F) (hF : Chunks (Function.update F x (some n))) (hs : Sized h F)
    (hx : F x = none) :
    ∃ h', h.checkinFreeChunk x n = some h' ∧ BinEdit (Function.update F x (some n)) h h' ∧
      Bins h' (Function.update F x (some n)) := by
  have hself : Function.update F x (some n) x = some n := Function.update_self ..
  have hsize := hF.size x n hself
  have hle := hF.le x n hself
  have hpos := hF.pos x n hself
  have hnone : ∀ P : ℕ → Prop, ∀ k, F x = some k → ¬ P k := fun P k hk => by
    rw [hx] at hk
    simp at hk
  have hw : wsub n 8 = n - 8 := wsub_of_le (by omega) (by omega)
  rw [checkinFreeChunk, if_pos (hF.pos_of hself), hw]
  obtain ⟨⟨box, hg⟩, node, ring, hf⟩ := hb
  by_cases hn : n ≤ 264
  · obtain ⟨hedit, box', hg'⟩ := hg.insert hF hx hn
    refine ⟨_, if_pos ((isSmall_iff hsize).mpr hn), hedit.binEdit, ⟨box', hg'⟩, node, ring, ?_⟩
    exact hedit.forest hF (hf.congr_chunks (update_iff (hnone _) fun k hk => by
      rw [Option.some.injEq] at hk
      omega))
  · obtain ⟨h', heq, hedit, node', ring', hf'⟩ := hf.insert hF hs hx (not_le.mp hn)
    refine ⟨h', ?_, hedit.binEdit, ⟨box, ?_⟩, node', ring', hf'⟩
    · exact (if_neg fun hsmall => hn ((isSmall_iff hsize).mp hsmall)).trans heq
    · exact hedit.groups hF (hg.congr_chunks (update_iff (hnone _) fun k hk => by
        rw [Option.some.injEq] at hk
        omega))

/-- A large chunk that was taken out of the trees is out of the bins. -/
lemma of_takenOut (hb : Bins h F) (hF : Chunks F) (ht : TakenOut F h h' x n) :
    Bins h' (Function.update F x none) := by
  obtain ⟨⟨box, hg⟩, -⟩ := hb
  have hlarge := ht.large
  refine ⟨⟨box, (ht.edit.groups hF hg).congr_chunks (update_iff (fun k hk => ?_) fun k hk => by
    simp at hk)⟩, ht.forest⟩
  rw [ht.size, Option.some.injEq] at hk
  omega

/-- A small chunk that was taken out of its list is out of the bins. -/
lemma of_smallEdit (hb : Bins h F) (hF : Chunks F) (hx : F x = some n) (hn : n ≤ 264)
    (he : SmallEdit F h h') {box : ℕ → List ℕ}
    (hg : Groups (fields h') h'.sameMap (Function.update F x none) box) :
    Bins h' (Function.update F x none) := by
  obtain ⟨-, node, ring, hf⟩ := hb
  refine ⟨⟨box, hg⟩, node, ring, (he.forest hF hf).congr_chunks (update_iff (fun k hk => ?_)
    fun k hk => by simp at hk)⟩
  rw [hx, Option.some.injEq] at hk
  omega

/-- **A chunk goes out of its bin.** -/
theorem unlinkChunk (hb : Bins h F) (hF : Chunks F) (hx : F x = some n) :
    ∃ h', h.unlinkChunk x (n - 8) = some h' ∧ BinEdit F h h' ∧
      Bins h' (Function.update F x none) := by
  have hsize := hF.size x n hx
  obtain ⟨⟨box, hg⟩, node, ring, hf⟩ := id hb
  rw [Heap.unlinkChunk]
  by_cases hn : n ≤ 264
  · obtain ⟨hedit, box', hg'⟩ := hg.unlink hF hx hn
    exact ⟨_, if_pos ((isSmall_iff hsize).mpr hn), hedit.binEdit,
      hb.of_smallEdit hF hx hn hedit hg'⟩
  · obtain ⟨h', heq, hedit, hforest⟩ := hf.unlink hF hx (not_le.mp hn)
    exact ⟨h', (if_neg fun hsmall => hn ((isSmall_iff hsize).mp hsmall)).trans heq,
      hedit.binEdit, hb.of_takenOut hF ⟨hx, not_le.mp hn, hedit, hforest⟩⟩

end Bins

/-! ### The search of `malloc` -/

variable {node : ℕ → List Bool → Option ℕ} {ring : ℕ → List ℕ} {i : ℕ} {p : List Bool} {a C : ℕ}

/-- The descent with no margin left finds nothing. -/
lemma descendLoop_zero (hf : Forest (fields h) h.treeMap F node ring) : ∀ fuel p a pBigTree k,
    node i p = some a → 32 < fuel + p.length →
    (pBigTree = null ∨ ∃ q, node i q = some pBigTree) →
    ∃ t, h.descendLoop C fuel a pBigTree k x 0 = some (t, x, 0) ∧
      (t = null ∨ ∃ q, node i q = some t) := by
  intro fuel
  induction fuel with
  | zero =>
      intro p a pBigTree k ha hfuel
      have := length_le hf ha
      omega
  | succ fuel ih =>
      intro p a pBigTree k ha hfuel hbig
      have hchild : ∀ d : Bool, h.child a d.toNat = (node i (d :: p)).getD null := fun d => by
        rw [Heap.child, childAddr_eq]
        exact hf.child_eq ha d
      have hchild' : ∀ d : Bool, h.child a d.toNat = null ∨
          ∃ q, node i q = some (h.child a d.toNat) := by
        intro d
        rw [hchild]
        cases hc : node i (d :: p) with
        | none => exact Or.inl rfl
        | some c => exact Or.inr ⟨d :: p, hc⟩
      obtain ⟨d, hd⟩ : ∃ d : Bool, (k >>> 31) &&& 1 = d.toNat := by
        rw [Nat.and_one_is_mod]
        rcases Nat.mod_two_eq_zero_or_one (k >>> 31) with h0 | h1
        · exact ⟨false, h0⟩
        · exact ⟨true, h1⟩
      rw [descendLoop, hd]
      simp only [Nat.not_lt_zero, decide_false, Bool.false_eq_true, if_false, false_and]
      have hbig' : ∀ e : ℕ, ((if h.child a 1 ≠ null ∧ h.child a 1 ≠ e then h.child a 1
          else pBigTree) = null ∨ ∃ q, node i q = some (if h.child a 1 ≠ null ∧ h.child a 1 ≠ e
            then h.child a 1 else pBigTree)) := by
        intro e
        split_ifs
        · exact hchild' true
        · exact hbig
      cases hc : node i (d :: p) with
      | none =>
          rw [hchild d, hc]
          exact ⟨_, if_pos rfl, hbig' _⟩
      | some c =>
          have hcd : h.child a d.toNat = c := by rw [hchild, hc]; rfl
          rw [hcd, if_neg (hf.tree.ne_null i _ c hc)]
          exact ih (d :: p) c _ _ hc (by rw [List.length_cons]; omega) (hbig' c)

/-- The search for a chunk of `2 ^ 32` bytes, whose size wraps to zero. -/
lemma checkoutLarge_last (hf : Forest (fields h) h.treeMap F node ring) :
    h.checkoutLargeChunkInTree (2 ^ 32 - 8) = some (h, null) := by
  have hwalk : ∀ k t, (t = null ∨ ∃ q, node k q = some t) →
      h.leftmostLoop 0 loopFuel t null 0 = some null := by
    rintro k t (rfl | ⟨q, hq⟩)
    · exact if_neg (not_not.mpr rfl)
    · have hzero := leftmostLoop_zero (x := null) (C := 0) (i := k) hf loopFuel q
        (by rw [loopFuel]; omega) (by have := length_le hf hq; omega)
      rwa [hq, Option.getD_some] at hzero
  obtain ⟨i, hi⟩ : ∃ i, treeSizeToIndex (2 ^ 32 - 8) = i := ⟨_, rfl⟩
  have hi32 : i < 32 := hi ▸ treeSizeToIndex_lt (by norm_num)
  have hroot : h.mem (treeSlot i) = (node i []).getD null := hf.root_eq hi32
  have hnext : ∀ t, (t = null ∨ ∃ q, node i q = some t) →
      h.leftmostLoop 0 loopFuel (h.nextTree i t null) null 0 = some null := by
    intro t ht
    by_cases h0 : t = null
    · subst h0
      rcases nextTree_spec (i := i) hf rfl with ⟨hn, -⟩ | ⟨k, -, hk, -, hn⟩
      · rw [hn]
        exact hwalk i null (Or.inl rfl)
      · obtain ⟨b, hb⟩ := Option.isSome_iff_exists.mp hk
        rw [hn, hb]
        exact hwalk k b (Or.inr ⟨[], hb⟩)
    · rw [nextTree, if_neg fun h' => h0 h'.1]
      exact hwalk i t ht
  have heq : ∀ t, (t = null ∨ ∃ q, node i q = some t) → (if (node i []).getD null ≠ null then
        h.descendLoop 0 loopFuel ((node i []).getD null) null
          (((2 ^ 32 - 8) <<< leftshiftForTreeIndex i) % 2 ^ 32) null 0
      else some (null, null, 0)) = some (t, null, 0) →
      h.checkoutLargeChunkInTree (2 ^ 32 - 8) = some (h, null) := by
    intro t ht hfound
    rw [checkoutLargeChunkInTree, hi, chunkHead, show wadd (2 ^ 32 - 8) 8 = 0 from rfl,
      show wsub 0 0 = 0 from rfl, hroot, hfound, Option.bind_some, hnext t ht]
    rfl
  cases hp : node i [] with
  | none =>
      rw [hp] at heq
      exact heq null (Or.inl rfl) (if_neg (not_not.mpr rfl))
  | some a =>
      obtain ⟨t, ht, hcase⟩ := descendLoop_zero (C := 0) (x := null) hf loopFuel [] a null
        (((2 ^ 32 - 8) <<< leftshiftForTreeIndex i) % 2 ^ 32) hp (by rw [loopFuel]; omega)
        (Or.inl rfl)
      rw [hp, Option.getD_some, if_pos (hf.tree.ne_null i _ a hp)] at heq
      exact heq t hcase ht

/-- The memory of a chunk that serves a request of `Size` bytes. -/
def request (Size : ℕ) : ℕ :=
  let r := (Size + 16 + 3) / 4 * 4
  if r ≤ 256 then (r + 7) / 8 * 8 else r

/-- The bits of a word from one on. -/
lemma getLsbD_shift_back (x : Int32U) {i j : ℕ} (hj : j < 32) :
    ((x >>> i) <<< i).getLsbD j = (x.getLsbD j && decide (i ≤ j)) := by
  rw [BitVec.getLsbD_shiftLeft, BitVec.getLsbD_ushiftRight]
  by_cases hij : j < i
  · simp [hij]
  · simp [hij, hj, not_lt.mp hij, Nat.add_sub_cancel' (not_lt.mp hij)]

/-- **The search in the lists** for a small request: the first list that is not empty, from the
one of the size on. -/
lemma search_lists {box : ℕ → List ℕ} (hg : Groups (fields h) h.sameMap F box) (hi : 0 < i) :
    let k := (0x1F &&& bitScanForward ((h.sameMap >>> i) <<< i)).toNat
    (k = 0 ∧ ∀ j < 32, i ≤ j → box j = []) ∨
      k ≠ 0 ∧ i ≤ k ∧ k < 32 ∧ box k ≠ [] ∧ ∀ j < k, i ≤ j → box j = [] := by
  have hbit : ∀ j < 32, ((h.sameMap >>> i) <<< i).getLsbD j = true ↔ box j ≠ [] ∧ i ≤ j := by
    intro j hj
    rw [getLsbD_shift_back _ hj, Bool.and_eq_true, hg.map j hj, decide_eq_true_iff]
  dsimp only
  rcases eq_zero_or_lowest ((h.sameMap >>> i) <<< i) with h0 | ⟨k, hk, hset, hlow⟩
  · refine Or.inl ⟨by rw [h0]; decide, fun j hj hij => ?_⟩
    by_contra hne
    have hset := (hbit j hj).mpr ⟨hne, hij⟩
    rw [h0] at hset
    simp at hset
  · obtain ⟨hne, hik⟩ := (hbit k hk).mp hset
    have hscan : (0x1F &&& bitScanForward ((h.sameMap >>> i) <<< i)).toNat = k := by
      rw [BitVec.toNat_and, bitScanForward_of_lowest hset hlow]
      have hand : ∀ k : Fin 32, (0x1F : Int32U).toNat &&& (k : ℕ) = k := by decide
      exact hand ⟨k, hk⟩
    rw [hscan]
    refine Or.inr ⟨by omega, hik, hk, hne, fun j hj hij => ?_⟩
    by_contra hne'
    have hset' := (hbit j (by omega)).mpr ⟨hne', hij⟩
    rw [hlow j hj] at hset'
    simp at hset'

/-- A chunk of `n` bytes is the least one that serves a request of `R` bytes, up to the bytes that
the chunks of its list differ by. -/
def Nearest (F : ℕ → Option ℕ) (R n : ℕ) : Prop :=
  ∀ a k, F a = some k → R ≤ k - 8 → n ≤ k ∨ n ≤ 264 ∧ (n - 8) / 8 ≤ (k - 8) / 8

namespace Bins

/-- A request for little memory. -/
lemma checkoutChunk_small (hb : Bins h F) (hF : Chunks F) (hs : Sized h F) {Size : Int32U}
    (hlow : 16 ≤ Size.toNat) (hsize : Size.toNat ≤ 256) :
    ∃ R : Int32U, R.toNat = (Size.toNat + 7) / 8 * 8 ∧
      ((h.checkoutChunk Size = some (h, null, R) ∧ ∀ a n, F a = some n → n - 8 < R.toNat) ∨
        ∃ x n h', h.checkoutChunk Size = some (h', x, R) ∧ F x = some n ∧ R.toNat ≤ n - 8 ∧
          BinEdit F h h' ∧ Bins h' (Function.update F x none) ∧ Nearest F R.toNat n) := by
  obtain ⟨⟨box, hg⟩, node, ring, hf⟩ := id hb
  set R := alignUpside Size 8 with hR
  have hRn : R.toNat = (Size.toNat + 7) / 8 * 8 := toNat_alignUpside_eight (by omega)
  obtain ⟨i, hi⟩ : ∃ i, getBoxIndex R.toNat = i := ⟨_, rfl⟩
  have hi' : i = R.toNat / 8 - 1 := by rw [← hi, getBoxIndex_eq (by omega) (by omega)]
  -- the lists from this one on hold what fits
  have hbox : ∀ a n, F a = some n → n ≤ 264 → (i ≤ getBoxIndex (n - 8) ↔ R.toNat ≤ n - 8) := by
    intro a n ha hn
    have hn16 := hF.size a n ha
    rw [getBoxIndex_eq (by omega) (by omega)]
    omega
  have hcheck : h.checkoutChunk Size =
      if (0x1F &&& bitScanForward ((h.sameMap >>> i) <<< i)).toNat ≠ 0 then
        some ((h.checkoutSmallChunkInGroup (getSameChunkGroup
          (0x1F &&& bitScanForward ((h.sameMap >>> i) <<< i)).toNat)
            (0x1F &&& bitScanForward ((h.sameMap >>> i) <<< i)).toNat).1,
          (h.checkoutSmallChunkInGroup (getSameChunkGroup
            (0x1F &&& bitScanForward ((h.sameMap >>> i) <<< i)).toNat)
              (0x1F &&& bitScanForward ((h.sameMap >>> i) <<< i)).toNat).2, R)
      else h.checkoutSmallChunkInTree.map fun r => (r.1, r.2, R) := by
    rw [Heap.checkoutChunk, if_pos (by rw [isSmall, decide_eq_true_iff]; exact hsize), ← hi]
  -- a chunk that fits is not in a list that is empty
  have hlist : ∀ a n, F a = some n → n ≤ 264 → R.toNat ≤ n - 8 → box (getBoxIndex (n - 8)) ≠ [] := by
    intro a n ha hn hfit hempty
    have hmem := (hg.mem_iff _ (boxIndex_lt (hF.size a n ha) hn) a).mpr ⟨n, ha, hn, rfl⟩
    rw [hempty] at hmem
    simp at hmem
  refine ⟨R, hRn, ?_⟩
  rcases search_lists (i := i) hg (by omega) with ⟨hk, hempty⟩ | ⟨hk, hik, hk32, hne, hlow'⟩
  · rw [if_neg (not_not.mpr hk)] at hcheck
    have hlarge : ∀ a n, F a = some n → R.toNat ≤ n - 8 → 264 < n := by
      intro a n ha hfit
      by_contra hn
      have hn' := not_lt.mp hn
      exact hlist a n ha hn' hfit (hempty _ (boxIndex_lt (hF.size a n ha) hn')
        ((hbox a n ha hn').mpr hfit))
    rcases hf.checkoutSmall hF hs with ⟨heq, hnone⟩ | ⟨x, n, h', heq, ht, hmin⟩
    · refine Or.inl ⟨by rw [hcheck, heq]; rfl, fun a n ha => ?_⟩
      by_contra hfit
      exact absurd (hnone a n ha) (not_le.mpr (hlarge a n ha (not_lt.mp hfit)))
    · have := ht.large
      exact Or.inr ⟨x, n, h', by rw [hcheck, heq]; rfl, ht.size, by omega, ht.edit.binEdit,
        hb.of_takenOut hF ht, fun a k ha hfit => Or.inl (hmin a k ha (hlarge a k ha hfit))⟩
  · rw [if_pos hk] at hcheck
    obtain ⟨x, n, hx, hFx, hn, hxi, hedit, box', hg'⟩ := hg.checkout hF hk32 hne
    refine Or.inr ⟨x, n, _, by rw [hcheck, hx], hFx, (hbox x n hFx hn).mp (hxi ▸ hik),
      hedit.binEdit, hb.of_smallEdit hF hFx hn hedit hg', fun a k ha hfit => ?_⟩
    have hn16 := hF.size x n hFx
    have hk16 := hF.size a k ha
    by_cases hk264 : k ≤ 264
    · -- the lists in front of the one of the chunk are empty
      have hle := not_lt.mp fun hlt => hlist a k ha hk264 hfit
        (hlow' _ hlt ((hbox a k ha hk264).mpr hfit))
      rw [← hxi, getBoxIndex_eq (by omega) (by omega), getBoxIndex_eq (by omega) (by omega)] at hle
      exact Or.inr ⟨hn, by omega⟩
    · exact Or.inl (by omega)

/-- A request for more memory. -/
lemma checkoutChunk_large (hb : Bins h F) (hF : Chunks F) (hs : Sized h F) {Size : Int32U}
    (hsize : 256 < Size.toNat) (hhigh : Size.toNat ≤ 2 ^ 32 - 8) (halign : Size.toNat % 4 = 0) :
    (h.checkoutChunk Size = some (h, null, Size) ∧ ∀ a n, F a = some n → n - 8 < Size.toNat) ∨
      ∃ x n h', h.checkoutChunk Size = some (h', x, Size) ∧ F x = some n ∧ Size.toNat ≤ n - 8 ∧
        BinEdit F h h' ∧ Bins h' (Function.update F x none) ∧ Nearest F Size.toNat n := by
  obtain ⟨-, node, ring, hf⟩ := id hb
  have hcheck : h.checkoutChunk Size =
      (h.checkoutLargeChunkInTree Size.toNat).map fun r => (r.1, r.2, Size) := by
    refine if_neg fun hsmall => ?_
    have := of_decide_eq_true hsmall
    omega
  rw [hcheck]
  by_cases hlast : Size.toNat = 2 ^ 32 - 8
  · refine Or.inl ⟨by rw [hlast, checkoutLarge_last hf]; rfl, fun a n ha => ?_⟩
    have hle := hF.le a n ha
    have hpos := hF.pos a n ha
    omega
  · rcases hf.checkoutLarge (s := Size.toNat) hF hs (by omega) (by omega) with
      ⟨heq, hnone⟩ | ⟨x, n, h', heq, ht, hfit, hmin⟩
    · refine Or.inl ⟨by rw [heq]; rfl, fun a n ha => ?_⟩
      by_cases hn : 264 < n
      · exact hnone a n ha hn
      · omega
    · exact Or.inr ⟨x, n, h', by rw [heq]; rfl, ht.size, hfit, ht.edit.binEdit,
        hb.of_takenOut hF ht, fun a k ha hk => Or.inl (hmin a k ha (by omega) hk)⟩

/-- **The search of `malloc`** takes a chunk that fits, if there is one. -/
theorem checkoutChunk (hb : Bins h F) (hF : Chunks F) (hs : Sized h F) {Size : Int32U}
    (hsize : Size.toNat ≤ 2 ^ 32 - 24) :
    ∃ R : Int32U, R.toNat = request Size.toNat ∧
      ((h.checkoutChunk (alignUpside (Size + 16#32) 4) = some (h, null, R) ∧
          ∀ a n, F a = some n → n - 8 < R.toNat) ∨
        ∃ x n h', h.checkoutChunk (alignUpside (Size + 16#32) 4) = some (h', x, R) ∧
          F x = some n ∧ R.toNat ≤ n - 8 ∧ BinEdit F h h' ∧
          Bins h' (Function.update F x none) ∧ Nearest F R.toNat n) := by
  have hadd : (Size + 16#32).toNat = Size.toNat + 16 := by bv_omega
  have halign : (alignUpside (Size + 16#32) 4).toNat = (Size.toNat + 16 + 3) / 4 * 4 := by
    rw [toNat_alignUpside_four (by omega), hadd]
  by_cases hsmall : (Size.toNat + 16 + 3) / 4 * 4 ≤ 256
  · have hlow : 16 ≤ (alignUpside (Size + 16#32) 4).toNat := by omega
    obtain ⟨R, hR, hcase⟩ := hb.checkoutChunk_small hF hs hlow (by omega)
    refine ⟨R, ?_, hcase⟩
    rw [hR, halign, request]
    exact (if_pos hsmall).symm
  · refine ⟨alignUpside (Size + 16#32) 4, ?_, hb.checkoutChunk_large hF hs (by omega) (by omega)
      (by omega)⟩
    rw [halign, request]
    exact (if_neg hsmall).symm

end Bins

end Bins

end Heap

end ChinaOS
