import ChinaOS.Allocate

/-!
Requests whose rounding wraps.

From `2 ^ 32 - 23` bytes on, the size that `malloc` searches for is `2 ^ 32 - 4`, for which the
size of the chunk wraps, or at most 16.

* `Finds`: the search finds a chunk all the same.
* `HeapInv.malloc_null`: otherwise `malloc` returns `NULL` and changes nothing.
* `HeapInv.malloc_finds`: what it returns then is the memory of a free chunk.
-/

namespace ChinaOS

namespace Heap

open Records Tiling

/-- The list at which the search for a small chunk arrives, or zero. -/
def listFound (h : Heap) (R : Int32U) : ℕ :=
  let Index := getBoxIndex (alignUpside R 8).toNat
  (0x1F &&& bitScanForward ((h.sameMap >>> Index) <<< Index)).toNat

/-- The search for the wrapped size `R` finds a chunk. -/
def Finds (h : Heap) (R : Int32U) : Prop :=
  if isSmall R.toNat then h.listFound R ≠ 0 ∨ h.treeMap ≠ 0 else testBit h.treeMap 31 = true

section Overflow

variable {B : Set (ℕ × ℕ)} {h h' : Heap} {c : ℕ → Option Piece} {F : ℕ → Option ℕ}
  {node : ℕ → List Bool → Option ℕ} {ring : ℕ → List ℕ} {Size R : Int32U} {p x n i k : ℕ}
  {Q : ℕ → Prop}

/-- **The wrapped sizes.** -/
lemma wrapped_request (hsize : 2 ^ 32 - 24 < Size.toNat) :
    (alignUpside (Size + 16#32) 4).toNat = 2 ^ 32 - 4 ∨
      (alignUpside (Size + 16#32) 4).toNat ≤ 16 := by
  have hlt := Size.isLt
  have hadd : (Size + 16#32).toNat = (Size.toNat + 16) % 2 ^ 32 := BitVec.toNat_add ..
  rw [toNat_alignUpside_word, hadd]
  omega

/-! ### The trees -/

/-- The search down a tree arrives at nodes only. -/
lemma descendLoop_closed {ChunkSize : ℕ}
    (hQ : ∀ x, Q x → ∀ k ≤ 1, h.child x k ≠ null → Q (h.child x k)) :
    ∀ fuel pTree pBigTree sizebits pChunk rsize r,
      h.descendLoop ChunkSize fuel pTree pBigTree sizebits pChunk rsize = some r → Q pTree →
      (pBigTree ≠ null → Q pBigTree) →
      (Q pChunk ∨ wsub (h.getChunkSize pTree) ChunkSize < rsize) →
      (r.1 ≠ null → Q r.1) ∧ Q r.2.1 := by
  intro fuel
  induction fuel with
  | zero =>
      intro pTree pBigTree sizebits pChunk rsize r heq
      simp [descendLoop] at heq
  | succ fuel ih =>
      intro pTree pBigTree sizebits pChunk rsize r heq htree hbig hchunk
      rw [descendLoop] at heq
      dsimp only at heq
      set trem := wsub (h.getChunkSize pTree) ChunkSize
      set k := (sizebits >>> 31) &&& 1 with hk
      have hk1 : k ≤ 1 := by
        rw [hk, Nat.and_one_is_mod]
        omega
      -- the best chunk so far is a node
      have hbest : Q (if decide (trem < rsize) = true then pTree else pChunk) := by
        split_ifs with hlt
        · exact htree
        · exact hchunk.resolve_right fun h => hlt (decide_eq_true h)
      generalize (if decide (trem < rsize) = true then pTree else pChunk) = pBest at heq hbest
      generalize (if decide (trem < rsize) = true then trem else rsize) = rest at heq
      have hbig' : (if h.child pTree 1 ≠ null ∧ h.child pTree 1 ≠ h.child pTree k then
          h.child pTree 1 else pBigTree) ≠ null → Q (if h.child pTree 1 ≠ null ∧
            h.child pTree 1 ≠ h.child pTree k then h.child pTree 1 else pBigTree) := by
        split_ifs with hright
        · exact fun _ => hQ pTree htree 1 le_rfl hright.1
        · exact hbig
      generalize (if h.child pTree 1 ≠ null ∧ h.child pTree 1 ≠ h.child pTree k then
          h.child pTree 1 else pBigTree) = pBig at heq hbig'
      by_cases hdone : decide (trem < rsize) = true ∧ rest = 0
      · rw [if_pos hdone, Option.some.injEq] at heq
        rw [← heq]
        exact ⟨fun _ => htree, hbest⟩
      · rw [if_neg hdone] at heq
        by_cases hnull : h.child pTree k = null
        · rw [if_pos hnull, Option.some.injEq] at heq
          rw [← heq]
          exact ⟨hbig', hbest⟩
        · rw [if_neg hnull] at heq
          exact ih _ _ _ _ _ _ heq (hQ pTree htree k hk1 hnull) hbig' (Or.inl hbest)

/-- So does the search to the left. -/
lemma leftmostLoop_closed {ChunkSize : ℕ}
    (hQ : ∀ x, Q x → ∀ k ≤ 1, h.child x k ≠ null → Q (h.child x k)) :
    ∀ fuel pTree pChunk rsize r, h.leftmostLoop ChunkSize fuel pTree pChunk rsize = some r →
      (pTree ≠ null → Q pTree) → Q pChunk → Q r := by
  intro fuel
  induction fuel with
  | zero =>
      intro pTree pChunk rsize r heq
      simp [leftmostLoop] at heq
  | succ fuel ih =>
      intro pTree pChunk rsize r heq htree hchunk
      rw [leftmostLoop] at heq
      by_cases hnull : pTree = null
      · rw [if_neg (not_not.mpr hnull), Option.some.injEq] at heq
        rwa [← heq]
      · have hQtree := htree hnull
        have hleft : h.letfmostChild pTree ≠ null → Q (h.letfmostChild pTree) := by
          rw [letfmostChild]
          split_ifs with h0
          · exact hQ pTree hQtree 0 (Nat.zero_le 1)
          · exact hQ pTree hQtree 1 le_rfl
        rw [if_pos hnull] at heq
        dsimp only at heq
        split_ifs at heq
        · exact ih _ _ _ _ heq hleft hQtree
        · exact ih _ _ _ _ heq hleft hchunk

/-- The children of a node are nodes. -/
lemma nodes_child (hf : Forest (fields h) h.treeMap F node ring) (hx : x ∈ nodes node)
    (hk : k ≤ 1) (hne : h.child x k ≠ null) : h.child x k ∈ nodes node := by
  obtain ⟨i, p, hp⟩ := hx
  obtain ⟨d, rfl⟩ : ∃ d : Bool, d.toNat = k := by
    rcases Nat.le_one_iff_eq_zero_or_eq_one.mp hk with h0 | h1
    · exact ⟨false, h0.symm⟩
    · exact ⟨true, h1.symm⟩
  have hchild : h.child x d.toNat = (node i (d :: p)).getD null := by
    rw [Heap.child, childAddr_eq]
    exact hf.child_eq hp d
  rw [hchild] at hne ⊢
  cases hd : node i (d :: p) with
  | none =>
      rw [hd] at hne
      exact absurd rfl hne
  | some y => exact ⟨i, d :: p, hd⟩

/-- **The search for `2 ^ 32 - 4` bytes**, for which the size of a chunk wraps to four bytes: it
finds nothing without the last tree, and a node otherwise. -/
lemma checkoutLarge_wrapped (hf : Forest (fields h) h.treeMap F node ring) (hF : Chunks F)
    (hs : Sized h F) :
    (testBit h.treeMap 31 = false → h.checkoutLargeChunkInTree (2 ^ 32 - 4) = some (h, null)) ∧
    ∀ h' x, testBit h.treeMap 31 = true →
      h.checkoutLargeChunkInTree (2 ^ 32 - 4) = some (h', x) → x ∈ nodes node := by
  have hroot : h.mem (treeSlot 31) = (node 31 []).getD null :=
    hf.root_eq (show 31 < 32 by norm_num)
  have hidx : treeSizeToIndex (2 ^ 32 - 4) = 31 := by decide
  have hmap := hf.map 31 (by norm_num)
  rw [testBit_eq]
  refine ⟨fun hbit => ?_, fun h' x hbit heq => ?_⟩
  · have hnone : node 31 [] = none := by
      rw [hbit] at hmap
      exact Option.not_isSome_iff_eq_none.mp fun hsome => Bool.false_ne_true (hmap.mpr hsome)
    have hnext : h.nextTree 31 null null = null := by
      rcases nextTree_spec (i := 31) hf rfl with ⟨hn, -⟩ | ⟨k, hlt, hk, -⟩
      · exact hn
      · obtain ⟨b, hb⟩ := Option.isSome_iff_exists.mp hk
        have := hf.shape.index_lt hb
        omega
    rw [checkoutLargeChunkInTree, hidx, hroot, hnone, Option.getD_none,
      if_neg (not_not.mpr rfl), Option.bind_some]
    dsimp only
    rw [hnext]
    rfl
  · obtain ⟨a, ha⟩ := Option.isSome_iff_exists.mp (hmap.mp hbit)
    obtain ⟨n, hn, hlt, -⟩ := hf.shape.node_spec 31 [] a ha
    have hle := hF.le a n hn
    have hpos := hF.pos a n hn
    have hsize : h.getChunkSize a = n := hs.getChunkSize hF hn
    have hQ : ∀ x, x ∈ nodes node → ∀ k ≤ 1, h.child x k ≠ null → h.child x k ∈ nodes node :=
      fun x hx k hk hne => nodes_child hf hx hk hne
    rw [checkoutLargeChunkInTree, hidx, hroot, ha, Option.getD_some,
      if_pos (hf.tree.ne_null 31 [] a ha), Option.bind_eq_some_iff] at heq
    obtain ⟨f, hfound, heq⟩ := heq
    rw [Option.bind_eq_some_iff] at heq
    obtain ⟨y, hleft, heq⟩ := heq
    rw [Option.map_eq_some_iff] at heq
    obtain ⟨h₁, -, heq⟩ := heq
    obtain ⟨hf1, hf2⟩ := descendLoop_closed (Q := (· ∈ nodes node)) hQ _ _ _ _ _ _ f hfound
      (mem_nodes ha) (fun h => absurd rfl h) (Or.inr (by
        rw [hsize, show wadd (2 ^ 32 - 4) chunkHead = 4 from rfl, show wsub 0 4 = 2 ^ 32 - 4 from rfl,
          wsub_of_le (by omega) (by omega)]
        omega))
    have hnext : h.nextTree 31 f.1 f.2.1 = f.1 := by
      obtain ⟨i, p, hp⟩ := hf2
      exact if_neg fun h => hf.tree.ne_null i p _ hp h.2
    rw [hnext] at hleft
    have hy := leftmostLoop_closed (Q := (· ∈ nodes node)) hQ _ _ _ _ y hleft hf1 hf2
    rwa [← (Prod.mk.inj heq).2]

/-! ### The search -/

/-- The list at which the search for a small chunk arrives is not empty. -/
lemma listFound_spec {box : ℕ → List ℕ} (hg : Groups (fields h) h.sameMap F box)
    (hne : h.listFound R ≠ 0) : h.listFound R < 32 ∧ box (h.listFound R) ≠ [] := by
  obtain ⟨i, hi⟩ : ∃ i, getBoxIndex (alignUpside R 8).toNat = i := ⟨_, rfl⟩
  have hfound : h.listFound R = (0x1F &&& bitScanForward ((h.sameMap >>> i) <<< i)).toNat := by
    rw [← hi]
    rfl
  rcases eq_zero_or_lowest ((h.sameMap >>> i) <<< i) with h0 | ⟨k, hk, hset, hlow⟩
  · rw [hfound, h0] at hne
    exact absurd (by decide) hne
  · have hscan : h.listFound R = k := by
      rw [hfound, BitVec.toNat_and, bitScanForward_of_lowest hset hlow]
      have hand : ∀ k : Fin 32, (0x1F : Int32U).toNat &&& (k : ℕ) = k := by decide
      exact hand ⟨k, hk⟩
    rw [getLsbD_shift_back _ hk, Bool.and_eq_true, hg.map k hk] at hset
    rw [hscan]
    exact ⟨hk, hset.1⟩

/-- The search for a small chunk goes to the list found. -/
lemma checkoutChunk_of_small (h : Heap) (hsmall : isSmall R.toNat = true) :
    h.checkoutChunk R = if h.listFound R ≠ 0 then
      some ((h.checkoutSmallChunkInGroup (getSameChunkGroup (h.listFound R))
        (h.listFound R)).1, (h.checkoutSmallChunkInGroup (getSameChunkGroup (h.listFound R))
        (h.listFound R)).2, alignUpside R 8)
      else h.checkoutSmallChunkInTree.map fun r => (r.1, r.2, alignUpside R 8) := by
  rw [Heap.checkoutChunk, if_pos hsmall]
  rfl

/-- **The search for a wrapped size** finds nothing and changes nothing, or arrives at a chunk. -/
lemma Bins.checkoutChunk_wrapped (hb : Bins h F) (hF : Chunks F) (hs : Sized h F)
    (hR : R.toNat = 2 ^ 32 - 4 ∨ R.toNat ≤ 16) :
    (¬ h.Finds R → ∃ R', h.checkoutChunk R = some (h, null, R')) ∧
    ∀ h' x R', h.Finds R → h.checkoutChunk R = some (h', x, R') → ∃ n, F x = some n := by
  obtain ⟨⟨box, hg⟩, node, ring, hf⟩ := hb
  rcases hR with hR | hR
  · have hlarge : isSmall R.toNat = false := decide_eq_false (by omega)
    have hcheck : h.checkoutChunk R =
        (h.checkoutLargeChunkInTree (2 ^ 32 - 4)).map fun r => (r.1, r.2, R) := by
      rw [Heap.checkoutChunk, hlarge, hR]
      rfl
    rw [Finds, hlarge, hcheck]
    obtain ⟨hnone, hnode⟩ := checkoutLarge_wrapped hf hF hs
    refine ⟨fun hnot => ⟨R, ?_⟩, fun h' x R' hbit heq => ?_⟩
    · rw [hnone (Bool.eq_false_of_not_eq_true hnot)]
      rfl
    · rw [Option.map_eq_some_iff] at heq
      obtain ⟨⟨h₁, y⟩, hcheck, heq⟩ := heq
      obtain ⟨i, p, hp⟩ := hnode h₁ y hbit hcheck
      obtain ⟨n, hn, -⟩ := hf.shape.node_spec i p y hp
      rw [← (Prod.mk.inj (Prod.mk.inj heq).2).1]
      exact ⟨n, hn⟩
  · have hsmall : isSmall R.toNat = true := decide_eq_true (by omega)
    have hcheck := h.checkoutChunk_of_small hsmall
    rw [Finds, if_pos hsmall, hcheck]
    refine ⟨fun hnot => ⟨alignUpside R 8, ?_⟩, fun h' x R' hfinds heq => ?_⟩
    · push Not at hnot
      rw [if_neg (not_not.mpr hnot.1), checkoutSmallChunkInTree, if_pos hnot.2]
      rfl
    · by_cases hlist : h.listFound R = 0
      · rw [if_neg (not_not.mpr hlist), Option.map_eq_some_iff] at heq
        obtain ⟨⟨h₁, y⟩, hcheck, heq⟩ := heq
        have hxy : y = x := (Prod.mk.inj (Prod.mk.inj heq).2).1
        have htree := hfinds.resolve_left (not_not.mpr hlist)
        rcases hf.checkoutSmall hF hs with ⟨heq', hnone⟩ | ⟨z, n, h₂, heq', ht, -⟩
        · -- a tree that is not empty has a large chunk
          obtain ⟨i, hi, hbit⟩ := (eq_zero_or_lowest h.treeMap).resolve_left htree
          obtain ⟨a, ha⟩ := Option.isSome_iff_exists.mp ((hf.map i hi).mp hbit.1)
          obtain ⟨n, hn, hlt, -⟩ := hf.shape.node_spec i [] a ha
          exact absurd (hnone a n hn) (not_le.mpr hlt)
        · rw [heq', Option.some.injEq] at hcheck
          have hzy : z = y := (Prod.mk.inj hcheck).2
          exact ⟨n, hxy ▸ hzy ▸ ht.size⟩
      · rw [if_pos hlist, Option.some.injEq] at heq
        obtain ⟨hlt, hne⟩ := listFound_spec hg hlist
        obtain ⟨z, n, hz, hn, -⟩ := hg.checkout hF hlt hne
        have hzx : z = x := hz ▸ (Prod.mk.inj (Prod.mk.inj heq).2).1
        exact ⟨n, hzx ▸ hn⟩

/-! ### `malloc` -/

/-- **A wrapped request that finds nothing** changes nothing. -/
theorem HeapInv.malloc_null (hi : HeapInv B h c) (hsize : 2 ^ 32 - 24 < Size.toNat)
    (hnot : ¬ h.Finds (alignUpside (Size + 16#32) 4)) : h.malloc Size = some (h, null) := by
  obtain ⟨R', heq⟩ := (hi.locked_bins.checkoutChunk_wrapped hi.layout.chunks hi.locked_tags.sized
    (wrapped_request hsize)).1 hnot
  exact hi.malloc_not_found heq

/-- **A wrapped request that finds a chunk** returns its memory, if it returns. -/
theorem HeapInv.malloc_finds (hi : HeapInv B h c) (hsize : 2 ^ 32 - 24 < Size.toNat)
    (hfinds : h.Finds (alignUpside (Size + 16#32) 4)) (heq : h.malloc Size = some (h', p)) :
    ∃ x n, c x = some ⟨n, false⟩ ∧ p = x + 8 := by
  have hl := hi.layout
  rw [Heap.malloc, hi.lockWait_eq, Option.bind_some, Option.bind_eq_some_iff] at heq
  obtain ⟨⟨h₁, x, R'⟩, hcheck, heq⟩ := heq
  rw [Option.map_eq_some_iff] at heq
  obtain ⟨h₂, -, heq⟩ := heq
  obtain ⟨n, hn⟩ := (hi.locked_bins.checkoutChunk_wrapped hl.chunks hi.locked_tags.sized
    (wrapped_request hsize)).2 h₁ x R' hfinds hcheck
  have hx := freeOf_eq_some.mp hn
  have hx0 : x ≠ null := (hl.pos hx).ne'
  refine ⟨x, n, hx, ?_⟩
  rw [← (Prod.mk.inj heq).2, chunkToMemeory, if_pos hx0]

end Overflow

end Heap

end ChinaOS
