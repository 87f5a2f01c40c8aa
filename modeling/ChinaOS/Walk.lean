import ChinaOS.HeapSetup

/-!
What the memory shows of the heap: the walks through the banks, and the bins.

* `ChunkAt`: a chunk that the walk through a bank meets, as its header describes it.
* `HeapInv.chunkAt_iff`: these are the chunks of the invariant; `HeapInv.walk_end`: a walk ends at
  the header at the end of its bank.
* `Indexed`: every free chunk of the walks is in its bin, and the bins hold nothing else
  (`HeapInv.indexed`).
-/

namespace ChinaOS

namespace Heap

open Records Tiling

/-- The header behind the chunk `pChunk`. -/
def nextChunk (h : Heap) (pChunk : ℕ) : ℕ := pChunk + h.getChunkSize pChunk

/-- The walk through a bank: the header behind `k` chunks, from its aligned start on. -/
def walk (h : Heap) (b : Bank) (k : ℕ) : ℕ := h.nextChunk^[k] (interval b).1

/-- The walk through a bank meets a chunk at `a`, before the header at the end of the bank. -/
def Met (h : Heap) (b : Bank) (a : ℕ) : Prop :=
  ∃ k, h.walk b k = a ∧ ∀ j ≤ k, h.walk b j < (interval b).2

/-- The chunk that the header at `a` describes. -/
def pieceAt (h : Heap) (a : ℕ) : Piece :=
  ⟨h.getChunkSize a, decide (h.thisInfo a &&& 1 = 1)⟩

/-- The walk through one of the banks meets the chunk `t` at `a`. -/
def ChunkAt (h : Heap) (banks : List Bank) (a : ℕ) (t : Piece) : Prop :=
  (∃ b ∈ banks, h.Met b a) ∧ h.pieceAt a = t

/-- A free chunk of the walks at `a`, with `m` bytes of memory. -/
def FreeAt (h : Heap) (banks : List Bank) (a m : ℕ) : Prop :=
  ∃ n, h.ChunkAt banks a ⟨n, false⟩ ∧ m = n - 8

/-- The node to which a path leads in the tree `i`, or `NULL`; the last step of the path stands
first. -/
def nodeAt (h : Heap) (i : ℕ) : List Bool → ℕ
  | [] => h.mem (treeSlot i)
  | d :: p => if h.nodeAt i p = null then null else h.child (h.nodeAt i p) d.toNat

/-- **The bins are exact.** The list `i` and the tree `i`, with the rings of chunks of the same
size behind its nodes, are made of the free chunks of the banks whose memory has this index, each
of them once, and the bitmaps tell which of them are empty. -/
structure Indexed (h : Heap) (banks : List Bank) : Prop where
  list : ∀ i < 32, ∃ l, Ring.IsRing h.freeNext h.freePrev (getSameChunkGroup i) l ∧
    (testBit h.sameMap i = true ↔ l ≠ []) ∧
    ∀ a, a ∈ l ↔ ∃ m, h.FreeAt banks a m ∧ m ≤ 256 ∧ m / 8 - 1 = i
  tree : ∀ i < 32, ∃ ring : ℕ → List ℕ,
    (testBit h.treeMap i = true ↔ h.mem (treeSlot i) ≠ null) ∧
    (∀ p, h.nodeAt i p ≠ null →
      Ring.IsRing h.freeNext h.freePrev (h.nodeAt i p) (ring (h.nodeAt i p))) ∧
    (∀ p q a, h.nodeAt i p ≠ null → h.nodeAt i q ≠ null →
      a ∈ h.nodeAt i p :: ring (h.nodeAt i p) → a ∈ h.nodeAt i q :: ring (h.nodeAt i q) →
      p = q) ∧
    ∀ a, (∃ p, h.nodeAt i p ≠ null ∧ a ∈ h.nodeAt i p :: ring (h.nodeAt i p)) ↔
      ∃ m, h.FreeAt banks a m ∧ 256 < m ∧ treeSizeToIndex m = i
  index_lt : ∀ a m, h.FreeAt banks a m → (m ≤ 256 → m / 8 - 1 < 32) ∧
    (256 < m → treeSizeToIndex m < 32)

section Walk

variable {B : Set (ℕ × ℕ)} {banks : List Bank} {h : Heap} {c : ℕ → Option Piece} {a m n i : ℕ}
  {p : List Bool} {t : Piece} {b : Bank}

/-! ### The walks -/

namespace HeapInv

/-- A chunk is what its header says. -/
lemma pieceAt_eq (hi : HeapInv B h c) (ha : c a = some t) : h.pieceAt a = t := by
  obtain ⟨n, u⟩ := t
  obtain ⟨-, hn4, -⟩ := hi.layout.size a _ ha
  have hle := hi.layout.le ha
  have hinfo : h.thisInfo a = info ⟨n, u⟩ := hi.tags.this a _ ha
  dsimp only at hn4 hle
  rw [pieceAt, getChunkSize, hinfo]
  cases u with
  | false =>
      rw [show info ⟨n, false⟩ = n from rfl, and_not_one (by omega) (by omega),
        and_one_of_even hn4]
      rfl
  | true =>
      rw [show info ⟨n, true⟩ = n + 1 from rfl, used_and_not_one (by omega) (by omega),
        Nat.and_one_is_mod, show (n + 1) % 2 = 1 by omega]
      rfl

lemma nextChunk_eq (hi : HeapInv B h c) (ha : c a = some t) : h.nextChunk a = a + t.size := by
  rw [nextChunk, ← hi.pieceAt_eq ha]
  rfl

/-- **The walk through a bank** ends at the header at its end, and not before. -/
theorem walk_end (hi : HeapInv B h c) (hb : interval b ∈ B) :
    ∃ n, h.walk b n = (interval b).2 ∧ ∀ k < n, h.walk b k < (interval b).2 := by
  obtain ⟨n, hn, hiff⟩ := hi.layout.tiling.walk (fun a t ha => hi.nextChunk_eq ha) hb
  exact ⟨n, hn, fun k hk => ((hiff _).mp ⟨k, hk, rfl⟩).2.2⟩

/-- The walk meets the chunks of the bank. -/
lemma met_iff (hi : HeapInv B h c) (hb : interval b ∈ B) :
    h.Met b a ↔ (c a).isSome ∧ (interval b).1 ≤ a ∧ a < (interval b).2 := by
  obtain ⟨n, hn, hiff⟩ := hi.layout.tiling.walk (fun a t ha => hi.nextChunk_eq ha) hb
  rw [← hiff a]
  constructor
  · rintro ⟨k, hk, hlt⟩
    refine ⟨k, ?_, hk⟩
    by_contra hnk
    have := hlt n (not_lt.mp hnk)
    rw [walk, hn] at this
    exact lt_irrefl _ this
  · rintro ⟨k, hk, rfl⟩
    exact ⟨k, rfl, fun j hj => ((hiff _).mp ⟨j, lt_of_le_of_lt hj hk, rfl⟩).2.2⟩

/-- **The chunks of the invariant** are those that the walks meet. -/
theorem chunkAt_iff (hi : HeapInv (bankSet banks) h c) :
    h.ChunkAt banks a t ↔ c a = some t := by
  constructor
  · rintro ⟨⟨b, hb, hmet⟩, rfl⟩
    obtain ⟨s, hs⟩ := Option.isSome_iff_exists.mp ((hi.met_iff ⟨b, hb, rfl⟩).mp hmet).1
    rw [hi.pieceAt_eq hs, hs]
  · intro ha
    obtain ⟨-, ⟨b, hb, rfl⟩, h₁, h₂⟩ := hi.layout.tiling.inside a t ha
    have hpos := hi.layout.tiling.pos a t ha
    refine ⟨⟨b, hb, (hi.met_iff ⟨b, hb, rfl⟩).mpr ⟨by rw [ha]; rfl, h₁, by omega⟩⟩,
      hi.pieceAt_eq ha⟩

lemma freeAt_iff (hi : HeapInv (bankSet banks) h c) :
    h.FreeAt banks a m ↔ ∃ n, c a = some ⟨n, false⟩ ∧ m = n - 8 :=
  exists_congr fun _ => and_congr_left' hi.chunkAt_iff

/-! ### The bins -/

/-- The lists hold the small free chunks of the walks. -/
lemma indexed_list (hi : HeapInv (bankSet banks) h c) (hi32 : i < 32) :
    ∃ l, Ring.IsRing h.freeNext h.freePrev (getSameChunkGroup i) l ∧
      (testBit h.sameMap i = true ↔ l ≠ []) ∧
      ∀ a, a ∈ l ↔ ∃ m, h.FreeAt banks a m ∧ m ≤ 256 ∧ m / 8 - 1 = i := by
  obtain ⟨box, hg⟩ := hi.bins.groups
  refine ⟨box i, hg.rings.circle i hi32, ?_, fun a => ?_⟩
  · rw [testBit_eq, hg.map i hi32]
  · rw [hg.mem_iff i hi32 a]
    constructor
    · rintro ⟨n, hn, hle, hidx⟩
      have hn16 := hi.layout.chunks.size a n hn
      rw [getBoxIndex_eq (by omega) (by omega)] at hidx
      exact ⟨n - 8, hi.freeAt_iff.mpr ⟨n, freeOf_eq_some.mp hn, rfl⟩, by omega, hidx⟩
    · rintro ⟨m, hm, hle, hidx⟩
      obtain ⟨n, hn, rfl⟩ := hi.freeAt_iff.mp hm
      have hn' := freeOf_eq_some.mpr hn
      have hn16 := hi.layout.chunks.size a n hn'
      refine ⟨n, hn', by omega, ?_⟩
      rw [getBoxIndex_eq (by omega) (by omega), hidx]

/-- The paths in the memory are those of the forest. -/
lemma nodeAt_eq {node : ℕ → List Bool → Option ℕ} {ring : ℕ → List ℕ}
    (hf : Forest (fields h) h.treeMap (freeOf c) node ring) (hi32 : i < 32) :
    ∀ p, h.nodeAt i p = (node i p).getD null := by
  intro p
  induction p with
  | nil =>
      have hroot := hf.tree.root i
      rw [pointers] at hroot
      dsimp only at hroot
      rwa [if_pos hi32] at hroot
  | cons d p ih =>
      rw [nodeAt, ih]
      by_cases hp : node i p = none
      · have hd : node i (d :: p) = none := by
          by_contra hne
          have := hf.tree.closed i d p (Option.ne_none_iff_isSome.mp hne)
          rw [hp] at this
          exact absurd this (by simp)
        rw [hp, hd]
        exact if_pos rfl
      · obtain ⟨x, hx⟩ := Option.ne_none_iff_exists'.mp hp
        have hchild := hf.tree.child i p x hx d
        rw [hx, Option.getD_some, if_neg (hf.tree.ne_null i p x hx), ← hchild]
        show h.mem (x + 16 + 4 * d.toNat) = h.mem (x + childOffset d)
        rw [childOffset, Nat.add_assoc]

/-- The trees hold the large free chunks of the walks. -/
lemma indexed_tree (hi : HeapInv (bankSet banks) h c) (hi32 : i < 32) :
    ∃ ring : ℕ → List ℕ,
      (testBit h.treeMap i = true ↔ h.mem (treeSlot i) ≠ null) ∧
      (∀ p, h.nodeAt i p ≠ null →
        Ring.IsRing h.freeNext h.freePrev (h.nodeAt i p) (ring (h.nodeAt i p))) ∧
      (∀ p q a, h.nodeAt i p ≠ null → h.nodeAt i q ≠ null →
        a ∈ h.nodeAt i p :: ring (h.nodeAt i p) → a ∈ h.nodeAt i q :: ring (h.nodeAt i q) →
        p = q) ∧
      ∀ a, (∃ p, h.nodeAt i p ≠ null ∧ a ∈ h.nodeAt i p :: ring (h.nodeAt i p)) ↔
        ∃ m, h.FreeAt banks a m ∧ 256 < m ∧ treeSizeToIndex m = i := by
  obtain ⟨node, ring, hf⟩ := hi.bins.forest
  have hnode : ∀ p, h.nodeAt i p ≠ null → ∃ x, node i p = some x ∧ h.nodeAt i p = x := by
    intro p hp
    rw [nodeAt_eq hf hi32] at hp ⊢
    have hsome : node i p ≠ none := fun hn => hp (hf.tree.getD_eq_null_iff.mpr hn)
    obtain ⟨x, hx⟩ := Option.ne_none_iff_exists'.mp hsome
    exact ⟨x, hx, by rw [hx, Option.getD_some]⟩
  refine ⟨ring, ?_, fun p hp => ?_, fun p q a hp hq ha ha' => ?_, fun a => ⟨?_, ?_⟩⟩
  · rw [testBit_eq, hf.map i hi32, ← Option.ne_none_iff_isSome]
    show _ ↔ h.nodeAt i [] ≠ null
    rw [nodeAt_eq hf hi32]
    exact not_congr hf.tree.getD_eq_null_iff.symm
  · obtain ⟨x, hx, heq⟩ := hnode p hp
    rw [heq]
    exact hf.rings.circle x (mem_nodes hx)
  · obtain ⟨x, hx, heq⟩ := hnode p hp
    obtain ⟨y, hy, heq'⟩ := hnode q hq
    rw [heq] at ha
    rw [heq'] at ha'
    have hxy : x = y := hf.rings.eq_of_mem (mem_nodes hx) (mem_nodes hy) ha ha'
    exact (hf.tree.inj i i p q x hx (hxy ▸ hy)).2
  · rintro ⟨p, hp, ha⟩
    obtain ⟨x, hx, heq⟩ := hnode p hp
    rw [heq] at ha
    obtain ⟨n, han, -, hlt, hidx⟩ := hf.shape.size_of_mem hx ha
    exact ⟨n - 8, hi.freeAt_iff.mpr ⟨n, freeOf_eq_some.mp han, rfl⟩, by omega, hidx⟩
  · rintro ⟨m, hm, hlt, hidx⟩
    obtain ⟨n, hn, rfl⟩ := hi.freeAt_iff.mp hm
    obtain ⟨p, x, hx, -, ha⟩ := hf.shape.exists_node (freeOf_eq_some.mpr hn) (by omega)
    rw [hidx] at hx
    have heq : h.nodeAt i p = x := by rw [nodeAt_eq hf hi32, hx, Option.getD_some]
    refine ⟨p, ?_, by rwa [heq]⟩
    rw [heq]
    exact hf.tree.ne_null i p x hx

/-- **The bins are exact** under the invariant. -/
theorem indexed (hi : HeapInv (bankSet banks) h c) : h.Indexed banks where
  list _ hi32 := hi.indexed_list hi32
  tree _ hi32 := hi.indexed_tree hi32
  index_lt _ _ hm := by
    refine ⟨fun hle => by omega, fun hlt => treeSizeToIndex_lt (by omega)⟩

end HeapInv

end Walk

end Heap

end ChinaOS
