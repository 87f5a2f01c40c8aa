import ChinaOS.Group
import ChinaOS.PathTree

/-!
The trees of the large free chunks.

* `Shape`: which chunks are the nodes of the trees, at which paths, and which chunks of the same
  size hang in the ring of each; with the edits that the allocator makes.
* `Forest`: the memory holds such trees, and the bitmap marks those that are not empty.
-/

namespace ChinaOS

namespace Heap

open Records

/-- The chunks that are nodes. -/
def nodes (node : ℕ → List Bool → Option ℕ) : Set ℕ := {a | ∃ i p, node i p = some a}

/-- The nodes `node` and the rings behind them hold the large chunks of `F`: each tree those of
its index, each node at a path that its size agrees with, and each ring those of one size. -/
structure Shape (F : ℕ → Option ℕ) (node : ℕ → List Bool → Option ℕ) (ring : ℕ → List ℕ) :
    Prop where
  node_spec : ∀ i p a, node i p = some a → ∃ n, F a = some n ∧ 264 < n ∧
    treeSizeToIndex (n - 8) = i ∧ Trie.Agrees (treeBits i) (n - 8) p
  distinct : ∀ i p q a b, node i p = some a → node i q = some b → F a = F b → p = q
  mate : ∀ a ∈ nodes node, ∀ b ∈ ring a, F b = F a
  complete : ∀ a n, F a = some n → 264 < n → ∃ i p b, node i p = some b ∧ (a = b ∨ a ∈ ring b)

section Shape

variable {F : ℕ → Option ℕ} {node : ℕ → List Bool → Option ℕ} {ring : ℕ → List ℕ}
  {L : Ring.Links ℕ} {i j n k : ℕ} {p q : List Bool} {a b r x : ℕ} {l : List ℕ}

lemma mem_nodes (h : node i p = some a) : a ∈ nodes node := ⟨i, p, h⟩

namespace Shape

/-- A chunk is at one path only. -/
lemma inj (hs : Shape F node ring) (h : node i p = some a) (h' : node j q = some a) :
    i = j ∧ p = q := by
  obtain ⟨n, hn, -, hi, -⟩ := hs.node_spec i p a h
  obtain ⟨k, hk, -, hj, -⟩ := hs.node_spec j q a h'
  rw [hn, Option.some.injEq] at hk
  have hij : i = j := by rw [← hi, ← hj, hk]
  subst hij
  exact ⟨rfl, hs.distinct i p q a a h h' rfl⟩

/-- The chunks of a node and of its ring have a size. -/
lemma size_of_mem (hs : Shape F node ring) (h : node i p = some a) (hb : b ∈ a :: ring a) :
    ∃ n, F b = some n ∧ F a = some n ∧ 264 < n ∧ treeSizeToIndex (n - 8) = i := by
  obtain ⟨n, hn, hlt, hi, -⟩ := hs.node_spec i p a h
  rcases List.mem_cons.mp hb with rfl | hb
  · exact ⟨n, hn, hn, hlt, hi⟩
  · exact ⟨n, (hs.mate a (mem_nodes h) b hb).trans hn, hn, hlt, hi⟩

/-- The index of the tree of a chunk, with its node. -/
lemma exists_node (hs : Shape F node ring) (ha : F a = some n) (hn : 264 < n) :
    ∃ p b, node (treeSizeToIndex (n - 8)) p = some b ∧ F b = some n ∧ a ∈ b :: ring b := by
  obtain ⟨i, p, b, hb, hab⟩ := hs.complete a n ha hn
  have hmem : a ∈ b :: ring b := List.mem_cons.mpr hab
  obtain ⟨k, hk, hbk, -, hi⟩ := hs.size_of_mem hb hmem
  rw [ha, Option.some.injEq] at hk
  subst hk
  rw [hi]
  exact ⟨p, b, hb, hbk, hmem⟩

/-- The shape depends on the large chunks only. -/
lemma congr (hs : Shape F node ring) {F' : ℕ → Option ℕ}
    (hF : ∀ a n, 264 < n → (F' a = some n ↔ F a = some n)) : Shape F' node ring := by
  have hnode : ∀ i p a, node i p = some a → F' a = F a := by
    intro i p a h
    obtain ⟨n, hn, hlt, -⟩ := hs.node_spec i p a h
    rw [hn, hF a n hlt, hn]
  refine ⟨fun i p a h => ?_, fun i p q a b h h' he => ?_, fun a ha b hb => ?_,
    fun a n ha hlt => hs.complete a n ((hF a n hlt).mp ha) hlt⟩
  · rw [hnode i p a h]
    exact hs.node_spec i p a h
  · rw [hnode i p a h, hnode i q b h'] at he
    exact hs.distinct i p q a b h h' he
  · obtain ⟨i, p, h⟩ := ha
    obtain ⟨n, hbn, han, hlt, -⟩ := hs.size_of_mem h (List.mem_cons_of_mem a hb)
    rw [hnode i p a h, han, hF b n hlt, hbn]

/-! ### The edits -/

/-- **A chunk becomes a leaf**, where no node has its size. -/
theorem attach (hs : Shape F node ring) (hx : F x = none) (hn : 264 < n)
    (hi : treeSizeToIndex (n - 8) = i) (hp : node i p = none)
    (hagrees : Trie.Agrees (treeBits i) (n - 8) p)
    (hnew : ∀ q a, node i q = some a → F a ≠ some n) :
    Shape (Function.update F x (some n)) (PathTree.put node i p (some x))
      (Function.update ring x []) := by
  have hne : ∀ {a k}, F a = some k → a ≠ x := by
    rintro a k ha rfl
    rw [hx] at ha
    simp at ha
  have hcases : ∀ {j q a}, PathTree.put node i p (some x) j q = some a →
      (j = i ∧ q = p ∧ a = x) ∨ (a ≠ x ∧ node j q = some a) := by
    intro j q a h
    rw [PathTree.put] at h
    split_ifs at h with hjq
    · rw [Option.some.injEq] at h
      exact Or.inl ⟨hjq.1, hjq.2, h.symm⟩
    · obtain ⟨k, hk, -⟩ := hs.node_spec j q a h
      exact Or.inr ⟨hne hk, h⟩
  refine ⟨fun j q a h => ?_, fun j q q' a b h h' he => ?_, ?_,
    fun a k ha hlt => ?_⟩
  · rcases hcases h with ⟨rfl, rfl, rfl⟩ | ⟨hax, h⟩
    · exact ⟨n, Function.update_self .., hn, hi, hagrees⟩
    · rw [Function.update_of_ne hax]
      exact hs.node_spec j q a h
  · rcases hcases h with ⟨rfl, rfl, rfl⟩ | ⟨hax, hm⟩ <;>
      rcases hcases h' with ⟨hj, rfl, rfl⟩ | ⟨hbx, hm'⟩
    · rfl
    · rw [Function.update_self, Function.update_of_ne hbx] at he
      exact absurd he.symm (hnew q' b hm')
    · subst hj
      rw [Function.update_self, Function.update_of_ne hax] at he
      exact absurd he (hnew q a hm)
    · rw [Function.update_of_ne hax, Function.update_of_ne hbx] at he
      exact hs.distinct j q q' a b hm hm' he
  · rintro a ⟨j, q, h⟩ b hb
    rcases hcases h with ⟨rfl, rfl, rfl⟩ | ⟨hax, h⟩
    · simp at hb
    · rw [Function.update_of_ne hax] at hb ⊢
      obtain ⟨k, hbk, -⟩ := hs.size_of_mem h (List.mem_cons_of_mem a hb)
      rw [Function.update_of_ne (hne hbk)]
      exact hs.mate a (mem_nodes h) b hb
  · by_cases hax : a = x
    · subst hax
      exact ⟨i, p, a, PathTree.Holds.put_self, Or.inl rfl⟩
    · rw [Function.update_of_ne hax] at ha
      obtain ⟨j, q, b, hb, hab⟩ := hs.complete a k ha hlt
      obtain ⟨m, hm, -⟩ := hs.node_spec j q b hb
      refine ⟨j, q, b, ?_, ?_⟩
      · rw [PathTree.Holds.put_of_ne, hb]
        rintro ⟨rfl, rfl⟩
        rw [hp] at hb
        simp at hb
      · rwa [Function.update_of_ne (hne hm)]

/-- **A chunk joins the ring** of the node of its size. -/
theorem join (hs : Shape F node ring) (hx : F x = none) (ha : node i p = some a)
    (han : F a = some n) :
    Shape (Function.update F x (some n)) node (Function.update ring a (x :: ring a)) := by
  have hne : ∀ {a k}, F a = some k → a ≠ x := by
    rintro a k ha rfl
    rw [hx] at ha
    simp at ha
  have hnode : ∀ {j q b}, node j q = some b → Function.update F x (some n) b = F b := by
    intro j q b h
    obtain ⟨k, hk, -⟩ := hs.node_spec j q b h
    exact Function.update_of_ne (hne hk) ..
  refine ⟨fun j q b h => ?_, fun j q q' b c h h' he => ?_, ?_,
    fun b k hb hlt => ?_⟩
  · rw [hnode h]
    exact hs.node_spec j q b h
  · rw [hnode h, hnode h'] at he
    exact hs.distinct j q q' b c h h' he
  · rintro b ⟨j, q, h⟩ c hc
    rw [hnode h]
    have hold : ∀ c ∈ ring b, Function.update F x (some n) c = F b := by
      intro c hc
      obtain ⟨k, hk, -⟩ := hs.size_of_mem h (List.mem_cons_of_mem b hc)
      rw [Function.update_of_ne (hne hk)]
      exact hs.mate b (mem_nodes h) c hc
    rw [Function.update_apply] at hc
    split_ifs at hc with hba
    · rcases List.mem_cons.mp hc with rfl | hc
      · rw [Function.update_self, hba, han]
      · exact hold c (hba ▸ hc)
    · exact hold c hc
  · by_cases hbx : b = x
    · subst hbx
      refine ⟨i, p, a, ha, Or.inr ?_⟩
      rw [Function.update_self]
      exact List.mem_cons_self
    · rw [Function.update_of_ne hbx] at hb
      obtain ⟨j, q, c, hc, hbc⟩ := hs.complete b k hb hlt
      refine ⟨j, q, c, hc, hbc.imp_right fun hmem => ?_⟩
      rw [Function.update_apply]
      split_ifs with hca
      · exact List.mem_cons_of_mem x (hca ▸ hmem)
      · exact hmem

variable (hr : Ring.Rings L (nodes node) id ring)

include hr in
/-- **A chunk leaves the ring** of a node. -/
theorem leave (hs : Shape F node ring) (ha : node i p = some a) (hx : x ∈ ring a) :
    Shape (Function.update F x none) node (Function.update ring a ((ring a).erase x)) := by
  have hnode : ∀ {j q b}, node j q = some b → b ≠ x := by
    rintro j q b h rfl
    exact hr.head_notMem (mem_nodes ha) (mem_nodes h) hx
  have hsub : ∀ b, Function.update ring a ((ring a).erase x) b ⊆ ring b := by
    intro b
    rw [Function.update_apply]
    split_ifs with hba
    · rw [hba]
      exact List.erase_subset
    · exact List.Subset.refl _
  have hmates : ∀ {j q b c}, node j q = some b →
      c ∈ Function.update ring a ((ring a).erase x) b → c ≠ x := by
    rintro j q b c h hc rfl
    have hba : a = b := hr.eq_of_mem (mem_nodes ha) (mem_nodes h) (List.mem_cons_of_mem _ hx)
      (List.mem_cons_of_mem _ (hsub b hc))
    subst hba
    rw [Function.update_self] at hc
    exact (hr.nodup (mem_nodes ha)).not_mem_erase hc
  refine ⟨fun j q b h => ?_, fun j q q' b c h h' he => ?_, ?_,
    fun b k hb hlt => ?_⟩
  · rw [Function.update_of_ne (hnode h)]
    exact hs.node_spec j q b h
  · rw [Function.update_of_ne (hnode h), Function.update_of_ne (hnode h')] at he
    exact hs.distinct j q q' b c h h' he
  · rintro b ⟨j, q, h⟩ c hc
    rw [Function.update_of_ne (hnode h), Function.update_of_ne (hmates h hc)]
    exact hs.mate b (mem_nodes h) c (hsub b hc)
  · have hbx : b ≠ x := by
      rintro rfl
      rw [Function.update_self] at hb
      simp at hb
    rw [Function.update_of_ne hbx] at hb
    obtain ⟨j, q, c, hc, hbc⟩ := hs.complete b k hb hlt
    refine ⟨j, q, c, hc, hbc.imp_right fun hmem => ?_⟩
    rw [Function.update_apply]
    split_ifs with hca
    · subst hca
      exact (List.mem_erase_of_ne hbx).mpr hmem
    · exact hmem

include hr in
/-- **A node leaves**, and the last chunk of its ring takes its place. -/
theorem promote (hs : Shape F node ring) (hx : node i p = some x) (hl : ring x = l ++ [r]) :
    Shape (Function.update F x none) (PathTree.put node i p (some r))
      (Function.update ring r l) := by
  have hrx : r ∈ ring x := by rw [hl]; simp
  have hrn : r ∉ nodes node := fun h => hr.head_notMem (mem_nodes hx) h hrx
  have hFr : F r = F x := hs.mate x (mem_nodes hx) r hrx
  have hrx' : r ≠ x := fun h => hrn (h ▸ mem_nodes hx)
  have hcases : ∀ {j q a}, PathTree.put node i p (some r) j q = some a →
      (j = i ∧ q = p ∧ a = r) ∨ (a ≠ x ∧ a ≠ r ∧ node j q = some a) := by
    intro j q a h
    rw [PathTree.put] at h
    split_ifs at h with hjq
    · rw [Option.some.injEq] at h
      exact Or.inl ⟨hjq.1, hjq.2, h.symm⟩
    · refine Or.inr ⟨?_, fun he => hrn (he ▸ mem_nodes h), h⟩
      rintro rfl
      have hinj := hs.inj h hx
      exact hjq hinj
  have hxring : x ∉ l := by
    have h1 := hr.head_notMem (mem_nodes hx) (mem_nodes hx)
    rw [hl] at h1
    exact fun h => h1 (List.mem_append_left _ h)
  refine ⟨fun j q a h => ?_, fun j q q' a b h h' he => ?_, ?_,
    fun a k ha hlt => ?_⟩
  · rcases hcases h with ⟨rfl, rfl, rfl⟩ | ⟨hax, -, h⟩
    · rw [Function.update_of_ne hrx', hFr]
      exact hs.node_spec j q x hx
    · rw [Function.update_of_ne hax]
      exact hs.node_spec j q a h
  · rcases hcases h with ⟨rfl, rfl, rfl⟩ | ⟨hax, -, hm⟩ <;>
      rcases hcases h' with ⟨hj, rfl, rfl⟩ | ⟨hbx, -, hm'⟩
    · rfl
    · rw [Function.update_of_ne hrx', Function.update_of_ne hbx, hFr] at he
      exact hs.distinct j q q' x b hx hm' he
    · subst hj
      rw [Function.update_of_ne hax, Function.update_of_ne hrx', hFr] at he
      exact hs.distinct j q q' a x hm hx he
    · rw [Function.update_of_ne hax, Function.update_of_ne hbx] at he
      exact hs.distinct j q q' a b hm hm' he
  · rintro a ⟨j, q, h⟩ b hb
    rcases hcases h with ⟨rfl, rfl, rfl⟩ | ⟨hax, har, h⟩
    · rw [Function.update_self] at hb
      have hbx : b ≠ x := fun he => hxring (he ▸ hb)
      rw [Function.update_of_ne hbx, Function.update_of_ne hrx', hFr]
      exact hs.mate x (mem_nodes hx) b (by rw [hl]; exact List.mem_append_left _ hb)
    · rw [Function.update_of_ne har] at hb
      have hbx : b ≠ x := by
        rintro rfl
        exact hr.head_notMem (mem_nodes h) (mem_nodes hx) hb
      rw [Function.update_of_ne hbx, Function.update_of_ne hax]
      exact hs.mate a (mem_nodes h) b hb
  · have hax : a ≠ x := by
      rintro rfl
      rw [Function.update_self] at ha
      simp at ha
    rw [Function.update_of_ne hax] at ha
    obtain ⟨j, q, c, hc, hac⟩ := hs.complete a k ha hlt
    by_cases hcx : c = x
    · subst hcx
      refine ⟨i, p, r, PathTree.Holds.put_self, ?_⟩
      have hmem := hac.resolve_left hax
      rw [hl] at hmem
      rw [Function.update_self]
      simpa [or_comm] using hmem
    · have hcr : c ≠ r := fun he => hrn (he ▸ mem_nodes hc)
      refine ⟨j, q, c, ?_, by rwa [Function.update_of_ne hcr]⟩
      rw [PathTree.Holds.put_of_ne, hc]
      rintro ⟨rfl, rfl⟩
      rw [hx, Option.some.injEq] at hc
      exact hcx hc.symm

/-- **A leaf leaves.** -/
theorem cutLeaf (hs : Shape F node ring) (hr : Ring.Rings L (nodes node) id ring)
    (hx : node i p = some x) (hring : ring x = []) :
    Shape (Function.update F x none) (PathTree.put node i p none) ring := by
  have hsome : ∀ {j q a}, PathTree.put node i p none j q = some a → a ≠ x ∧
      node j q = some a := by
    intro j q a h
    rw [PathTree.put] at h
    split_ifs at h with hjq
    refine ⟨?_, h⟩
    rintro rfl
    exact hjq (hs.inj h hx)
  refine ⟨fun j q a h => ?_, fun j q q' a b h h' he => ?_, ?_,
    fun a k ha hlt => ?_⟩
  · obtain ⟨hax, h⟩ := hsome h
    rw [Function.update_of_ne hax]
    exact hs.node_spec j q a h
  · obtain ⟨hax, h⟩ := hsome h
    obtain ⟨hbx, h'⟩ := hsome h'
    rw [Function.update_of_ne hax, Function.update_of_ne hbx] at he
    exact hs.distinct j q q' a b h h' he
  · rintro a ⟨j, q, h⟩ b hb
    obtain ⟨hax, h⟩ := hsome h
    have hbx : b ≠ x := by
      rintro rfl
      exact hr.head_notMem (mem_nodes h) (mem_nodes hx) hb
    rw [Function.update_of_ne hax, Function.update_of_ne hbx]
    exact hs.mate a (mem_nodes h) b hb
  · have hax : a ≠ x := by
      rintro rfl
      rw [Function.update_self] at ha
      simp at ha
    rw [Function.update_of_ne hax] at ha
    obtain ⟨j, q, c, hc, hac⟩ := hs.complete a k ha hlt
    refine ⟨j, q, c, ?_, hac⟩
    rw [PathTree.Holds.put_of_ne, hc]
    rintro ⟨rfl, rfl⟩
    rw [hx, Option.some.injEq] at hc
    subst hc
    rw [hring] at hac
    simp [hax] at hac

/-- **A leaf moves up** to a free path above it. -/
theorem moveUp (hs : Shape F node ring) (hp : node i p = none) (hq : node i q = some r)
    (hpq : p <:+ q) :
    Shape F (PathTree.put (PathTree.put node i q none) i p (some r)) ring := by
  have hpne : p ≠ q := by
    rintro rfl
    rw [hp] at hq
    simp at hq
  have hcases : ∀ {j q' a}, PathTree.put (PathTree.put node i q none) i p (some r) j q' = some a →
      (j = i ∧ q' = p ∧ a = r) ∨ (¬ (j = i ∧ q' = q) ∧ node j q' = some a) := by
    intro j q' a h
    rw [PathTree.put, PathTree.put] at h
    split_ifs at h with h1 h2
    · rw [Option.some.injEq] at h
      exact Or.inl ⟨h1.1, h1.2, h.symm⟩
    · exact Or.inr ⟨h2, h⟩
  refine ⟨fun j q' a h => ?_, fun j q' q'' a b h h' he => ?_, ?_,
    fun a k ha hlt => ?_⟩
  · rcases hcases h with ⟨rfl, rfl, rfl⟩ | ⟨-, h⟩
    · obtain ⟨n, hn, hlt, hi, hagrees⟩ := hs.node_spec j q a hq
      exact ⟨n, hn, hlt, hi, hagrees.of_suffix hpq⟩
    · exact hs.node_spec j q' a h
  · rcases hcases h with ⟨rfl, rfl, rfl⟩ | ⟨hne, hm⟩ <;>
      rcases hcases h' with ⟨hj, rfl, rfl⟩ | ⟨hne', hm'⟩
    · rfl
    · exact absurd ⟨rfl, hs.distinct j q'' q b a hm' hq he.symm⟩ hne'
    · exact absurd ⟨hj, hs.distinct j q' q a b hm (hj ▸ hq) he⟩ hne
    · exact hs.distinct j q' q'' a b hm hm' he
  · rintro a ⟨j, q', h⟩ b hb
    rcases hcases h with ⟨rfl, rfl, rfl⟩ | ⟨-, h⟩
    · exact hs.mate a (mem_nodes hq) b hb
    · exact hs.mate a (mem_nodes h) b hb
  · obtain ⟨j, q', c, hc, hac⟩ := hs.complete a k ha hlt
    by_cases hjq : j = i ∧ q' = q
    · obtain ⟨rfl, rfl⟩ := hjq
      rw [hq, Option.some.injEq] at hc
      subst hc
      exact ⟨j, p, r, PathTree.Holds.put_self, hac⟩
    · refine ⟨j, q', c, ?_, hac⟩
      rw [PathTree.Holds.put_of_ne, PathTree.Holds.put_of_ne hjq, hc]
      rintro ⟨rfl, rfl⟩
      rw [hp] at hc
      simp at hc

end Shape

end Shape

/-! ### The trees in memory -/

/-- The offset of `pChild[d]`. -/
def childOffset (d : Bool) : ℕ := 16 + 4 * d.toNat

/-- The pointers of the trees. -/
def pointers (v : ℕ → ℕ → ℕ) : PathTree.Pointers ℕ ℕ where
  root i := if i < 32 then v (treeSlot i) 0 else null
  child d a := v a (childOffset d)
  parent a := v a 24

/-- The fields `v` hold trees of the chunks `F`: their nodes are linked as a pointer tree, with
the chunks of the same size in a ring behind each, the only one of them that has a parent. The
bitmap marks the trees that are not empty. -/
structure Forest (v : ℕ → ℕ → ℕ) (map : Int32U) (F : ℕ → Option ℕ)
    (node : ℕ → List Bool → Option ℕ) (ring : ℕ → List ℕ) : Prop where
  shape : Shape F node ring
  tree : PathTree.Holds null treeSlot (pointers v) node
  rings : Ring.Rings (links v) (nodes node) id ring
  mate_null : ∀ a ∈ nodes node, ∀ b ∈ ring a, v b 24 = null ∧ ∀ d, v b (childOffset d) = null
  index : ∀ a n, F a = some n → 264 < n → v a 28 = treeSizeToIndex (n - 8)
  map : ∀ i < 32, map.getLsbD i = true ↔ (node i []).isSome

section Forest

variable {F : ℕ → Option ℕ} {v v' : ℕ → ℕ → ℕ} {map map' : Int32U}
  {node : ℕ → List Bool → Option ℕ} {ring : ℕ → List ℕ} {i j n k : ℕ} {p q : List Bool}
  {a b c r x y : ℕ} {d : Bool} {l : List ℕ}

lemma childOffset_inj {e : Bool} : childOffset d = childOffset e ↔ d = e := by
  cases d <;> cases e <;> simp [childOffset]

lemma childOffset_cases (d : Bool) : childOffset d = 16 ∨ childOffset d = 20 := by
  cases d
  · exact Or.inl rfl
  · exact Or.inr rfl

/-- A large chunk owns all the fields of a node. -/
lemma ownLarge_field {o : ℕ} (hn : F a = some n) (hlt : 264 < n) (ho : 8 ≤ o ∧ o % 4 = 0 ∧ o ≤ 28) :
    OwnLarge F a o := Or.inl ⟨n, hn, hlt, ho.1, ho.2.1, by omega⟩

lemma ownLarge_childOffset (hn : F a = some n) (hlt : 264 < n) : OwnLarge F a (childOffset d) := by
  rcases childOffset_cases d with h | h <;> rw [h] <;>
    exact ownLarge_field hn hlt (by norm_num)

lemma Chunks.pos_of (hF : Chunks F) (hn : F a = some n) : a ≠ null := (hF.pos a n hn).ne'

/-- The index of a tree is below 32. -/
lemma Shape.index_lt (hs : Shape F node ring) (h : node i p = some a) : i < 32 := by
  obtain ⟨n, -, hlt, hi, -⟩ := hs.node_spec i p a h
  exact hi ▸ treeSizeToIndex_lt (by omega)

/-- A path is never longer than the bits below the index. -/
lemma Shape.length_le (hs : Shape F node ring) (h : node i p = some a) :
    p.length ≤ treeBits i := by
  obtain ⟨n, -, -, -, hagrees⟩ := hs.node_spec i p a h
  exact hagrees.length_le

/-- No chunks, and no trees. -/
lemma forest_empty (hv : ∀ i < 32, v (treeSlot i) 0 = null) :
    Forest v 0 (fun _ => none) (fun _ _ => none) fun _ => [] := by
  have hnone : ∀ a, a ∉ nodes fun _ _ => none := by
    rintro a ⟨i, p, hp⟩
    simp at hp
  refine ⟨⟨by simp, by simp, fun a ha => absurd ha (hnone a), by simp⟩,
    ⟨by simp, by simp, by simp, fun i => ?_, by simp, by simp⟩,
    ⟨fun a ha => absurd ha (hnone a), fun a ha => absurd ha (hnone a)⟩,
    fun a ha => absurd ha (hnone a), by simp, fun i _ => by simp⟩
  show (if i < 32 then v (treeSlot i) 0 else null) = null
  split_ifs with hi
  · exact hv i hi
  · rfl

namespace Forest

/-- The trees depend on the fields of the large records only. -/
lemma congr (hf : Forest v map F node ring) (hv : ∀ x o, OwnLarge F x o → v' x o = v x o) :
    Forest v' map F node ring := by
  have hown : ∀ a ∈ nodes node, ∀ b ∈ a :: ring a, ∃ n, F b = some n ∧ 264 < n := by
    rintro a ⟨i, p, h⟩ b hb
    obtain ⟨n, hn, -, hlt, -⟩ := hf.shape.size_of_mem h hb
    exact ⟨n, hn, hlt⟩
  have hfield : ∀ a ∈ nodes node, ∀ b ∈ a :: ring a, ∀ o, 8 ≤ o ∧ o % 4 = 0 ∧ o ≤ 28 →
      v' b o = v b o := by
    intro a ha b hb o ho
    obtain ⟨n, hn, hlt⟩ := hown a ha b hb
    exact hv b o (ownLarge_field hn hlt ho)
  have hchild : ∀ a ∈ nodes node, ∀ b ∈ a :: ring a, ∀ d, v' b (childOffset d) =
      v b (childOffset d) := by
    intro a ha b hb d
    refine hfield a ha b hb _ ?_
    rcases childOffset_cases d with h | h <;> rw [h] <;> norm_num
  refine ⟨hf.shape, hf.tree.congr (fun i => ?_) (fun i p a h d => ?_) fun i p a h => ?_,
    hf.rings.congr (fun a ha b hb => ?_) fun a ha b hb => ?_, fun a ha b hb => ?_,
    fun a n hn hlt => ?_, hf.map⟩
  · show (if i < 32 then v' (treeSlot i) 0 else null) = if i < 32 then v (treeSlot i) 0 else null
    split_ifs with hi
    · exact hv _ 0 (Or.inr ⟨i, hi, rfl, rfl⟩)
    · rfl
  · exact hchild a (mem_nodes h) a List.mem_cons_self d
  · exact hfield a (mem_nodes h) a List.mem_cons_self 24 (by norm_num)
  · exact hfield a ha b hb 8 (by norm_num)
  · exact hfield a ha b hb 12 (by norm_num)
  · have hb' := List.mem_cons_of_mem a hb
    rw [hfield a ha b hb' 24 (by norm_num)]
    refine ⟨(hf.mate_null a ha b hb).1, fun d => ?_⟩
    rw [hchild a ha b hb' d]
    exact (hf.mate_null a ha b hb).2 d
  · rw [hv a 28 (ownLarge_field hn hlt (by norm_num))]
    exact hf.index a n hn hlt

/-- The trees depend on the large chunks only. -/
lemma congr_chunks (hf : Forest v map F node ring) {F' : ℕ → Option ℕ}
    (hF : ∀ a n, 264 < n → (F' a = some n ↔ F a = some n)) : Forest v map F' node ring :=
  ⟨hf.shape.congr hF, hf.tree, hf.rings, hf.mate_null,
    fun a n hn hlt => hf.index a n ((hF a n hlt).mp hn) hlt, hf.map⟩

/-- A tree that is not empty has a root. -/
lemma root_eq (hf : Forest v map F node ring) (hi : i < 32) :
    v (treeSlot i) 0 = (node i []).getD null := by
  have h := hf.tree.root i
  simp only [pointers, if_pos hi] at h
  exact h

lemma child_eq (hf : Forest v map F node ring) (h : node i p = some a) (d : Bool) :
    v a (childOffset d) = (node i (d :: p)).getD null := hf.tree.child i p a h d

/-- The keys of a tree. -/
def memSize (F : ℕ → Option ℕ) (a : ℕ) : ℕ := (F a).getD 0 - 8

/-- **Each tree is a trie** of the memory sizes of its nodes. -/
theorem keyed (hf : Forest v map F node ring) (hF : Chunks F) (i : ℕ) :
    Trie.Keyed (treeBits i) (memSize F) (node i) := by
  have hkey : ∀ p a, node i p = some a → ∃ n, F a = some n ∧ memSize F a = n - 8 ∧ 264 < n ∧
      n ≤ 2 ^ 32 ∧ 0 < a ∧ a + n ≤ 2 ^ 32 ∧ treeSizeToIndex (n - 8) = i ∧
        Trie.Agrees (treeBits i) (n - 8) p := by
    intro p a h
    obtain ⟨n, hn, hlt, hi, hagrees⟩ := hf.shape.node_spec i p a h
    have hle := hF.le a n hn
    exact ⟨n, hn, by rw [memSize, hn]; rfl, hlt, by omega, hF.pos a n hn, hle, hi, hagrees⟩
  refine ⟨hf.tree.closed i, fun p a h => ?_, fun p q a b h h' => ?_, fun p q a b h h' he => ?_⟩
  · obtain ⟨n, -, hk, -, -, -, -, -, hagrees⟩ := hkey p a h
    exact hk ▸ hagrees
  · obtain ⟨n, -, hk, hlt, -, hpos, hle, hi, -⟩ := hkey p a h
    obtain ⟨m, -, hk', hlt', -, hpos', hle', hi', -⟩ := hkey q b h'
    rw [hk, hk']
    have hsame := sameAbove_of_index (s := n - 8) (t := m - 8) (by omega) (by omega) (by omega)
      (by omega) (by rw [hi, hi'])
    rwa [hi] at hsame
  · obtain ⟨n, hn, hk, hlt, -⟩ := hkey p a h
    obtain ⟨m, hm, hk', hlt', -⟩ := hkey q b h'
    refine hf.shape.distinct i p q a b h h' ?_
    rw [hn, hm, show n = m by omega]

end Forest

end Forest

end Heap

end ChinaOS
