import ChinaOS.Typing

/-!
What the functions on the bins access.

* `Permits`: the links of the bins, and the sizes of the large free chunks. `within_load`,
  `within_store`: the rules for a function that goes on behind an access.
* `within_unlinkChunk`, `within_checkoutChunk`, `within_checkinFreeChunk`: the functions on the
  bins access nothing else. Their loops are followed one iteration at a time, over their fuel.
-/

namespace ChinaOS

namespace Heap

/-- What the functions on the bins may access. -/
def Permits (F : ℕ → Option ℕ) (x : Access) : Prop :=
  Linked F x ∨ x.field = .thisInfo ∧ LargeNode F x.pointer

namespace Logged

open Traced

section Visits

variable {α : Type} {V : Access → Prop} {Q : α → Heap → Prop} {F : ℕ → Option ℕ} {h h' : Heap}
  {p v x n i k : ℕ} {f : Field}

/-! ### One access after the other -/

lemma within_load {m : ℕ → Logged α} (hV : V ⟨p, f⟩) (hm : Within V (m (h.get p f)) Q h) :
    Within V (load p f >>= m) Q h := by
  refine (within_read (Q := fun a h' => a = h.get p f ∧ h' = h) hV ⟨rfl, rfl⟩).bind ?_
  rintro a h' ⟨rfl, rfl⟩
  exact hm

lemma within_store {m : Unit → Logged α} (hV : V ⟨p, f⟩) (hm : Within V (m ()) Q (h.set p f v)) :
    Within V (store p f v >>= m) Q h := by
  refine (within_write (Q := fun _ h' => h' = h.set p f v) hV rfl).bind ?_
  rintro - h' rfl
  exact hm

lemma within_modify {m : Unit → Logged α} {g : Heap → Heap} (hm : Within V (m ()) Q (g h)) :
    Within V (modify g >>= m) Q h := by
  refine (within_change (Q := fun _ h' => h' = g h) fun h' hh' => ?_).bind ?_
  · exact (Option.some.inj hh').symm
  · rintro - h' rfl
    exact hm

lemma within_look_bind {β : Type} {g : Heap → β} {m : β → Logged α} (hm : Within V (m (g h)) Q h) :
    Within V ((look g : Logged β) >>= m) Q h := by
  refine (within_look (Q := fun a h' => a = g h ∧ h' = h) ⟨rfl, rfl⟩).bind ?_
  rintro a h' ⟨rfl, rfl⟩
  exact hm

/-- A write at the end. -/
lemma within_store_end {Q : Unit → Heap → Prop} (hV : V ⟨p, f⟩) (hQ : Q () (h.set p f v)) :
    Within V (store p f v) Q h := within_write hV hQ

lemma within_getChunkSize {m : ℕ → Logged α} (hx : LargeNode F x)
    (hm : Within (Permits F) (m (h.getChunkSize x)) Q h) :
    Within (Permits F) (getChunkSize x >>= m) Q h := by
  refine Within.bind (Q := fun a h' => a = h.getChunkSize x ∧ h' = h) ?_ ?_
  · exact within_load (Or.inr ⟨rfl, hx⟩) (within_pure ⟨rfl, rfl⟩)
  · rintro a h' ⟨rfl, rfl⟩
    exact hm

/-! ### What stands in the links -/

/-- A link of a large chunk. -/
lemma permits_child (hx : LargeNode F x) (hk : k ≤ 1) : Permits F ⟨x, .child k⟩ :=
  Or.inl ⟨hk, hx⟩

lemma permits_slot (hi : i < 32) : Permits F ⟨treeSlot i, .slot⟩ := Or.inl ⟨i, hi, rfl⟩

lemma suits_child (hp : LargeNode F p) (hk : k ≤ 1) (hv : v ≠ null → LargeNode F v) :
    Suits F ⟨p, .child k⟩ v := ⟨⟨hk, hp⟩, hv⟩

lemma suits_parent (hp : LargeNode F p) : Suits F ⟨p, .parent⟩ v := hp

/-! ### The searches -/

/-- **`letfmost_child`** leads to a large chunk, if anywhere. -/
lemma within_letfmostChild (ht : Typed F h) (hx : LargeNode F x) :
    Within (Permits F) (letfmostChild x) (fun c h' => h' = h ∧ (c ≠ null → LargeNode F c)) h := by
  refine within_load (permits_child hx (Nat.zero_le 1)) (within_ite (fun hne => ?_) fun _ => ?_)
  · exact within_pure ⟨rfl, fun _ => ht.child hx (Nat.zero_le 1) hne⟩
  · exact within_read (permits_child hx le_rfl) ⟨rfl, fun hne => ht.child hx le_rfl hne⟩

lemma within_smallestLoop (ht : Typed F h) : ∀ fuel pTmp FreeSize pChunk, LargeNode F pTmp →
    LargeNode F pChunk → Within (Permits F) (smallestLoop fuel pTmp FreeSize pChunk)
      (fun c h' => h' = h ∧ LargeNode F c) h := by
  intro fuel
  induction fuel with
  | zero => exact fun _ _ _ _ _ => within_fail
  | succ fuel ih =>
      intro pTmp FreeSize pChunk htmp hchunk
      refine (within_letfmostChild ht htmp).bind ?_
      rintro c h' ⟨rfl, hc⟩
      refine within_ite (fun hne => ?_) fun _ => within_pure ⟨rfl, hchunk⟩
      refine within_load (Or.inr ⟨rfl, hc hne⟩) (within_ite (fun _ => ?_) fun _ => ?_)
      · exact ih c _ c (hc hne) (hc hne)
      · exact ih c FreeSize pChunk (hc hne) hchunk

/-- Every chunk that the first search in the trees arrives at is large. -/
lemma within_descendLoop (ht : Typed F h) (ChunkSize : ℕ) :
    ∀ fuel pTree pBigTree sizebits pChunk rsize, LargeNode F pTree →
      (pBigTree ≠ null → LargeNode F pBigTree) → (pChunk ≠ null → LargeNode F pChunk) →
      Within (Permits F) (descendLoop ChunkSize fuel pTree pBigTree sizebits pChunk rsize)
        (fun r h' => h' = h ∧ (r.1 ≠ null → LargeNode F r.1) ∧
          (r.2.1 ≠ null → LargeNode F r.2.1)) h := by
  intro fuel
  induction fuel with
  | zero => exact fun _ _ _ _ _ _ _ _ => within_fail
  | succ fuel ih =>
      intro pTree pBigTree sizebits pChunk rsize htree hbig hchunk
      refine within_getChunkSize htree ?_
      dsimp only
      generalize decide (wsub (h.getChunkSize pTree) ChunkSize < rsize) = better
      generalize wsub (h.getChunkSize pTree) ChunkSize = trem
      have hbest : (if better = true then pTree else pChunk) ≠ null →
          LargeNode F (if better = true then pTree else pChunk) := by
        split_ifs
        · exact fun _ => htree
        · exact hchunk
      refine within_ite (fun _ => within_pure ⟨rfl, fun _ => htree, hbest⟩) fun _ => ?_
      have hk : (sizebits >>> 31) &&& 1 ≤ 1 := Nat.and_le_right
      refine within_load (permits_child htree le_rfl) (within_load (permits_child htree hk) ?_)
      have hright : h.get pTree (.child 1) ≠ null → LargeNode F (h.get pTree (.child 1)) :=
        ht.child htree le_rfl
      have hbig' : ∀ q, (if h.get pTree (.child 1) ≠ null ∧ h.get pTree (.child 1) ≠ q
          then h.get pTree (.child 1) else pBigTree) ≠ null →
          LargeNode F (if h.get pTree (.child 1) ≠ null ∧ h.get pTree (.child 1) ≠ q
            then h.get pTree (.child 1) else pBigTree) := by
        intro q
        split_ifs with h1
        · exact hright
        · exact hbig
      refine within_ite (fun _ => within_pure ⟨rfl, hbig' _, hbest⟩) fun hne => ?_
      exact ih _ _ _ _ _ (ht.child htree hk hne) (hbig' _) hbest

lemma within_leftmostLoop (ht : Typed F h) (ChunkSize : ℕ) : ∀ fuel pTree pChunk rsize,
    (pTree ≠ null → LargeNode F pTree) → (pChunk ≠ null → LargeNode F pChunk) →
      Within (Permits F) (leftmostLoop ChunkSize fuel pTree pChunk rsize)
        (fun c h' => h' = h ∧ (c ≠ null → LargeNode F c)) h := by
  intro fuel
  induction fuel with
  | zero => exact fun _ _ _ _ _ => within_fail
  | succ fuel ih =>
      intro pTree pChunk rsize htree hchunk
      refine within_ite (fun hne => ?_) fun _ => within_pure ⟨rfl, hchunk⟩
      refine within_getChunkSize (htree hne) (within_ite (fun _ => ?_) fun _ => ?_)
      · refine (within_letfmostChild ht (htree hne)).bind ?_
        rintro c h' ⟨rfl, hc⟩
        exact ih c pTree _ hc htree
      · refine (within_letfmostChild ht (htree hne)).bind ?_
        rintro c h' ⟨rfl, hc⟩
        exact ih c pChunk rsize hc hchunk

/-- The scan of a word that is not zero ends at one of its bits. -/
lemma bitScanForward_lt {x : Int32U} (hx : x ≠ 0) :
    (bitScanForward x).toNat < 32 ∧ x.getLsbD (bitScanForward x).toNat = true := by
  obtain ⟨k, hk, hset, hlow⟩ := (eq_zero_or_lowest x).resolve_left hx
  have hscan := bitScanForward_of_lowest hset hlow
  rw [hscan]
  exact ⟨hk, hset⟩

lemma within_nextTree (ht : Typed F h) (idx pTree pChunk : ℕ) (htree : pTree ≠ null → LargeNode F pTree) :
    Within (Permits F) (nextTree idx pTree pChunk)
      (fun c h' => h' = h ∧ (c ≠ null → LargeNode F c)) h := by
  refine within_ite (fun _ => within_look_bind ?_) fun _ => within_pure ⟨rfl, htree⟩
  refine within_ite (fun hne => ?_) fun _ => within_pure ⟨rfl, htree⟩
  obtain ⟨hlt, -⟩ := bitScanForward_lt hne
  refine within_ite (fun _ => within_pure ⟨rfl, fun h => absurd rfl h⟩) fun _ => ?_
  exact within_read (permits_slot hlt) ⟨rfl, ht.slot hlt⟩

/-! ### Chunks leave the bins -/

/-- **`unlink_small_chunk`.** -/
lemma within_unlinkSmallChunk (ht : Typed F h) (hF : Chunks F) (hx : SmallNode F x) (Size : ℕ) :
    Within (Permits F) (unlinkSmallChunk x Size) (fun _ _ => True) h := by
  obtain ⟨hnext, hprev⟩ := ht.small hF hx
  refine within_load (Or.inl (Or.inl hx)) (within_load (Or.inl (Or.inl hx)) (within_modify ?_))
  refine within_store (Or.inl (Or.inl hnext)) ?_
  exact within_store_end (Or.inl (Or.inl hprev)) trivial

/-- The way down to the rightmost descendent. -/
lemma within_rightmostLoop (ht : Typed F h) : ∀ fuel pNode k pReplace, LargeNode F pNode → k ≤ 1 →
    LargeNode F pReplace → Within (Permits F) (rightmostLoop fuel pNode k pReplace)
      (fun r h' => h' = h ∧ (r.2.1 ≤ 1 ∧ LargeNode F r.1) ∧ LargeNode F r.2.2) h := by
  intro fuel
  induction fuel with
  | zero => exact fun _ _ _ _ _ _ => within_fail
  | succ fuel ih =>
      intro pNode k pReplace hnode hk hreplace
      refine within_load (permits_child hreplace le_rfl) (within_ite (fun hne => ?_) fun _ => ?_)
      · exact ih pReplace 1 _ hreplace le_rfl (ht.child hreplace le_rfl hne)
      · refine within_load (permits_child hreplace (Nat.zero_le 1))
          (within_ite (fun hne => ?_) fun _ => ?_)
        · exact ih pReplace 0 _ hreplace (Nat.zero_le 1) (ht.child hreplace (Nat.zero_le 1) hne)
        · exact within_pure ⟨rfl, ⟨hk, hnode⟩, hreplace⟩

/-- The links fit, and the chunk `x` is a root or below a large chunk. -/
structure Hung (F : ℕ → Option ℕ) (h : Heap) (x : ℕ) : Prop where
  typed : Typed F h
  large : LargeNode F x
  rooted : Rooted F h x

lemma Hung.set (hh : Hung F h x) (hF : Chunks F) (hf : Suits F ⟨p, f⟩ v)
    (hne : f ≠ .parent ∧ f ≠ .index ∧ f ≠ .slot) : Hung F (h.set p f v) x :=
  ⟨hh.typed.set hF hf, hh.large, hh.rooted.set hh.typed hF hh.large hf.linked hne⟩

lemma within_cutRightmost (hh : Hung F h x) (hF : Chunks F) (hk : k ≤ 1) {pReplace : ℕ}
    (hreplace : LargeNode F pReplace) : Within (Permits F) (cutRightmost x k pReplace)
      (fun r h' => Hung F h' x ∧ (r ≠ null → LargeNode F r)) h := by
  refine (within_rightmostLoop hh.typed _ x k pReplace hh.large hk hreplace).bind ?_
  rintro r h' ⟨rfl, hplace, hr⟩
  refine within_store (Or.inl hplace) (within_pure ⟨hh.set hF ⟨hplace, fun h => absurd rfl h⟩ ?_,
    fun _ => hr⟩)
  simp

/-- The chunk that takes the place of another one is large, if there is one. -/
lemma within_chooseReplace (hh : Hung F h x) (hF : Chunks F) :
    Within (Permits F) (chooseReplace x) (fun r h' => Hung F h' x ∧ (r ≠ null → LargeNode F r))
      h := by
  have hx := hh.large
  obtain ⟨hnext, hprev⟩ := hh.typed.large hF hx
  refine within_load (Or.inl (Or.inr hx)) (within_ite (fun _ => ?_) fun _ => ?_)
  · refine within_load (Or.inl (Or.inr hx)) (within_load (Or.inl (Or.inr hx)) ?_)
    refine within_store (Or.inl (Or.inr hnext)) (within_store (Or.inl (Or.inr hprev)) ?_)
    refine within_pure ⟨?_, fun _ => hprev⟩
    have hh₁ := hh.set hF (p := h.freeNext x) (f := .freePrev) (v := h.freePrev x)
      (Or.inr ⟨hnext, hprev⟩) (by simp)
    exact hh₁.set hF (Or.inr ⟨hprev, hnext⟩) (by simp)
  · refine within_load (permits_child hx le_rfl) (within_ite (fun hne => ?_) fun _ => ?_)
    · exact within_cutRightmost hh hF le_rfl (hh.typed.child hx le_rfl hne)
    · refine within_load (permits_child hx (Nat.zero_le 1)) (within_ite (fun hne => ?_) fun _ => ?_)
      · exact within_cutRightmost hh hF (Nat.zero_le 1) (hh.typed.child hx (Nat.zero_le 1) hne)
      · exact within_pure ⟨hh, fun h => absurd rfl h⟩

lemma within_relinkParent (ht : Typed F h) (hF : Chunks F) (hx : LargeNode F x) {r : ℕ}
    (hr : r ≠ null → LargeNode F r)
    (hp : h.mem (treeSlot (h.index x)) = x ∨ LargeNode F p) :
    Within (Permits F) (relinkParent x r p) (fun _ h' => Typed F h') h := by
  have hi := ht.index_lt hx
  refine within_load (Or.inl hx) (within_load (permits_slot hi) (within_ite (fun _ => ?_) ?_))
  · have hsuits : Suits F ⟨treeSlot (h.index x), .slot⟩ r := ⟨⟨_, hi, rfl⟩, hr⟩
    refine within_store (permits_slot hi) (within_ite (fun _ => ?_) fun _ => ?_)
    · refine within_load (Or.inl hx) (within_change fun h' hh' => ?_)
      rw [← Option.some.inj hh']
      exact (ht.set hF hsuits).congr fun _ _ => rfl
    · exact within_pure (ht.set hF hsuits)
  · intro hne
    have hp' := hp.resolve_left fun h => hne h.symm
    have hstore : ∀ k ≤ 1, Within (Permits F) (store p (.child k) r) (fun _ h' => Typed F h') h :=
      fun k hk => within_store_end (permits_child hp' hk) (ht.set hF (suits_child hp' hk hr))
    refine within_load (permits_child hp' (Nat.zero_le 1)) (within_ite (fun _ => ?_) fun _ => ?_)
    · exact hstore 0 (Nat.zero_le 1)
    · exact hstore 1 le_rfl

lemma within_relinkChild (ht : Typed F h) (hF : Chunks F) (hx : LargeNode F x) {r : ℕ}
    (hr : LargeNode F r) (hk : k ≤ 1) :
    Within (Permits F) (relinkChild x r k) (fun _ h' => Typed F h') h := by
  refine within_load (permits_child hx hk) (within_ite (fun hne => ?_) fun _ => within_pure ht)
  have hchild := ht.child hx hk hne
  refine within_store (permits_child hr hk) (within_store_end (Or.inl hchild) ?_)
  exact (ht.set hF (suits_child hr hk fun _ => hchild)).set hF (suits_parent hchild)

lemma within_relink (hh : Hung F h x) (hF : Chunks F) {r : ℕ} (hr : r ≠ null → LargeNode F r) :
    Within (Permits F) (relink x r) (fun _ _ => True) h := by
  have hx := hh.large
  refine within_load (Or.inl hx) (within_ite (fun hne => ?_) fun _ => within_pure trivial)
  refine (within_relinkParent hh.typed hF hx hr (hh.rooted.resolve_left hne)).bind ?_
  rintro - h₁ ht₁
  refine within_ite (fun hr0 => ?_) fun _ => within_pure trivial
  have hr' := hr hr0
  refine within_store (Or.inl hr') ?_
  refine (within_relinkChild (ht₁.set hF (suits_parent hr')) hF hx hr' (Nat.zero_le 1)).bind ?_
  rintro - h₂ ht₂
  exact (within_relinkChild ht₂ hF hx hr' le_rfl).mono (fun _ h => h) fun _ _ _ => trivial

/-- **`unlink_large_chunk`** accesses links of large chunks and tree slots. -/
theorem within_unlinkLargeChunk (hb : Bins h F) (hF : Chunks F) (hx : x ≠ null → LargeNode F x) :
    Within (Permits F) (unlinkLargeChunk x) (fun _ _ => True) h := by
  refine within_ite (fun _ => within_pure trivial) fun hne => ?_
  have hh : Hung F h x := ⟨hb.typed hF, hx hne, hb.rooted (hx hne)⟩
  refine (within_chooseReplace hh hF).bind ?_
  rintro r h' ⟨hh', hr⟩
  exact within_relink hh' hF hr

/-- **`unlink_chunk`.** -/
theorem within_unlinkChunk (hb : Bins h F) (hF : Chunks F) (hx : F x = some n) :
    Within (Permits F) (unlinkChunk x (n - 8)) (fun _ _ => True) h := by
  have hsize := hF.size x n hx
  refine within_ite (fun hsmall => ?_) fun hlarge => ?_
  · exact within_unlinkSmallChunk (hb.typed hF) hF
      (Or.inl ⟨n, hx, (Bins.isSmall_iff hsize).mp hsmall⟩) _
  · refine within_unlinkLargeChunk hb hF fun _ => ⟨n, hx, ?_⟩
    exact not_le.mp fun hle => hlarge ((Bins.isSmall_iff hsize).mpr hle)

/-! ### The search of `malloc` -/

lemma within_checkoutSmallChunkInGroup (ht : Typed F h) (hF : Chunks F) (hi : i < 32) :
    Within (Permits F) (checkoutSmallChunkInGroup (getSameChunkGroup i) i) (fun _ _ => True) h := by
  have hhead : SmallNode F (getSameChunkGroup i) := Or.inr ⟨i, hi, rfl⟩
  have hfirst := (ht.small hF hhead).1
  have hnext := (ht.small hF hfirst).1
  refine within_load (Or.inl (Or.inl hhead)) (within_load (Or.inl (Or.inl hfirst)) ?_)
  refine within_modify (within_store (Or.inl (Or.inl hhead)) ?_)
  exact within_store (Or.inl (Or.inl hnext)) (within_pure trivial)

lemma within_checkoutSmallChunkInTree (hb : Bins h F) (hF : Chunks F) :
    Within (Permits F) checkoutSmallChunkInTree (fun _ _ => True) h := by
  have ht := hb.typed hF
  refine within_look_bind (within_ite (fun _ => within_pure trivial) fun hne => ?_)
  obtain ⟨hlt, hbit⟩ := bitScanForward_lt hne
  have hroot := ht.slot hlt (hb.root_ne_null hlt hbit)
  refine within_load (permits_slot hlt) (within_load (Or.inr ⟨rfl, hroot⟩) ?_)
  refine (within_smallestLoop ht _ _ _ _ hroot hroot).bind ?_
  rintro c h' ⟨rfl, hc⟩
  refine (within_unlinkLargeChunk hb hF fun _ => hc).bind ?_
  exact fun _ _ _ => within_pure trivial

lemma within_checkoutLargeChunkInTree (hb : Bins h F) (hF : Chunks F) {Size : ℕ}
    (hsize : 256 ≤ Size) :
    Within (Permits F) (checkoutLargeChunkInTree Size) (fun _ _ => True) h := by
  have ht := hb.typed hF
  have hi := treeSizeToIndex_lt hsize
  have hnull : null ≠ null → LargeNode F null := fun h => absurd rfl h
  refine within_load (permits_slot hi) ?_
  refine Within.bind (Q := fun r h' => h' = h ∧ (r.1 ≠ null → LargeNode F r.1) ∧
    (r.2.1 ≠ null → LargeNode F r.2.1)) (within_ite (fun hne => ?_) fun _ => ?_) ?_
  · exact within_descendLoop ht _ _ _ _ _ _ _ (ht.slot hi hne) hnull hnull
  · exact within_pure ⟨rfl, hnull, hnull⟩
  · rintro f h₁ ⟨rfl, htree, hchunk⟩
    refine (within_nextTree ht _ _ _ htree).bind ?_
    rintro pTree h₂ ⟨rfl, hnext⟩
    refine (within_leftmostLoop ht _ _ _ _ _ hnext hchunk).bind ?_
    rintro c h₃ ⟨rfl, hc⟩
    refine (within_unlinkLargeChunk hb hF hc).bind ?_
    exact fun _ _ _ => within_pure trivial

/-- **The search of `malloc`.** -/
theorem within_checkoutChunk (hb : Bins h F) (hF : Chunks F) (Size : Int32U) :
    Within (Permits F) (checkoutChunk Size) (fun _ _ => True) h := by
  refine within_ite (fun _ => ?_) fun hlarge => ?_
  · refine within_look_bind (within_ite (fun _ => ?_) fun _ => ?_)
    · refine (within_checkoutSmallChunkInGroup (hb.typed hF) hF ?_).bind
        fun _ _ _ => within_pure trivial
      rw [BitVec.toNat_and]
      exact lt_of_le_of_lt Nat.and_le_left (show (0x1F : Int32U).toNat < 32 by decide)
    · exact (within_checkoutSmallChunkInTree hb hF).bind fun _ _ _ => within_pure trivial
  · rw [isSmall, decide_eq_true_eq] at hlarge
    exact (within_checkoutLargeChunkInTree hb hF (by omega)).bind fun _ _ _ => within_pure trivial

/-! ### A chunk goes into the bins -/

/-- **`insert_small_chunk`.** -/
lemma within_insertSmallChunk (ht : Typed F h) (hx : F x = none)
    (hF : Chunks (Function.update F x (some n))) (hn : n ≤ 264) :
    Within (Permits (Function.update F x (some n))) (insertSmallChunk x (n - 8)) (fun _ _ => True)
      h := by
  have hself : Function.update F x (some n) x = some n := Function.update_self ..
  have hsize := hF.size x n hself
  have hF₀ := hF.of_update hx
  have hi := boxIndex_lt hsize hn
  have hmono := eq_some_update (n := n) hx
  have hnext : Linked (Function.update F x (some n)) ⟨x, .freeNext⟩ :=
    Or.inl (Or.inl ⟨n, hself, hn⟩)
  have hprev : Linked (Function.update F x (some n)) ⟨x, .freePrev⟩ :=
    Or.inl (Or.inl ⟨n, hself, hn⟩)
  have hhead : SmallNode F (getSameChunkGroup (getBoxIndex (n - 8))) := Or.inr ⟨_, hi, rfl⟩
  have ht₁ : Typed F (if testBit h.sameMap (getBoxIndex (n - 8)) then h
      else { h with sameMap := setBit h.sameMap (getBoxIndex (n - 8)) }) :=
    ht.congr fun _ _ => by split_ifs <;> rfl
  rw [insertSmallChunk]
  refine within_modify ?_
  revert ht₁ hhead
  generalize (if testBit h.sameMap (getBoxIndex (n - 8)) then h
    else { h with sameMap := setBit h.sameMap (getBoxIndex (n - 8)) }) = h₁
  generalize getSameChunkGroup (getBoxIndex (n - 8)) = pHead
  intro hhead ht₁
  have hhead' := hhead.mono hmono
  refine within_load (Or.inl (Or.inl hhead')) ?_
  refine within_store (Or.inl hnext) (within_store (Or.inl hprev) ?_)
  refine within_load (Or.inl (Or.inl hhead')) ?_
  have ht₂ := (ht₁.set_new (v := h₁.get pHead .freeNext) hx hF hnext).set_new (v := pHead) hx hF
    hprev
  refine within_store (Or.inl (Or.inl ((ht₂.small hF₀ hhead).1.mono hmono))) ?_
  exact within_store_end (Or.inl (Or.inl hhead')) trivial

/-- The way down to the place of a new chunk. -/
lemma within_insertLargeLoop (hx : F x = none) (hF : Chunks (Function.update F x (some n)))
    (hn : 264 < n) (ChunkSize : ℕ) : ∀ fuel h pNode BitMap, Typed F h → LargeNode F pNode →
    Within (Permits (Function.update F x (some n))) (insertLargeLoop x ChunkSize fuel pNode BitMap)
      (fun _ _ => True) h := by
  have hself : LargeNode (Function.update F x (some n)) x := ⟨n, Function.update_self .., hn⟩
  have hmono := eq_some_update (n := n) hx
  intro fuel
  induction fuel with
  | zero => exact fun _ _ _ _ _ => within_fail
  | succ fuel ih =>
      intro h pNode BitMap ht hnode
      have hnode' := hnode.mono hmono
      refine within_getChunkSize hnode' (within_ite (fun _ => ?_) fun _ => ?_)
      · have hk : (BitMap >>> 31) &&& 1 ≤ 1 := Nat.and_le_right
        refine within_load (permits_child hnode' hk) (within_ite (fun hne => ?_) fun _ => ?_)
        · exact ih h _ _ ht (ht.child hnode hk hne)
        · refine within_store (permits_child hnode' hk) (within_store (Or.inl hself) ?_)
          refine within_store (Or.inl (Or.inr hself)) ?_
          exact within_store_end (Or.inl (Or.inr hself)) trivial
      · have hparent : Linked (Function.update F x (some n)) ⟨x, .parent⟩ := hself
        have hnext : Linked (Function.update F x (some n)) ⟨x, .freeNext⟩ := Or.inr hself
        have hprev : Linked (Function.update F x (some n)) ⟨x, .freePrev⟩ := Or.inr hself
        refine within_store (Or.inl hparent) (within_load (Or.inl (Or.inr hnode')) ?_)
        have ht₁ := ht.set_new (v := null) hx hF hparent
        refine within_store (Or.inl hnext) (within_store (Or.inl hprev) ?_)
        have ht₂ := (ht₁.set_new (v := (h.set x .parent null).get pNode .freeNext) hx hF
          hnext).set_new (v := pNode) hx hF hprev
        refine within_load (Or.inl (Or.inr hnode')) ?_
        refine within_store (Or.inl (Or.inr ((ht₂.large (hF.of_update hx) hnode).1.mono hmono))) ?_
        exact within_store_end (Or.inl (Or.inr hnode')) trivial

/-- **`insert_large_chunk`.** -/
lemma within_insertLargeChunk (hb : Bins h F) (hx : F x = none)
    (hF : Chunks (Function.update F x (some n))) (hn : 264 < n) :
    Within (Permits (Function.update F x (some n))) (insertLargeChunk x (n - 8)) (fun _ _ => True)
      h := by
  have hself : LargeNode (Function.update F x (some n)) x := ⟨n, Function.update_self .., hn⟩
  have ht := hb.typed (hF.of_update hx)
  have hi : treeSizeToIndex (n - 8) < 32 := treeSizeToIndex_lt (by omega)
  have hindex : Linked (Function.update F x (some n)) ⟨x, .index⟩ := hself
  have hchild : ∀ k ≤ 1, Linked (Function.update F x (some n)) ⟨x, .child k⟩ :=
    fun k hk => ⟨hk, hself⟩
  refine within_load (permits_slot hi) (within_store (Or.inl hindex) ?_)
  refine within_store (Or.inl (hchild 1 le_rfl)) (within_store (Or.inl (hchild 0 (Nat.zero_le 1))) ?_)
  refine within_look_bind (within_ite (fun _ => ?_) fun hbit => ?_)
  · refine within_modify (within_store (permits_slot hi) (within_store (Or.inl hself) ?_))
    refine within_store (Or.inl (Or.inr hself)) ?_
    exact within_store_end (Or.inl (Or.inr hself)) trivial
  · have hbit' : h.treeMap.getLsbD (treeSizeToIndex (n - 8)) = true := by
      rw [← testBit_eq]
      exact Bool.eq_true_of_not_eq_false hbit
    refine within_insertLargeLoop hx hF hn _ _ _ _ _ ?_ (ht.slot hi (hb.root_ne_null hi hbit'))
    exact ((ht.set_new hx hF hindex).set_new hx hF (hchild 1 le_rfl)).set_new hx hF
      (hchild 0 (Nat.zero_le 1))

/-- **`checkin_free_chunk`** accesses links of the bins with the new chunk. -/
theorem within_checkinFreeChunk (hb : Bins h F) (hx : F x = none)
    (hF : Chunks (Function.update F x (some n))) :
    Within (Permits (Function.update F x (some n))) (checkinFreeChunk x n) (fun _ _ => True) h := by
  have hself : Function.update F x (some n) x = some n := Function.update_self ..
  have hsize := hF.size x n hself
  have hle := hF.le x n hself
  have hpos := hF.pos x n hself
  have hw : wsub n 8 = n - 8 := wsub_of_le (by omega) (by omega)
  rw [checkinFreeChunk, if_pos (hF.pos_of hself), hw]
  refine within_ite (fun hsmall => ?_) fun hlarge => ?_
  · exact within_insertSmallChunk (hb.typed (hF.of_update hx)) hx hF
      ((Bins.isSmall_iff hsize).mp hsmall)
  · exact within_insertLargeChunk hb hx hF
      (not_le.mp fun hle => hlarge ((Bins.isSmall_iff hsize).mpr hle))

end Visits

end Logged

end Heap

end ChinaOS
