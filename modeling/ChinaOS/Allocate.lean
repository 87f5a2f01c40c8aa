import ChinaOS.Boundary

/-!
`malloc`.

* `Taken.whole`, `Taken.cut`: the two ends of `splite_free_chunk`.
* `HeapInv.malloc`: a request takes one free chunk that fits, if there is one, and cuts it in two
  if the rest is a chunk; if there is none, nothing changes.
-/

namespace ChinaOS

namespace Heap

open Records Tiling

section Allocate

variable {B : Set (ℕ × ℕ)} {h h' : Heap} {c c' : ℕ → Option Piece} {a n k x y : ℕ}

lemma Coalesced.of_used (hco : Coalesced c) :
    Coalesced (Function.update c x (some ⟨n, true⟩)) := by
  intro y t t' hy hy'
  rw [Function.update_apply] at hy hy'
  split_ifs at hy hy' with h1 h2 h2
  · exact Or.inl (by rw [← Option.some.inj hy])
  · exact Or.inl (by rw [← Option.some.inj hy])
  · exact Or.inr (by rw [← Option.some.inj hy'])
  · exact hco y t t' hy hy'

/-- **The whole chunk** becomes used. -/
theorem Taken.whole (ht : Taken B h c x n) :
    Tags B (h.setInfo x n (n + 1)) (Function.update c x (some ⟨n, true⟩)) ∧
      Bins (h.setInfo x n (n + 1)) (freeOf (Function.update c x (some ⟨n, true⟩))) := by
  have hl' : Layout B (Function.update c x (some ⟨n, true⟩)) := ht.layout.mark ht.chunk
  refine ⟨ht.tags.setInfo ht.layout hl' (Function.update_self ..) fun a t hax ha => ?_, ?_⟩
  · rwa [Function.update_of_ne hax] at ha
  · rw [freeOf_update_used]
    refine ht.bins.setInfo hl' (fun a k ha => ?_) (Function.update_self ..)
    rwa [freeOf_update_used]

/-- The words of the chunk `x` of `n` bytes, cut in two after `k` bytes. -/
def cutInfo (h : Heap) (x n k : ℕ) : Heap :=
  (((h.setPrevInfo (x + k) (k + 1)).setThisInfo x (k + 1)).setPrevInfo (x + n)
    (n - k)).setThisInfo (x + k) (n - k)

/-- **The chunk is cut in two.** The first part becomes used, and the rest is not in the bins
yet. -/
theorem Taken.cut (ht : Taken B h c x n) (hk : 16 ≤ k) (hkn : k + 16 ≤ n) (hk4 : k % 4 = 0) :
    Taken B (h.cutInfo x n k)
      (Function.update (Function.update c x (some ⟨k, true⟩)) (x + k) (some ⟨n - k, false⟩))
      (x + k) (n - k) := by
  have hl := ht.layout
  obtain ⟨b, hb, h₁, h₂⟩ := hl.tiling.inside x _ ht.chunk
  set c' := Function.update (Function.update c x (some ⟨k, true⟩)) (x + k)
    (some ⟨n - k, false⟩) with hc'
  set h' := h.cutInfo x n k with hh'
  have hl' : Layout B c' := hl.split ht.chunk hk hkn hk4
  have hrest : c' (x + k) = some ⟨n - k, false⟩ := Function.update_self ..
  have hfirst : c' x = some ⟨k, true⟩ :=
    (Function.update_of_ne (by omega) _ _).trans (Function.update_self ..)
  have hmem : ∀ w, w ≠ x + k → w ≠ x + 4 → w ≠ x + n → w ≠ x + k + 4 → h'.mem w = h.mem w :=
    fun w hwk hw4 hwn hwk4 => (Function.update_of_ne hwk4 _ _).trans
      ((Function.update_of_ne hwn _ _).trans ((Function.update_of_ne hw4 _ _).trans
        (Function.update_of_ne hwk _ _)))
  have hnone : Function.update (freeOf c) x none (x + k) = none := by
    rw [Function.update_of_ne (by omega)]
    by_contra hne
    obtain ⟨m, hm⟩ := Option.ne_none_iff_exists'.mp hne
    have hout := hl.outside ht.chunk (freeOf_eq_some.mp hm) (by omega)
    have hm16 := (hl.size _ _ (freeOf_eq_some.mp hm)).1
    dsimp only at hout hm16
    omega
  have hfree : freeOf c' = Function.update (Function.update (freeOf c) x none) (x + k)
      (some (n - k)) := by
    rw [hc', freeOf_update_free, freeOf_update_used]
  have hback : Function.update (freeOf c') (x + k) none = Function.update (freeOf c) x none := by
    rw [hfree, Function.update_idem, erase_of_none hnone]
  refine ⟨hl', ht.tags.edit hl hb h₁ h₂ (fun w hw => ?_) fun a t ha => ?_, hrest, ?_⟩
  · dsimp only at hw
    exact hmem w (by omega) (by omega) (by omega) (by omega)
  · rw [hc', Function.update_apply, Function.update_apply] at ha
    split_ifs at ha with hak hax
    · rw [Option.some.injEq] at ha
      subst hak ha
      refine Or.inr ⟨Function.update_self .., ?_⟩
      show h'.mem (x + k + (n - k)) = n - k
      rw [show x + k + (n - k) = x + n by omega]
      exact (Function.update_of_ne (by omega) _ _).trans (Function.update_self ..)
    · rw [Option.some.injEq] at ha
      subst hax ha
      refine Or.inr ⟨?_, ?_⟩
      · show h'.mem (a + 4) = k + 1
        exact (Function.update_of_ne (by omega) _ _).trans
          ((Function.update_of_ne (by omega) _ _).trans (Function.update_self ..))
      · show h'.mem (a + k) = k + 1
        exact (Function.update_of_ne (by omega) _ _).trans
          ((Function.update_of_ne (by omega) _ _).trans
            ((Function.update_of_ne (by omega) _ _).trans (Function.update_self ..)))
    · exact Or.inl ⟨ha, hl.outside ht.chunk ha hax⟩
  · rw [hback]
    refine ht.bins.of_headers hl' (fun a m ha => ?_) (fun w hw => ?_) rfl rfl
    · rw [hfree, Function.update_of_ne, ha]
      rintro rfl
      rw [hnone] at ha
      simp at ha
    · refine hmem w ?_ ?_ ?_ ?_
      · rintro rfl
        exact hw (Or.inl ⟨_, _, hrest, Or.inl rfl⟩)
      · rintro rfl
        exact hw (Or.inl ⟨_, _, hfirst, Or.inr rfl⟩)
      · rintro rfl
        have hend := hl'.header_end hrest
        rw [show x + k + (n - k) = x + n by omega] at hend
        exact hw hend
      · rintro rfl
        exact hw (Or.inl ⟨_, _, hrest, Or.inr rfl⟩)

/-- The chunks after `k` bytes of the free chunk `x` of `n` bytes were taken. -/
def allocated (c : ℕ → Option Piece) (x n k : ℕ) : ℕ → Option Piece :=
  if n - k < minChunkSize then Function.update c x (some ⟨n, true⟩)
  else Function.update (Function.update c x (some ⟨k, true⟩)) (x + k) (some ⟨n - k, false⟩)

lemma allocated_whole (hrest : n - k < minChunkSize) :
    allocated c x n k a = if a = x then some ⟨n, true⟩ else c a := by
  rw [allocated, if_pos hrest, Function.update_apply]

lemma allocated_split (hrest : ¬ n - k < minChunkSize) (hk : 0 < k) :
    allocated c x n k a =
      if a = x then some ⟨k, true⟩ else if a = x + k then some ⟨n - k, false⟩ else c a := by
  rw [allocated, if_neg hrest, Function.update_apply, Function.update_apply]
  by_cases hax : a = x
  · rw [if_pos hax, if_pos hax, if_neg (by omega)]
  · rw [if_neg hax, if_neg hax]

lemma allocated_self (hk : 0 < k) :
    ∃ m, allocated c x n k x = some ⟨m, true⟩ ∧ (m = n ∨ m = k) := by
  by_cases hrest : n - k < minChunkSize
  · exact ⟨n, by rw [allocated_whole hrest, if_pos rfl], Or.inl rfl⟩
  · exact ⟨k, by rw [allocated_split hrest hk, if_pos rfl], Or.inr rfl⟩

/-- The other used chunks stay. -/
lemma allocated_used (hl : Layout B c) (hx : c x = some ⟨n, false⟩) (hk : 0 < k) {m : ℕ}
    (hax : a ≠ x) : allocated c x n k a = some ⟨m, true⟩ ↔ c a = some ⟨m, true⟩ := by
  by_cases hrest : n - k < minChunkSize
  · rw [allocated_whole hrest, if_neg hax]
  · rw [allocated_split hrest hk, if_neg hax]
    split_ifs with hak
    · -- nothing began where the rest begins
      rw [minChunkSize, not_lt] at hrest
      rw [hak, hl.tiling.none_inside hx (by omega) (by dsimp only; omega)]
      simp
    · exact Iff.rfl

lemma Coalesced.allocated (hco : Coalesced c) (hl : Layout B c) (hx : c x = some ⟨n, false⟩)
    (hk : 0 < k) (hkn : k ≤ n) : Coalesced (allocated c x n k) := by
  rw [Heap.allocated]
  split_ifs with hrest
  · exact hco.of_used
  · rw [minChunkSize, not_lt] at hrest
    intro y t t' hy hy'
    rw [Function.update_apply, Function.update_apply] at hy hy'
    split_ifs at hy with h1 h2
    · -- behind the rest there is what was behind the whole
      have ht : t.size = n - k := by rw [← Option.some.inj hy]
      rw [if_neg (by omega), if_neg (by omega), show y + t.size = x + n by omega] at hy'
      exact Or.inr ((hco x _ t' hx hy').resolve_left (by simp))
    · exact Or.inl (by rw [← Option.some.inj hy])
    · have hout := hl.outside hx hy h2
      have hsize := (hl.size y t hy).1
      dsimp only at hout
      split_ifs at hy' with h3 h4
      · omega
      · exact Or.inr (by rw [← Option.some.inj hy'])
      · exact hco y t t' hy hy'

/-! ### The functions -/

/-- `splite_free_chunk` on a chunk that is not larger by the size of a chunk. -/
lemma Taken.splite_whole (ht : Taken B h c x n) (hkn : k ≤ n) (hrest : n - k < minChunkSize) :
    h.spliteFreeChunk x k = (h.setInfo x n (n + 1), null) := by
  have hle : x + n + 8 ≤ 2 ^ 32 := ht.layout.le ht.chunk
  have hn4 : n % 4 = 0 := (ht.layout.size x _ ht.chunk).2.1
  have hinfo : h.thisInfo x = n := ht.tags.this x _ ht.chunk
  rw [spliteFreeChunk, hinfo, wsub_of_le hkn (by omega)]
  dsimp only
  rw [if_pos hrest, or_used (by omega)]
  rfl

/-- `splite_free_chunk` on a larger chunk. -/
lemma Taken.splite_cut (ht : Taken B h c x n) (hkn : k ≤ n) (hk4 : k % 4 = 0)
    (hrest : ¬ n - k < minChunkSize) : h.spliteFreeChunk x k = (h.cutInfo x n k, x + k) := by
  have hle : x + n + 8 ≤ 2 ^ 32 := ht.layout.le ht.chunk
  have hinfo : h.thisInfo x = n := ht.tags.this x _ ht.chunk
  rw [spliteFreeChunk, hinfo, wsub_of_le hkn (by omega)]
  dsimp only
  rw [if_neg hrest, or_used (by omega)]
  rfl

/-- **The chunk is cut to size**, and the rest goes into the bins. -/
theorem Taken.takeChunk (ht : Taken B h c x n) {R : Int32U} (hR : 16 ≤ R.toNat)
    (hfit : R.toNat + 8 ≤ n) (hR4 : R.toNat % 4 = 0) :
    ∃ h', h.takeChunk x R = some h' ∧ Layout B (allocated c x n (R.toNat + 8)) ∧
      Tags B h' (allocated c x n (R.toNat + 8)) ∧
      Bins h' (freeOf (allocated c x n (R.toNat + 8))) ∧ h'.lock = h.lock := by
  have hl := ht.layout
  have hx : x ≠ null := (hl.pos ht.chunk).ne'
  have hle : x + n + 8 ≤ 2 ^ 32 := hl.le ht.chunk
  have hk : wadd R.toNat chunkHead = R.toNat + 8 := wadd_of_lt (by rw [chunkHead]; omega)
  rw [Heap.takeChunk, if_pos hx, hk, allocated]
  by_cases hsmall : n - (R.toNat + 8) < minChunkSize
  · obtain ⟨htags, hbins⟩ := ht.whole
    rw [if_pos hsmall, ht.splite_whole hfit hsmall]
    exact ⟨_, if_neg (not_not.mpr rfl), hl.mark ht.chunk, htags, hbins, rfl⟩
  · rw [if_neg hsmall, ht.splite_cut hfit (by omega) hsmall]
    rw [minChunkSize, not_lt] at hsmall
    have hcut := ht.cut (k := R.toNat + 8) (by omega) (by omega) (by omega)
    obtain ⟨h', heq, htags, hbins, hlock⟩ := hcut.checkin
    have hsize : (h.cutInfo x n (R.toNat + 8)).thisInfo (x + (R.toNat + 8)) = n - (R.toNat + 8) :=
      hcut.tags.this _ _ hcut.chunk
    refine ⟨h', ?_, hcut.layout, htags, hbins, hlock⟩
    dsimp only
    rw [hsize, heq]

lemma request_spec (Size : ℕ) : 16 ≤ request Size ∧ request Size % 4 = 0 ∧
    Size + 16 ≤ request Size := by
  rw [request]
  split_ifs <;> omega

/-- **The search of `malloc`** under the invariant. -/
lemma HeapInv.search (hi : HeapInv B h c) {Size : Int32U} (hsize : Size.toNat ≤ 2 ^ 32 - 24) :
    ∃ R : Int32U, R.toNat = request Size.toNat ∧
      ((({ h with lock := 0 } : Heap).checkoutChunk (alignUpside (Size + 16#32) 4) =
          some ({ h with lock := 0 }, null, R) ∧
        ∀ a n, c a = some ⟨n, false⟩ → n - 8 < R.toNat) ∨
      ∃ x n h₁, ({ h with lock := 0 } : Heap).checkoutChunk (alignUpside (Size + 16#32) 4) =
          some (h₁, x, R) ∧
        Taken B h₁ c x n ∧ R.toNat + 8 ≤ n ∧ h₁.lock = 0 ∧ Nearest (freeOf c) R.toNat n) := by
  have hl := hi.layout
  obtain ⟨hreq, -, -⟩ := request_spec Size.toNat
  obtain ⟨R, hR, ⟨heq, hnone⟩ | ⟨x, n, h₁, heq, hx, hfit, hedit, hb₁, hnear⟩⟩ :=
    hi.locked_bins.checkoutChunk hl.chunks hi.locked_tags.sized hsize
  · exact ⟨R, hR, Or.inl ⟨heq, fun a n ha => hnone a n (freeOf_eq_some.mpr ha)⟩⟩
  · exact ⟨R, hR, Or.inr ⟨x, n, h₁, heq, Taken.of_bins hl hi.locked_tags (freeOf_eq_some.mp hx) hedit
      hb₁, by omega, hedit.lock, hnear⟩⟩

/-- **A search that finds nothing** changes nothing. -/
lemma HeapInv.malloc_not_found (hi : HeapInv B h c) {Size R : Int32U}
    (hcheck : ({ h with lock := 0 } : Heap).checkoutChunk (alignUpside (Size + 16#32) 4) =
      some ({ h with lock := 0 }, null, R)) : h.malloc Size = some (h, null) := by
  rw [Heap.malloc, hi.lockWait_eq, Option.bind_some, hcheck, Option.bind_some, Heap.takeChunk,
    if_neg (not_not.mpr rfl), Option.map_some, hi.lockPost_eq]
  rfl

/-- **The chunk that the search finds** is returned. -/
lemma HeapInv.malloc_found (hi : HeapInv B h c) {Size R : Int32U}
    (hcheck : ({ h with lock := 0 } : Heap).checkoutChunk (alignUpside (Size + 16#32) 4) =
      some (h', x, R)) (ht : Taken B h' c x n) (hR : 16 ≤ R.toNat) (hfit : R.toNat + 8 ≤ n)
    (hR4 : R.toNat % 4 = 0) (hlock : h'.lock = 0) :
    ∃ h'', h.malloc Size = some (h'', x + 8) ∧ HeapInv B h'' (allocated c x n (R.toNat + 8)) := by
  have hx : x ≠ null := (ht.layout.pos ht.chunk).ne'
  obtain ⟨h₂, htake, hl₂, htags₂, hbins₂, hlock₂⟩ := ht.takeChunk hR hfit hR4
  refine ⟨h₂.lockPost, ?_, ⟨hl₂, htags₂.congr hl₂ fun _ _ => rfl,
    hbins₂.congr hl₂.chunks (fun _ _ _ => rfl) rfl rfl,
    hi.coalesced.allocated hi.layout ht.chunk (Nat.succ_pos _) hfit, ?_⟩⟩
  · rw [Heap.malloc, hi.lockWait_eq, Option.bind_some, hcheck, Option.bind_some, htake,
      Option.map_some, chunkToMemeory, if_pos hx]
  · show h₂.lock + 1 = 1
    rw [hlock₂, hlock]
    rfl

/-- **`malloc`** takes a free chunk that fits, if there is one; otherwise it returns `NULL` and
changes nothing. -/
theorem HeapInv.malloc (hi : HeapInv B h c) {Size : Int32U} (hsize : Size.toNat ≤ 2 ^ 32 - 24) :
    (h.malloc Size = some (h, null) ∧
      ∀ a n, c a = some ⟨n, false⟩ → n - 8 < request Size.toNat) ∨
    ∃ x n h', h.malloc Size = some (h', x + 8) ∧ c x = some ⟨n, false⟩ ∧
      request Size.toNat + 8 ≤ n ∧
      HeapInv B h' (allocated c x n (request Size.toNat + 8)) := by
  obtain ⟨hreq, hreq4, -⟩ := request_spec Size.toNat
  obtain ⟨R, hR, ⟨heq, hnone⟩ | ⟨x, n, h₁, heq, ht, hfit, hlock, -⟩⟩ := hi.search hsize
  · exact Or.inl ⟨hi.malloc_not_found heq, fun a n ha => hR ▸ hnone a n ha⟩
  · obtain ⟨h', hmalloc, hi'⟩ := hi.malloc_found heq ht (by omega) hfit (by omega) hlock
    rw [hR] at hfit hi'
    exact Or.inr ⟨x, n, h', hmalloc, ht.chunk, hfit, hi'⟩

end Allocate

end Heap

end ChinaOS
