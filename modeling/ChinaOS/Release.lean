import ChinaOS.Allocate

/-!
`free`.

* `Taken.mergePrev`, `Taken.mergeNext`: a free chunk is merged with a free neighbour.
* `HeapInv.free`: the chunk is free again, and merged with the free chunks around it.
-/

namespace ChinaOS

namespace Heap

open Records Tiling

section Release

variable {B : Set (ℕ × ℕ)} {h h' : Heap} {c c' : ℕ → Option Piece} {a n m k x y : ℕ} {t : Piece}

/-- No two free chunks are neighbours, the chunk `a` apart. -/
def CoalescedBut (c : ℕ → Option Piece) (a : ℕ) : Prop :=
  ∀ y t t', y ≠ a → y + t.size ≠ a → c y = some t → c (y + t.size) = some t' →
    t.used = true ∨ t'.used = true

/-- The same chunks are used. -/
def SameUsed (c c' : ℕ → Option Piece) : Prop :=
  ∀ y n, c' y = some ⟨n, true⟩ ↔ c y = some ⟨n, true⟩

/-- The chunk `a` is part of `a'` now, and the other chunks of `c'` were there before. -/
def Absorbed (c : ℕ → Option Piece) (a : ℕ) (c' : ℕ → Option Piece) (a' : ℕ) : Prop :=
  (c a').isSome ∧ ∀ z t, z ≠ a' → c' z = some t → z ≠ a ∧ c z = some t

/-- The chunks after the free chunk `y` was merged with the free chunk `a` behind it. -/
def merged (c : ℕ → Option Piece) (y m a n : ℕ) : ℕ → Option Piece :=
  Function.update (Function.update c a none) y (some ⟨m + n, false⟩)

lemma merged_self : merged c y m a n y = some ⟨m + n, false⟩ := Function.update_self ..

lemma merged_other (hz : merged c y m a n x = some t) (hxy : x ≠ y) : x ≠ a ∧ c x = some t := by
  rw [merged, Function.update_of_ne hxy, Function.update_apply] at hz
  split_ifs at hz with h
  exact ⟨h, hz⟩

lemma freeOf_merged : Function.update (freeOf (merged c y m a n)) y none =
    Function.update (Function.update (freeOf c) a none) y none := by
  rw [merged, freeOf_update_free, freeOf_update_none, Function.update_idem]

lemma merged_sameUsed (hy : c y = some ⟨m, false⟩) (ha : c a = some ⟨n, false⟩) :
    SameUsed c (merged c y m a n) := by
  intro z k
  rw [merged, Function.update_apply, Function.update_apply]
  split_ifs with h1 h2
  · rw [h1, hy]
    simp
  · rw [h2, ha]
    simp
  · rfl

/-- **The merged chunk is outside the bins**, if both its parts are. -/
theorem merged_taken (hl : Layout B c) (hy : c y = some ⟨m, false⟩)
    (ha : c (y + m) = some ⟨n, false⟩) (ht : Tags B h c)
    (hb : Bins h (Function.update (Function.update (freeOf c) (y + m) none) y none)) :
    Taken B (h.setInfo y (m + n) (m + n)) (merged c y m (y + m) n) y (m + n) := by
  have hl' : Layout B (merged c y m (y + m) n) := hl.merge hy ha
  refine ⟨hl', ht.setInfo hl hl' merged_self fun z t hz hzt => (merged_other hzt hz).2,
    merged_self, ?_⟩
  rw [← freeOf_merged (m := m) (n := n)] at hb
  exact hb.setInfo hl' (fun _ _ hz => (eq_some_of_erase hz).2) merged_self

lemma and_one_of_even (hn : n % 4 = 0) : n &&& 1 = 0 := by
  rw [Nat.and_one_is_mod]
  omega

lemma and_one_of_used (hn : n % 4 = 0) : info ⟨n, true⟩ &&& 1 ≠ 0 := by
  rw [info, Nat.and_one_is_mod]
  dsimp only [Bool.toNat_true]
  omega

/-- **The chunk is merged with the one in front of it**, if that is free. -/
theorem Taken.mergePrev (ht : Taken B h c a n) (hco : CoalescedBut c a) :
    ∃ h' c' a' n', h.mergePrev a n (a + n) = some (h', a', n') ∧ Taken B h' c' a' n' ∧
      CoalescedBut c' a' ∧ a' + n' = a + n ∧
      (∀ y t, c' y = some t → y + t.size = a' → t.used = true) ∧ SameUsed c c' ∧
      Absorbed c a c' a' ∧ h'.lock = h.lock := by
  have hl := ht.layout
  rw [Heap.mergePrev]
  -- what is in front of the chunk is in use
  have hkeep : (∀ y t, c y = some t → y + t.size = a → t.used = true) →
      h.prevInfo a &&& 1 ≠ 0 → ∃ h' c' a' n', (if h.prevInfo a &&& 1 = 0 then
        (h.unlinkChunk (wsub a (h.prevInfo a)) (wsub (h.prevInfo a) chunkHead)).map fun h₁ =>
          ((h₁.setPrevInfo (a + n) (wadd n (h.prevInfo a))).setThisInfo (wsub a (h.prevInfo a))
            (wadd n (h.prevInfo a)), wsub a (h.prevInfo a), wadd n (h.prevInfo a))
        else some (h, a, n)) = some (h', a', n') ∧ Taken B h' c' a' n' ∧
      CoalescedBut c' a' ∧ a' + n' = a + n ∧
      (∀ y t, c' y = some t → y + t.size = a' → t.used = true) ∧ SameUsed c c' ∧
      Absorbed c a c' a' ∧ h'.lock = h.lock := by
    intro hused hbit
    refine ⟨h, c, a, n, if_neg hbit, ht, hco, rfl, hused, fun _ _ => Iff.rfl, ⟨?_, ?_⟩, rfl⟩
    · rw [ht.chunk]
      rfl
    · exact fun z t hz hzc => ⟨hz, hzc⟩
  rcases hl.tiling.prev_cases ht.chunk with ⟨b, hb, rfl⟩ | ⟨y, ⟨m, u⟩, hy, rfl⟩
  · refine hkeep (fun y t hy hya => ?_) (by rw [ht.tags.start b hb]; decide)
    obtain ⟨b', hb', h₁, h₂⟩ := hl.tiling.inside y t hy
    have hpos := hl.tiling.pos y t hy
    have hne := hl.tiling.nonempty b hb
    have hbb := hl.tiling.bank_unique hb hb' le_rfl hne.le (by omega) (by omega)
    subst hbb
    omega
  · obtain ⟨hm16, hm4, -⟩ := hl.size y _ hy
    have hprev : h.prevInfo (y + m) = info ⟨m, u⟩ := ht.tags.prev y _ hy
    cases u with
    | true =>
        refine hkeep (fun z t hz hzy => ?_) (by rw [hprev]; exact and_one_of_used hm4)
        have hzt := hl.tiling.pos z t hz
        by_cases hzy' : z = y
        · subst hzy'
          rw [hy, Option.some.injEq] at hz
          rw [← hz]
        · have hout := hl.outside hy hz hzy'
          dsimp only at hout hzy hm16
          omega
    | false =>
        have hinfo : h.prevInfo (y + m) = m := hprev
        have hle := hl.le ht.chunk
        dsimp only at hm16 hm4 hle ⊢
        have hfree : Function.update (freeOf c) (y + m) none y = some m := by
          rw [Function.update_of_ne (by omega)]
          exact freeOf_eq_some.mpr hy
        obtain ⟨h₁, heq, hedit, hbins⟩ := ht.bins.unlinkChunk hl.chunks.erase hfree
        have htags := ht.tags.of_edit hl hedit fun _ _ => own_of_erase
        refine ⟨_, _, y, m + n, ?_, merged_taken hl hy ht.chunk htags hbins, ?_, by omega, ?_,
          merged_sameUsed hy ht.chunk, ⟨?_, fun z t hz hzc => merged_other hzc hz⟩, hedit.lock⟩
        · rw [hinfo, if_pos (and_one_of_even hm4), chunkHead, wsub_of_le (by omega) (by omega),
            wsub_of_le (by omega) (by omega), wadd_of_lt (by omega), Nat.add_sub_cancel, heq,
            Nat.add_comm n m, Nat.add_assoc]
          rfl
        · intro z t t' hz hzt hzc hzc'
          obtain ⟨hz', hzc⟩ := merged_other hzc hz
          obtain ⟨hzt', hzc'⟩ := merged_other hzc' hzt
          exact hco z t t' hz' hzt' hzc hzc'
        · intro z t hzc hzy
          have hpos := (merged_taken hl hy ht.chunk htags hbins).layout.tiling.pos z t hzc
          have hzy' : z ≠ y := by omega
          obtain ⟨hz', hzc⟩ := merged_other hzc hzy'
          have hzc' : c (z + t.size) = some ⟨m, false⟩ := by rw [hzy, hy]
          exact (hco z t _ hz' (by show z + t.size ≠ y + m; omega) hzc hzc').resolve_right (by simp)
        · rw [hy]
          rfl

/-- **The chunk is merged with the one behind it**, if that is free. -/
theorem Taken.mergeNext (ht : Taken B h c a n) (hco : CoalescedBut c a)
    (hprev : ∀ y t, c y = some t → y + t.size = a → t.used = true) :
    ∃ h' c' n', h.mergeNext a n (a + n) = some (h', a, n') ∧ Taken B h' c' a n' ∧
      Coalesced c' ∧ SameUsed c c' ∧ h'.lock = h.lock := by
  have hl := ht.layout
  have hfirst := ht.chunk
  have hn16 : 16 ≤ n := (hl.size a _ hfirst).1
  rw [Heap.mergeNext]
  -- what is behind the chunk is in use
  have hkeep : (∀ t, c (a + n) = some t → t.used = true) → h.thisInfo (a + n) &&& 1 ≠ 0 →
      ∃ h' c' n', (if h.thisInfo (a + n) &&& 1 = 0 then
        (h.unlinkChunk (a + n) (wsub (h.thisInfo (a + n)) chunkHead)).map fun h₁ =>
          ((h₁.setPrevInfo (wadd (a + n) (h.thisInfo (a + n))) (wadd n (h.thisInfo
            (a + n)))).setThisInfo a (wadd n (h.thisInfo (a + n))), a, wadd n (h.thisInfo (a + n)))
        else some (h, a, n)) = some (h', a, n') ∧ Taken B h' c' a n' ∧
      Coalesced c' ∧ SameUsed c c' ∧ h'.lock = h.lock := by
    intro hused hbit
    refine ⟨h, c, n, if_neg hbit, ht, fun y t t' hy hy' => ?_, fun _ _ => Iff.rfl, rfl⟩
    by_cases hya : y = a
    · subst hya
      rw [hfirst, Option.some.injEq] at hy
      subst hy
      exact Or.inr (hused t' hy')
    · by_cases hyt : y + t.size = a
      · exact Or.inl (hprev y t hy hyt)
      · exact hco y t t' hya hyt hy hy'
  obtain ⟨b, hb, h₁, h₂, hend | ⟨⟨k, u⟩, hk, hkb⟩⟩ := hl.tiling.next_cases hfirst
  · dsimp only at hend
    refine hkeep (fun t hnext => ?_) (by rw [hend, ht.tags.last b hb]; decide)
    exact absurd hend (hl.tiling.ne_end hnext hb)
  · obtain ⟨hk16, hk4, -⟩ := hl.size _ _ hk
    have hnext : h.thisInfo (a + n) = info ⟨k, u⟩ := ht.tags.this _ _ hk
    cases u with
    | true =>
        refine hkeep (fun t hc => ?_) (by rw [hnext]; exact and_one_of_used hk4)
        rw [hk, Option.some.injEq] at hc
        rw [← hc]
    | false =>
        have hinfo : h.thisInfo (a + n) = k := hnext
        have hle := hl.le hk
        dsimp only at hk16 hk4 hle hk
        have hswap : Function.update (Function.update (freeOf c) (a + n) none) a none =
            Function.update (Function.update (freeOf c) a none) (a + n) none :=
          Function.update_comm (by omega) ..
        have hfree : Function.update (freeOf c) a none (a + n) = some k := by
          rw [Function.update_of_ne (by omega)]
          exact freeOf_eq_some.mpr hk
        obtain ⟨h₁, heq, hedit, hbins⟩ := ht.bins.unlinkChunk hl.chunks.erase hfree
        have htags := ht.tags.of_edit hl hedit fun _ _ => own_of_erase
        rw [← hswap] at hbins
        refine ⟨_, _, n + k, ?_, merged_taken hl hfirst hk htags hbins, ?_,
          merged_sameUsed hfirst hk, hedit.lock⟩
        · rw [hinfo, if_pos (and_one_of_even hk4), chunkHead]
          dsimp only
          rw [wsub_of_le (by omega) (by omega), wadd_of_lt (by omega), wadd_of_lt (by omega), heq,
            Nat.add_assoc]
          rfl
        · intro y t t' hy hy'
          by_cases hya : y = a
          · -- behind the merged chunk there is what was behind the second one
            subst hya
            rw [merged_self, Option.some.injEq] at hy
            subst hy
            obtain ⟨-, hc'⟩ := merged_other hy' (by dsimp only; omega)
            dsimp only at hc'
            rw [← Nat.add_assoc] at hc'
            exact Or.inr ((hco (y + n) _ t' (by omega) (by dsimp only; omega) hk
              hc').resolve_left (by simp))
          · obtain ⟨hyn, hc⟩ := merged_other hy hya
            by_cases hyt : y + t.size = a
            · exact Or.inl (hprev y t hc hyt)
            · obtain ⟨-, hc'⟩ := merged_other hy' hyt
              exact hco y t t' hya hyt hc hc'

/-- The used chunk is marked free, and is in no bin yet. -/
lemma HeapInv.release (hi : HeapInv B h c) (hx : c x = some ⟨n, true⟩) :
    Taken B (({ h with lock := 0 } : Heap).setInfo x n n)
        (Function.update c x (some ⟨n, false⟩)) x n ∧
      CoalescedBut (Function.update c x (some ⟨n, false⟩)) x ∧
      Function.update (freeOf (Function.update c x (some ⟨n, false⟩))) x none = freeOf c := by
  have hl := hi.layout
  set c₁ := Function.update c x (some ⟨n, false⟩) with hc₁
  have hself : c₁ x = some ⟨n, false⟩ := Function.update_self ..
  have hl₁ : Layout B c₁ := hl.mark hx
  have hfree : Function.update (freeOf c₁) x none = freeOf c := by
    rw [hc₁, freeOf_update_free, Function.update_idem, erase_of_none]
    rw [freeOf, hx]
    rfl
  refine ⟨⟨hl₁, hi.locked_tags.setInfo hl hl₁ hself fun a t hax ha => ?_, hself, ?_⟩, ?_, hfree⟩
  · rwa [hc₁, Function.update_of_ne hax] at ha
  · rw [hfree]
    refine hi.locked_bins.setInfo hl₁ (fun a k ha => ?_) hself
    rw [← hfree] at ha
    exact (eq_some_of_erase ha).2
  · intro y t t' hy hyt hc hc'
    rw [hc₁, Function.update_of_ne hy] at hc
    rw [hc₁, Function.update_of_ne hyt] at hc'
    exact hi.coalesced y t t' hc hc'

/-- The size of a used chunk, as `free` reads it. -/
lemma HeapInv.thisInfo_and (hi : HeapInv B h c) (hx : c x = some ⟨n, true⟩) :
    ({ h with lock := 0 } : Heap).thisInfo x &&& 0xFFFFFFFE = n := by
  obtain ⟨hn16, hn4, -⟩ := hi.layout.size x _ hx
  have hle := hi.layout.le hx
  dsimp only at hn16 hn4 hle
  rw [hi.locked_tags.this x _ hx]
  exact used_and_not_one (x := n) (by omega) (by omega)

/-- **The steps of `free`**: the chunk is merged with its neighbours, and goes into the bins. -/
theorem HeapInv.free_steps (hi : HeapInv B h c) (hx : c x = some ⟨n, true⟩) :
    ∃ h₂ c₂ a n₂ h₃ c₃ n₃ h₄,
      (({ h with lock := 0 } : Heap).setInfo x n n).mergePrev x n (x + n) = some (h₂, a, n₂) ∧
      Taken B h₂ c₂ a n₂ ∧ a + n₂ = x + n ∧
      Absorbed (Function.update c x (some ⟨n, false⟩)) x c₂ a ∧
      h₂.mergeNext a n₂ (x + n) = some (h₃, a, n₃) ∧ Taken B h₃ c₃ a n₃ ∧
      h.free (x + 8) = some h₄ ∧ HeapInv B h₄ c₃ ∧
      SameUsed (Function.update c x (some ⟨n, false⟩)) c₃ := by
  have hn16 := (hi.layout.size x _ hx).1
  have hle := hi.layout.le hx
  dsimp only at hn16 hle
  obtain ⟨ht₁, hco₁, -⟩ := hi.release hx
  obtain ⟨h₂, c₂, a, n₂, hprev, ht₂, hco₂, hend, hused₂, hsame₂, habs, hlock₂⟩ :=
    ht₁.mergePrev hco₁
  obtain ⟨h₃, c₃, n₃, hnext, ht₃, hco₃, hsame₃, hlock₃⟩ := ht₂.mergeNext hco₂ hused₂
  obtain ⟨h₄, hcheck, htags₄, hbins₄, hlock₄⟩ := ht₃.checkin
  rw [hend] at hnext
  refine ⟨h₂, c₂, a, n₂, h₃, c₃, n₃, h₄.lockPost, hprev, ht₂, hend, habs, hnext, ht₃, ?_,
    ⟨ht₃.layout, htags₄.congr ht₃.layout fun _ _ => rfl,
      hbins₄.congr ht₃.layout.chunks (fun _ _ _ => rfl) rfl rfl, hco₃, ?_⟩,
    fun y k => (hsame₃ y k).trans (hsame₂ y k)⟩
  · have hnull : x + 8 ≠ null := Nat.succ_ne_zero _
    rw [Heap.free, if_neg hnull, hi.lockWait_eq, Option.bind_some, chunkHead,
      wsub_of_le (by omega) (by omega), Nat.add_sub_cancel]
    dsimp only
    rw [hi.thisInfo_and hx, wadd_of_lt (by omega)]
    change ((({ h with lock := 0 } : Heap).setInfo x n n).mergePrev x n (x + n)).bind _ = _
    rw [hprev, Option.bind_some, hnext, Option.bind_some, hcheck]
    rfl
  · show h₄.lock + 1 = 1
    rw [hlock₄, hlock₃, hlock₂]
    rfl

/-- **`free`** gives a used chunk back: the same chunks are used but for this one. -/
theorem HeapInv.free (hi : HeapInv B h c) (hx : c x = some ⟨n, true⟩) :
    ∃ h' c', h.free (x + 8) = some h' ∧ HeapInv B h' c' ∧
      ∀ y k, c' y = some ⟨k, true⟩ ↔ y ≠ x ∧ c y = some ⟨k, true⟩ := by
  obtain ⟨-, -, -, -, -, c₃, -, h₄, -, -, -, -, -, -, hfree, hi', hsame⟩ := hi.free_steps hx
  refine ⟨h₄, c₃, hfree, hi', fun y k => ?_⟩
  rw [hsame y k, Function.update_apply]
  split_ifs with hyx
  · simp [hyx]
  · simp [hyx]

end Release

end Heap

end ChinaOS
