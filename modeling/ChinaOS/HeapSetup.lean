import ChinaOS.Release

/-!
`mallocor_setup`.

* `Registrable`: memory banks that the setup accepts, and that do not overlap; `registered`: the
  others are passed over.
* `HeapInv.addBank`, `HeapInv.register`: a bank is added as one free chunk.
* `mallocorSetup_spec`: the setup ends with a heap of free chunks; `HeapInv.unused`: one for each
  bank.
-/

namespace ChinaOS

namespace Heap

open Records Tiling

/-- The chunks of a bank: from its aligned start to the header at its end. -/
def interval (b : Bank) : ℕ × ℕ := ((bankStart b).toNat, (bankEnd b).toNat - 8)

/-- The banks as stretches of memory. -/
def bankSet (banks : List Bank) : Set (ℕ × ℕ) := {p | ∃ b ∈ banks, p = interval b}

/-- The aligned banks have at least 24 bytes, do not begin at zero and do not overlap. -/
structure Registrable (banks : List Bank) : Prop where
  size : ∀ b ∈ banks, 0 < (bankStart b).toNat ∧ (bankStart b).toNat + 24 ≤ (bankEnd b).toNat
  apart : banks.Pairwise fun b b' => (bankEnd b).toNat ≤ (bankStart b').toNat ∨
    (bankEnd b').toNat ≤ (bankStart b).toNat

/-- The setup passes the bank over. -/
def passedOver (b : Bank) : Bool :=
  decide (bankEnd b < bankStart b) || decide (bankEnd b - 8#32 - bankStart b < 16#32)

/-- The banks that the setup registers. -/
def registered (banks : List Bank) : List Bank := banks.filter fun b => !passedOver b

/-- No chunk is in use. -/
def Unused (c : ℕ → Option Piece) : Prop := ∀ a n, c a ≠ some ⟨n, true⟩

section Setup

variable {B : Set (ℕ × ℕ)} {h h' : Heap} {c : ℕ → Option Piece} {s e n i k w : ℕ} {b : Bank}

/-! ### Empty bins -/

/-- The list heads from `initGroups`, up to the head `k`. -/
lemma foldl_groups : ∀ k, let h' := (List.range k).foldl (fun h i =>
      (h.setFreeNext (getSameChunkGroup i) (getSameChunkGroup i)).setFreePrev
        (getSameChunkGroup i) (getSameChunkGroup i)) h
    (∀ i < k, h'.freeNext (getSameChunkGroup i) = getSameChunkGroup i ∧
      h'.freePrev (getSameChunkGroup i) = getSameChunkGroup i) ∧
    (∀ w, (∀ i < k, w ≠ getSameChunkGroup i + 8 ∧ w ≠ getSameChunkGroup i + 12) →
      h'.mem w = h.mem w) ∧
    h'.sameMap = h.sameMap ∧ h'.treeMap = h.treeMap ∧ h'.lock = h.lock := by
  intro k
  induction k with
  | zero => exact ⟨fun i hi => absurd hi (Nat.not_lt_zero i), fun _ _ => rfl, rfl, rfl, rfl⟩
  | succ k ih =>
      obtain ⟨hself, hother, hsame, htree, hlock⟩ := ih
      rw [List.range_succ, List.foldl_append]
      set h₁ := (List.range k).foldl (fun h i =>
        (h.setFreeNext (getSameChunkGroup i) (getSameChunkGroup i)).setFreePrev
          (getSameChunkGroup i) (getSameChunkGroup i)) h
      have hmem : ∀ w, w ≠ getSameChunkGroup k + 8 → w ≠ getSameChunkGroup k + 12 →
          ((h₁.setFreeNext (getSameChunkGroup k) (getSameChunkGroup k)).setFreePrev
            (getSameChunkGroup k) (getSameChunkGroup k)).mem w = h₁.mem w := fun w h8 h12 =>
        (Function.update_of_ne h12 _ _).trans (Function.update_of_ne h8 _ _)
      refine ⟨fun i hi => ?_, fun w hw => ?_, hsame, htree, hlock⟩
      · by_cases hik : i = k
        · subst hik
          exact ⟨(Function.update_of_ne (by omega) _ _).trans (Function.update_self ..),
            Function.update_self ..⟩
        · obtain ⟨h₁, h₂⟩ := hself i (by omega)
          refine ⟨(hmem _ ?_ ?_).trans h₁, (hmem _ ?_ ?_).trans h₂⟩ <;>
            simp only [getSameChunkGroup] <;> omega
      · exact (hmem w (hw k (by omega)).1 (hw k (by omega)).2).trans
          (hother w fun i hi => hw i (by omega))

/-- **The bins are empty** after the first part of the setup. -/
lemma bins_init : Bins h.clearMallocor.initGroups (fun _ => none) := by
  obtain ⟨hself, hother, hsame, htree, -⟩ := foldl_groups (h := h.clearMallocor) 32
  refine ⟨⟨fun _ => [], ⟨fun i hi => Ring.isRing_nil.mpr (hself i hi), fun i _ j _ hij x hx hx' =>
    ?_⟩, fun i _ a => by simp, fun i _ => ?_⟩, fun _ _ => none, fun _ => [], ?_⟩
  · rw [List.mem_singleton] at hx hx'
    exact hij (getSameChunkGroup_inj (hx.symm.trans hx'))
  · rw [show h.clearMallocor.initGroups.sameMap = 0 from hsame]
    simp
  · rw [show h.clearMallocor.initGroups.treeMap = 0 from htree]
    refine forest_empty fun i hi => ?_
    show h.clearMallocor.initGroups.mem (treeSlot i + 0) = 0
    refine (hother _ fun j hj => ?_).trans (if_pos ?_)
    · simp only [treeSlot, getSameChunkGroup]
      omega
    · simp only [treeSlot]
      omega

lemma heapInv_init (hlock : h.lock = 1) :
    HeapInv ∅ h.clearMallocor.initGroups fun _ => none := by
  have hl := (foldl_groups (h := h.clearMallocor) 32).2.2.2.2
  have hnone : ∀ b : ℕ × ℕ, b ∉ (∅ : Set (ℕ × ℕ)) := Set.notMem_empty
  refine ⟨⟨⟨fun b hb => absurd hb (hnone b), fun b hb => absurd hb (hnone b),
    fun b hb => absurd hb (hnone b), fun b hb => absurd hb (hnone b)⟩,
    ⟨fun b hb => absurd hb (hnone b), fun b hb => absurd hb (hnone b), by simp, by simp,
      fun b hb => absurd hb (hnone b), fun b hb => absurd hb (hnone b), by simp⟩, by simp⟩,
    ⟨by simp, by simp, fun b hb => absurd hb (hnone b), fun b hb => absurd hb (hnone b)⟩,
    bins_init, fun a t t' ha => by simp at ha, hl.trans hlock⟩

/-! ### One bank -/

/-- The words at the boundaries of a bank. -/
def setBank (h : Heap) (StartAddr EndAddr : ℕ) : Heap :=
  let h := h.write StartAddr used
  let h := h.write (StartAddr + 4) (EndAddr - StartAddr)
  let h := h.write EndAddr (EndAddr - StartAddr)
  h.write (EndAddr + 4) used

lemma setBank_mem (hw : w < s ∨ e + 8 ≤ w) (hse : s + 16 ≤ e) :
    (h.setBank s e).mem w = h.mem w :=
  (Function.update_of_ne (by omega) _ _).trans ((Function.update_of_ne (by omega) _ _).trans
    ((Function.update_of_ne (by omega) _ _).trans (Function.update_of_ne (by omega) _ _)))

/-- **A bank is added** as one free chunk, which is not in the bins yet. -/
theorem HeapInv.addBank (hi : HeapInv B h c) (hs : 0 < s) (hs4 : s % 4 = 0) (he4 : e % 4 = 0)
    (hse : s + 16 ≤ e) (he : e + 8 ≤ 2 ^ 32)
    (hapart : ∀ b ∈ B, e + 8 ≤ b.1 ∨ b.2 + 8 ≤ s) :
    Taken (insert (s, e) B) (h.setBank s e) (Function.update c s (some ⟨e - s, false⟩)) s
        (e - s) ∧
      Coalesced (Function.update c s (some ⟨e - s, false⟩)) := by
  have hl := hi.layout
  have hout : ∀ a t, c a = some t → e + 8 ≤ a ∨ a + t.size + 8 ≤ s := by
    intro a t ha
    obtain ⟨b, hb, h₁, h₂⟩ := hl.tiling.inside a t ha
    rcases hapart b hb with h | h
    · exact Or.inl (by omega)
    · exact Or.inr (by omega)
  have hcs : c s = none := by
    by_contra hne
    obtain ⟨t, ht⟩ := Option.ne_none_iff_exists'.mp hne
    have := hout s t ht
    omega
  set c' := Function.update c s (some ⟨e - s, false⟩) with hc'
  have hself : c' s = some ⟨e - s, false⟩ := Function.update_self ..
  have hcase : ∀ a t, c' a = some t → (a = s ∧ t = ⟨e - s, false⟩) ∨ (a ≠ s ∧ c a = some t) := by
    intro a t ha
    exact (eq_some_of_update ha).imp_left fun h => ⟨h.1, h.2.symm⟩
  have hbanks : Banks (insert (s, e) B) := by
    refine ⟨?_, ?_, ?_, ?_⟩
    · rintro b (rfl | hb)
      · exact hs
      · exact hl.banks.pos b hb
    · rintro b (rfl | hb)
      · exact ⟨hs4, he4⟩
      · exact hl.banks.aligned b hb
    · rintro b (rfl | hb)
      · exact he
      · exact hl.banks.le b hb
    · rintro b (rfl | hb) b' (rfl | hb') hne
      · exact absurd rfl hne
      · exact hapart b' hb'
      · exact (hapart b hb).symm
      · exact hl.banks.apart b hb b' hb' hne
  have htiling : IsTiling (insert (s, e) B) c' :=
    hl.tiling.addBank (b := (s, e)) (by dsimp only; omega) fun b hb => by
      have := hapart b hb
      dsimp only
      omega
  have hl' : Layout (insert (s, e) B) c' := by
    refine ⟨hbanks, htiling, fun a t ha => ?_⟩
    rcases hcase a t ha with ⟨rfl, rfl⟩ | ⟨-, ha⟩
    · exact ⟨by dsimp only; omega, by dsimp only; omega, hs4⟩
    · exact hl.size a t ha
  have hfree : freeOf c' = Function.update (freeOf c) s (some (e - s)) := freeOf_update_free
  have hnone : freeOf c s = none := by
    rw [freeOf, hcs]
    rfl
  refine ⟨⟨hl', ?_, hself, ?_⟩, fun y t t' hy hy' => ?_⟩
  · -- the words of the other banks are not written
    have hmem : ∀ w, w < s ∨ e + 8 ≤ w → (h.setBank s e).mem w = h.mem w :=
      fun w hw => setBank_mem hw hse
    refine ⟨fun a t ha => ?_, fun a t ha => ?_, ?_, ?_⟩
    · rcases hcase a t ha with ⟨rfl, rfl⟩ | ⟨-, ha⟩
      · exact (Function.update_of_ne (by omega) _ _).trans
          ((Function.update_of_ne (by omega) _ _).trans (Function.update_self ..))
      · have := hout a t ha
        have := (hl.size a t ha).1
        exact (hmem (a + 4) (by omega)).trans (hi.tags.this a t ha)
    · rcases hcase a t ha with ⟨rfl, rfl⟩ | ⟨-, ha⟩
      · dsimp only
        rw [Nat.add_sub_cancel' (by omega)]
        exact (Function.update_of_ne (by omega) _ _).trans (Function.update_self ..)
      · have := hout a t ha
        exact (hmem (a + t.size) (by omega)).trans (hi.tags.prev a t ha)
    · rintro b (rfl | hb)
      · exact (Function.update_of_ne (by dsimp only; omega) _ _).trans
          ((Function.update_of_ne (by dsimp only; omega) _ _).trans
            ((Function.update_of_ne (by dsimp only; omega) _ _).trans (Function.update_self ..)))
      · have := hapart b hb
        have := hl.tiling.nonempty b hb
        exact (hmem b.1 (by omega)).trans (hi.tags.start b hb)
    · rintro b (rfl | hb)
      · exact Function.update_self ..
      · have := hapart b hb
        have := hl.tiling.nonempty b hb
        exact (hmem (b.2 + 4) (by omega)).trans (hi.tags.last b hb)
  · rw [hfree, Function.update_idem, erase_of_none hnone]
    refine hi.bins.congr hl.chunks (fun x o hx => setBank_mem ?_ hse) rfl rfl
    rcases hx.cases with ⟨n, hn, -, -, ho⟩ | ⟨i, -, rfl, -⟩ | ⟨i, -, rfl, -⟩
    · have hxn := hout x _ (freeOf_eq_some.mp hn)
      dsimp only at hxn
      omega
    · simp only [getSameChunkGroup, mallocor]
      omega
    · simp only [treeSlot, mallocor]
      omega
  · rcases hcase y t hy with ⟨rfl, rfl⟩ | ⟨-, hy⟩ <;>
      rcases hcase _ t' hy' with ⟨hs', -⟩ | ⟨-, hy'⟩
    · dsimp only at hs'
      omega
    · have := hout _ t' hy'
      dsimp only at this
      omega
    · have := hout y t hy
      have := (hl.size y t hy).1
      omega
    · exact hi.coalesced y t t' hy hy'

lemma bankStart_mod : (bankStart b).toNat % 4 = 0 := by
  rw [bankStart, toNat_alignUpside_word]
  omega

lemma bankEnd_mod : (bankEnd b).toNat % 4 = 0 := by
  rw [bankEnd, toNat_alignDownside_four]
  omega

/-- A bank of 24 bytes between the aligned addresses is written to. -/
lemma registerBank_eq (hsize : (bankStart b).toNat + 24 ≤ (bankEnd b).toNat) :
    h.registerBank b = ((h.setBank (bankStart b).toNat ((bankEnd b).toNat - 8)).checkinFreeChunk
      (bankStart b).toNat ((bankEnd b).toNat - 8 - (bankStart b).toNat)).map
        fun h => (h, true) := by
  have he := (bankEnd b).isLt
  have hend : (bankEnd b - 8#32).toNat = (bankEnd b).toNat - 8 := by bv_omega
  have hchunk : (bankEnd b - 8#32 - bankStart b).toNat =
      (bankEnd b).toNat - 8 - (bankStart b).toNat := by bv_omega
  have hs4 : (bankStart b + 4#32).toNat = (bankStart b).toNat + 4 := by bv_omega
  have he4 : (bankEnd b - 8#32 + 4#32).toNat = (bankEnd b).toNat - 8 + 4 := by bv_omega
  have hlt : ¬ bankEnd b < bankStart b := by
    rw [BitVec.lt_def]
    omega
  have hbig : ¬ bankEnd b - 8#32 - bankStart b < 16#32 := by
    rw [BitVec.lt_def, hchunk]
    exact Nat.not_lt.mpr (by show 16 ≤ _; omega)
  rw [registerBank]
  dsimp only
  rw [if_neg hlt, if_neg hbig, hend, hchunk, hs4, he4]
  rfl

/-- **A bank is registered** as one free chunk. -/
theorem HeapInv.register (hi : HeapInv B h c) (hs : 0 < (bankStart b).toNat)
    (hsize : (bankStart b).toNat + 24 ≤ (bankEnd b).toNat)
    (hapart : ∀ b' ∈ B, (bankEnd b).toNat ≤ b'.1 ∨ b'.2 + 8 ≤ (bankStart b).toNat) :
    ∃ h', h.registerBank b = some (h', true) ∧ HeapInv (insert (interval b) B) h'
      (Function.update c (interval b).1 (some ⟨(interval b).2 - (interval b).1, false⟩)) := by
  have he := (bankEnd b).isLt
  have hend4 := bankEnd_mod (b := b)
  obtain ⟨htaken, hco⟩ := hi.addBank (s := (interval b).1) (e := (interval b).2) hs bankStart_mod
    (by dsimp only [interval]; omega) (by dsimp only [interval]; omega)
    (by dsimp only [interval]; omega) fun b' hb' => by
      have := hapart b' hb'
      dsimp only [interval]
      omega
  obtain ⟨h', heq, htags, hbins, hlock⟩ := htaken.checkin
  refine ⟨h', ?_, htaken.layout, htags, hbins, hco, hlock.trans hi.lock⟩
  rw [registerBank_eq hsize]
  exact congrArg (Option.map fun h => (h, true)) heq

/-! ### All banks -/

/-- The loop over the banks. -/
theorem HeapInv.registerBanks : ∀ {banks : List Bank} {B : Set (ℕ × ℕ)} {h : Heap}
    {c : ℕ → Option Piece}, HeapInv B h c → Unused c → Registrable banks →
    (∀ b ∈ banks, ∀ b' ∈ B, (bankEnd b).toNat ≤ b'.1 ∨ b'.2 + 8 ≤ (bankStart b).toNat) →
    ∃ h' c', h.registerBanks banks = some (h', banks.length) ∧
      HeapInv (B ∪ bankSet banks) h' c' ∧ Unused c' := by
  intro banks
  induction banks with
  | nil =>
      intro B h c hi hu _ _
      refine ⟨h, c, rfl, ?_, hu⟩
      rwa [show B ∪ bankSet [] = B by simp [bankSet]]
  | cons b bs ih =>
      intro B h c hi hu hr hout
      obtain ⟨hpos, hsize⟩ := hr.size b List.mem_cons_self
      obtain ⟨hb, hbs⟩ := List.pairwise_cons.mp hr.apart
      obtain ⟨h₁, heq, hi₁⟩ := hi.register hpos hsize (hout b List.mem_cons_self)
      have hu₁ : Unused (Function.update c (interval b).1
          (some ⟨(interval b).2 - (interval b).1, false⟩)) := by
        intro a n ha
        rcases eq_some_of_update ha with ⟨-, ht⟩ | ⟨-, ha⟩
        · simp at ht
        · exact hu a n ha
      have hout₁ : ∀ b₁ ∈ bs, ∀ b' ∈ insert (interval b) B,
          (bankEnd b₁).toNat ≤ b'.1 ∨ b'.2 + 8 ≤ (bankStart b₁).toNat := by
        rintro b₁ hb₁ b' (rfl | hb')
        · have := hb b₁ hb₁
          dsimp only [interval]
          omega
        · exact hout b₁ (List.mem_cons_of_mem b hb₁) b' hb'
      obtain ⟨h', c', heq', hi', hu'⟩ := ih hi₁ hu₁
        ⟨fun b' hb' => hr.size b' (List.mem_cons_of_mem b hb'), hbs⟩ hout₁
      refine ⟨h', c', ?_, ?_, hu'⟩
      · rw [Heap.registerBanks, heq]
        dsimp only [Option.bind_some]
        rw [heq']
        rfl
      · rwa [show B ∪ bankSet (b :: bs) = insert (interval b) B ∪ bankSet bs by
          ext p
          simp only [bankSet, Set.mem_union, Set.mem_insert_iff, Set.mem_ofPred_eq,
            List.mem_cons, exists_eq_or_imp]
          tauto]

/-- A bank that is passed over changes nothing. -/
lemma registerBank_passedOver (hb : passedOver b = true) : h.registerBank b = some (h, false) := by
  rw [registerBank]
  dsimp only
  rw [passedOver, Bool.or_eq_true, decide_eq_true_iff, decide_eq_true_iff] at hb
  rcases hb with hb | hb
  · rw [if_pos hb]
  · rw [if_pos hb]
    split_ifs <;> rfl

lemma registerBanks_registered {banks : List Bank} :
    h.registerBanks (registered banks) = h.registerBanks banks := by
  induction banks generalizing h with
  | nil => rfl
  | cons b bs ih =>
      by_cases hb : passedOver b = true
      · rw [registered, List.filter_cons_of_neg (by simp [hb]), Heap.registerBanks,
          registerBank_passedOver hb, Option.bind_some]
        show h.registerBanks (registered bs) = _
        rw [ih]
        simp
      · rw [registered, List.filter_cons_of_pos (by simp [hb]), Heap.registerBanks,
          Heap.registerBanks]
        exact congrArg _ (funext fun r => congrArg _ ih)

/-- The setup works with the banks that it registers. -/
lemma mallocorSetup_registered {banks : List Bank} :
    h.mallocorSetup (registered banks) = h.mallocorSetup banks := by
  rw [mallocorSetup, mallocorSetup, registerBanks_registered]

/-- **The setup**: a heap of free chunks, which fails only without a bank. -/
theorem mallocorSetup_spec {banks : List Bank} (hr : Registrable banks) :
    ∃ h' c, mallocorSetup h banks = some (h', decide (banks ≠ [])) ∧
      HeapInv (bankSet banks) h' c ∧ Unused c := by
  obtain ⟨h', c, heq, hi, hu⟩ := (heapInv_init (h := { h with lock := 1 }) rfl).registerBanks
    (fun a n ha => by simp at ha) hr fun b _ b' hb' => absurd hb' (Set.notMem_empty b')
  rw [Set.empty_union] at hi
  refine ⟨h', c, ?_, hi, hu⟩
  rw [mallocorSetup, heq, Option.map_some]
  simp [List.length_eq_zero_iff]

/-- **A heap without used chunks**: each bank is one free chunk. -/
theorem HeapInv.unused (hi : HeapInv B h c) (hu : Unused c) {b : ℕ × ℕ} (hb : b ∈ B) :
    c b.1 = some ⟨b.2 - b.1, false⟩ := by
  have hfree : ∀ a t, c a = some t → t.used = false := by
    intro a t ha
    by_contra hne
    obtain ⟨n, u⟩ := t
    obtain rfl : u = true := Bool.eq_true_of_not_eq_false hne
    exact hu a n ha
  obtain ⟨t, ht⟩ := Option.isSome_iff_exists.mp (hi.layout.tiling.start b hb)
  obtain ⟨b', hb', h₁, h₂, hend⟩ := hi.layout.tiling.next_cases ht
  have hne := hi.layout.tiling.nonempty b hb
  have hpos := hi.layout.tiling.pos _ t ht
  obtain rfl := hi.layout.tiling.bank_unique hb hb' le_rfl hne.le h₁ (by omega)
  rcases hend with he | ⟨t', ht', -⟩
  · obtain ⟨n, u⟩ := t
    obtain rfl : u = false := hfree _ _ ht
    dsimp only at he
    rw [ht, ← he, Nat.add_sub_cancel_left]
  · -- two free chunks would be neighbours
    rcases hi.coalesced _ t t' ht ht' with h | h
    · rw [hfree _ t ht] at h
      exact absurd h Bool.false_ne_true
    · rw [hfree _ t' ht'] at h
      exact absurd h Bool.false_ne_true

end Setup

end Heap

end ChinaOS
