import ChinaOS.BinIndex
import ChinaOS.Records
import ChinaOS.Ring

/-!
The free chunks, and the circular lists of the small ones.

* `Chunks`: a partial map from the addresses of chunks to their sizes, whose chunks do not
  overlap. `Own`: the words inside the free chunks, of the list heads and of the tree slots are
  the fields of records (`Chunks.apart_own`).
* `Groups`: each list holds the small chunks of its sizes, and the bitmap marks the lists that
  are not empty.
* `Groups.insert`, `Groups.unlink`, `Groups.checkout`: what the functions on the lists do.
-/

namespace ChinaOS

namespace Heap

open Records

/-! ### Free chunks -/

/-- The chunks `F`, given by their sizes, lie apart from each other. -/
structure Chunks (F : ℕ → Option ℕ) : Prop where
  pos : ∀ a n, F a = some n → 0 < a
  size : ∀ a n, F a = some n → 16 ≤ n
  aligned : ∀ a n, F a = some n → a % 4 = 0 ∧ n % 4 = 0
  le : ∀ a n, F a = some n → a + n ≤ 2 ^ 32
  apart : ∀ a n b k, F a = some n → F b = some k → a < b → a + n ≤ b

/-- The words in a chunk behind its header. -/
def Inner (n o : ℕ) : Prop := 8 ≤ o ∧ o % 4 = 0 ∧ o + 4 ≤ n

/-- The fields of the small chunks and of the list heads. -/
def OwnSmall (F : ℕ → Option ℕ) (x o : ℕ) : Prop :=
  (∃ n, F x = some n ∧ n ≤ 264 ∧ Inner n o) ∨
    ∃ i < 32, x = getSameChunkGroup i ∧ (o = 8 ∨ o = 12)

/-- The fields of the large chunks, and the slots of the trees. -/
def OwnLarge (F : ℕ → Option ℕ) (x o : ℕ) : Prop :=
  (∃ n, F x = some n ∧ 264 < n ∧ Inner n o) ∨ ∃ i < 32, x = treeSlot i ∧ o = 0

/-- All these fields. -/
def Own (F : ℕ → Option ℕ) (x o : ℕ) : Prop := OwnSmall F x o ∨ OwnLarge F x o

section Chunks

variable {F : ℕ → Option ℕ} {a b n k x o i : ℕ}

lemma Own.cases (h : Own F x o) : (∃ n, F x = some n ∧ Inner n o) ∨
    (∃ i < 32, x = getSameChunkGroup i ∧ (o = 8 ∨ o = 12)) ∨ ∃ i < 32, x = treeSlot i ∧ o = 0 := by
  rcases h with (⟨n, hn, -, ho⟩ | h) | (⟨n, hn, -, ho⟩ | h)
  · exact Or.inl ⟨n, hn, ho⟩
  · exact Or.inr (Or.inl h)
  · exact Or.inl ⟨n, hn, ho⟩
  · exact Or.inr (Or.inr h)

/-- **No word belongs to two records.** -/
theorem Chunks.apart_own (hF : Chunks F) : Apart (Own F) := by
  intro x o y p hx hy he
  rcases hx.cases with ⟨n, hn, ho⟩ | ⟨i, hi, rfl, ho⟩ | ⟨i, hi, rfl, rfl⟩ <;>
    rcases hy.cases with ⟨k, hk, hp⟩ | ⟨j, hj, rfl, hp⟩ | ⟨j, hj, rfl, rfl⟩
  · obtain ⟨ho₁, ho₂, ho₃⟩ := ho
    obtain ⟨hp₁, hp₂, hp₃⟩ := hp
    rcases Nat.lt_trichotomy x y with h | h | h
    · have := hF.apart x n y k hn hk h
      omega
    · exact ⟨h, by omega⟩
    · have := hF.apart y k x n hk hn h
      omega
  · have := hF.le x n hn
    obtain ⟨-, -, ho⟩ := ho
    simp only [getSameChunkGroup, mallocor] at he ⊢
    omega
  · have := hF.le x n hn
    obtain ⟨-, -, ho⟩ := ho
    simp only [treeSlot, mallocor] at he ⊢
    omega
  · have := hF.le y k hk
    obtain ⟨-, -, hp⟩ := hp
    simp only [getSameChunkGroup, mallocor] at he ⊢
    omega
  · simp only [getSameChunkGroup, mallocor] at he ⊢
    omega
  · simp only [getSameChunkGroup, treeSlot, mallocor] at he ⊢
    omega
  · have := hF.le y k hk
    obtain ⟨-, -, hp⟩ := hp
    simp only [treeSlot, mallocor] at he ⊢
    omega
  · simp only [getSameChunkGroup, treeSlot, mallocor] at he ⊢
    omega
  · exact ⟨he, rfl⟩

lemma apart_mono {own own' : ℕ → ℕ → Prop} (h : Apart own) (hsub : ∀ x o, own' x o → own x o) :
    Apart own' :=
  fun x o y p hx hy => h x o y p (hsub x o hx) (hsub y p hy)

lemma Chunks.apart_small (hF : Chunks F) : Apart (OwnSmall F) :=
  apart_mono hF.apart_own fun _ _ => Or.inl

lemma Chunks.apart_large (hF : Chunks F) : Apart (OwnLarge F) :=
  apart_mono hF.apart_own fun _ _ => Or.inr

/-- A field of a small record is none of a large one. -/
lemma Chunks.small_ne_large (hF : Chunks F) {y p : ℕ} (hx : OwnSmall F x o) (hy : OwnLarge F y p) :
    x + o ≠ y + p := by
  intro he
  obtain ⟨rfl, rfl⟩ := hF.apart_own x o y p (Or.inl hx) (Or.inr hy) he
  rcases hx with ⟨n, hn, hle, ho⟩ | ⟨i, hi, rfl, ho⟩ <;>
    rcases hy with ⟨k, hk, hlt, hp⟩ | ⟨j, hj, he', rfl⟩
  · rw [hn, Option.some.injEq] at hk
    omega
  · exact absurd ho.1 (by omega)
  · have h1 := hF.le _ _ hk
    simp only [getSameChunkGroup, mallocor] at h1
    omega
  · omega

/-- The words of a header belong to no record. -/
lemma Chunks.tag_ne (hF : Chunks F) {y p : ℕ} (ha : F a = some n) (ho : o = 0 ∨ o = 4)
    (hy : Own F y p) : a + o ≠ y + p := by
  have hle := hF.le a n ha
  have hsize := hF.size a n ha
  rcases hy.cases with ⟨k, hk, hp⟩ | ⟨i, -, rfl, hp⟩ | ⟨i, -, rfl, rfl⟩
  · obtain ⟨hp₁, -, hp₂⟩ := hp
    rcases Nat.lt_trichotomy a y with h | h | h
    · have := hF.apart a n y k ha hk h
      omega
    · omega
    · have := hF.apart y k a n hk ha h
      omega
  · simp only [getSameChunkGroup, mallocor]
    omega
  · simp only [treeSlot, mallocor]
    omega

lemma getSameChunkGroup_inj (h : getSameChunkGroup a = getSameChunkGroup b) : a = b := by
  simp only [getSameChunkGroup] at h
  omega

/-- A list head is no chunk. -/
lemma Chunks.ne_group (hF : Chunks F) (ha : F a = some n) : a ≠ getSameChunkGroup i := by
  have h1 := hF.le a n ha
  simp only [getSameChunkGroup, mallocor]
  omega

/-- A chunk less. -/
lemma Chunks.erase (hF : Chunks F) : Chunks (Function.update F x none) := by
  have hsome : ∀ a n, Function.update F x none a = some n → F a = some n :=
    fun a n h => (eq_some_of_erase h).2
  exact ⟨fun a n h => hF.pos a n (hsome a n h), fun a n h => hF.size a n (hsome a n h),
    fun a n h => hF.aligned a n (hsome a n h), fun a n h => hF.le a n (hsome a n h),
    fun a n b k h h' => hF.apart a n b k (hsome a n h) (hsome b k h')⟩

lemma Chunks.of_update (hF : Chunks (Function.update F x (some n))) (hx : F x = none) :
    Chunks F := by
  have h0 := hF.erase (x := x)
  rwa [Function.update_idem, ← hx, Function.update_eq_self] at h0

end Chunks

/-! ### The lists -/

/-- The records of a memory. -/
def fields (h : Heap) : ℕ → ℕ → ℕ := fun x o => h.mem (x + o)

/-- The links of the circular lists. -/
def links (v : ℕ → ℕ → ℕ) : Ring.Links ℕ := ⟨fun x => v x 8, fun x => v x 12⟩

/-- The list `i` consists of the chunks `box i`: the small ones of its size. The bitmap marks the
lists that are not empty. -/
structure Groups (v : ℕ → ℕ → ℕ) (map : Int32U) (F : ℕ → Option ℕ) (box : ℕ → List ℕ) :
    Prop where
  rings : Ring.Rings (links v) (Set.Iio 32) getSameChunkGroup box
  mem_iff : ∀ i < 32, ∀ a, a ∈ box i ↔ ∃ n, F a = some n ∧ n ≤ 264 ∧ getBoxIndex (n - 8) = i
  map : ∀ i < 32, map.getLsbD i = true ↔ box i ≠ []

section Groups

variable {F : ℕ → Option ℕ} {v v' : ℕ → ℕ → ℕ} {map : Int32U} {box : ℕ → List ℕ} {h : Heap}
  {a x n i : ℕ}

/-- The index of the list of a small chunk. -/
lemma boxIndex_lt (hn : 16 ≤ n) (hle : n ≤ 264) : getBoxIndex (n - 8) < 32 := by
  rw [getBoxIndex_eq (by omega) (by omega)]
  omega

/-- The nodes of a list own their links. -/
lemma Groups.own (hg : Groups v map F box) (hF : Chunks F) (hi : i < 32)
    (ha : a ∈ getSameChunkGroup i :: box i) : OwnSmall F a 8 ∧ OwnSmall F a 12 := by
  rcases List.mem_cons.mp ha with rfl | ha
  · exact ⟨Or.inr ⟨i, hi, rfl, Or.inl rfl⟩, Or.inr ⟨i, hi, rfl, Or.inr rfl⟩⟩
  · obtain ⟨n, hn, hle, -⟩ := (hg.mem_iff i hi a).mp ha
    have hsize := hF.size a n hn
    exact ⟨Or.inl ⟨n, hn, hle, by norm_num [Inner]; omega⟩,
      Or.inl ⟨n, hn, hle, by norm_num [Inner]; omega⟩⟩

/-- The lists depend on the fields of the small records only. -/
lemma Groups.congr (hg : Groups v map F box) (hF : Chunks F)
    (hv : ∀ x o, OwnSmall F x o → v' x o = v x o) : Groups v' map F box where
  rings := hg.rings.congr (fun _ hi x hx => hv x 8 (hg.own hF hi hx).1)
    fun _ hi x hx => hv x 12 (hg.own hF hi hx).2
  mem_iff := hg.mem_iff
  map := hg.map

/-- A chunk that is not in the lists yet. -/
lemma Groups.notMem (hg : Groups v map F box) (hF : Chunks (Function.update F x (some n)))
    (hx : F x = none) (hi : i < 32) : x ∉ getSameChunkGroup i :: box i := by
  intro hmem
  rcases List.mem_cons.mp hmem with he | hmem
  · exact hF.ne_group (Function.update_self ..) he
  · obtain ⟨k, hk, -⟩ := (hg.mem_iff i hi x).mp hmem
    rw [hx] at hk
    simp at hk

/-- A small chunk becomes the first of its list. -/
lemma Groups.link {map' : Int32U} (hg : Groups v map F box)
    (hF : Chunks (Function.update F x (some n))) (hx : F x = none) (hn : n ≤ 264)
    (hi : getBoxIndex (n - 8) = i)
    (hnext : ∀ y, v' y 8 = if y = getSameChunkGroup i then x
      else if y = x then v (getSameChunkGroup i) 8 else v y 8)
    (hprev : ∀ y, v' y 12 = if y = x then getSameChunkGroup i
      else if y = v (getSameChunkGroup i) 8 then x else v y 12)
    (hmap : ∀ j < 32, map'.getLsbD j = (map.getLsbD j || decide (j = i))) :
    Groups v' map' (Function.update F x (some n)) (Function.update box i (x :: box i)) := by
  have hself : Function.update F x (some n) x = some n := Function.update_self ..
  have hi32 : i < 32 := hi ▸ boxIndex_lt (hF.size x n hself) hn
  have hnot : ∀ j ∈ Set.Iio 32, x ∉ getSameChunkGroup j :: box j := fun j hj =>
    hg.notMem hF hx hj
  refine ⟨hg.rings.insert hi32 hnot hnext hprev, fun j hj a => ?_, fun j hj => ?_⟩
  · have hold := hg.mem_iff j hj a
    rw [Function.update_apply, Function.update_apply]
    by_cases ha : a = x
    · subst ha
      rw [if_pos rfl]
      split_ifs with hji
      · subst hji
        exact iff_of_true List.mem_cons_self ⟨n, rfl, hn, hi⟩
      · refine iff_of_false (fun hmem => hnot j hj (List.mem_cons_of_mem _ hmem)) ?_
        rintro ⟨k, hk, -, hki⟩
        rw [Option.some.injEq] at hk
        exact hji (by rw [← hki, ← hk, hi])
    · rw [if_neg ha]
      split_ifs with hji
      · subst hji
        rw [List.mem_cons, or_iff_right ha, hold]
      · exact hold
  · rw [hmap j hj, Function.update_apply]
    have hold := hg.map j hj
    by_cases hji : j = i
    · simp [hji]
    · simp [hji, hold]

/-- A chunk leaves its list. -/
lemma Groups.remove {map' : Int32U} (hg : Groups v map F box) (hi : i < 32) (hx : x ∈ box i)
    (hnext : ∀ y, v' y 8 = if y = v x 12 then v x 8 else v y 8)
    (hprev : ∀ y, v' y 12 = if y = v x 8 then v x 12 else v y 12)
    (hmap : ∀ j < 32, map'.getLsbD j = (map.getLsbD j && !decide (j = i ∧ box i = [x]))) :
    Groups v' map' (Function.update F x none) (Function.update box i ((box i).erase x)) := by
  have hnd : (box i).Nodup := hg.rings.nodup hi
  obtain ⟨n, hn, -, hni⟩ := (hg.mem_iff i hi x).mp hx
  refine ⟨hg.rings.remove hi hx hnext hprev, fun j hj a => ?_, fun j hj => ?_⟩
  · have hold := hg.mem_iff j hj a
    rw [Function.update_apply, Function.update_apply]
    by_cases ha : a = x
    · subst ha
      rw [if_pos rfl]
      refine iff_of_false (fun hmem => ?_) (by simp)
      split_ifs at hmem with hji
      · exact hnd.not_mem_erase hmem
      · obtain ⟨k, hk, -, hkj⟩ := hold.mp hmem
        rw [hn, Option.some.injEq] at hk
        exact hji (by rw [← hkj, ← hk, hni])
    · rw [if_neg ha]
      split_ifs with hji
      · subst hji
        rw [List.mem_erase_of_ne ha, hold]
      · exact hold
  · rw [hmap j hj, Function.update_apply]
    have hold := hg.map j hj
    by_cases hji : j = i
    · subst hji
      have hempty : (box j).erase x = [] ↔ box j = [x] := by
        refine ⟨fun he => ?_, fun he => by simp [he]⟩
        have hperm := List.perm_cons_erase hx
        rw [he] at hperm
        exact List.perm_singleton.mp hperm
      have hne : box j ≠ [] := List.ne_nil_of_mem hx
      simp [hold.mpr hne, hempty]
    · simp [hji, hold]

/-! ### The functions on the lists -/

/-- Only fields of small records and the bitmap of the lists change. -/
structure SmallEdit (F : ℕ → Option ℕ) (h h' : Heap) : Prop where
  mem : ∀ w, (∀ x o, OwnSmall F x o → w ≠ x + o) → h'.mem w = h.mem w
  treeMap : h'.treeMap = h.treeMap
  lock : h'.lock = h.lock

lemma ownSmall_mono (hx : F x = none) {y o : ℕ} (hy : OwnSmall F y o) :
    OwnSmall (Function.update F x (some n)) y o := by
  refine hy.imp_left fun ⟨k, hk, hle, ho⟩ => ⟨k, ?_, hle, ho⟩
  rw [Function.update_of_ne, hk]
  rintro rfl
  rw [hx] at hk
  simp at hk

lemma ownSmall_of_update {y o : ℕ} (hy : OwnSmall (Function.update F x none) y o) :
    OwnSmall F y o := by
  exact hy.imp_left fun ⟨k, hk, hle, ho⟩ => ⟨k, (eq_some_of_erase hk).2, hle, ho⟩

/-- A bitmap with a bit set that may be set already. -/
lemma getLsbD_setBit_if (map : Int32U) {i j : ℕ} (hi : i < 32) :
    (if testBit map i then map else setBit map i).getLsbD j =
      (map.getLsbD j || decide (j = i)) := by
  rw [testBit_eq]
  split_ifs with h
  · by_cases hji : j = i
    · simp [hji, h]
    · simp [hji]
  · rw [getLsbD_setBit]
    by_cases hji : j = i
    · simp [hji, hi]
    · simp [hji]

lemma getLsbD_clearBit_if (map : Int32U) {c d : Prop} [Decidable c] [Decidable d] {i j : ℕ}
    (hcd : c ↔ d) :
    (if c then clearBit map i else map).getLsbD j = (map.getLsbD j && !decide (j = i ∧ d)) := by
  split_ifs with h
  · rw [getLsbD_clearBit]
    by_cases hji : j = i <;> simp [hji, hcd.mp h]
  · have hd : ¬ d := fun hd => h (hcd.mpr hd)
    simp [hd]

/-- **`insert_small_chunk`** puts the chunk first in the list of its size. -/
theorem Groups.insert (hg : Groups (fields h) h.sameMap F box)
    (hF : Chunks (Function.update F x (some n))) (hx : F x = none) (hn : n ≤ 264) :
    SmallEdit (Function.update F x (some n)) h (h.insertSmallChunk x (n - 8)) ∧
      ∃ box', Groups (fields (h.insertSmallChunk x (n - 8)))
        (h.insertSmallChunk x (n - 8)).sameMap (Function.update F x (some n)) box' := by
  obtain ⟨i, hi⟩ : ∃ i, getBoxIndex (n - 8) = i := ⟨_, rfl⟩
  have hself : Function.update F x (some n) x = some n := Function.update_self ..
  have hsize := hF.size x n hself
  have hi32 : i < 32 := hi ▸ boxIndex_lt hsize hn
  have hap := hF.apart_small
  have hF₀ : Chunks F := hF.of_update hx
  have hxown : ∀ o, o = 8 ∨ o = 12 → OwnSmall (Function.update F x (some n)) x o :=
    fun o ho => Or.inl ⟨n, hself, hn, by unfold Inner; omega⟩
  have hown : ∀ y ∈ getSameChunkGroup i :: box i,
      OwnSmall (Function.update F x (some n)) y 8 ∧ OwnSmall (Function.update F x (some n)) y 12 :=
    fun y hy => ⟨ownSmall_mono hx (hg.own hF₀ hi32 hy).1, ownSmall_mono hx (hg.own hF₀ hi32 hy).2⟩
  set pHead := getSameChunkGroup i with hhead
  have hnode : h.freeNext pHead ∈ pHead :: box i :=
    (hg.rings.circle i hi32).next_mem List.mem_cons_self
  have hxh : pHead ≠ x := (hF.ne_group hself).symm
  -- the bitmap and the four writes
  set h₀ := if testBit h.sameMap i then h else { h with sameMap := setBit h.sameMap i } with hh₀
  have hmem₀ : h₀.mem = h.mem := by rw [hh₀]; split_ifs <;> rfl
  have hnext₀ : h₀.freeNext pHead = h.freeNext pHead := congrFun hmem₀ _
  set h₂ := (h₀.setFreeNext x (h₀.freeNext pHead)).setFreePrev x pHead with hh₂
  have v₀ : View (OwnSmall (Function.update F x (some n))) h.mem h₀.mem (fields h) :=
    by rw [hmem₀]; exact View.refl
  have v₂ : View (OwnSmall (Function.update F x (some n))) h.mem h₂.mem (setField (setField
      (fields h) x 8 (h.freeNext pHead)) x 12 pHead) :=
    hnext₀ ▸ (v₀.write hap (hxown 8 (Or.inl rfl))).write hap (hxown 12 (Or.inr rfl))
  have hnext₂ : h₂.freeNext pHead = h.freeNext pHead := by
    have h1 := v₂.read pHead 8 (hown pHead List.mem_cons_self).1
    rw [setField_of_ne hxh, setField_of_ne hxh] at h1
    exact h1
  have heq : h.insertSmallChunk x (n - 8) =
      (h₂.setFreePrev (h.freeNext pHead) x).setFreeNext pHead x := by
    rw [← hnext₂, hh₂, hh₀, hhead, ← hi]
    rfl
  have v₄ := (v₂.write hap (hown _ hnode).2 (w := x)).write hap (hown pHead List.mem_cons_self).1
    (w := x)
  have hmap : (h.insertSmallChunk x (n - 8)).sameMap = h₀.sameMap := by rw [heq]; rfl
  rw [heq] at hmap ⊢
  refine ⟨⟨v₄.frame, ?_, ?_⟩, Function.update box i (x :: box i),
    (hg.link (i := i) hF hx hn hi (fun y => ?_) (fun y => ?_) fun j _ => ?_).congr hF v₄.read⟩
  · show h₀.treeMap = h.treeMap
    rw [hh₀]
    split_ifs <;> rfl
  · show h₀.lock = h.lock
    rw [hh₀]
    split_ifs <;> rfl
  · simp [setField, fields, freeNext, hhead]
  · have hxn : x ≠ h.freeNext pHead := fun he => hg.notMem hF hx hi32 (he ▸ hnode)
    rw [setField_of_offset_ne (by decide), setField_same, setField_same,
      setField_of_offset_ne (by decide)]
    by_cases hy : y = x
    · rw [hy, if_neg hxn, if_pos rfl, if_pos rfl]
    · rw [if_neg hy, if_neg hy]
      rfl
  · rw [hmap, hh₀, ← getLsbD_setBit_if _ hi32]
    split_ifs <;> rfl

/-- **`unlink_small_chunk`** takes the chunk out of its list. -/
theorem Groups.unlink (hg : Groups (fields h) h.sameMap F box) (hF : Chunks F)
    (hx : F x = some n) (hn : n ≤ 264) :
    SmallEdit F h (h.unlinkSmallChunk x (n - 8)) ∧
      ∃ box', Groups (fields (h.unlinkSmallChunk x (n - 8)))
        (h.unlinkSmallChunk x (n - 8)).sameMap (Function.update F x none) box' := by
  obtain ⟨i, hi⟩ : ∃ i, getBoxIndex (n - 8) = i := ⟨_, rfl⟩
  have hi32 : i < 32 := hi ▸ boxIndex_lt (hF.size x n hx) hn
  have hmem : x ∈ box i := (hg.mem_iff i hi32 x).mpr ⟨n, hx, hn, hi⟩
  have hring := hg.rings.circle i hi32
  have hxm : x ∈ getSameChunkGroup i :: box i := List.mem_cons_of_mem _ hmem
  have hnext : h.freeNext x ∈ getSameChunkGroup i :: box i := hring.next_mem hxm
  have hprev : h.freePrev x ∈ getSameChunkGroup i :: box i := hring.prev_mem hxm
  have hsame : h.freeNext x = h.freePrev x ↔ box i = [x] := hring.next_eq_prev_iff hmem
  set h₀ := if h.freeNext x = h.freePrev x then { h with sameMap := clearBit h.sameMap i } else h
    with hh₀
  have hmem₀ : h₀.mem = h.mem := by rw [hh₀]; split_ifs <;> rfl
  have v₀ : View (OwnSmall F) h.mem h₀.mem (fields h) := by rw [hmem₀]; exact View.refl
  have v₂ := (v₀.write hF.apart_small (hg.own hF hi32 hnext).2 (w := h.freePrev x)).write
    hF.apart_small (hg.own hF hi32 hprev).1 (w := h.freeNext x)
  have heq : h.unlinkSmallChunk x (n - 8) =
      (h₀.setFreePrev (h.freeNext x) (h.freePrev x)).setFreeNext (h.freePrev x) (h.freeNext x) := by
    rw [hh₀, ← hi]
    rfl
  have hmap : (h.unlinkSmallChunk x (n - 8)).sameMap = h₀.sameMap := by rw [heq]; rfl
  rw [heq] at hmap ⊢
  refine ⟨⟨v₂.frame, ?_, ?_⟩, Function.update box i ((box i).erase x),
    (hg.remove hi32 hmem (fun y => ?_) (fun y => ?_) fun j _ => ?_).congr hF.erase
      fun y o hy => v₂.read y o (ownSmall_of_update hy)⟩
  · show h₀.treeMap = h.treeMap
    rw [hh₀]
    split_ifs <;> rfl
  · show h₀.lock = h.lock
    rw [hh₀]
    split_ifs <;> rfl
  · rw [setField_same, setField_of_offset_ne (by decide)]
    rfl
  · rw [setField_of_offset_ne (by decide), setField_same]
    rfl
  · rw [hmap, hh₀, ← getLsbD_clearBit_if _ hsame]
    split_ifs <;> rfl

/-- **`checkout_small_chunk_in_group`** takes the first chunk of a list that is not empty. -/
theorem Groups.checkout (hg : Groups (fields h) h.sameMap F box) (hF : Chunks F) (hi : i < 32)
    (hne : box i ≠ []) :
    ∃ x n, (h.checkoutSmallChunkInGroup (getSameChunkGroup i) i).2 = x ∧ F x = some n ∧ n ≤ 264 ∧
      getBoxIndex (n - 8) = i ∧
      SmallEdit F h (h.checkoutSmallChunkInGroup (getSameChunkGroup i) i).1 ∧
      ∃ box', Groups (fields (h.checkoutSmallChunkInGroup (getSameChunkGroup i) i).1)
        (h.checkoutSmallChunkInGroup (getSameChunkGroup i) i).1.sameMap
          (Function.update F x none) box' := by
  obtain ⟨x, rest, hbox⟩ := List.exists_cons_of_ne_nil hne
  have hring := hg.rings.circle i hi
  have hmem : x ∈ box i := by rw [hbox]; exact List.mem_cons_self
  obtain ⟨n, hx, hn, hni⟩ := (hg.mem_iff i hi x).mp hmem
  have hxm : x ∈ getSameChunkGroup i :: box i := List.mem_cons_of_mem _ hmem
  have hfirst : h.freeNext (getSameChunkGroup i) = x := by
    have h1 := hring.next_head
    rw [hbox] at h1
    exact h1
  have hprev : h.freePrev x = getSameChunkGroup i := by
    have h1 := hring.prev_next List.mem_cons_self
    rw [show (links (fields h)).next (getSameChunkGroup i) = x from hfirst] at h1
    exact h1
  have hnext : h.freeNext x ∈ getSameChunkGroup i :: box i := hring.next_mem hxm
  have hsame : getSameChunkGroup i = h.freeNext x ↔ box i = [x] := by
    rw [← hring.next_eq_prev_iff hmem]
    exact ⟨fun he => he.symm.trans hprev.symm, fun he => hprev.symm.trans he.symm⟩
  set h₀ := if getSameChunkGroup i = h.freeNext x then
    { h with sameMap := clearBit h.sameMap i } else h with hh₀
  have hmem₀ : h₀.mem = h.mem := by rw [hh₀]; split_ifs <;> rfl
  have v₀ : View (OwnSmall F) h.mem h₀.mem (fields h) := by rw [hmem₀]; exact View.refl
  have v₂ := (v₀.write hF.apart_small (hg.own hF hi List.mem_cons_self).1
    (w := h.freeNext x)).write hF.apart_small (hg.own hF hi hnext).2 (w := getSameChunkGroup i)
  have heq : h.checkoutSmallChunkInGroup (getSameChunkGroup i) i =
      ((h₀.setFreeNext (getSameChunkGroup i) (h.freeNext x)).setFreePrev (h.freeNext x)
        (getSameChunkGroup i), x) := by
    rw [hh₀, ← hfirst]
    rfl
  have hmap : (h.checkoutSmallChunkInGroup (getSameChunkGroup i) i).1.sameMap = h₀.sameMap := by
    rw [heq]
    rfl
  rw [heq] at hmap ⊢
  refine ⟨x, n, rfl, hx, hn, hni, ⟨v₂.frame, ?_, ?_⟩, Function.update box i ((box i).erase x),
    (hg.remove hi hmem (fun y => ?_) (fun y => ?_) fun j _ => ?_).congr hF.erase
      fun y o hy => v₂.read y o (ownSmall_of_update hy)⟩
  · show h₀.treeMap = h.treeMap
    rw [hh₀]
    split_ifs <;> rfl
  · show h₀.lock = h.lock
    rw [hh₀]
    split_ifs <;> rfl
  · rw [setField_of_offset_ne (by decide), setField_same]
    show _ = if y = h.freePrev x then h.freeNext x else _
    rw [hprev]
  · rw [setField_same, setField_of_offset_ne (by decide)]
    show _ = if y = h.freeNext x then h.freePrev x else _
    rw [hprev]
  · rw [hmap, hh₀, ← getLsbD_clearBit_if _ hsame]
    split_ifs <;> rfl

end Groups

end Heap

end ChinaOS
