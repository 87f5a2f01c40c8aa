import ChinaOS.Malloc
import ChinaOS.Trie

/-!
The sizes that a bin holds.

* `getBoxIndex_eq`: a list holds the sizes of one eight bytes.
* `treeSizeToIndex_eq`: a tree holds the sizes between a power of two and one and a half times
  it, or between that and the next power; the last tree holds all that are greater.
* `treeSizeToIndex_mono`: a tree of a higher index holds greater sizes.
* `InTree`: the bounds of the sizes of an index.
* `sameAbove_of_index`: the sizes of a tree differ in the bits of its paths only.
* `treeSizeToIndex_spec`: the index is right, and the descent tells the sizes of a tree apart.
-/

namespace ChinaOS

namespace Heap

/-! ### Words -/

lemma wadd_of_lt {x y : ℕ} (h : x + y < 2 ^ 32) : wadd x y = x + y := Nat.mod_eq_of_lt h

lemma wsub_of_le {x y : ℕ} (h : y ≤ x) (hx : x < 2 ^ 32) : wsub x y = x - y := by
  unfold wsub
  omega

lemma wsub_of_lt {x y : ℕ} (h : x < y) : wsub x y = x + 2 ^ 32 - y := by
  unfold wsub
  omega

/-- An even word is not changed by `& ~1ul`. -/
lemma and_not_one {x : ℕ} (hx : x % 2 = 0) (hlt : x < 2 ^ 32) : x &&& 0xFFFFFFFE = x := by
  refine Nat.eq_of_testBit_eq fun i => ?_
  have hmask : ∀ i : Fin 32, Nat.testBit 0xFFFFFFFE i = decide ((i : ℕ) ≠ 0) := by decide
  rw [Nat.testBit_and]
  by_cases hi : i < 32
  · rw [hmask ⟨i, hi⟩]
    by_cases h0 : i = 0
    · simp [h0, hx]
    · simp [h0]
  · rw [Nat.testBit_lt_two_pow (hlt.trans_le (Nat.pow_le_pow_right two_pos (not_lt.mp hi))),
      Bool.false_and]

/-- The mark of a used chunk is its lowest bit. -/
lemma or_used {x : ℕ} (hx : x % 2 = 0) : x ||| used = x + 1 := by
  obtain ⟨k, rfl⟩ : ∃ k, x = 2 * k := ⟨x / 2, by omega⟩
  exact (Nat.two_pow_add_eq_or_of_lt (i := 1) (b := 1) one_lt_two k).symm

/-- The size of a used chunk. -/
lemma used_and_not_one {x : ℕ} (hx : x % 2 = 0) (hlt : x < 2 ^ 32) :
    (x + 1) &&& 0xFFFFFFFE = x := by
  rw [← or_used hx, Nat.and_or_distrib_right, and_not_one hx hlt]
  simp [used]

/-! ### Lists -/

lemma getBoxIndex_eq {s : ℕ} (h : 8 ≤ s) (hs : s < 2 ^ 32) : getBoxIndex s = s / 8 - 1 := by
  rw [getBoxIndex, Nat.shiftRight_eq_div_pow, wsub_of_le (by omega) (by omega)]

/-! ### Trees -/

/-- One step of the search for the highest bit: a word below `2 ^ (16 - w)` is shifted up. -/
lemma shift_up {y w : ℕ} (hy : y < 2 ^ 16) (hw : w = 8 ∨ w = 4 ∨ w = 2) :
    ∃ k, (k = 0 ∨ k = w) ∧ (wsub y (2 ^ (16 - w)) >>> 16) &&& w = k ∧
      (y <<< k) % 2 ^ 32 = y * 2 ^ k ∧ y * 2 ^ k < 2 ^ 16 ∧
        (2 ^ (16 - 2 * w) ≤ y → 2 ^ (16 - w) ≤ y * 2 ^ k) := by
  have hc : 2 ^ (16 - w) ≤ 2 ^ 16 := Nat.pow_le_pow_right two_pos (by omega)
  have hpos := Nat.two_pow_pos (16 - w)
  by_cases h : y < 2 ^ (16 - w)
  · have hdiv : wsub y (2 ^ (16 - w)) / 2 ^ 16 = 65535 := by
      rw [wsub_of_lt h]
      omega
    refine ⟨w, Or.inr rfl, ?_, ?_⟩
    · rw [Nat.shiftRight_eq_div_pow, hdiv]
      rcases hw with rfl | rfl | rfl <;> rfl
    · rw [Nat.shiftLeft_eq]
      rcases hw with rfl | rfl | rfl <;> omega
  · have hdiv : wsub y (2 ^ (16 - w)) / 2 ^ 16 = 0 := by
      rw [wsub_of_le (not_lt.mp h) (by omega)]
      omega
    refine ⟨0, Or.inl rfl, ?_, ?_⟩
    · rw [Nat.shiftRight_eq_div_pow, hdiv, Nat.zero_and]
    · rw [Nat.shiftLeft_eq]
      omega

/-- A word shifted up by `m` bits to between `2 ^ 14` and `2 ^ 16` shows its highest bit. -/
lemma highest_bit {x m : ℕ} (hm : m ≤ 14) (hlow : 2 ^ 14 ≤ x * 2 ^ m) (hlt : x * 2 ^ m < 2 ^ 16) :
    2 ^ (14 - m + x * 2 ^ m / 2 ^ 15) ≤ x ∧ x < 2 ^ (14 - m + x * 2 ^ m / 2 ^ 15 + 1) := by
  have hpos := Nat.two_pow_pos m
  have hexp : ∀ q, q ≤ 1 → 2 ^ (14 - m + q) * 2 ^ m = 2 ^ (14 + q) := by
    intro q _
    rw [← Nat.pow_add]
    congr 1
    omega
  by_cases h : x * 2 ^ m < 2 ^ 15
  · have h0 := hexp 0 (by omega)
    have h1 := hexp 1 le_rfl
    rw [Nat.div_eq_of_lt h, Nat.add_assoc, Nat.zero_add]
    constructor
    · refine Nat.le_of_mul_le_mul_right ?_ hpos
      omega
    · refine Nat.lt_of_mul_lt_mul_right (a := 2 ^ m) ?_
      omega
  · have hdiv : x * 2 ^ m / 2 ^ 15 = 1 := by omega
    have h1 := hexp 1 le_rfl
    rw [hdiv]
    constructor
    · refine Nat.le_of_mul_le_mul_right ?_ hpos
      omega
    · refine Nat.lt_of_mul_lt_mul_right (a := 2 ^ m) ?_
      rw [Nat.pow_succ, Nat.mul_right_comm]
      omega

/-- The index of a size from 256 on: twice the position of its highest bit, and the bit below
that. -/
lemma treeSizeToIndex_of_lt {s : ℕ} (h : 256 ≤ s) (hs : s < 2 ^ 24) : ∃ e ≤ 15,
    2 ^ (e + 8) ≤ s ∧ s < 2 ^ (e + 9) ∧ treeSizeToIndex s = 2 * e + s / 2 ^ (e + 7) % 2 := by
  have hx : s >>> 8 = s / 256 := Nat.shiftRight_eq_div_pow s 8
  obtain ⟨k₁, hk₁, he₁, hy₁, hlt₁, hle₁⟩ := shift_up (y := s / 256) (by omega) (Or.inl rfl)
  obtain ⟨k₂, hk₂, he₂, hy₂, hlt₂, hle₂⟩ := shift_up hlt₁ (Or.inr (Or.inl rfl))
  obtain ⟨k₃, hk₃, he₃, hy₃, hlt₃, hle₃⟩ := shift_up hlt₂ (Or.inr (Or.inr rfl))
  have hlow := hle₃ (hle₂ (hle₁ (by omega)))
  norm_num only at he₁ he₂ he₃ hy₁ hy₂ hy₃
  have hmul : s / 256 * 2 ^ k₁ * 2 ^ k₂ * 2 ^ k₃ = s / 256 * 2 ^ (k₁ + k₂ + k₃) := by ring
  have hval : treeSizeToIndex s = 2 * (14 - (k₁ + k₂ + k₃) +
      s / 256 * 2 ^ k₁ * 2 ^ k₂ * 2 ^ k₃ / 2 ^ 15) + s / 2 ^ (14 - (k₁ + k₂ + k₃) +
        s / 256 * 2 ^ k₁ * 2 ^ k₂ * 2 ^ k₃ / 2 ^ 15 + 7) % 2 := by
    unfold treeSizeToIndex
    norm_num only [hx, he₁, he₂, he₃, hy₁, hy₂, hy₃]
    rw [if_neg (by omega), if_neg (by omega), Nat.shiftLeft_eq, Nat.shiftRight_eq_div_pow,
      Nat.and_one_is_mod, Nat.shiftRight_eq_div_pow, Nat.mul_comm]
  rw [hmul] at hval hlow hlt₃
  obtain ⟨hge, hlt⟩ := highest_bit (by omega) hlow hlt₃
  refine ⟨_, ?_, ?_, ?_, hval⟩
  · by_contra hgt
    have h16 : 2 ^ 16 ≤ 2 ^ (14 - (k₁ + k₂ + k₃) +
        s / 256 * 2 ^ (k₁ + k₂ + k₃) / 2 ^ 15) := Nat.pow_le_pow_right two_pos (by omega)
    omega
  · rw [Nat.pow_add]
    omega
  · rw [Nat.pow_add _ _ 9]
    rw [Nat.pow_succ] at hlt
    omega

/-- The sizes from `2 ^ 24` on are in the last tree. -/
lemma treeSizeToIndex_of_ge {s : ℕ} (h : 2 ^ 24 ≤ s) : treeSizeToIndex s = 31 := by
  have hx : s >>> 8 = s / 256 := Nat.shiftRight_eq_div_pow s 8
  unfold treeSizeToIndex
  dsimp only
  rw [hx, if_neg (by omega), if_pos (by omega)]

/-- The number of bits below those that the index of a tree determines. -/
def treeBits (Index : ℕ) : ℕ := 32 - leftshiftForTreeIndex Index

lemma treeBits_of_ne {i : ℕ} (hi : i < 31) : treeBits i = 7 + i / 2 := by
  rw [treeBits, leftshiftForTreeIndex, if_neg (by omega), Nat.shiftRight_eq_div_pow]
  omega

lemma treeBits_last : treeBits 31 = 32 := rfl

/-- **The sizes of a tree.** -/
theorem treeSizeToIndex_eq {s : ℕ} (h : 256 ≤ s) :
    (treeSizeToIndex s < 31 ∧ s / 2 ^ treeBits (treeSizeToIndex s) = 2 + treeSizeToIndex s % 2) ∨
      (treeSizeToIndex s = 31 ∧ 3 * 2 ^ 22 ≤ s) := by
  by_cases hs : s < 2 ^ 24
  · obtain ⟨e, he, hge, hlt, hi⟩ := treeSizeToIndex_of_lt h hs
    have hdiv : s / 2 ^ (e + 7) = 2 ∨ s / 2 ^ (e + 7) = 3 := by
      have h8 : 2 ^ (e + 8) = 2 * 2 ^ (e + 7) := by ring
      have h9 : 2 ^ (e + 9) = 4 * 2 ^ (e + 7) := by ring
      have hpos := Nat.two_pow_pos (e + 7)
      have h2 : 2 ≤ s / 2 ^ (e + 7) := (Nat.le_div_iff_mul_le hpos).mpr (by omega)
      have h4 : s / 2 ^ (e + 7) < 4 := (Nat.div_lt_iff_lt_mul hpos).mpr (by omega)
      omega
    by_cases h31 : treeSizeToIndex s < 31
    · refine Or.inl ⟨h31, ?_⟩
      rw [treeBits_of_ne h31, show 7 + treeSizeToIndex s / 2 = e + 7 by omega]
      omega
    · obtain rfl : e = 15 := by omega
      exact Or.inr ⟨by omega, by omega⟩
  · exact Or.inr ⟨treeSizeToIndex_of_ge (not_lt.mp hs), by omega⟩

lemma treeSizeToIndex_lt {s : ℕ} (h : 256 ≤ s) : treeSizeToIndex s < 32 := by
  rcases treeSizeToIndex_eq h with ⟨hlt, -⟩ | ⟨heq, -⟩ <;> omega

/-- The sizes of an index end before those of a higher one begin. -/
lemma bounds_mono {i j : ℕ} (hij : i < j) :
    (3 + i % 2) * 2 ^ (7 + i / 2) ≤ (2 + j % 2) * 2 ^ (7 + j / 2) := by
  rcases Nat.lt_or_ge (i / 2) (j / 2) with h | h
  · have hpow : 2 ^ (7 + i / 2 + 1) ≤ 2 ^ (7 + j / 2) := Nat.pow_le_pow_right two_pos (by omega)
    rw [Nat.pow_succ] at hpow
    have h1 : (3 + i % 2) * 2 ^ (7 + i / 2) ≤ 4 * 2 ^ (7 + i / 2) :=
      Nat.mul_le_mul_right _ (by omega)
    have h2 : 2 * 2 ^ (7 + j / 2) ≤ (2 + j % 2) * 2 ^ (7 + j / 2) :=
      Nat.mul_le_mul_right _ (by omega)
    omega
  · rw [show j / 2 = i / 2 by omega]
    exact Nat.mul_le_mul_right _ (by omega)

/-- The sizes of the index `i`; those of the last index are not bounded above. -/
def InTree (i Size : ℕ) : Prop :=
  2 ^ (i / 2 + 8) * (2 + i % 2) / 2 ≤ Size ∧ (i ≠ 31 → Size < 2 ^ (i / 2 + 8) * (3 + i % 2) / 2)

lemma inTree_iff {i s : ℕ} : InTree i s ↔ (2 + i % 2) * 2 ^ (7 + i / 2) ≤ s ∧
    (i ≠ 31 → s < (3 + i % 2) * 2 ^ (7 + i / 2)) := by
  have hhalf : ∀ q, 2 ^ (i / 2 + 8) * q / 2 = q * 2 ^ (7 + i / 2) := by
    intro q
    rw [show i / 2 + 8 = 7 + i / 2 + 1 by omega, Nat.pow_succ, Nat.mul_right_comm,
      Nat.mul_div_cancel _ two_pos, Nat.mul_comm]
  rw [InTree, hhalf, hhalf]

/-- Every size is one of its index. -/
lemma inTree_treeSizeToIndex {s : ℕ} (h : 256 ≤ s) : InTree (treeSizeToIndex s) s := by
  rw [inTree_iff]
  rcases treeSizeToIndex_eq h with ⟨hlt, hdiv⟩ | ⟨heq, hge⟩
  · rw [treeBits_of_ne hlt] at hdiv
    have hpos := Nat.two_pow_pos (7 + treeSizeToIndex s / 2)
    refine ⟨(Nat.le_div_iff_mul_le hpos).mp hdiv.ge, fun _ => ?_⟩
    rw [← Nat.div_lt_iff_lt_mul hpos, hdiv]
    omega
  · rw [heq]
    exact ⟨hge, fun hne => absurd rfl hne⟩

/-- Greater indices have greater sizes. -/
lemma InTree.lt {i j s t : ℕ} (hs : InTree i s) (ht : InTree j t) (hij : i < j) (hj : j < 32) :
    s < t := by
  obtain ⟨-, hlt⟩ := inTree_iff.mp hs
  obtain ⟨hle, -⟩ := inTree_iff.mp ht
  exact (hlt (by omega)).trans_le ((bounds_mono hij).trans hle)

/-- **The order of the trees**: a tree of a higher index holds greater sizes. -/
theorem lt_of_index_lt {s t : ℕ} (hs : 256 ≤ s) (ht : 256 ≤ t)
    (h : treeSizeToIndex s < treeSizeToIndex t) : s < t :=
  (inTree_treeSizeToIndex hs).lt (inTree_treeSizeToIndex ht) h (treeSizeToIndex_lt ht)

lemma treeSizeToIndex_mono {s t : ℕ} (hs : 256 ≤ s) (h : s ≤ t) :
    treeSizeToIndex s ≤ treeSizeToIndex t := by
  by_contra hlt
  have := lt_of_index_lt (hs.trans h) hs (not_le.mp hlt)
  omega

/-- **The sizes of one tree** have the same bits above those of the paths. -/
theorem sameAbove_of_index {s t : ℕ} (hs : 256 ≤ s) (ht : 256 ≤ t) (hs32 : s < 2 ^ 32)
    (ht32 : t < 2 ^ 32) (h : treeSizeToIndex s = treeSizeToIndex t) :
    Trie.SameAbove (treeBits (treeSizeToIndex s)) s t := by
  have hbits : ∀ {n : ℕ}, s / 2 ^ n = t / 2 ^ n → Trie.SameAbove n s t := by
    intro n hn j hj
    have hbit : ∀ x : ℕ, x.testBit j = (x / 2 ^ n).testBit (j - n) := by
      intro x
      rw [Nat.testBit_div_two_pow, Nat.sub_add_cancel hj]
    rw [hbit, hn, ← hbit]
  refine hbits ?_
  rcases treeSizeToIndex_eq hs with ⟨hlt, hdiv⟩ | ⟨heq, -⟩
  · have hdiv' := ((treeSizeToIndex_eq ht).resolve_right fun h' => by omega).2
    rw [hdiv, h, hdiv']
  · rw [heq, treeBits_last, Nat.div_eq_of_lt hs32, Nat.div_eq_of_lt ht32]

/-! ### The bits of a path -/

/-- The word that the loops shift: its highest bit is the next step of the path. -/
lemma bitMap_step {s i d : ℕ} (hd : d < treeBits i) :
    ((s * 2 ^ (leftshiftForTreeIndex i + d) % 2 ^ 32) >>> 31) &&& 1 =
      (s.testBit (treeBits i - 1 - d)).toNat := by
  have hd' : leftshiftForTreeIndex i + d ≤ 31 := by
    rw [treeBits] at hd
    omega
  have hbit : ((s * 2 ^ (leftshiftForTreeIndex i + d)) % 2 ^ 32).testBit 31 =
      s.testBit (treeBits i - 1 - d) := by
    rw [Nat.testBit_mod_two_pow, ← Nat.shiftLeft_eq, Nat.testBit_shiftLeft]
    simp only [show (31 : ℕ) < 32 by omega, decide_true, Bool.true_and, ge_iff_le, hd']
    congr 1
    rw [treeBits]
    omega
  rw [← hbit, Nat.toNat_testBit, Nat.and_one_is_mod, Nat.shiftRight_eq_div_pow]

lemma bitMap_shift {s k : ℕ} : ((s * 2 ^ k % 2 ^ 32) <<< 1) % 2 ^ 32 = s * 2 ^ (k + 1) % 2 ^ 32 := by
  rw [Nat.shiftLeft_eq, Nat.mod_mul_mod, Nat.pow_one, Nat.mul_assoc, ← Nat.pow_succ]

/-- The word `BitMap` of `insert_large_chunk` after so many levels of the tree. -/
def bitMap (Size : ℕ) : ℕ → ℕ
  | 0 => (Size <<< leftshiftForTreeIndex (treeSizeToIndex Size)) % 2 ^ 32
  | d + 1 => (bitMap Size d <<< 1) % 2 ^ 32

lemma bitMap_eq (s d : ℕ) :
    bitMap s d = s * 2 ^ (leftshiftForTreeIndex (treeSizeToIndex s) + d) % 2 ^ 32 := by
  induction d with
  | zero => rw [bitMap, Nat.shiftLeft_eq, Nat.add_zero]
  | succ d ih => rw [bitMap, ih, bitMap_shift, Nat.add_assoc]

/-- Two sizes of one tree differ in a bit of their paths. -/
lemma exists_bitMap_ne {s t : ℕ} (hne : s ≠ t) (h : treeSizeToIndex s = treeSizeToIndex t)
    (habove : Trie.SameAbove (treeBits (treeSizeToIndex s)) s t) :
    ∃ d < treeBits (treeSizeToIndex s), (bitMap s d >>> 31) &&& 1 ≠ (bitMap t d >>> 31) &&& 1 := by
  by_contra hall
  refine hne (Nat.eq_of_testBit_eq fun j => ?_)
  rcases Nat.lt_or_ge j (treeBits (treeSizeToIndex s)) with hj | hj
  · by_contra hbit
    refine hall ⟨treeBits (treeSizeToIndex s) - 1 - j, by omega, fun heq => hbit ?_⟩
    rw [bitMap_eq, bitMap_eq, ← h, bitMap_step (by omega), bitMap_step (by omega),
      show treeBits (treeSizeToIndex s) - 1 - (treeBits (treeSizeToIndex s) - 1 - j) = j by omega]
      at heq
    rw [Bool.eq_iff_iff, ← Bool.toNat_eq_one, heq, Bool.toNat_eq_one]
  · exact habove j hj

/-- **The index of a tree** is the one that the bounds of its sizes give; it grows with the size.
Of two sizes with the same index, the shift to the left drops bits only that they have in common,
and the descent by the highest bit tells them apart by one of the others. -/
theorem treeSizeToIndex_spec {s t : ℕ} (hs : 256 < s) (hs32 : s < 2 ^ 32) (ht : 256 < t)
    (ht32 : t < 2 ^ 32) :
    treeSizeToIndex s < 32 ∧ (∀ i < 32, InTree i s ↔ i = treeSizeToIndex s) ∧
      (s ≤ t → treeSizeToIndex s ≤ treeSizeToIndex t) ∧
      (s ≠ t → treeSizeToIndex s = treeSizeToIndex t →
        (∀ j, 32 - leftshiftForTreeIndex (treeSizeToIndex s) ≤ j → s.testBit j = t.testBit j) ∧
          ∃ d < 32 - leftshiftForTreeIndex (treeSizeToIndex s),
            (bitMap s d >>> 31) &&& 1 ≠ (bitMap t d >>> 31) &&& 1) := by
  have hin : InTree (treeSizeToIndex s) s := inTree_treeSizeToIndex hs.le
  have hlt : treeSizeToIndex s < 32 := treeSizeToIndex_lt hs.le
  refine ⟨hlt, fun i hi => ⟨fun hi' => ?_, fun he => he ▸ hin⟩, treeSizeToIndex_mono hs.le,
    fun hne h => ?_⟩
  · rcases Nat.lt_trichotomy i (treeSizeToIndex s) with hlow | heq | hhigh
    · exact absurd (hi'.lt hin hlow hlt) (lt_irrefl s)
    · exact heq
    · exact absurd (hin.lt hi' hhigh hi) (lt_irrefl s)
  · have habove := sameAbove_of_index hs.le ht.le hs32 ht32 h
    exact ⟨habove, exists_bitMap_ne hne h habove⟩

theorem treeSizeToIndex_spec_two : treeSizeToIndex 300 = treeSizeToIndex 301 ∧
    ∃ d < 32 - leftshiftForTreeIndex (treeSizeToIndex 300),
      (bitMap 300 d >>> 31) &&& 1 ≠ (bitMap 301 d >>> 31) &&& 1 := by
  have hindex : treeSizeToIndex 300 = treeSizeToIndex 301 := by decide
  obtain ⟨-, -, -, htwo⟩ := treeSizeToIndex_spec (s := 300) (t := 301) (by norm_num) (by norm_num)
    (by norm_num) (by norm_num)
  exact ⟨hindex, (htwo (by norm_num) hindex).2⟩

end Heap

end ChinaOS
