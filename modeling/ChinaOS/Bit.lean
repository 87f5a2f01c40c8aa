import Mathlib.Tactic
import ChinaOS.Types

/-!
Words of 32 bits and the bit scans of `library/bit/bit.c` and `library/misc/misc.h`.

* `bitScanForward`: the index of the lowest set bit, `32` for the zero word
  (`bitScanForward_of_lowest`, `bitScanForward_zero`). The source isolates the lowest set
  bit as `x & -x`, so that one less than it has as many ones as there are zeros below it,
  and counts those ones by sums of three, six, twelve and twenty-four bit groups.
* `setBit`, `clearBit`: the two updates of a bitmap the kernel and the allocator write out.
* `alignUpside`, `alignDownside`: rounding to a power of two (`toNat_and_not`).
-/

namespace ChinaOS

/-- `test_bit`: the bit of `Mark` under `1ul << Index`, zero or not. -/
def testBit (Mark : Int32U) (Index : ℕ) : Bool := Mark &&& (1#32 <<< Index) != 0#32

/-- `bit_count`: the sum of the bits of `R0`, by groups of three, six, twelve and
twenty-four bits held in one word. -/
def bitCount (R0 : Int32U) : Int32U :=
  let R1 := 0x49249249#32
  let R2 := R0 &&& (R1 <<< 1)
  let R0 := R0 - (R2 >>> 1)
  let R2 := R0 &&& (R1 >>> 1)
  let R0 := R0 + R2
  let R1 := 0xc71c71c7#32
  let R0 := R0 + (R0 >>> 3)
  let R0 := R0 &&& R1
  let R0 := R0 + (R0 >>> 6)
  let R0 := R0 + (R0 >>> 12)
  let R0 := R0 + (R0 >>> 24)
  R0 &&& 0x3F#32

/-- `bit_scan_forward`: the source writes the body of `bit_count` out again after
isolating the lowest set bit. -/
def bitScanForward (R0 : Int32U) : Int32U :=
  let R0 := R0 &&& -R0
  let R0 := R0 - 1
  let R1 := 0x49249249#32
  let R2 := R0 &&& (R1 <<< 1)
  let R0 := R0 - (R2 >>> 1)
  let R2 := R0 &&& (R1 >>> 1)
  let R0 := R0 + R2
  let R1 := 0xc71c71c7#32
  let R0 := R0 + (R0 >>> 3)
  let R0 := R0 &&& R1
  let R0 := R0 + (R0 >>> 6)
  let R0 := R0 + (R0 >>> 12)
  let R0 := R0 + (R0 >>> 24)
  R0 &&& 0x3F#32

/-- `align_upside`. -/
def alignUpside (x align : Int32U) : Int32U := (x + align - 1) &&& ~~~(align - 1)

/-- `align_downside`. -/
def alignDownside (x align : Int32U) : Int32U := x &&& ~~~(align - 1)

/-- `Map |= 1ul << Index`. -/
def setBit (Map : Int32U) (Index : ℕ) : Int32U := Map ||| (1#32 <<< Index)

/-- `Map &= ~(1ul << Index)`. -/
def clearBit (Map : Int32U) (Index : ℕ) : Int32U := Map &&& ~~~(1#32 <<< Index)

/-! ### Bitmaps -/

lemma getLsbD_one_shiftLeft (i j : ℕ) : (1#32 <<< i).getLsbD j = decide (j < 32 ∧ j = i) := by
  simp only [BitVec.getLsbD_shiftLeft, BitVec.getLsbD_one]
  by_cases hj : j < 32 <;> by_cases hji : j < i <;> simp [hj, hji] <;> omega

lemma getLsbD_setBit (Map : Int32U) (i j : ℕ) :
    (setBit Map i).getLsbD j = (Map.getLsbD j || decide (j < 32 ∧ j = i)) := by
  rw [setBit, BitVec.getLsbD_or, getLsbD_one_shiftLeft]

lemma getLsbD_clearBit (Map : Int32U) (i j : ℕ) :
    (clearBit Map i).getLsbD j = (Map.getLsbD j && decide (j ≠ i)) := by
  rw [clearBit, BitVec.getLsbD_and, BitVec.getLsbD_not, getLsbD_one_shiftLeft]
  by_cases hj : j < 32
  · simp [hj]
  · simp [BitVec.getLsbD_of_ge Map j (by omega)]

lemma testBit_eq (Map : Int32U) (i : ℕ) : testBit Map i = Map.getLsbD i := by
  rw [testBit]
  by_cases h : Map.getLsbD i = true
  · rw [h, bne_iff_ne]
    intro h0
    have h1 := congrArg (fun v => v.getLsbD i) h0
    have hi : i < 32 := BitVec.lt_of_getLsbD h
    simp only [BitVec.getLsbD_and, getLsbD_one_shiftLeft, h] at h1
    simp [hi] at h1
  · rw [Bool.not_eq_true] at h
    rw [h, bne_eq_false_iff_eq]
    ext j hj
    simp only [← BitVec.getLsbD_eq_getElem, BitVec.getLsbD_and, getLsbD_one_shiftLeft]
    by_cases hji : j = i
    · subst hji; simp [h]
    · simp [hji]

/-! ### The scan -/

/-- `x & -x` keeps the lowest set bit alone. -/
lemma and_neg_of_lowest {x : Int32U} {k : ℕ} (hk : x.getLsbD k = true)
    (hlow : ∀ j < k, x.getLsbD j = false) : x &&& -x = 1#32 <<< k := by
  ext i hi
  simp only [← BitVec.getLsbD_eq_getElem, BitVec.getLsbD_and, getLsbD_one_shiftLeft,
    BitVec.getLsbD_neg]
  rcases lt_trichotomy i k with h | h | h
  · simp [hlow i h]; omega
  · subst h
    have hno : ¬ ∃ j < i, x.getLsbD j = true := by
      rintro ⟨j, hj, hx⟩
      simp [hlow j hj] at hx
    simp [hk, hi, hno]
  · have hyes : ∃ j < i, x.getLsbD j = true := ⟨k, h, hk⟩
    simp only [hi, hyes]
    cases x.getLsbD i <;> simp <;> omega

/-- **The scan of a nonzero word** is the index of its lowest set bit. -/
theorem bitScanForward_of_lowest {x : Int32U} {k : ℕ} (hk : x.getLsbD k = true)
    (hlow : ∀ j < k, x.getLsbD j = false) : (bitScanForward x).toNat = k := by
  have hk32 : k < 32 := BitVec.lt_of_getLsbD hk
  have hmask : ∀ k : Fin 32, (bitCount (1#32 <<< (k : ℕ) - 1)).toNat = k := by decide
  rw [show bitScanForward x = bitCount ((x &&& -x) - 1) from rfl, and_neg_of_lowest hk hlow]
  exact hmask ⟨k, hk32⟩

lemma bitScanForward_zero : (bitScanForward 0).toNat = 32 := by decide

/-- Every word is zero or has a lowest set bit. -/
lemma eq_zero_or_lowest (x : Int32U) :
    x = 0 ∨ ∃ k < 32, x.getLsbD k = true ∧ ∀ j < k, x.getLsbD j = false := by
  by_cases h : ∃ k, x.getLsbD k = true
  · refine Or.inr ⟨Nat.find h, BitVec.lt_of_getLsbD (Nat.find_spec h), Nat.find_spec h, ?_⟩
    intro j hj
    simpa using Nat.find_min h hj
  · refine Or.inl (BitVec.eq_of_getLsbD_eq fun i _ => ?_)
    simp only [not_exists, Bool.not_eq_true] at h
    simp [h i]

/-! ### Alignment -/

/-- `x & ~(align - 1)` for a power of two. -/
lemma toNat_and_not (x : Int32U) {k : ℕ} (hk : k < 32) :
    (x &&& ~~~(1#32 <<< k - 1#32)).toNat = x.toNat / 2 ^ k * 2 ^ k := by
  have hmask : ∀ k i : Fin 32, (1#32 <<< (k : ℕ) - 1#32).getLsbD i = decide ((i : ℕ) < k) := by
    decide
  have heq : x &&& ~~~(1#32 <<< k - 1#32) = (x >>> k) <<< k := by
    refine BitVec.eq_of_getLsbD_eq fun i hi => ?_
    rw [BitVec.getLsbD_and, BitVec.getLsbD_not, hmask ⟨k, hk⟩ ⟨i, hi⟩, BitVec.getLsbD_shiftLeft,
      BitVec.getLsbD_ushiftRight]
    by_cases hik : i < k
    · simp [hik]
    · simp [hik, hi, Nat.add_sub_cancel' (not_lt.mp hik)]
  rw [heq, BitVec.toNat_shiftLeft, BitVec.toNat_ushiftRight, Nat.shiftRight_eq_div_pow,
    Nat.shiftLeft_eq, Nat.mod_eq_of_lt]
  exact lt_of_le_of_lt (Nat.div_mul_le_self _ _) x.isLt

lemma toNat_alignDownside_four (x : Int32U) : (alignDownside x 4).toNat = x.toNat / 4 * 4 := by
  have hmask : (4 : Int32U) - (1 : Int32U) = 1#32 <<< 2 - 1#32 := by decide
  rw [alignDownside, hmask, toNat_and_not x (by decide)]
  norm_num

/-- Rounding up to whole words, with the wrap of the addition. -/
lemma toNat_alignUpside_word (x : Int32U) :
    (alignUpside x 4).toNat = (x.toNat + 3) % 2 ^ 32 / 4 * 4 := by
  have hmask : (4 : Int32U) - (1 : Int32U) = 1#32 <<< 2 - 1#32 := by decide
  have hx : (x + 4 - 1).toNat = (x.toNat + 3) % 2 ^ 32 := by bv_omega
  rw [alignUpside, hmask, toNat_and_not _ (by decide), hx]
  norm_num

lemma toNat_alignUpside_four {x : Int32U} (h : x.toNat + 3 < 2 ^ 32) :
    (alignUpside x 4).toNat = (x.toNat + 3) / 4 * 4 := by
  rw [toNat_alignUpside_word, Nat.mod_eq_of_lt h]

lemma toNat_alignUpside_eight {x : Int32U} (h : x.toNat + 7 < 2 ^ 32) :
    (alignUpside x 8).toNat = (x.toNat + 7) / 8 * 8 := by
  have hmask : (8 : Int32U) - (1 : Int32U) = 1#32 <<< 3 - 1#32 := by decide
  have hx : (x + 8 - 1).toNat = x.toNat + 7 := by bv_omega
  rw [alignUpside, hmask, toNat_and_not _ (by decide), hx]
  norm_num

end ChinaOS
