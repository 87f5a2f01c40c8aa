import Mathlib.Tactic

/-!
Sums with an end-around carry.

A number of the digits `0, …, M` that is added up with the carry taken around has one of the values
`0, …, M`; it is `0` only if the number is, and otherwise the value in `1, …, M` that is congruent
to the number.

* `carrySum M n`: this value. `carrySum_eq_iff`: when it is the same for two numbers.
* `carrySum_fold`: carrying around once does not change it. `carrySum_add_left`: it may be taken of
  the parts of a sum.
* `carrySum_mul_base`: neither does a shift by a whole digit.
* `carrySum_add_eq_iff`: the complement completes a sum to `M`.
-/

namespace OnesComplement

/-- The sum with the carry taken around. -/
def carrySum (M n : ℕ) : ℕ := if n = 0 then 0 else (n - 1) % M + 1

variable {M m n a b : ℕ}

@[simp] lemma carrySum_zero : carrySum M 0 = 0 := rfl

lemma carrySum_eq_zero : carrySum M n = 0 ↔ n = 0 := by
  rw [carrySum]
  split_ifs with h
  · simp [h]
  · simp [h]

lemma carrySum_le (hM : 0 < M) : carrySum M n ≤ M := by
  rw [carrySum]
  split_ifs
  · omega
  · have := Nat.mod_lt (n - 1) hM
    omega

lemma carrySum_of_le (h : n ≤ M) : carrySum M n = n := by
  rw [carrySum]
  split_ifs with h0
  · exact h0.symm
  · rw [Nat.mod_eq_of_lt (by omega)]
    omega

lemma carrySum_modEq : carrySum M n ≡ n [MOD M] := by
  rw [carrySum]
  split_ifs with h0
  · rw [h0]
  · calc (n - 1) % M + 1 ≡ n - 1 + 1 [MOD M] := (Nat.mod_modEq (n - 1) M).add_right 1
      _ = n := by omega

/-- **The values are the same** if the numbers are congruent and both or none of them is zero. -/
theorem carrySum_eq_iff :
    carrySum M m = carrySum M n ↔ m ≡ n [MOD M] ∧ (m = 0 ↔ n = 0) := by
  constructor
  · intro h
    refine ⟨?_, by rw [← carrySum_eq_zero (M := M), h, carrySum_eq_zero]⟩
    calc m ≡ carrySum M m [MOD M] := carrySum_modEq.symm
      _ = carrySum M n := h
      _ ≡ n [MOD M] := carrySum_modEq
  · rintro ⟨hmod, hzero⟩
    by_cases h0 : m = 0
    · rw [h0, hzero.mp h0]
    · have hn : n ≠ 0 := fun hn => h0 (hzero.mpr hn)
      have hpred : m - 1 ≡ n - 1 [MOD M] := by
        refine Nat.ModEq.add_right_cancel' 1 ?_
        rwa [Nat.sub_add_cancel (by omega), Nat.sub_add_cancel (by omega)]
      rw [carrySum, if_neg h0, carrySum, if_neg hn, hpred]

/-- The sum of a part may be taken first. -/
theorem carrySum_add_left : carrySum M (carrySum M a + b) = carrySum M (a + b) := by
  refine carrySum_eq_iff.mpr ⟨carrySum_modEq.add_right b, ?_⟩
  rw [Nat.add_eq_zero_iff, Nat.add_eq_zero_iff, carrySum_eq_zero]

lemma carrySum_add_right : carrySum M (a + carrySum M b) = carrySum M (a + b) := by
  rw [Nat.add_comm, carrySum_add_left, Nat.add_comm]

lemma carrySum_add_congr (h : carrySum M a = carrySum M b) :
    carrySum M (a + n) = carrySum M (b + n) := by
  rw [← carrySum_add_left, h, carrySum_add_left]

lemma carrySum_mul_congr (h : carrySum M a = carrySum M b) :
    carrySum M (n * a) = carrySum M (n * b) := by
  obtain ⟨hmod, hzero⟩ := carrySum_eq_iff.mp h
  refine carrySum_eq_iff.mpr ⟨hmod.mul_left n, ?_⟩
  rw [Nat.mul_eq_zero, Nat.mul_eq_zero, hzero]

lemma carrySum_carrySum (hM : 0 < M) : carrySum M (carrySum M a) = carrySum M a :=
  carrySum_of_le (carrySum_le hM)

/-- The sum of a factor may be taken first. -/
lemma carrySum_mul (hM : 0 < M) : carrySum M (n * carrySum M a) = carrySum M (n * a) :=
  carrySum_mul_congr (carrySum_carrySum hM)

/-- **The carry is taken around** once. -/
theorem carrySum_fold : carrySum M (n / (M + 1) + n % (M + 1)) = carrySum M n := by
  have hn := Nat.div_add_mod n (M + 1)
  rw [Nat.succ_mul] at hn
  refine carrySum_eq_iff.mpr ⟨?_, ?_⟩
  · calc n / (M + 1) + n % (M + 1)
        ≡ M * (n / (M + 1)) + (n / (M + 1) + n % (M + 1)) [MOD M] := by
          rw [Nat.ModEq, Nat.mul_add_mod]
      _ = n := by omega
  · constructor
    · intro h
      obtain ⟨hq, hr⟩ := Nat.add_eq_zero_iff.mp h
      rw [← Nat.div_add_mod n (M + 1), hq, hr, Nat.mul_zero]
    · rintro rfl
      simp

/-- **A shift by a whole digit.** -/
theorem carrySum_mul_base : carrySum M ((M + 1) * n) = carrySum M n := by
  refine carrySum_eq_iff.mpr ⟨?_, by simp⟩
  rw [Nat.succ_mul, Nat.ModEq, Nat.mul_add_mod]

/-- **What completes a sum to `M`** is its complement, or `M` itself if nothing is missing. -/
theorem carrySum_add_eq_iff (hM : 0 < M) (hm : m ≤ M) : carrySum M (n + m) = M ↔
    m = M - carrySum M n ∨ M - carrySum M n = 0 ∧ m = M := by
  have hle := carrySum_le (n := n) hM
  rw [← carrySum_add_left]
  generalize carrySum M n = s at hle ⊢
  have hsum : carrySum M (s + m) = M ↔ s + m = M ∨ s + m = 2 * M := by
    constructor
    · intro h
      by_cases hsmall : s + m ≤ M
      · rw [carrySum_of_le hsmall] at h
        exact Or.inl h
      · -- the carry is taken around once
        rw [carrySum, if_neg (by omega), Nat.mod_eq_sub_mod (by omega), Nat.mod_eq_of_lt (by omega)]
          at h
        omega
    · rintro (h | h)
      · rw [h, carrySum_of_le le_rfl]
      · rw [h, carrySum, if_neg (by omega), Nat.mod_eq_sub_mod (by omega),
          Nat.mod_eq_of_lt (by omega)]
        omega
  rw [hsum]
  omega

/-- A digit of two halves, multiplied by one half of the base: the halves change places. -/
lemma carrySum_swap {h : ℕ} (hh : 1 < h) (ha : a < h * h) :
    carrySum (h * h - 1) (h * a) = a % h * h + a / h := by
  have hM : 0 < h * h - 1 := by
    have := Nat.mul_lt_mul_of_lt_of_lt hh hh
    omega
  have hdiv : a / h < h := Nat.div_lt_of_lt_mul ha
  have hsplit : h * a = h * h * (a / h) + a % h * h := by
    conv_lhs => rw [← Nat.div_add_mod a h]
    ring
  have hle : a % h * h + a / h ≤ h * h - 1 := by
    have h1 := Nat.mod_lt a (by omega : 0 < h)
    have h2 : a % h * h ≤ (h - 1) * h := Nat.mul_le_mul_right h (by omega)
    rw [Nat.sub_mul, Nat.one_mul] at h2
    have h3 : h ≤ h * h := Nat.le_mul_self h
    omega
  rw [hsplit, Nat.add_comm, ← carrySum_add_right,
    show h * h * (a / h) = (h * h - 1 + 1) * (a / h) by rw [Nat.sub_add_cancel (by omega)],
    carrySum_mul_base, carrySum_add_right, carrySum_of_le hle]

end OnesComplement
