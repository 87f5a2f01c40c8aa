import ChinaOS.Types

/-!
`library/math/math.c`: the greatest common divisor and the search in a sorted array.

* `getMaxCommonDivisor`: Euclid's loop, behind a filter that reads `Max` and `Min` before they are
  set. `divisor_iff`: it does what it should exactly if the filter happens to decide as the
  arguments do.
* `Search.run`: the search, which halves the length of the interval that is left and not its
  position. `Search.found_iff`: the keys of an array that it treats well.
-/

namespace ChinaOS

/-! ### The greatest common divisor -/

/-- `max` of `library/math/math.h`. -/
def umax (a b : Int32U) : Int32U := if a < b then b else a

/-- The loop of `get_max_common_divisor`. It stops with `none` at a division by zero. -/
def divideLoop (Max Min : Int32U) : Option Int32U :=
  if Min = 0 then none
  else
    let remainder := Max % Min
    if remainder = 0 then some Min else divideLoop Min remainder
termination_by Min.toNat
decreasing_by
  rename_i hMin _
  have hpos : (0 : Int32U) < Min := by
    rw [BitVec.lt_def]
    exact Nat.pos_of_ne_zero fun h0 => hMin (BitVec.eq_of_toNat_eq h0)
  exact BitVec.umod_lt _ hpos

/-- `get_max_common_divisor`, where `Max` and `Min` hold these values at the entry. -/
def getMaxCommonDivisor (Max Min a b : Int32U) : Option Int32U :=
  if Max = 0 ∨ Min = 0 then some 0 else divideLoop (umax a b) (umin a b)

/-- What `get_max_common_divisor` should do: it returns, without a division by zero, and what it
returns is zero for a zero, and otherwise the greatest common divisor. -/
def Divisor (Max Min a b : Int32U) : Prop :=
  ∃ d, getMaxCommonDivisor Max Min a b = some d ∧
    d.toNat = if a = 0 ∨ b = 0 then 0 else Nat.gcd a.toNat b.toNat

section Divisor

variable {Max Min a b : Int32U}

/-- **Euclid's loop** ends with the greatest common divisor. -/
theorem divideLoop_eq (hMin : Min ≠ 0) :
    ∃ d, divideLoop Max Min = some d ∧ d.toNat = Nat.gcd Max.toNat Min.toNat := by
  induction Max, Min using divideLoop.induct with
  | case1 Max => exact absurd rfl hMin
  | case2 Max Min _ remainder hzero =>
      have hdvd : Min.toNat ∣ Max.toNat := by
        have hmod : (Max % Min).toNat = 0 := congrArg BitVec.toNat hzero
        rw [BitVec.toNat_umod] at hmod
        exact Nat.dvd_of_mod_eq_zero hmod
      refine ⟨Min, ?_, (Nat.gcd_eq_right hdvd).symm⟩
      rw [divideLoop, if_neg hMin]
      exact if_pos hzero
  | case3 Max Min _ remainder hne ih =>
      obtain ⟨d, heq, hd⟩ := ih hne
      refine ⟨d, ?_, ?_⟩
      · rw [divideLoop, if_neg hMin]
        exact (if_neg hne).trans heq
      · calc d.toNat = Nat.gcd Min.toNat (Max % Min).toNat := hd
          _ = Nat.gcd Min.toNat (Max.toNat % Min.toNat) := by rw [BitVec.toNat_umod]
          _ = Nat.gcd Max.toNat Min.toNat := by
            rw [Nat.gcd_comm, ← Nat.gcd_rec, Nat.gcd_comm]

lemma umin_eq_zero : umin a b = 0 ↔ a = 0 ∨ b = 0 := by
  have hzero : (0 : Int32U).toNat = 0 := rfl
  rw [← BitVec.toNat_inj, ← BitVec.toNat_inj, ← BitVec.toNat_inj, toNat_umin, hzero]
  omega

/-- The greater and the lesser argument have the same divisors as the arguments. -/
lemma gcd_umax_umin : Nat.gcd (umax a b).toNat (umin a b).toNat = Nat.gcd a.toNat b.toNat := by
  rw [toNat_umin, umax]
  split_ifs with h
  · rw [Nat.min_eq_left (BitVec.lt_def.mp h).le, Nat.gcd_comm]
  · rw [Nat.min_eq_right (BitVec.le_def.mp (BitVec.not_lt.mp h))]

/-- **The greatest common divisor** is returned, and a zero for a zero, exactly if one of the
values that `Max` and `Min` hold at the entry is zero just when one of the arguments is. -/
theorem divisor_iff (Max Min a b : Int32U) :
    Divisor Max Min a b ↔ ((Max = 0 ∨ Min = 0) ↔ (a = 0 ∨ b = 0)) := by
  rw [Divisor, getMaxCommonDivisor]
  by_cases hfilter : Max = 0 ∨ Min = 0
  · rw [if_pos hfilter, iff_true_left hfilter]
    by_cases hzero : a = 0 ∨ b = 0
    · rw [if_pos hzero]
      exact iff_of_true ⟨0, rfl, rfl⟩ hzero
    · rw [if_neg hzero]
      refine iff_of_false ?_ hzero
      rintro ⟨d, hd, hgcd⟩
      rw [← Option.some.inj hd] at hgcd
      obtain ⟨ha, -⟩ := Nat.gcd_eq_zero_iff.mp hgcd.symm
      exact hzero (Or.inl (BitVec.eq_of_toNat_eq ha))
  · rw [if_neg hfilter, iff_false_left hfilter]
    by_cases hzero : a = 0 ∨ b = 0
    · refine iff_of_false ?_ (not_not.mpr hzero)
      rintro ⟨d, hd, -⟩
      rw [divideLoop, if_pos (umin_eq_zero.mpr hzero)] at hd
      simp at hd
    · obtain ⟨d, heq, hd⟩ : ∃ d, divideLoop (umax a b) (umin a b) = some d ∧
          d.toNat = Nat.gcd (umax a b).toNat (umin a b).toNat :=
        divideLoop_eq (mt umin_eq_zero.mp hzero)
      refine iff_of_true ⟨d, heq, ?_⟩ hzero
      rw [hd, if_neg hzero, gcd_umax_umin]

/-- The filter lets a zero through, and the loop divides by it. -/
theorem not_divisor_zero : getMaxCommonDivisor 1 1 6 0 = none ∧ ¬ Divisor 1 1 6 0 := by
  have hnone : getMaxCommonDivisor 1 1 6 0 = none := by
    rw [getMaxCommonDivisor, if_neg (by decide), divideLoop, if_pos (by decide)]
  refine ⟨hnone, ?_⟩
  rintro ⟨d, hd, -⟩
  rw [hnone] at hd
  simp at hd

end Divisor

/-! ### The search in a sorted array -/

namespace Search

/-- How the search stands after a number of iterations: it goes on, it has read outside the array,
or it has returned. -/
inductive Outcome where
  | running
  | outside
  | returned (i : ℤ)
  deriving DecidableEq

/-- The loop of `binary_search`, for a number of iterations. -/
def loop (aSource : List ℤ) (Key : ℤ) : ℕ → ℤ → ℤ → Outcome
  | 0, _, _ => .running
  | fuel + 1, Left, Right =>
      if Left ≤ Right then
        let Middle := (Right - Left) >>> (1 : ℕ)
        match if 0 ≤ Middle then aSource[Middle.toNat]? else none with
        | none => .outside
        | some Value =>
            if Key = Value then .returned Middle
            else if Value < Key then loop aSource Key fuel (Middle + 1) Right
            else loop aSource Key fuel Left (Middle - 1)
      else .returned (-1)

/-- `binary_search`, for a number of iterations. -/
def run (aSource : List ℤ) (Max Key : ℤ) (fuel : ℕ) : Outcome := loop aSource Key fuel 0 Max

/-- `i` is what a search for `Key` should return. -/
def Right (aSource : List ℤ) (Key i : ℤ) : Prop :=
  (Key ∈ aSource → 0 ≤ i ∧ aSource[i.toNat]? = some Key) ∧ (Key ∉ aSource → i = -1)

/-- The search between two indices returns what it should, and reads the array only. -/
def Ends (aSource : List ℤ) (Key L R : ℤ) : Prop :=
  ∃ fuel i, loop aSource Key fuel L R = .returned i ∧ Right aSource Key i

/-- What `binary_search` should do in an array of this many elements. -/
def Found (aSource : List ℤ) (Key : ℤ) : Prop :=
  ∃ fuel i, run aSource aSource.length Key fuel = .returned i ∧ Right aSource Key i

/-- The first element is less than `Key`, and all others are greater. -/
def Second (aSource : List ℤ) (Key : ℤ) : Prop :=
  ∀ i a, aSource[i]? = some a → if i = 0 then a < Key else Key < a

/-- The two highest bits of the number are `10`. -/
def LeadsOne (S : ℕ) : Prop := ∃ k, 2 * 2 ^ k ≤ S ∧ S < 3 * 2 ^ k

/-- What the search treats well whose right end is `S - 2`: a key at an index that it may look at,
a key below all elements, and a key right behind the first element, if the last interval is one
element wide. -/
def Lucky (aSource : List ℤ) (Key : ℤ) (S : ℕ) : Prop :=
  (∃ i, 1 ≤ i ∧ aSource[S / 2 ^ i - 1]? = some Key) ∨ (∀ a ∈ aSource, Key < a) ∨
    Second aSource Key ∧ LeadsOne S

section Search

variable {aSource : List ℤ} {Key L R v a : ℤ} {S M i j fuel : ℕ}

lemma shiftRight_one (x : ℤ) : x >>> (1 : ℕ) = x / 2 := by
  rw [Int.shiftRight_eq_div_pow]
  norm_num

/-- One iteration. -/
lemma loop_succ (hle : L ≤ R) (hM : (R - L) / 2 = M) (hv : aSource[M]? = some v) :
    loop aSource Key (fuel + 1) L R =
      if Key = v then .returned M
      else if v < Key then loop aSource Key fuel (M + 1) R
      else loop aSource Key fuel L (M - 1) := by
  rw [loop, if_pos hle]
  simp only [shiftRight_one, hM, Int.natCast_nonneg, if_true, Int.toNat_natCast, hv]

/-- The search ends as it does after one more iteration. -/
lemma ends_iff {L' R' : ℤ} (hstep : ∀ fuel, loop aSource Key (fuel + 1) L R =
    loop aSource Key fuel L' R') : Ends aSource Key L R ↔ Ends aSource Key L' R' := by
  constructor
  · rintro ⟨fuel, i, hi, hright⟩
    cases fuel with
    | zero => simp [loop] at hi
    | succ fuel => exact ⟨fuel, i, hstep fuel ▸ hi, hright⟩
  · rintro ⟨fuel, i, hi, hright⟩
    exact ⟨fuel + 1, i, (hstep fuel).trans hi, hright⟩

/-- **A search that has gone to the right** over more than one element never ends: it looks at
elements in the left half only, which are all less than the key. -/
theorem loop_running (hbelow : ∀ j : ℕ, (j : ℤ) ≤ (R - 1) / 2 → ∃ v, aSource[j]? = some v ∧ v < Key) :
    ∀ fuel L, 1 ≤ L → L ≤ R → loop aSource Key fuel L R = .running := by
  intro fuel
  induction fuel with
  | zero => exact fun _ _ _ => rfl
  | succ fuel ih =>
      intro L hL hR
      obtain ⟨M, hM⟩ : ∃ M : ℕ, (R - L) / 2 = M := ⟨((R - L) / 2).toNat, by omega⟩
      obtain ⟨v, hv, hlt⟩ := hbelow M (by omega)
      rw [loop_succ hR hM hv, if_neg hlt.ne', if_pos hlt]
      exact ih _ (by omega) (by omega)

/-- The elements of a sorted array. -/
lemma le_of_sorted (hs : aSource.Pairwise (· ≤ ·)) {b : ℤ} (hij : i ≤ j) (ha : aSource[i]? = some a)
    (hb : aSource[j]? = some b) : a ≤ b := by
  obtain ⟨hi, rfl⟩ := List.getElem?_eq_some_iff.mp ha
  obtain ⟨hj, rfl⟩ := List.getElem?_eq_some_iff.mp hb
  rcases Nat.lt_or_eq_of_le hij with hlt | rfl
  · exact List.pairwise_iff_getElem.mp hs i j hi hj hlt
  · exact le_rfl

lemma leadsOne_half (hS : 4 ≤ S) : LeadsOne S ↔ LeadsOne (S / 2) := by
  constructor
  · rintro ⟨k, hk, hlt⟩
    cases k with
    | zero => omega
    | succ k =>
        rw [Nat.pow_succ] at hk hlt
        exact ⟨k, by omega, by omega⟩
  · rintro ⟨k, hk, hlt⟩
    refine ⟨k + 1, ?_⟩
    rw [Nat.pow_succ]
    omega

/-- Where the element in the middle is greater, the left half decides. -/
lemma lucky_half (hS : 4 ≤ S) (hv : aSource[S / 2 - 1]? = some v) (hlt : Key < v) :
    Lucky aSource Key S ↔ Lucky aSource Key (S / 2) := by
  refine or_congr ?_ (or_congr Iff.rfl (and_congr_right fun _ => leadsOne_half hS))
  constructor
  · rintro ⟨i, hi, hkey⟩
    have hne : i ≠ 1 := by
      rintro rfl
      rw [Nat.pow_one, hv, Option.some.injEq] at hkey
      omega
    refine ⟨i - 1, by omega, ?_⟩
    rw [Nat.div_div_eq_div_mul, ← Nat.pow_succ', Nat.succ_eq_add_one, Nat.sub_add_cancel hi]
    exact hkey
  · rintro ⟨i, hi, hkey⟩
    refine ⟨i + 1, by omega, ?_⟩
    rw [Nat.pow_succ', ← Nat.div_div_eq_div_mul]
    exact hkey

/-- An empty interval, where the key is not in the array. -/
lemma ends_of_empty (hlt : R < L) (hnot : Key ∉ aSource) : Ends aSource Key L R :=
  ⟨1, -1, if_neg (not_le.mpr hlt), fun h => absurd h hnot, fun _ => rfl⟩

/-- A key that is less than all elements. -/
lemma below_all (h : ∀ (j : ℕ) v, aSource[j]? = some v → Key < v) :
    Key ∉ aSource ∧ Lucky aSource Key S := by
  have hall : ∀ a ∈ aSource, Key < a := by
    intro a ha
    obtain ⟨j, hj⟩ := List.mem_iff_getElem?.mp ha
    exact h j a hj
  exact ⟨fun hmem => lt_irrefl _ (hall Key hmem), Or.inr (Or.inl hall)⟩

/-- The first iteration from the left end. -/
lemma loop_first (hS : 2 ≤ S) (hv : aSource[S / 2 - 1]? = some v) :
    loop aSource Key (fuel + 1) 0 ((S : ℤ) - 2) =
      if Key = v then .returned ((S / 2 - 1 : ℕ) : ℤ)
      else if v < Key then loop aSource Key fuel (((S / 2 - 1 : ℕ) : ℤ) + 1) ((S : ℤ) - 2)
      else loop aSource Key fuel 0 (((S / 2 - 1 : ℕ) : ℤ) - 1) :=
  loop_succ (by omega) (by omega) hv

/-- **The search goes to the right** if the element in the middle is less than the key, and ends
only where the interval was one element wide. -/
lemma ends_iff_lucky_right (hs : aSource.Pairwise (· ≤ ·)) (hS : 2 ≤ S)
    (hv : aSource[S / 2 - 1]? = some v) (hkey : v < Key)
    (habove : ∀ j v, S - 1 ≤ j → aSource[j]? = some v → Key < v) :
    Ends aSource Key 0 ((S : ℤ) - 2) ↔ Lucky aSource Key S := by
  have hbelow : ∀ j, j ≤ S / 2 - 1 → ∃ w, aSource[j]? = some w ∧ w < Key := by
    intro j hj
    have hlt := (List.getElem?_eq_some_iff.mp hv).1
    have hw := List.getElem?_eq_getElem (hj.trans_lt hlt)
    exact ⟨_, hw, (le_of_sorted hs hj hw hv).trans_lt hkey⟩
  have hright : Ends aSource Key 0 ((S : ℤ) - 2) ↔
      Ends aSource Key (((S / 2 - 1 : ℕ) : ℤ) + 1) ((S : ℤ) - 2) := by
    refine ends_iff fun fuel => ?_
    rw [loop_first hS hv, if_neg hkey.ne', if_pos hkey]
  rw [hright]
  rcases Nat.lt_or_ge S 3 with hS2 | hS3
  · obtain rfl : S = 2 := by omega
    have hsecond : Second aSource Key := by
      intro j w hw
      split_ifs with hj
      · subst hj
        obtain ⟨w', hw', hlt'⟩ := hbelow 0 (Nat.zero_le _)
        rw [hw, Option.some.injEq] at hw'
        omega
      · exact habove j w (by omega) hw
    refine iff_of_true (ends_of_empty (by decide) fun hmem => ?_)
      (Or.inr (Or.inr ⟨hsecond, 0, by decide⟩))
    obtain ⟨j, hj⟩ := List.mem_iff_getElem?.mp hmem
    have := hsecond j Key hj
    split_ifs at this <;> omega
  · refine iff_of_false ?_ ?_
    · rintro ⟨fuel, i, hi, -⟩
      rw [loop_running (fun j hj => hbelow j (by omega)) fuel _ (by omega) (by omega)] at hi
      simp at hi
    · rintro (⟨i, hi, heq⟩ | hall | ⟨hsecond, k, hk, hlt⟩)
      · -- the elements that the search may look at are less than the key
        have hle : S / 2 ^ i ≤ S / 2 := Nat.div_le_div_left (Nat.le_self_pow (by omega) 2) two_pos
        obtain ⟨w, hw, hwlt⟩ := hbelow (S / 2 ^ i - 1) (by omega)
        rw [heq, Option.some.injEq] at hw
        omega
      · exact lt_asymm hkey (hall v (List.mem_of_getElem? hv))
      · have hzero : S / 2 - 1 = 0 := by
          by_contra hne
          have := hsecond _ v hv
          rw [if_neg hne] at this
          omega
        cases k with
        | zero => omega
        | succ k =>
            have := Nat.one_le_two_pow (n := k)
            rw [Nat.pow_succ] at hk
            omega

/-- **The search to the left.** All elements behind the right end `S - 2` are greater than the
key. -/
theorem ends_iff_lucky (hs : aSource.Pairwise (· ≤ ·)) (hpos : 0 < aSource.length) : ∀ S, 1 ≤ S →
    S ≤ aSource.length + 2 → (∀ j v, S - 1 ≤ j → aSource[j]? = some v → Key < v) →
    (Ends aSource Key 0 ((S : ℤ) - 2) ↔ Lucky aSource Key S) := by
  intro S
  induction S using Nat.strong_induction_on with
  | _ S ih =>
      intro hS hlen habove
      rcases Nat.lt_or_ge S 2 with hS1 | hS2
      · obtain rfl : S = 1 := by omega
        obtain ⟨hnot, hlucky⟩ := below_all fun j v => habove j v (Nat.zero_le _)
        exact iff_of_true (ends_of_empty (by decide) hnot) hlucky
      obtain ⟨v, hv⟩ : ∃ v, aSource[S / 2 - 1]? = some v :=
        ⟨_, List.getElem?_eq_getElem (by omega)⟩
      rcases lt_trichotomy Key v with hkey | hkey | hkey
      · -- the element in the middle is greater
        have hleft : Ends aSource Key 0 ((S : ℤ) - 2) ↔
            Ends aSource Key 0 (((S / 2 : ℕ) : ℤ) - 2) := by
          refine ends_iff fun fuel => ?_
          rw [loop_first hS2 hv, if_neg hkey.ne, if_neg hkey.not_gt]
          congr 1
          omega
        have habove' : ∀ j w, S / 2 - 1 ≤ j → aSource[j]? = some w → Key < w := fun j w hj hw =>
          hkey.trans_le (le_of_sorted hs hj hv hw)
        rw [hleft, ih (S / 2) (by omega) (by omega) (by omega) habove']
        rcases Nat.lt_or_ge S 4 with hS3 | hS4
        · have hall : ∀ j w, aSource[j]? = some w → Key < w := fun j w => habove' j w (by omega)
          exact iff_of_true (below_all hall).2 (below_all hall).2
        · exact (lucky_half hS4 hv hkey).symm
      · -- it is the key
        subst hkey
        refine iff_of_true ⟨1, _, (loop_first hS2 hv).trans (if_pos rfl),
          fun _ => ⟨Int.natCast_nonneg _, ?_⟩,
          fun hnot => absurd (List.mem_of_getElem? hv) hnot⟩ (Or.inl ⟨1, le_rfl, ?_⟩)
        · rwa [Int.toNat_natCast]
        · rwa [Nat.pow_one]
      · exact ends_iff_lucky_right hs hS2 hv hkey habove

/-- **The keys that the search treats well**, in an array that is not empty: those at an index
`(Max + 2) / 2 ^ i - 1`, those that are less than all elements, and, if the two highest bits of
`Max + 2` are `10`, those between the first element and the second one. -/
theorem found_iff (hs : aSource.Pairwise (· ≤ ·)) : Found aSource Key ↔ aSource ≠ [] ∧
    ((∃ i, 1 ≤ i ∧ aSource[(aSource.length + 2) / 2 ^ i - 1]? = some Key) ∨
      (∀ a ∈ aSource, Key < a) ∨ Second aSource Key ∧ LeadsOne (aSource.length + 2)) := by
  by_cases hnil : aSource = []
  · subst hnil
    refine iff_of_false ?_ fun h => h.1 rfl
    rintro ⟨fuel, i, hi, -⟩
    cases fuel with
    | zero => simp [run, loop] at hi
    | succ fuel => simp [run, loop] at hi
  · have hend : ((aSource.length + 2 : ℕ) : ℤ) - 2 = aSource.length := by omega
    have habove : ∀ j v, aSource.length + 2 - 1 ≤ j → aSource[j]? = some v → Key < v := by
      intro j v hj hv
      obtain ⟨hlt, -⟩ := List.getElem?_eq_some_iff.mp hv
      omega
    have hiff := ends_iff_lucky hs (List.length_pos_iff.mpr hnil) (aSource.length + 2) (by omega)
      le_rfl habove
    rw [hend] at hiff
    exact ⟨fun h => ⟨hnil, hiff.mp h⟩, fun h => hiff.mpr h.2⟩

theorem found_iff_middle : Found [1, 3, 5, 7] 5 :=
  (found_iff (by decide)).mpr ⟨by decide, Or.inl ⟨1, le_rfl, rfl⟩⟩

/-- The search for the last one of three elements goes on for ever. -/
theorem not_found_last : ¬ Found [1, 3, 5] 5 := by
  have hright : ∀ fuel, loop [1, 3, 5] 5 fuel 2 3 = .running := fun fuel => by
    refine loop_running (fun j hj => ?_) fuel 2 (by decide) (by decide)
    have hj2 : j < 2 := by omega
    interval_cases j
    · exact ⟨1, rfl, by decide⟩
    · exact ⟨3, rfl, by decide⟩
  rintro ⟨fuel, i, hi, -⟩
  cases fuel with
  | zero => simp [run, loop] at hi
  | succ fuel =>
      have hstep : run [1, 3, 5] ([1, 3, 5] : List ℤ).length 5 (fuel + 1) =
          loop [1, 3, 5] 5 fuel 2 3 := rfl
      rw [hstep, hright] at hi
      simp at hi

end Search

end Search

end ChinaOS
