import ChinaOS.Pack
import ChinaOS.Bit

/-!
`bit_count` of `library/bit/bit.c`.

* `groups_sum`: the first two lines add the two low bits of every group of three, and carry the
  high bit over into the next group.
* `toNat_bitCount`: the number of ones of a word.
-/

namespace ChinaOS

open Pack

/-- The low two bits of a group of three, added. -/
def low (g : ℕ) : ℕ := g % 2 + g / 2 % 2

/-- The high bit of a group of three. -/
def high (g : ℕ) : ℕ := g / 4

/-- The facts about one group. -/
lemma group_facts {g : ℕ} (hg : g < 8) : g &&& 2 = 2 * (g / 2 % 2) ∧
    g = (low g + 4 * high g) + g / 2 % 2 ∧ (low g + 4 * high g) &&& 4 = 4 * high g ∧
    low g ≤ 2 ∧ high g ≤ 1 ∧ ones g 3 = low g + high g := by
  interval_cases g <;> decide

/-- **The first two lines**, on any number of groups. -/
theorem groups_sum {l : List ℕ} (h : ∀ g ∈ l, g < 2 ^ 3) :
    let n := Nat.ofDigits (2 ^ 3) l
    let r := n - (n &&& Nat.ofDigits (2 ^ 3) (List.replicate l.length 2)) / 2
    r + (r &&& Nat.ofDigits (2 ^ 3) (List.replicate l.length 4)) =
      Nat.ofDigits (2 ^ 3) (l.map low) + 8 * Nat.ofDigits (2 ^ 3) (l.map high) := by
  dsimp only
  have hfacts : ∀ g ∈ l, _ := fun g hg => group_facts (h g hg)
  set D : List ℕ → ℕ := Nat.ofDigits (2 ^ 3)
  have hmid : D l &&& D (List.replicate l.length 2) = 2 * D (l.map fun g => g / 2 % 2) := by
    calc D l &&& D (List.replicate l.length 2) = D (l.map fun g => g &&& 2) :=
          ofDigits_map_and (by norm_num) h
      _ = D (l.map fun g => 2 * (g / 2 % 2)) :=
          congrArg D (List.map_congr_left fun g hg => (hfacts g hg).1)
      _ = 2 * D (l.map fun g => g / 2 % 2) := by
          rw [Nat.mul_ofDigits, List.map_map]
          rfl
  have hrest : D l = D (l.map fun g => low g + 4 * high g) + D (l.map fun g => g / 2 % 2) := by
    calc D l = D (l.map id) := by rw [List.map_id]
      _ = D (l.map fun g => (low g + 4 * high g) + g / 2 % 2) :=
          congrArg D (List.map_congr_left fun g hg => (hfacts g hg).2.1)
      _ = _ := (ofDigits_map_add _ _ l).symm
  have hfour : D (l.map fun g => 4 * high g) = 4 * D (l.map high) := by
    rw [Nat.mul_ofDigits, List.map_map]
    rfl
  have hhigh : D (l.map fun g => low g + 4 * high g) &&& D (List.replicate l.length 4) =
      4 * D (l.map high) := by
    have hlt : ∀ a ∈ l.map fun g => low g + 4 * high g, a < 2 ^ 3 := by
      intro a ha
      obtain ⟨g, hg, rfl⟩ := List.mem_map.mp ha
      obtain ⟨-, -, -, hlow, hhigh, -⟩ := hfacts g hg
      omega
    have hand := ofDigits_map_and (show 4 < 2 ^ 3 by norm_num) hlt
    rw [List.length_map, List.map_map] at hand
    calc _ = D (l.map ((fun a => a &&& 4) ∘ fun g => low g + 4 * high g)) := hand
      _ = D (l.map fun g => 4 * high g) :=
          congrArg D (List.map_congr_left fun g hg => (hfacts g hg).2.2.1)
      _ = _ := hfour
  have hsub : D l - (D l &&& D (List.replicate l.length 2)) / 2 =
      D (l.map fun g => low g + 4 * high g) := by
    rw [hmid, Nat.mul_div_cancel_left _ two_pos, hrest, Nat.add_sub_cancel]
  have hsplit : D (l.map fun g => low g + 4 * high g) =
      D (l.map low) + 4 * D (l.map high) := by
    rw [← hfour]
    exact (ofDigits_map_add _ _ l).symm
  rw [hsub, hhigh, hsplit]
  ring


/-! ### The sums of the groups -/

variable {s₀ s₁ s₂ s₃ s₄ s₅ s₆ s₇ s₈ s₉ s₁₀ : ℕ}

/-- **Groups of six.** Every group takes in the one above it, and the mask keeps every other
one. -/
lemma sixes_sum (h : ∀ s ∈ [s₀, s₁, s₂, s₃, s₄, s₅, s₆, s₇, s₈, s₉, s₁₀], s ≤ 3) :
    let r := Nat.ofDigits (2 ^ 3) [s₀, s₁, s₂, s₃, s₄, s₅, s₆, s₇, s₈, s₉, s₁₀]
    r + r / 2 ^ 3 < 2 ^ 32 ∧ (r + r / 2 ^ 3) &&& 0xc71c71c7 = (s₀ + s₁) + 2 ^ 6 * (s₂ + s₃) +
      2 ^ 12 * (s₄ + s₅) + 2 ^ 18 * (s₆ + s₇) + 2 ^ 24 * (s₈ + s₉) + 2 ^ 30 * s₁₀ := by
  simp only [List.forall_mem_cons] at h
  obtain ⟨h₀, h₁, h₂, h₃, h₄, h₅, h₆, h₇, h₈, h₉, h₁₀, -⟩ := h
  have hsum : ∀ r, r = Nat.ofDigits (2 ^ 3) [s₀, s₁, s₂, s₃, s₄, s₅, s₆, s₇, s₈, s₉, s₁₀] →
      r + r / 2 ^ 3 = Nat.ofDigits (2 ^ 3) [s₀ + s₁, s₁ + s₂, s₂ + s₃, s₃ + s₄, s₄ + s₅,
        s₅ + s₆, s₆ + s₇, s₇ + s₈, s₈ + s₉, s₉ + s₁₀, s₁₀] := by
    intro r hr
    simp only [Nat.ofDigits_cons, Nat.ofDigits_nil] at hr ⊢
    omega
  have hlt : ∀ u ∈ [s₀ + s₁, s₁ + s₂, s₂ + s₃, s₃ + s₄, s₄ + s₅, s₅ + s₆, s₆ + s₇, s₇ + s₈,
      s₈ + s₉, s₉ + s₁₀, s₁₀], u < 2 ^ 3 := by
    intro u hu
    simp only [List.mem_cons, List.not_mem_nil, or_false] at hu
    omega
  have hand := ofDigits_zipWith_and (w := 3) (m := [7, 0, 7, 0, 7, 0, 7, 0, 7, 0, 3])
    (by rfl) hlt
    (by decide)
  have hseven : ∀ a b, a ≤ 3 → b ≤ 3 → (a + b) &&& 7 = a + b := by
    intro a b ha hb
    exact (Nat.and_two_pow_sub_one_eq_mod (a + b) 3).trans (Nat.mod_eq_of_lt (by omega))
  have hthree : s₁₀ &&& 3 = s₁₀ :=
    (Nat.and_two_pow_sub_one_eq_mod s₁₀ 2).trans (Nat.mod_eq_of_lt (by omega))
  have hmask : Nat.ofDigits (2 ^ 3) [7, 0, 7, 0, 7, 0, 7, 0, 7, 0, 3] = 0xc71c71c7 := by
    decide
  intro r
  rw [hsum r rfl, ← hmask, hand]
  simp only [List.zipWith_cons_cons, List.zipWith_nil_right, Nat.and_zero, hthree,
    hseven _ _ h₀ h₁, hseven _ _ h₂ h₃, hseven _ _ h₄ h₅, hseven _ _ h₆ h₇, hseven _ _ h₈ h₉,
    Nat.ofDigits_cons, Nat.ofDigits_nil]
  omega

/-- **The last lines** add the fields of six bits. -/
lemma fields_sum (t₀ t₁ t₂ t₃ t₄ t₅ : ℕ) (h : ∀ t ∈ [t₀, t₁, t₂, t₃, t₄], t ≤ 6) (h₅ : t₅ ≤ 3) :
    let a := t₀ + 2 ^ 6 * t₁ + 2 ^ 12 * t₂ + 2 ^ 18 * t₃ + 2 ^ 24 * t₄ + 2 ^ 30 * t₅
    let b := a + a / 2 ^ 6
    let c := b + b / 2 ^ 12
    b < 2 ^ 32 ∧ c < 2 ^ 32 ∧ c + c / 2 ^ 24 < 2 ^ 32 ∧
      (c + c / 2 ^ 24) % 2 ^ 6 = t₀ + t₁ + t₂ + t₃ + t₄ + t₅ := by
  simp only [List.forall_mem_cons] at h
  obtain ⟨h₀, h₁, h₂, h₃, h₄, -⟩ := h
  intro a b c
  have hb : b = (t₀ + t₁) + 2 ^ 6 * (t₁ + t₂) + 2 ^ 12 * (t₂ + t₃) + 2 ^ 18 * (t₃ + t₄) +
      2 ^ 24 * (t₄ + t₅) + 2 ^ 30 * t₅ := by omega
  have hc : c = (t₀ + t₁ + t₂ + t₃) + 2 ^ 6 * (t₁ + t₂ + t₃ + t₄) +
      2 ^ 12 * (t₂ + t₃ + t₄ + t₅) + 2 ^ 18 * (t₃ + t₄ + t₅) + 2 ^ 24 * (t₄ + t₅) +
      2 ^ 30 * t₅ := by omega
  have hlast : c + c / 2 ^ 24 = (t₀ + t₁ + t₂ + t₃ + t₄ + t₅) +
      2 ^ 6 * (t₁ + t₂ + t₃ + t₄ + t₅) + 2 ^ 12 * (t₂ + t₃ + t₄ + t₅) +
      2 ^ 18 * (t₃ + t₄ + t₅) + 2 ^ 24 * (t₄ + t₅) + 2 ^ 30 * t₅ := by omega
  rw [hlast, hc, hb]
  clear hlast hc hb
  clear_value a b c
  exact ⟨by omega, by omega, by omega, by omega⟩

/-! ### The count -/

/-- A sum with its own shift, without a carry out of the word. -/
lemma toNat_add_shift {r : Int32U} {k : ℕ} (h : r.toNat + r.toNat / 2 ^ k < 2 ^ 32) :
    (r + r >>> k).toNat = r.toNat + r.toNat / 2 ^ k := by
  rw [BitVec.toNat_add, BitVec.toNat_ushiftRight, Nat.shiftRight_eq_div_pow, Nat.mod_eq_of_lt h]


/-- The last lines of `bit_count`, on what the first two leave. -/
lemma toNat_fields {r : Int32U} (h : ∀ s ∈ [s₀, s₁, s₂, s₃, s₄, s₅, s₆, s₇, s₈, s₉, s₁₀], s ≤ 3)
    (hr : r.toNat = Nat.ofDigits (2 ^ 3) [s₀, s₁, s₂, s₃, s₄, s₅, s₆, s₇, s₈, s₉, s₁₀]) :
    let a := (r + r >>> 3) &&& 0xc71c71c7#32
    let b := a + a >>> 6
    let c := b + b >>> 12
    ((c + c >>> 24) &&& 0x3F#32).toNat = s₀ + s₁ + s₂ + s₃ + s₄ + s₅ + s₆ + s₇ + s₈ + s₉ + s₁₀ := by
  intro a b c
  have hbounds := h
  simp only [List.forall_mem_cons] at hbounds
  have htwo : ∀ t ∈ [s₀ + s₁, s₂ + s₃, s₄ + s₅, s₆ + s₇, s₈ + s₉], t ≤ 6 := by
    intro t ht
    simp only [List.mem_cons, List.not_mem_nil, or_false] at ht
    omega
  obtain ⟨hlt, hand⟩ := sixes_sum h
  obtain ⟨hb, hc, hlast, hmod⟩ := fields_sum _ _ _ _ _ s₁₀ htwo (h s₁₀ (by simp))
  rw [← hr] at hlt hand
  have ha : a.toNat = (r.toNat + r.toNat / 2 ^ 3) &&& 0xc71c71c7 := by
    rw [← toNat_add_shift hlt]
    exact BitVec.toNat_and _ _
  rw [← hand, ← ha] at hb hc hlast hmod
  have hbv : b.toNat = a.toNat + a.toNat / 2 ^ 6 := toNat_add_shift hb
  rw [← hbv] at hc hlast hmod
  have hcv : c.toNat = b.toNat + b.toNat / 2 ^ 12 := toNat_add_shift hc
  rw [← hcv] at hlast hmod
  have hsix : ∀ n, n &&& 0x3F = n % 2 ^ 6 := fun n => Nat.and_two_pow_sub_one_eq_mod n 6
  calc ((c + c >>> 24) &&& 0x3F#32).toNat = (c.toNat + c.toNat / 2 ^ 24) &&& 0x3F := by
        rw [← toNat_add_shift hlast]
        exact BitVec.toNat_and _ _
    _ = _ := by
        rw [hsix, hmod]
        ring

/-- The number of ones of a word. -/
lemma ones_eq_card (x : Int32U) (k : ℕ) :
    ones x.toNat k = ((Finset.range k).filter fun i => x.getLsbD i = true).card := by
  rw [Finset.card_filter]
  refine Finset.sum_congr rfl fun i _ => ?_
  rw [BitVec.testBit_toNat]
  cases x.getLsbD i with
  | false => rfl
  | true => rfl

/-- The masks of `bit_count`, as groups of three bits: the middle bits, and the high bits, of
which the word has no bit of the last group. -/
lemma toNat_two {x : Int32U} : (x &&& (0x49249249#32 <<< 1)).toNat =
    x.toNat &&& Nat.ofDigits (2 ^ 3) (List.replicate 11 2) := by
  rw [BitVec.toNat_and]
  exact congrArg (x.toNat &&& ·) (by decide)

lemma toNat_four {x : Int32U} : (x &&& (0x49249249#32 >>> 1)).toNat =
    x.toNat &&& Nat.ofDigits (2 ^ 3) (List.replicate 11 4) := by
  have hword : x.toNat &&& (2 ^ 32 - 1) = x.toNat :=
    (Nat.and_two_pow_sub_one_eq_mod _ 32).trans (Nat.mod_eq_of_lt x.isLt)
  calc (x &&& (0x49249249#32 >>> 1)).toNat
      = x.toNat &&& ((2 ^ 32 - 1) &&& Nat.ofDigits (2 ^ 3) (List.replicate 11 4)) := by
        rw [BitVec.toNat_and]
        exact congrArg (x.toNat &&& ·) (by decide)
    _ = _ := by rw [← Nat.and_assoc, hword]

/-- The first two lines of `bit_count` on a word of eleven groups. -/
lemma toNat_groups {x : Int32U} {l : List ℕ} (hlen : l.length = 11) (h : ∀ g ∈ l, g < 2 ^ 3)
    (hx : Nat.ofDigits (2 ^ 3) l = x.toNat)
    (hlt : Nat.ofDigits (2 ^ 3) (l.map low) + 8 * Nat.ofDigits (2 ^ 3) (l.map high) < 2 ^ 32) :
    let r := x - ((x &&& (0x49249249#32 <<< 1)) >>> 1)
    (r + (r &&& (0x49249249#32 >>> 1))).toNat =
      Nat.ofDigits (2 ^ 3) (l.map low) + 8 * Nat.ofDigits (2 ^ 3) (l.map high) := by
  intro r
  have hsum := groups_sum h
  have hhalf : ((x &&& (0x49249249#32 <<< 1)) >>> 1).toNat =
      (x.toNat &&& Nat.ofDigits (2 ^ 3) (List.replicate 11 2)) / 2 := by
    rw [BitVec.toNat_ushiftRight, toNat_two, Nat.shiftRight_one]
  have hle : ((x &&& (0x49249249#32 <<< 1)) >>> 1).toNat ≤ x.toNat := by
    rw [hhalf]
    exact (Nat.div_le_self _ _).trans Nat.and_le_left
  have hr : r.toNat = x.toNat - (x.toNat &&& Nat.ofDigits (2 ^ 3) (List.replicate 11 2)) / 2 := by
    rw [← hhalf]
    exact BitVec.toNat_sub_of_le hle
  rw [hlen, hx] at hsum
  dsimp only at hsum
  rw [← hr] at hsum
  rw [BitVec.toNat_add, toNat_four, hsum, Nat.mod_eq_of_lt hlt]

/-- The count of the groups of a word. -/
lemma toNat_bitCount_groups {x : Int32U} {g₀ g₁ g₂ g₃ g₄ g₅ g₆ g₇ g₈ g₉ g₁₀ : ℕ}
    (h : ∀ g ∈ [g₀, g₁, g₂, g₃, g₄, g₅, g₆, g₇, g₈, g₉, g₁₀], g < 2 ^ 3)
    (hx : Nat.ofDigits (2 ^ 3) [g₀, g₁, g₂, g₃, g₄, g₅, g₆, g₇, g₈, g₉, g₁₀] = x.toNat) :
    (bitCount x).toNat =
      ([g₀, g₁, g₂, g₃, g₄, g₅, g₆, g₇, g₈, g₉, g₁₀].map fun g => ones g 3).sum := by
  have hlow : ∀ g ∈ [g₀, g₁, g₂, g₃, g₄, g₅, g₆, g₇, g₈, g₉, g₁₀], low g ≤ 2 ∧ high g ≤ 1 ∧
      ones g 3 = low g + high g := fun g hg => (group_facts (h g hg)).2.2.2
  have htop : high g₁₀ = 0 := by
    have hlt := x.isLt
    rw [← hx] at hlt
    simp only [Nat.ofDigits_cons, Nat.ofDigits_nil] at hlt
    rw [high]
    omega
  have hle : ∀ g ∈ [g₀, g₁, g₂, g₃, g₄, g₅, g₆, g₇, g₈, g₉, g₁₀], low g ≤ 2 :=
    fun g hg => (hlow g hg).1
  have hcarry : ∀ g ∈ [g₀, g₁, g₂, g₃, g₄, g₅, g₆, g₇, g₈, g₉, g₁₀], high g ≤ 1 :=
    fun g hg => (hlow g hg).2.1
  simp only [List.forall_mem_cons] at hle hcarry
  have hdigits : ∀ s ∈ [low g₀, low g₁ + high g₀, low g₂ + high g₁, low g₃ + high g₂,
      low g₄ + high g₃, low g₅ + high g₄, low g₆ + high g₅, low g₇ + high g₆, low g₈ + high g₇,
      low g₉ + high g₈, low g₁₀ + high g₉], s ≤ 3 := by
    intro s hs
    simp only [List.mem_cons, List.not_mem_nil, or_false] at hs
    omega
  have hcarried : Nat.ofDigits (2 ^ 3) ([g₀, g₁, g₂, g₃, g₄, g₅, g₆, g₇, g₈, g₉, g₁₀].map low) +
      8 * Nat.ofDigits (2 ^ 3) ([g₀, g₁, g₂, g₃, g₄, g₅, g₆, g₇, g₈, g₉, g₁₀].map high) =
      Nat.ofDigits (2 ^ 3) [low g₀, low g₁ + high g₀, low g₂ + high g₁, low g₃ + high g₂,
        low g₄ + high g₃, low g₅ + high g₄, low g₆ + high g₅, low g₇ + high g₆, low g₈ + high g₇,
        low g₉ + high g₈, low g₁₀ + high g₉] := by
    simp only [List.map_cons, List.map_nil, Nat.ofDigits_cons, Nat.ofDigits_nil, htop]
    ring
  have hlt := (sixes_sum hdigits).1
  have hr := toNat_groups rfl h hx (by rw [hcarried]; omega)
  rw [hcarried] at hr
  have hcount : (bitCount x).toNat = _ := toNat_fields hdigits hr
  have hones : ∀ g ∈ [g₀, g₁, g₂, g₃, g₄, g₅, g₆, g₇, g₈, g₉, g₁₀], ones g 3 = low g + high g :=
    fun g hg => (hlow g hg).2.2
  rw [hcount, List.map_congr_left hones]
  simp only [List.map_cons, List.map_nil, List.sum_cons, List.sum_nil, htop]
  ring


/-- The fields of a list of eleven. -/
lemma exists_eleven {l : List ℕ} (h : l.length = 11) : ∃ g₀ g₁ g₂ g₃ g₄ g₅ g₆ g₇ g₈ g₉ g₁₀,
    l = [g₀, g₁, g₂, g₃, g₄, g₅, g₆, g₇, g₈, g₉, g₁₀] := by
  match l, h with
  | [g₀, g₁, g₂, g₃, g₄, g₅, g₆, g₇, g₈, g₉, g₁₀], _ => exact ⟨_, _, _, _, _, _, _, _, _, _, _, rfl⟩

/-- **The count of `bit_count`**. -/
theorem toNat_bitCount (x : Int32U) : (bitCount x).toNat = ones x.toNat 32 := by
  have hx := x.isLt
  obtain ⟨l, hlen, hl, hn⟩ := exists_ofDigits (w := 3) (k := 11) (by norm_num)
    (lt_trans hx (by norm_num))
  have hones : ones x.toNat 32 = (l.map fun g => ones g 3).sum := by
    have htop : ones x.toNat 33 = ones x.toNat 32 + (x.toNat.testBit 32).toNat :=
      Finset.sum_range_succ _ 32
    have hfields := ones_ofDigits hl
    rw [hn, hlen] at hfields
    rw [← hfields, htop, Nat.testBit_lt_two_pow hx, Bool.toNat_false, Nat.add_zero]
  rw [hones]
  obtain ⟨g₀, g₁, g₂, g₃, g₄, g₅, g₆, g₇, g₈, g₉, g₁₀, rfl⟩ := exists_eleven hlen
  exact toNat_bitCount_groups hl hn

end ChinaOS
