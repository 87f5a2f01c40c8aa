import Mathlib.Tactic
import Mathlib.Data.Nat.Digits.Lemmas

/-!
Numbers as lists of fields.

The digits of a number to the base `2 ^ w` are its fields of `w` bits, the lowest one first.

* `exists_ofDigits`: every number has fields. `ofDigits_zipWith_and`, `ofDigits_map_add`:
  operations on all fields at once.
* `ones n k`: how many of the lowest `k` bits of `n` are ones. `ones_ofDigits`: they can be
  counted field by field.
-/

namespace Pack

/-- How many of the lowest `k` bits of `n` are ones. -/
def ones (n k : ℕ) : ℕ := ∑ i ∈ Finset.range k, (n.testBit i).toNat

variable {w k n a b c : ℕ} {l m : List ℕ} {f g : ℕ → ℕ}

/-- **Every number has fields.** -/
theorem exists_ofDigits (hw : 0 < w) (hn : n < 2 ^ (w * k)) :
    ∃ l : List ℕ, l.length = k ∧ (∀ a ∈ l, a < 2 ^ w) ∧ Nat.ofDigits (2 ^ w) l = n := by
  rw [Nat.pow_mul] at hn
  obtain ⟨l, ⟨hlen, hl⟩, heq⟩ :=
    (Nat.bijOn_ofDigits (Nat.one_lt_two_pow hw.ne') k).surjOn hn
  exact ⟨l, hlen, hl, heq⟩

/-- The bits of the lowest field, and those above it. -/
lemma testBit_add (ha : a < 2 ^ w) (i : ℕ) :
    (a + 2 ^ w * b).testBit i = if i < w then a.testBit i else b.testBit (i - w) := by
  rw [Nat.add_comm, Nat.testBit_two_pow_mul_add b ha]

/-- **Masks.** Every field is masked by its own. -/
theorem ofDigits_zipWith_and : ∀ {l m : List ℕ}, l.length = m.length → (∀ a ∈ l, a < 2 ^ w) →
    (∀ c ∈ m, c < 2 ^ w) → Nat.ofDigits (2 ^ w) l &&& Nat.ofDigits (2 ^ w) m =
      Nat.ofDigits (2 ^ w) (List.zipWith (fun a c => a &&& c) l m) := by
  intro l
  induction l with
  | nil => exact fun _ _ _ => Nat.zero_and _
  | cons a l ih =>
      intro m hlen hl hm
      cases m with
      | nil => exact absurd hlen (Nat.succ_ne_zero _)
      | cons c m =>
          have ha := hl a List.mem_cons_self
          have hc := hm c List.mem_cons_self
          have hlt : a &&& c < 2 ^ w := lt_of_le_of_lt Nat.and_le_left ha
          rw [List.zipWith_cons_cons, Nat.ofDigits_cons, Nat.ofDigits_cons, Nat.ofDigits_cons,
            ← ih (Nat.succ.inj hlen) (fun b hb => hl b (List.mem_cons_of_mem a hb))
              fun b hb => hm b (List.mem_cons_of_mem c hb)]
          refine Nat.eq_of_testBit_eq fun i => ?_
          rw [Nat.testBit_and, testBit_add ha, testBit_add hc, testBit_add hlt]
          split_ifs
          · rw [Nat.testBit_and]
          · rw [Nat.testBit_and]

/-- The same mask for all fields. -/
theorem ofDigits_map_and (hc : c < 2 ^ w) (h : ∀ a ∈ l, a < 2 ^ w) :
    Nat.ofDigits (2 ^ w) l &&& Nat.ofDigits (2 ^ w) (List.replicate l.length c) =
      Nat.ofDigits (2 ^ w) (l.map fun a => a &&& c) := by
  rw [ofDigits_zipWith_and List.length_replicate.symm h fun b hb =>
    (List.eq_of_mem_replicate hb).symm ▸ hc]
  congr 1
  clear h
  induction l with
  | nil => rfl
  | cons a l ih =>
      rw [List.length_cons, List.replicate_succ, List.zipWith_cons_cons, ih, List.map_cons]

/-- **Sums.** The sum of two functions of the fields. -/
theorem ofDigits_map_add (f g : ℕ → ℕ) (l : List ℕ) :
    Nat.ofDigits b (l.map f) + Nat.ofDigits b (l.map g) =
      Nat.ofDigits b (l.map fun a => f a + g a) := by
  induction l with
  | nil => rfl
  | cons a l ih =>
      rw [List.map_cons, List.map_cons, List.map_cons, Nat.ofDigits_cons, Nat.ofDigits_cons,
        Nat.ofDigits_cons, ← ih]
      ring

/-- **The ones of a number** are those of its fields. -/
theorem ones_ofDigits : ∀ {l : List ℕ}, (∀ a ∈ l, a < 2 ^ w) →
    ones (Nat.ofDigits (2 ^ w) l) (w * l.length) = (l.map fun a => ones a w).sum := by
  intro l
  induction l with
  | nil => exact fun _ => rfl
  | cons a l ih =>
      intro h
      have ha := h a List.mem_cons_self
      rw [List.length_cons, Nat.mul_succ, Nat.add_comm, ones, Finset.sum_range_add, List.map_cons,
        List.sum_cons, ← ih fun b hb => h b (List.mem_cons_of_mem a hb), Nat.ofDigits_cons]
      congr 1
      · refine Finset.sum_congr rfl fun i hi => ?_
        rw [testBit_add ha, if_pos (Finset.mem_range.mp hi)]
      · refine Finset.sum_congr rfl fun i _ => ?_
        rw [testBit_add ha, if_neg (by omega), Nat.add_sub_cancel_left]

end Pack
