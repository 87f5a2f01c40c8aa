import Mathlib.Tactic

/-!
Records in a flat memory.

A record is named by its address, and its fields by their offsets. `own x o` says that the field
at the offset `o` belongs to the record `x`.

* `Apart`: no word belongs to two fields.
* `View`: a memory that differs from an earlier one in owned words only, and what the fields
  hold (`View.write`).
* `eq_some_of_erase`, `eq_some_of_update`: the entries of a partial map behind an edit.
-/

namespace Records

/-- No word of the memory belongs to two fields. -/
def Apart (own : ℕ → ℕ → Prop) : Prop :=
  ∀ x o y p, own x o → own y p → x + o = y + p → x = y ∧ o = p

/-- The field `o` of the record `x` gets the value `w`. -/
def setField (v : ℕ → ℕ → ℕ) (x o w : ℕ) : ℕ → ℕ → ℕ :=
  fun y p => if y = x ∧ p = o then w else v y p

/-- The fields of the memory `m` hold `v`, and its other words are those of `m₀`. -/
structure View (own : ℕ → ℕ → Prop) (m₀ m : ℕ → ℕ) (v : ℕ → ℕ → ℕ) : Prop where
  read : ∀ x o, own x o → m (x + o) = v x o
  frame : ∀ w, (∀ x o, own x o → w ≠ x + o) → m w = m₀ w

variable {own own' : ℕ → ℕ → Prop} {m₀ m m' : ℕ → ℕ} {v v' : ℕ → ℕ → ℕ} {x y o p w : ℕ}

@[simp] lemma setField_self : setField v x o w x o = w := if_pos ⟨rfl, rfl⟩

lemma setField_of_ne (h : y ≠ x) : setField v x o w y p = v y p := if_neg fun h' => h h'.1

lemma setField_of_offset_ne (h : p ≠ o) : setField v x o w y p = v y p := if_neg fun h' => h h'.2

lemma setField_same : setField v x o w y o = if y = x then w else v y o := by
  simp [setField]

namespace View

/-- Nothing is written yet. -/
lemma refl : View own m m fun x o => m (x + o) := ⟨fun _ _ _ => rfl, fun _ _ => rfl⟩

/-- **A field is written.** -/
theorem write (h : View own m₀ m v) (hapart : Apart own) (hown : own x o) :
    View own m₀ (Function.update m (x + o) w) (setField v x o w) := by
  refine ⟨fun y p hy => ?_, fun a ha => ?_⟩
  · rw [setField, Function.update_apply]
    by_cases he : y + p = x + o
    · rw [if_pos he, if_pos (hapart y p x o hy hown he)]
    · rw [if_neg he, if_neg fun h' => he (by rw [h'.1, h'.2])]
      exact h.read y p hy
  · rw [Function.update_of_ne (ha x o hown)]
    exact h.frame a ha

end View

/-! ### Partial maps -/

section PartialMap

variable {α β : Type*} [DecidableEq α] {F : α → Option β} {i j : α} {b c : β}

/-- What is left after one entry is erased was there before. -/
lemma eq_some_of_erase (h : Function.update F i none j = some b) : j ≠ i ∧ F j = some b := by
  rw [Function.update_apply] at h
  split_ifs at h with hj
  exact ⟨hj, h⟩

/-- An entry is the one that was added, or was there before. -/
lemma eq_some_of_update (h : Function.update F i (some c) j = some b) :
    (j = i ∧ c = b) ∨ (j ≠ i ∧ F j = some b) := by
  rw [Function.update_apply] at h
  split_ifs at h with hj
  · exact Or.inl ⟨hj, Option.some.inj h⟩
  · exact Or.inr ⟨hj, h⟩

lemma erase_of_none (h : F i = none) : Function.update F i none = F := by
  rw [← h, Function.update_eq_self]

end PartialMap

end Records
