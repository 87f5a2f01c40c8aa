import Mathlib.Tactic

/-!
Ring buffers of elements of `W` cells each, in a flat memory of cells.

A buffer is the cells `[base, base + L * W)`; position `x` of a counter that runs freely
stands for the element slot `x % L`. Up to `L` elements are moved in two copies, up to the
end of the buffer and from its beginning.

* `copy`: the memory after a copy of `n` cells.
* `copyIn`, `copyOut`: the two-part copies into and out of the buffer.
* `elem_copyIn_new`, `elem_copyIn_old`, `copyIn_of_outside`: what a copy into the buffer
  writes, which elements it leaves, and that it stays within the buffer.
* `elem_copyOut`, `copyOut_of_outside`: the same of a copy out of the buffer.
-/

namespace RingBuffer

variable {α : Type*}

/-- The memory after the `n` cells from `src` are copied to `dst`. -/
def copy (mem : ℕ → α) (dst src n : ℕ) : ℕ → α := fun a =>
  if dst ≤ a ∧ a < dst + n then mem (src + (a - dst)) else mem a

/-- Element `i` of an array of elements of `W` cells at `base`. -/
def elem (mem : ℕ → α) (base W i : ℕ) : List α :=
  (List.range W).map fun j => mem (base + i * W + j)

/-- The first `n` elements of an array of elements of `W` cells at `base`. -/
def elems (mem : ℕ → α) (base W n : ℕ) : List (List α) := (List.range n).map (elem mem base W)

/-- Copy `n` elements from `src` into the buffer, from position `x` on. -/
def copyIn (mem : ℕ → α) (base L W x src n : ℕ) : ℕ → α :=
  let s := min n (L - x % L)
  copy (copy mem (base + W * (x % L)) src (s * W)) base (src + s * W) ((n - s) * W)

/-- Copy `n` elements to `dst` out of the buffer, from position `x` on. -/
def copyOut (mem : ℕ → α) (base L W x dst n : ℕ) : ℕ → α :=
  let s := min n (L - x % L)
  copy (copy mem dst (base + W * (x % L)) (s * W)) (dst + s * W) base ((n - s) * W)

section Elements

variable {mem mem' : ℕ → α} {base base' L W x src dst n i j a s : ℕ}

lemma copy_of_inside (h1 : dst ≤ a) (h2 : a < dst + n) :
    copy mem dst src n a = mem (src + (a - dst)) := if_pos ⟨h1, h2⟩

lemma copy_of_outside (h : a < dst ∨ dst + n ≤ a) : copy mem dst src n a = mem a :=
  if_neg (by omega)

@[simp] lemma copy_zero : copy mem dst src 0 = mem :=
  funext fun _ => copy_of_outside (by omega)

@[simp] lemma length_elems : (elems mem base W n).length = n := by simp [elems]

@[simp] lemma getElem_elems (hi : i < (elems mem base W n).length) :
    (elems mem base W n)[i] = elem mem base W i := by simp [elems]

/-- Elements are equal when their cells are. -/
lemma elem_congr (h : ∀ j < W, mem' (base' + s * W + j) = mem (base + i * W + j)) :
    elem mem' base' W s = elem mem base W i :=
  List.map_congr_left fun j hj => h j (List.mem_range.mp hj)

/-- A cell of an element lies before the element `s` exactly when its element does. -/
lemma cell_lt_iff (hj : j < W) : i * W + j < s * W ↔ i < s := by
  constructor
  · intro h
    by_contra hle
    have := Nat.mul_le_mul_right W (Nat.le_of_not_lt hle)
    omega
  · intro h
    have := Nat.mul_le_mul_right W (Nat.succ_le_of_lt h)
    rw [Nat.succ_mul] at this
    omega

lemma le_cell_iff (hj : j < W) : s * W ≤ i * W + j ↔ s ≤ i := by
  have := cell_lt_iff (i := i) (s := s) hj
  omega

/-- The position of element `i` of `n` from `x` on, before or past the end of the buffer. -/
lemma add_mod_cases (hL : 0 < L) (hi : i < L) :
    (x + i) % L = if x % L + i < L then x % L + i else x % L + i - L := by
  rw [Nat.add_mod, Nat.mod_eq_of_lt hi]
  have := Nat.mod_lt x hL
  split_ifs with h
  · exact Nat.mod_eq_of_lt h
  · rw [Nat.mod_eq_sub_mod (by omega), Nat.mod_eq_of_lt (by omega)]

/-- Less than once around, positions are distinct slots. -/
lemma add_mod_inj (hL : 0 < L) (hi : i < L) (hj : j < L) (h : (x + i) % L = (x + j) % L) :
    i = j := by
  rw [add_mod_cases hL hi, add_mod_cases hL hj] at h
  have := Nat.mod_lt x hL
  split_ifs at h <;> omega

/-! ### Copying into the buffer -/

/-- A copy into the buffer stays within it. -/
lemma copyIn_of_outside (hL : 0 < L) (hn : n ≤ L) (ha : a < base ∨ base + L * W ≤ a) :
    copyIn mem base L W x src n a = mem a := by
  have hx := Nat.mod_lt x hL
  have h1 : (x % L) * W + min n (L - x % L) * W ≤ L * W := by
    rw [← Nat.add_mul]
    exact Nat.mul_le_mul_right W (by omega)
  have h2 : (n - min n (L - x % L)) * W ≤ L * W := Nat.mul_le_mul_right W (by omega)
  rw [Nat.mul_comm (x % L) W] at h1
  rw [copyIn, copy_of_outside (by omega), copy_of_outside (by omega)]

/-- The cell written last to the slot of element `i` is the source's. -/
lemma copyIn_cell (hL : 0 < L) (hn : n ≤ L) (hi : i < n) (hj : j < W)
    (hd : src + n * W ≤ base ∨ base + L * W ≤ src) :
    copyIn mem base L W x src n (base + (x + i) % L * W + j) = mem (src + i * W + j) := by
  have hx := Nat.mod_lt x hL
  have hiL : i < L := by omega
  have hslot := add_mod_cases (x := x) hL hiL
  have hin : i * W + j < n * W := (cell_lt_iff hj).mpr hi
  have hnL : n * W ≤ L * W := Nat.mul_le_mul_right W hn
  set s := min n (L - x % L) with hs
  rw [copyIn]
  simp only [← hs]
  by_cases h : x % L + i < L
  · -- the slot lies in the first part, beyond the end of the second
    rw [if_pos h] at hslot
    have his : i < s := by omega
    have hb : (x % L + i) * W = W * (x % L) + i * W := by ring
    have h1 : i * W + j < s * W := (cell_lt_iff hj).mpr his
    have h2 : (n - s) * W ≤ (x % L) * W := Nat.mul_le_mul_right W (by omega)
    rw [Nat.mul_comm (x % L) W] at h2
    rw [hslot, hb, copy_of_outside (by omega), copy_of_inside (by omega) (by omega)]
    congr 1
    omega
  · rw [if_neg h] at hslot
    have hsi : s ≤ i := by omega
    have hsx : s = L - x % L := by omega
    have hb : (x % L + i - L) * W + s * W = i * W := by
      rw [← Nat.add_mul]
      congr 1
      omega
    have h1 : (x % L + i - L) * W + j < (n - s) * W := (cell_lt_iff hj).mpr (by omega)
    have h2 : s * W ≤ i * W := Nat.mul_le_mul_right W hsi
    have h3 : (x % L) * W + s * W = L * W := by
      rw [← Nat.add_mul]
      congr 1
      omega
    rw [Nat.mul_comm (x % L) W] at h3
    rw [hslot, copy_of_inside (by omega) (by omega), copy_of_outside (by omega)]
    congr 1
    omega

/-- A copy into the buffer stores the source's elements in the slots from `x` on. -/
theorem elem_copyIn_new (hL : 0 < L) (hn : n ≤ L) (hi : i < n)
    (hd : src + n * W ≤ base ∨ base + L * W ≤ src) :
    elem (copyIn mem base L W x src n) base W ((x + i) % L) = elem mem src W i :=
  elem_congr fun _ hj => copyIn_cell hL hn hi hj hd

/-- A copy into the buffer leaves every other slot alone. -/
theorem elem_copyIn_old (hL : 0 < L) (hn : n ≤ L) (hs : s < L)
    (hne : ∀ i < n, s ≠ (x + i) % L) :
    elem (copyIn mem base L W x src n) base W s = elem mem base W s := by
  refine elem_congr fun j hj => ?_
  have hx := Nat.mod_lt x hL
  set m := min n (L - x % L) with hm
  have hfirst : s < x % L ∨ x % L + m ≤ s := by
    by_contra hcon
    refine hne (s - x % L) (by omega) ?_
    rw [add_mod_cases hL (by omega), if_pos (by omega)]
    omega
  have hsecond : n - m ≤ s := by
    by_contra hcon
    refine hne (s + m) (by omega) ?_
    rw [add_mod_cases hL (by omega), if_neg (by omega)]
    omega
  have h1 : s * W + j < (x % L) * W ∨ (x % L + m) * W ≤ s * W + j := by
    rcases hfirst with h | h
    · exact Or.inl ((cell_lt_iff hj).mpr h)
    · exact Or.inr ((le_cell_iff hj).mpr h)
  have h2 : (n - m) * W ≤ s * W + j := (le_cell_iff hj).mpr hsecond
  have hb : (x % L + m) * W = W * (x % L) + m * W := by ring
  rw [Nat.mul_comm (x % L) W] at h1
  rw [copyIn]
  simp only [← hm]
  rw [copy_of_outside (by omega), copy_of_outside (by omega)]

/-! ### Copying out of the buffer -/

/-- A copy out of the buffer writes its destination only. -/
lemma copyOut_of_outside (ha : a < dst ∨ dst + n * W ≤ a) :
    copyOut mem base L W x dst n a = mem a := by
  have h1 : min n (L - x % L) * W + (n - min n (L - x % L)) * W = n * W := by
    rw [← Nat.add_mul]
    congr 1
    omega
  rw [copyOut, copy_of_outside (by omega), copy_of_outside (by omega)]

/-- A copy out of the buffer delivers the elements of the slots from `x` on. -/
theorem elem_copyOut (hL : 0 < L) (hn : n ≤ L) (hi : i < n)
    (hd : dst + n * W ≤ base ∨ base + L * W ≤ dst) :
    elem (copyOut mem base L W x dst n) dst W i = elem mem base W ((x + i) % L) := by
  refine elem_congr fun j hj => ?_
  have hx := Nat.mod_lt x hL
  have hslot := add_mod_cases (x := x) hL (by omega : i < L)
  have hlt : (x + i) % L * W + j < L * W := (cell_lt_iff hj).mpr (Nat.mod_lt _ hL)
  set s := min n (L - x % L) with hs
  have hsn : s * W + (n - s) * W = n * W := by
    rw [← Nat.add_mul]
    congr 1
    omega
  rw [copyOut]
  simp only [← hs]
  by_cases h : x % L + i < L
  · rw [if_pos h] at hslot
    have h1 : i * W + j < s * W := (cell_lt_iff hj).mpr (by omega)
    have hb : (x % L + i) * W = W * (x % L) + i * W := by ring
    rw [copy_of_outside (by omega), copy_of_inside (by omega) (by omega), hslot, hb]
    congr 1
    omega
  · rw [if_neg h] at hslot
    have h1 : s * W ≤ i * W := Nat.mul_le_mul_right W (by omega)
    have h2 : i * W + j < n * W := (cell_lt_iff hj).mpr hi
    have hb : (x % L + i - L) * W + s * W = i * W := by
      rw [← Nat.add_mul]
      congr 1
      omega
    rw [hslot] at hlt ⊢
    rw [copy_of_inside (by omega) (by omega), copy_of_outside (by omega)]
    congr 1
    omega

end Elements

end RingBuffer
