import Mathlib.Tactic

/-!
Banks of addresses cut into pieces.

A bank is an interval `[b.1, b.2)`; a piece of size `n` at `a` covers `[a, a + n)`. The pieces
are given by a partial map from their first addresses.

* `IsTiling`: the pieces cover the banks without a gap and do not overlap.
* `IsTiling.walk`: from piece to piece one comes from the start of a bank to its end, past all its
  pieces.
* `IsTiling.mark`, `IsTiling.split`, `IsTiling.merge`: the edits; `IsTiling.addBank`: one more
  bank.
-/

namespace Tiling

/-- A piece: how long it is, and whether it is in use. -/
structure Piece where
  size : ℕ
  used : Bool
  deriving DecidableEq

/-- The pieces tile the banks, which are apart from each other. -/
structure IsTiling (B : Set (ℕ × ℕ)) (c : ℕ → Option Piece) : Prop where
  banks : ∀ b ∈ B, ∀ b' ∈ B, b ≠ b' → b.2 < b'.1 ∨ b'.2 < b.1
  nonempty : ∀ b ∈ B, b.1 < b.2
  pos : ∀ a t, c a = some t → 0 < t.size
  inside : ∀ a t, c a = some t → ∃ b ∈ B, b.1 ≤ a ∧ a + t.size ≤ b.2
  start : ∀ b ∈ B, (c b.1).isSome
  next : ∀ b ∈ B, ∀ a t, c a = some t → b.1 ≤ a → a < b.2 →
    a + t.size = b.2 ∨ (c (a + t.size)).isSome
  apart : ∀ a a' t t', c a = some t → c a' = some t' → a < a' → a + t.size ≤ a'

namespace IsTiling

variable {B : Set (ℕ × ℕ)} {c : ℕ → Option Piece} {a a' k : ℕ} {t t' : Piece} {b b' : ℕ × ℕ}
  {u u' : Bool}

/-- Two banks with an address in common are the same. -/
lemma bank_unique (h : IsTiling B c) (hb : b ∈ B) (hb' : b' ∈ B) (h₁ : b.1 ≤ a) (h₂ : a ≤ b.2)
    (h₁' : b'.1 ≤ a) (h₂' : a ≤ b'.2) : b = b' := by
  by_contra hne
  rcases h.banks b hb b' hb' hne with hlt | hlt <;> omega

/-- A piece that begins in a bank ends in it. -/
lemma le_end (h : IsTiling B c) (hb : b ∈ B) (ha : c a = some t) (h₁ : b.1 ≤ a) (h₂ : a < b.2) :
    a + t.size ≤ b.2 := by
  obtain ⟨b', hb', h₁', h₂'⟩ := h.inside a t ha
  rw [h.bank_unique hb hb' h₁ h₂.le h₁' (by omega)]
  exact h₂'

/-- Where a piece ends, there is a piece of the same bank or the bank ends. -/
lemma next_cases (h : IsTiling B c) (ha : c a = some t) :
    ∃ b ∈ B, b.1 ≤ a ∧ a + t.size ≤ b.2 ∧
      (a + t.size = b.2 ∨ ∃ t', c (a + t.size) = some t' ∧ a + t.size + t'.size ≤ b.2) := by
  obtain ⟨b, hb, h₁, h₂⟩ := h.inside a t ha
  have hpos := h.pos a t ha
  refine ⟨b, hb, h₁, h₂, ?_⟩
  rcases h.next b hb a t ha h₁ (by omega) with he | hs
  · exact Or.inl he
  · obtain ⟨t', ht'⟩ := Option.isSome_iff_exists.mp hs
    have hpos' := h.pos _ t' ht'
    by_cases he : a + t.size = b.2
    · exact Or.inl he
    · exact Or.inr ⟨t', ht', h.le_end hb ht' (by omega) (by omega)⟩

/-- Nothing begins inside a piece. -/
lemma none_inside (h : IsTiling B c) (ha : c a = some t) (h₁ : a < a') (h₂ : a' < a + t.size) :
    c a' = none := by
  by_contra hne
  obtain ⟨t', ht'⟩ := Option.ne_none_iff_exists'.mp hne
  have := h.apart a a' t t' ha ht' h₁
  omega

/-- A piece does not begin where a bank ends. -/
lemma ne_end (h : IsTiling B c) (ha : c a = some t) (hb : b ∈ B) : a ≠ b.2 := by
  rintro rfl
  obtain ⟨b', hb', h₁, h₂⟩ := h.inside _ t ha
  have hpos := h.pos _ t ha
  have heq := h.bank_unique hb hb' (h.nonempty b hb).le le_rfl h₁ (by omega)
  subst heq
  omega

/-! ### The walk -/

/-- The walk from a piece of a bank. -/
lemma walk_from (h : IsTiling B c) {f : ℕ → ℕ} (hf : ∀ a t, c a = some t → f a = a + t.size)
    (hb : b ∈ B) : ∀ m a t, b.2 - a ≤ m → c a = some t → b.1 ≤ a → a < b.2 →
      ∃ n, f^[n] a = b.2 ∧ (∀ k < n, (c (f^[k] a)).isSome ∧ f^[k] a < b.2) ∧
        ∀ a' t', c a' = some t' → a ≤ a' → a' < b.2 → ∃ k < n, f^[k] a = a' := by
  intro m
  induction m with
  | zero => intro a t hm _ _ hlt; omega
  | succ m ih =>
      intro a t hm ha h₁ hlt
      have hpos := h.pos a t ha
      have hstep : f a = a + t.size := hf a t ha
      have hsome : (c a).isSome := by rw [ha]; rfl
      by_cases he : a + t.size = b.2
      · refine ⟨1, by rw [Function.iterate_one, hstep, he], fun k hk => ?_, fun a' t' ha' hle hlt' =>
          ⟨0, one_pos, ?_⟩⟩
        · obtain rfl : k = 0 := by omega
          exact ⟨hsome, hlt⟩
        · by_contra hne
          have hne' : a ≠ a' := hne
          have := h.apart a a' t t' ha ha' (by omega)
          omega
      · have hle := h.le_end hb ha h₁ hlt
        obtain ⟨t₁, ht₁⟩ := Option.isSome_iff_exists.mp
          ((h.next b hb a t ha h₁ hlt).resolve_left he)
        obtain ⟨n, hn, hall, hcover⟩ := ih (a + t.size) t₁ (by omega) ht₁ (by omega) (by omega)
        refine ⟨n + 1, by rw [Function.iterate_succ_apply, hstep, hn], fun k hk => ?_,
          fun a' t' ha' hle' hlt' => ?_⟩
        · cases k with
          | zero => exact ⟨hsome, hlt⟩
          | succ k =>
              rw [Function.iterate_succ_apply, hstep]
              exact hall k (by omega)
        · by_cases haa : a = a'
          · exact ⟨0, by omega, haa⟩
          · obtain ⟨k, hk, hka⟩ := hcover a' t' ha' (h.apart a a' t t' ha ha' (by omega)) hlt'
            exact ⟨k + 1, by omega, by rw [Function.iterate_succ_apply, hstep, hka]⟩

/-- **The walk through a bank** ends exactly at its end and meets its pieces and nothing
else. -/
theorem walk (h : IsTiling B c) {f : ℕ → ℕ} (hf : ∀ a t, c a = some t → f a = a + t.size)
    (hb : b ∈ B) : ∃ n, f^[n] b.1 = b.2 ∧
      ∀ a, (∃ k < n, f^[k] b.1 = a) ↔ (c a).isSome ∧ b.1 ≤ a ∧ a < b.2 := by
  obtain ⟨t, ht⟩ := Option.isSome_iff_exists.mp (h.start b hb)
  obtain ⟨n, hn, hall, hcover⟩ := h.walk_from hf hb _ b.1 t le_rfl ht le_rfl (h.nonempty b hb)
  refine ⟨n, hn, fun a => ⟨?_, fun ⟨hs, h₁, h₂⟩ => ?_⟩⟩
  · rintro ⟨k, hk, rfl⟩
    refine ⟨(hall k hk).1, ?_, (hall k hk).2⟩
    -- the walk only goes up
    clear hcover hn
    induction k with
    | zero => exact le_rfl
    | succ k ih =>
        obtain ⟨t', ht'⟩ := Option.isSome_iff_exists.mp (hall k (by omega)).1
        rw [Function.iterate_succ_apply', hf _ t' ht']
        exact le_add_right (ih (by omega))
  · obtain ⟨t', ht'⟩ := Option.isSome_iff_exists.mp hs
    exact hcover a t' ht' h₁ h₂

/-- A piece begins a bank or where another piece ends. -/
lemma prev_cases (h : IsTiling B c) (ha : c a = some t) :
    (∃ b ∈ B, b.1 = a) ∨ ∃ a' t', c a' = some t' ∧ a' + t'.size = a := by
  obtain ⟨b, hb, h₁, h₂⟩ := h.inside a t ha
  have hpos := h.pos a t ha
  have hf : ∀ x y, c x = some y → x + ((c x).map Piece.size).getD 0 = x + y.size := by
    intro x y hxy
    rw [hxy]
    rfl
  obtain ⟨n, -, hiff⟩ := h.walk hf hb
  obtain ⟨k, hk, hka⟩ := (hiff a).mpr ⟨by rw [ha]; rfl, h₁, by omega⟩
  cases k with
  | zero => exact Or.inl ⟨b, hb, hka⟩
  | succ k =>
      obtain ⟨t', ht'⟩ := Option.isSome_iff_exists.mp ((hiff _).mp ⟨k, by omega, rfl⟩).1
      rw [Function.iterate_succ_apply', hf _ t' ht'] at hka
      exact Or.inr ⟨_, t', ht', hka⟩

/-! ### The edits -/

/-- **A piece changes its mark.** -/
theorem mark (h : IsTiling B c) (ha : c a = some t) :
    IsTiling B (Function.update c a (some ⟨t.size, u⟩)) := by
  have hsize : ∀ x y, Function.update c a (some ⟨t.size, u⟩) x = some y →
      ∃ z, c x = some z ∧ z.size = y.size := by
    intro x y hxy
    rw [Function.update_apply] at hxy
    split_ifs at hxy with hx
    · rw [Option.some.injEq] at hxy
      exact ⟨t, hx ▸ ha, by rw [← hxy]⟩
    · exact ⟨y, hxy, rfl⟩
  have hsome : ∀ x, (c x).isSome → (Function.update c a (some ⟨t.size, u⟩) x).isSome := by
    intro x hx
    rw [Function.update_apply]
    split_ifs
    · rfl
    · exact hx
  refine ⟨h.banks, h.nonempty, fun x y hxy => ?_, fun x y hxy => ?_, fun b hb => hsome _ (h.start b hb),
    fun b hb x y hxy h₁ h₂ => ?_, fun x x' y y' hxy hxy' hlt => ?_⟩
  · obtain ⟨z, hz, he⟩ := hsize x y hxy
    exact he ▸ h.pos x z hz
  · obtain ⟨z, hz, he⟩ := hsize x y hxy
    exact he ▸ h.inside x z hz
  · obtain ⟨z, hz, he⟩ := hsize x y hxy
    rw [← he]
    exact (h.next b hb x z hz h₁ h₂).imp_right (hsome _)
  · obtain ⟨z, hz, he⟩ := hsize x y hxy
    obtain ⟨z', hz', -⟩ := hsize x' y' hxy'
    exact he ▸ h.apart x x' z z' hz hz' hlt

/-- **A piece is cut in two.** -/
theorem split (h : IsTiling B c) (ha : c a = some t) (hk : 0 < k) (hkt : k < t.size) :
    IsTiling B (Function.update (Function.update c a (some ⟨k, u⟩)) (a + k)
      (some ⟨t.size - k, u'⟩)) := by
  set c' := Function.update (Function.update c a (some ⟨k, u⟩)) (a + k) (some ⟨t.size - k, u'⟩)
    with hc'
  have hval : ∀ x y, c' x = some y → (x = a ∧ y.size = k) ∨ (x = a + k ∧ y.size = t.size - k) ∨
      (x ≠ a ∧ x ≠ a + k ∧ c x = some y) := by
    intro x y hxy
    rw [hc', Function.update_apply, Function.update_apply] at hxy
    split_ifs at hxy with h1 h2
    · rw [Option.some.injEq] at hxy
      exact Or.inr (Or.inl ⟨h1, by rw [← hxy]⟩)
    · rw [Option.some.injEq] at hxy
      exact Or.inl ⟨h2, by rw [← hxy]⟩
    · exact Or.inr (Or.inr ⟨h2, h1, hxy⟩)
  have hsome : ∀ x, (c x).isSome ∨ x = a + k → (c' x).isSome := by
    intro x hx
    rw [hc', Function.update_apply, Function.update_apply]
    split_ifs with h1 h2
    · rfl
    · rfl
    · exact hx.resolve_right h1
  obtain ⟨b₀, hb₀, h₁₀, h₂₀⟩ := h.inside a t ha
  refine ⟨h.banks, h.nonempty, fun x y hxy => ?_, fun x y hxy => ?_, fun b hb => hsome _ (Or.inl (h.start b hb)),
    fun b hb x y hxy h₁ h₂ => ?_, fun x x' y y' hxy hxy' hlt => ?_⟩
  · rcases hval x y hxy with ⟨-, hy⟩ | ⟨-, hy⟩ | ⟨-, -, hy⟩
    · omega
    · omega
    · exact h.pos x y hy
  · rcases hval x y hxy with ⟨rfl, hy⟩ | ⟨rfl, hy⟩ | ⟨-, -, hy⟩
    · exact ⟨b₀, hb₀, h₁₀, by omega⟩
    · exact ⟨b₀, hb₀, by omega, by omega⟩
    · exact h.inside x y hy
  · rcases hval x y hxy with ⟨rfl, hy⟩ | ⟨rfl, hy⟩ | ⟨-, -, hy⟩
    · exact Or.inr (hsome _ (Or.inr (by rw [hy])))
    · -- the second part ends where the whole did
      have hbb := h.bank_unique hb hb₀ h₁ h₂.le (by omega) (by omega)
      subst hbb
      rw [show a + k + y.size = a + t.size by omega]
      exact (h.next b hb a t ha h₁₀ (by omega)).imp_right fun hs => hsome _ (Or.inl hs)
    · exact (h.next b hb x y hy h₁ h₂).imp_right fun hs => hsome _ (Or.inl hs)
  · rcases hval x y hxy with ⟨rfl, hy⟩ | ⟨rfl, hy⟩ | ⟨hx, hx', hy⟩ <;>
      rcases hval x' y' hxy' with ⟨rfl, hy'⟩ | ⟨rfl, hy'⟩ | ⟨hx₁, hx₁', hy'⟩
    · omega
    · omega
    · have := h.apart _ x' t y' ha hy' hlt
      omega
    · omega
    · omega
    · have := h.apart a x' t y' ha hy' (by omega)
      omega
    · exact h.apart x _ y t hy ha hlt
    · rcases Nat.lt_trichotomy x a with hxa | hxa | hxa
      · have := h.apart x a y t hy ha hxa
        omega
      · exact absurd hxa hx
      · have := h.apart a x t y ha hy hxa
        omega
    · exact h.apart x x' y y' hy hy' hlt

/-- **Two neighbours become one piece.** -/
theorem merge (h : IsTiling B c) (ha : c a = some t) (ha' : c (a + t.size) = some t') :
    IsTiling B (Function.update (Function.update c (a + t.size) none) a
      (some ⟨t.size + t'.size, u⟩)) := by
  set c' := Function.update (Function.update c (a + t.size) none) a (some ⟨t.size + t'.size, u⟩)
    with hc'
  have hpos := h.pos a t ha
  have hpos' := h.pos _ t' ha'
  have hval : ∀ x y, c' x = some y → (x = a ∧ y.size = t.size + t'.size) ∨
      (x ≠ a ∧ x ≠ a + t.size ∧ c x = some y) := by
    intro x y hxy
    rw [hc', Function.update_apply, Function.update_apply] at hxy
    split_ifs at hxy with h1 h2
    · rw [Option.some.injEq] at hxy
      exact Or.inl ⟨h1, by rw [← hxy]⟩
    · exact Or.inr ⟨h1, h2, hxy⟩
  have hsome : ∀ x, (c x).isSome → x ≠ a + t.size → (c' x).isSome := by
    intro x hx hne
    rw [hc', Function.update_apply, Function.update_apply, if_neg hne]
    split_ifs
    · rfl
    · exact hx
  -- the two pieces lie in the same bank
  obtain ⟨b₀, hb₀, h₁₀, h₂₀⟩ := h.inside a t ha
  obtain ⟨b₁, hb₁, h₁₁, h₂₁⟩ := h.inside _ t' ha'
  have heq := h.bank_unique hb₀ hb₁ (a := a + t.size) (by omega) h₂₀ h₁₁ (by omega)
  subst heq
  refine ⟨h.banks, h.nonempty, fun x y hxy => ?_, fun x y hxy => ?_, fun b hb => hsome _ (h.start b hb) ?_,
    fun b hb x y hxy h₁ h₂ => ?_, fun x x' y y' hxy hxy' hlt => ?_⟩
  · rcases hval x y hxy with ⟨-, hy⟩ | ⟨-, -, hy⟩
    · omega
    · exact h.pos x y hy
  · rcases hval x y hxy with ⟨rfl, hy⟩ | ⟨-, -, hy⟩
    · exact ⟨b₀, hb₀, h₁₀, by omega⟩
    · exact h.inside x y hy
  · intro he
    have hbb := h.bank_unique hb hb₀ le_rfl (h.nonempty b hb).le (by omega) (by omega)
    subst hbb
    omega
  · rcases hval x y hxy with ⟨rfl, hy⟩ | ⟨hx, hx', hy⟩
    · have hbb := h.bank_unique hb hb₀ h₁ h₂.le h₁₀ (by omega)
      subst hbb
      rw [hy, ← Nat.add_assoc]
      refine (h.next b hb _ t' ha' (by omega) (by omega)).imp_right fun hs => hsome _ hs ?_
      omega
    · refine (h.next b hb x y hy h₁ h₂).imp_right fun hs => hsome _ hs fun he => ?_
      -- only the first piece ends where the second begins
      have hypos := h.pos x y hy
      rcases Nat.lt_trichotomy x a with hxa | hxa | hxa
      · have := h.apart x a y t hy ha hxa
        omega
      · exact hx hxa
      · have := h.apart a x t y ha hy hxa
        omega
  · rcases hval x y hxy with ⟨rfl, hy⟩ | ⟨hx, hx', hy⟩ <;>
      rcases hval x' y' hxy' with ⟨rfl, hy'⟩ | ⟨hx₁, hx₁', hy'⟩
    · omega
    · have h1 := h.apart x x' t y' ha hy' hlt
      have h2 := h.apart _ x' t' y' ha' hy' (by omega)
      omega
    · exact h.apart x _ y t hy ha hlt
    · exact h.apart x x' y y' hy hy' hlt

/-- **One more bank**, which is one piece. -/
theorem addBank (h : IsTiling B c) (hb : b.1 < b.2)
    (hapart : ∀ b' ∈ B, b.2 < b'.1 ∨ b'.2 < b.1) :
    IsTiling (insert b B) (Function.update c b.1 (some ⟨b.2 - b.1, u⟩)) := by
  have hval : ∀ x y, Function.update c b.1 (some ⟨b.2 - b.1, u⟩) x = some y →
      (x = b.1 ∧ y.size = b.2 - b.1) ∨ ∃ b' ∈ B, b'.1 ≤ x ∧ x + y.size ≤ b'.2 ∧ c x = some y ∧
        (b.2 < b'.1 ∨ b'.2 < b.1) := by
    intro x y hxy
    rw [Function.update_apply] at hxy
    split_ifs at hxy with hx
    · rw [Option.some.injEq] at hxy
      exact Or.inl ⟨hx, by rw [← hxy]⟩
    · obtain ⟨b', hb', h₁, h₂⟩ := h.inside x y hxy
      exact Or.inr ⟨b', hb', h₁, h₂, hxy, hapart b' hb'⟩
  have hsome : ∀ x, (c x).isSome → (Function.update c b.1 (some ⟨b.2 - b.1, u⟩) x).isSome := by
    intro x hx
    rw [Function.update_apply]
    split_ifs
    · rfl
    · exact hx
  refine ⟨?_, ?_, fun x y hxy => ?_, fun x y hxy => ?_, ?_, ?_, fun x x' y y' hxy hxy' hlt => ?_⟩
  · rintro b₁ (rfl | hb₁) b₂ (rfl | hb₂) hne
    · exact absurd rfl hne
    · exact hapart b₂ hb₂
    · exact (hapart b₁ hb₁).symm
    · exact h.banks b₁ hb₁ b₂ hb₂ hne
  · rintro b₁ (rfl | hb₁)
    · exact hb
    · exact h.nonempty b₁ hb₁
  · rcases hval x y hxy with ⟨-, hy⟩ | ⟨b', -, -, -, hc, -⟩
    · omega
    · exact h.pos x y hc
  · rcases hval x y hxy with ⟨rfl, hy⟩ | ⟨b', hb', h₁, h₂, -, -⟩
    · exact ⟨b, Set.mem_insert b B, le_rfl, by omega⟩
    · exact ⟨b', Set.mem_insert_of_mem b hb', h₁, h₂⟩
  · rintro b₁ (rfl | hb₁)
    · rw [Function.update_self]
      rfl
    · exact hsome _ (h.start b₁ hb₁)
  · rintro b₁ (rfl | hb₁) x y hxy h₁ h₂
    · rcases hval x y hxy with ⟨rfl, hy⟩ | ⟨b', -, h₁', h₂', hc, hap⟩
      · exact Or.inl (by omega)
      · have := h.pos x y hc
        omega
    · have hb₁' := hapart b₁ hb₁
      rcases hval x y hxy with ⟨rfl, hy⟩ | ⟨-, -, -, -, hc, -⟩
      · omega
      · exact (h.next b₁ hb₁ x y hc h₁ h₂).imp_right (hsome _)
  · rcases hval x y hxy with ⟨rfl, hy⟩ | ⟨b₁, -, h₁, h₂, hc, hap⟩ <;>
      rcases hval x' y' hxy' with ⟨rfl, hy'⟩ | ⟨b₂, -, h₁', h₂', hc', hap'⟩
    · omega
    · have := h.pos x' y' hc'
      omega
    · omega
    · exact h.apart x x' y y' hc hc' hlt

end IsTiling

end Tiling
