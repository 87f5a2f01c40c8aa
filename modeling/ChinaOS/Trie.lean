import Mathlib.Data.Nat.Bitwise
import Mathlib.Tactic

/-!
Tries: trees in which the key of a node starts with the path to the node.

The path to a node lists its steps from the last one to the first. A key agrees with it if its
bits, from bit `n - 1` downwards, are the steps of the path; the bits from `n` on are the same
for all keys of the trie.

* `lt_of_agrees`: what is below a left child is less than what is below the right one.
* `Below`: the nodes of a subtree.
* `Best`: the least key of a set that is not less than a bound.
* `Frontier`: what a search down the path of a key leaves to be searched
  (`Frontier.goLeft`, `Frontier.goRight`, `Frontier.best`).
-/

namespace Trie

/-- The lower `n` bits of `k` start with the steps of the path. -/
def Agrees (n k : ℕ) : List Bool → Prop
  | [] => True
  | b :: p => p.length < n ∧ k.testBit (n - 1 - p.length) = b ∧ Agrees n k p

/-- The bits from `n` on are the same. -/
def SameAbove (n k k' : ℕ) : Prop := ∀ j, n ≤ j → k.testBit j = k'.testBit j

section Agrees

variable {n k k' : ℕ} {p q : List Bool}

lemma Agrees.length_le (h : Agrees n k p) : p.length ≤ n := by
  cases p with
  | nil => exact Nat.zero_le n
  | cons b p => exact h.1

lemma Agrees.of_suffix (h : Agrees n k q) (hs : p <:+ q) : Agrees n k p := by
  induction q with
  | nil => rw [List.suffix_nil.mp hs]; trivial
  | cons b q ih =>
      rcases List.suffix_cons_iff.mp hs with rfl | hs
      · exact h
      · exact ih h.2.2 hs

/-- A key has one path of each length. -/
lemma Agrees.suffix (hp : Agrees n k p) (hq : Agrees n k q) (hle : p.length ≤ q.length) :
    p <:+ q := by
  induction q generalizing p with
  | nil => rw [List.length_eq_zero_iff.mp (Nat.le_zero.mp hle)]
  | cons b q ih =>
      by_cases hlt : p.length ≤ q.length
      · exact List.suffix_cons_iff.mpr (Or.inr (ih hp hq.2.2 hlt))
      · cases p with
        | nil => exact absurd (Nat.zero_le _) hlt
        | cons c p =>
            simp only [List.length_cons] at hle hlt
            have hlen : p.length = q.length := by omega
            have hpq : p = q := (ih hp.2.2 hq.2.2 hlen.le).eq_of_length hlen
            have hbc : c = b := by rw [← hp.2.1, ← hq.2.1, hlen]
            rw [hpq, hbc]

/-- Two keys with the same path have the same bits on it. -/
lemma Agrees.testBit_eq (hp : Agrees n k p) (hp' : Agrees n k' p) {j : ℕ}
    (hj : n - p.length ≤ j) (hjn : j < n) : k.testBit j = k'.testBit j := by
  induction p with
  | nil => rw [List.length_nil] at hj; omega
  | cons b p ih =>
      have hlen := hp.1
      rw [List.length_cons] at hj
      by_cases hlt : n - p.length ≤ j
      · exact ih hp.2.2 hp'.2.2 hlt
      · have hbit : n - 1 - p.length = j := by omega
        have h1 := hp.2.1
        rw [hbit] at h1
        have h2 := hp'.2.1
        rw [hbit] at h2
        rw [h1, h2]

/-- **The order of a trie**: a key to the left is less than one to the right. -/
theorem lt_of_agrees (hp : Agrees n k (false :: p)) (hp' : Agrees n k' (true :: p))
    (h : SameAbove n k k') : k < k' := by
  refine Nat.lt_of_testBit (n - 1 - p.length) hp.2.1 hp'.2.1 fun j hj => ?_
  rcases Nat.lt_or_ge j n with hjn | hjn
  · exact hp.2.2.testBit_eq hp'.2.2 (by omega) hjn
  · exact h j hjn

/-- A path of full length determines the key. -/
lemma eq_of_agrees (hp : Agrees n k p) (hp' : Agrees n k' p) (hlen : p.length = n)
    (h : SameAbove n k k') : k = k' := by
  refine Nat.eq_of_testBit_eq fun j => ?_
  rcases Nat.lt_or_ge j n with hjn | hjn
  · exact hp.testBit_eq hp' (by omega) hjn
  · exact h j hjn

end Agrees

/-! ### Subtrees -/

variable {α : Type*} {n : ℕ} {key : α → ℕ} {node : List Bool → Option α}
  {p q r : List Bool} {a c x : α} {b : Bool}

/-- `a` is a node of the subtree at `p`. -/
def Below (node : List Bool → Option α) (p : List Bool) (a : α) : Prop :=
  ∃ q, p <:+ q ∧ node q = some a

lemma below_self (h : node p = some a) : Below node p a := ⟨p, List.suffix_rfl, h⟩

lemma Below.of_cons (h : Below node (b :: p) a) : Below node p a := by
  obtain ⟨q, hs, hq⟩ := h
  exact ⟨q, (List.suffix_cons b p).trans hs, hq⟩

lemma below_nil (h : node p = some a) : Below node [] a := ⟨p, List.nil_suffix, h⟩

/-- A node of a subtree is its root, or below one of the children. -/
lemma Below.cases (h : Below node p a) :
    node p = some a ∨ Below node (false :: p) a ∨ Below node (true :: p) a := by
  obtain ⟨q, ⟨t, rfl⟩, hq⟩ := h
  rcases List.eq_nil_or_concat t with rfl | ⟨t, b, rfl⟩
  · exact Or.inl hq
  · rw [List.concat_eq_append, List.append_assoc] at hq
    have hb : Below node (b :: p) a := ⟨t ++ b :: p, List.suffix_append t _, hq⟩
    cases b
    · exact Or.inr (Or.inl hb)
    · exact Or.inr (Or.inr hb)

/-- The keys of the nodes agree with the paths, and are distinct. -/
structure Keyed (n : ℕ) (key : α → ℕ) (node : List Bool → Option α) : Prop where
  closed : ∀ b p, (node (b :: p)).isSome → (node p).isSome
  agrees : ∀ p a, node p = some a → Agrees n (key a) p
  above : ∀ p q a c, node p = some a → node q = some c → SameAbove n (key a) (key c)
  distinct : ∀ p q a c, node p = some a → node q = some c → key a = key c → p = q

namespace Keyed

/-- Where nothing stands at a path, nothing stands below it. -/
lemma not_below (h : Keyed n key node) (hp : node p = none) : ¬ Below node p a := by
  rintro ⟨q, hs, hq⟩
  have hnone : ∀ q, p <:+ q → node q = none := by
    intro q hs
    induction q with
    | nil => rwa [List.suffix_nil.mp hs] at hp
    | cons b q ih =>
        rcases List.suffix_cons_iff.mp hs with rfl | hs
        · exact hp
        · by_contra hne
          have hsome := h.closed b q (Option.isSome_iff_ne_none.mpr hne)
          rw [ih hs] at hsome
          simp at hsome
  rw [hnone q hs] at hq
  simp at hq

lemma below_agrees (h : Keyed n key node) (hb : Below node p a) : Agrees n (key a) p := by
  obtain ⟨q, hs, hq⟩ := hb
  exact (h.agrees q a hq).of_suffix hs

/-- **Left of right**: the keys below a left child are less than those below the right one. -/
theorem lt (h : Keyed n key node) (ha : Below node (false :: p) a) (hc : Below node (true :: p) c) :
    key a < key c := by
  have hagrees := h.below_agrees ha
  have hagrees' := h.below_agrees hc
  obtain ⟨q, -, hq⟩ := ha
  obtain ⟨r, -, hr⟩ := hc
  exact lt_of_agrees hagrees hagrees' (h.above q r a c hq hr)

end Keyed

/-! ### The best of a set -/

/-- The element of `S` with the least key that is not less than `s`, if there is one. -/
def Best (key : α → ℕ) (s : ℕ) (S : Set α) : Option α → Prop
  | none => ∀ a ∈ S, key a < s
  | some b => b ∈ S ∧ s ≤ key b ∧ ∀ a ∈ S, s ≤ key a → key b ≤ key a

variable {s : ℕ} {S S' : Set α} {o : Option α}

lemma best_empty : Best key s ∅ none := fun _ h => absurd h (Set.notMem_empty _)

/-- Elements that do not fit, or that are no better than others, do not matter. -/
lemma Best.enlarge (h : Best key s S o) (hsub : S ⊆ S')
    (hrest : ∀ a ∈ S', s ≤ key a → ∃ b ∈ S, s ≤ key b ∧ key b ≤ key a) : Best key s S' o := by
  cases o with
  | none =>
      intro a ha
      by_contra hlt
      obtain ⟨b, hb, hsb, -⟩ := hrest a ha (not_lt.mp hlt)
      exact absurd (h b hb) (not_lt.mpr hsb)
  | some b =>
      obtain ⟨hb, hsb, hmin⟩ := h
      refine ⟨hsub hb, hsb, fun a ha hsa => ?_⟩
      obtain ⟨c, hc, hsc, hca⟩ := hrest a ha hsa
      exact (hmin c hc hsc).trans hca

/-- A new element that fits and is better than the best so far. -/
lemma Best.insert_better (h : Best key s S o) (hs : s ≤ key a)
    (hlt : ∀ b, o = some b → key a < key b) : Best key s (insert a S) (some a) := by
  refine ⟨Set.mem_insert a S, hs, fun c hc hsc => ?_⟩
  rcases Set.mem_insert_iff.mp hc with rfl | hc
  · exact le_rfl
  · cases o with
    | none => exact absurd (h c hc) (not_lt.mpr hsc)
    | some b => exact (hlt b rfl).le.trans (h.2.2 c hc hsc)

/-- A new element that does not fit, or is no better than the best so far. -/
lemma Best.insert_other (h : Best key s S o)
    (hno : key a < s ∨ ∃ b, o = some b ∧ key b ≤ key a) : Best key s (insert a S) o := by
  cases o with
  | none =>
      intro c hc
      rcases Set.mem_insert_iff.mp hc with rfl | hc
      · rcases hno with hlt | ⟨b, hb, -⟩
        · exact hlt
        · simp at hb
      · exact h c hc
  | some b =>
      refine ⟨Set.mem_insert_of_mem a h.1, h.2.1, fun c hc hsc => ?_⟩
      rcases Set.mem_insert_iff.mp hc with rfl | hc
      · rcases hno with hlt | ⟨b', hb, hle⟩
        · exact absurd hsc (not_le.mpr hlt)
        · rw [Option.some.injEq] at hb
          exact hb ▸ hle
      · exact h.2.2 c hc hsc

/-! ### The leftmost walk -/

/-- **The step of the leftmost walk** through a subtree of keys that all fit: of what is below
`p` only the root and what is below the leftmost child matter. -/
theorem Best.leftmost (hk : Keyed n key node) (hp : node p = some a)
    (hfit : ∀ c, Below node p c → s ≤ key c)
    (hchild : b = true → node (false :: p) = none)
    (hsome : node (b :: p) = none → node (true :: p) = none)
    (h : Best key s (insert a S ∪ {c | Below node (b :: p) c}) o) :
    Best key s (S ∪ {c | Below node p c}) o := by
  refine h.enlarge ?_ fun c hc hs => ?_
  · rintro c ((rfl | hc) | hc)
    · exact Or.inr (below_self hp)
    · exact Or.inl hc
    · exact Or.inr (Below.of_cons hc)
  · rcases hc with hc | hc
    · exact ⟨c, Or.inl (Or.inr hc), hs, le_rfl⟩
    · rcases Below.cases hc with hc | hc | hc
      · rw [hp, Option.some.injEq] at hc
        exact ⟨c, Or.inl (Or.inl hc.symm), hs, le_rfl⟩
      · cases b with
        | false => exact ⟨c, Or.inr hc, hs, le_rfl⟩
        | true => exact absurd hc (hk.not_below (hchild rfl))
      · cases b with
        | true => exact ⟨c, Or.inr hc, hs, le_rfl⟩
        | false =>
            -- the left child is better than all that is below the right one
            cases hleft : node (false :: p) with
            | none => exact absurd hc (hk.not_below (hsome hleft))
            | some l =>
                have hl := below_self hleft
                exact ⟨l, Or.inr hl, hfit l hl.of_cons, (hk.lt hl hc).le⟩

/-! ### The search down a path -/

/-- A search for the key `s` has come down its path to `p` and seen the nodes of `S`. Every other
node is below `p`, or too small, or no better than what is below the last right child `r` that
the search has passed; what is below that child fits, and is greater than what is below `p`. -/
structure Frontier (n : ℕ) (key : α → ℕ) (node : List Bool → Option α) (s : ℕ) (p : List Bool)
    (S : Set α) (r : Option (List Bool)) : Prop where
  agrees : Agrees n s p
  seen : ∀ a ∈ S, Below node [] a
  rest : ∀ a, Below node [] a → a ∈ S ∨ Below node p a ∨ key a < s ∨
    ∃ q ∈ r, ∃ c, Below node q c ∧ key c ≤ key a
  right : ∀ q ∈ r, (node q).isSome ∧ ∀ c, Below node q c →
    s ≤ key c ∧ ∀ a, Below node p a → key a < key c

lemma frontier_nil : Frontier n key node s [] ∅ none :=
  ⟨trivial, fun _ h => absurd h (Set.notMem_empty _), fun _ h => Or.inr (Or.inl h),
    fun q h => by simp at h⟩

variable {o' : Option (List Bool)}

/-- **The search goes left**, past a right child or where there is none. -/
theorem Frontier.goLeft (hf : Frontier n key node s p S o') (hk : Keyed n key node)
    (habove : ∀ p a, node p = some a → SameAbove n s (key a)) (hp : node p = some a)
    (hlen : p.length < n) (hbit : s.testBit (n - 1 - p.length) = false) :
    Frontier n key node s (false :: p) (insert a S)
      (if (node (true :: p)).isSome then some (true :: p) else o') := by
  refine ⟨⟨hlen, hbit, hf.agrees⟩, fun c hc => ?_, fun c hc => ?_, fun q hq => ?_⟩
  · rcases Set.mem_insert_iff.mp hc with rfl | hc
    · exact below_nil hp
    · exact hf.seen c hc
  · rcases hf.rest c hc with h | h | h | ⟨q, hq, d, hd, hle⟩
    · exact Or.inl (Set.mem_insert_of_mem a h)
    · rcases h.cases with h | h | h
      · rw [hp, Option.some.injEq] at h
        exact Or.inl (h ▸ Set.mem_insert _ S)
      · exact Or.inr (Or.inl h)
      · cases hr : node (true :: p) with
        | none => exact absurd h (hk.not_below hr)
        | some l => exact Or.inr (Or.inr (Or.inr ⟨true :: p, rfl, c, h, le_rfl⟩))
    · exact Or.inr (Or.inr (Or.inl h))
    · refine Or.inr (Or.inr (Or.inr ?_))
      cases hr : node (true :: p) with
      | none => exact ⟨q, hq, d, hd, hle⟩
      | some l =>
          -- the new right child is better than the one before
          have hl := below_self hr
          exact ⟨true :: p, rfl, l, hl, ((hf.right q hq).2 d hd).2 l hl.of_cons |>.le.trans hle⟩
  · cases hr : node (true :: p) with
    | none =>
        rw [hr] at hq
        obtain ⟨hsome, hrest⟩ := hf.right q hq
        exact ⟨hsome, fun c hc => ⟨(hrest c hc).1, fun d hd => (hrest c hc).2 d hd.of_cons⟩⟩
    | some l =>
        rw [hr] at hq
        have hq' : true :: p = q := by simpa using hq
        subst hq'
        refine ⟨by rw [hr]; rfl, fun c hc => ⟨?_, fun d hd => hk.lt hd hc⟩⟩
        have hagrees : Agrees n s (false :: p) := ⟨hlen, hbit, hf.agrees⟩
        have hagrees' := hk.below_agrees hc
        obtain ⟨q, -, hq⟩ := hc
        exact (lt_of_agrees hagrees hagrees' (habove q c hq)).le

/-- **The search goes right**: what is on the left is too small. -/
theorem Frontier.goRight (hf : Frontier n key node s p S o') (hk : Keyed n key node)
    (habove : ∀ p a, node p = some a → SameAbove n s (key a)) (hp : node p = some a)
    (hlen : p.length < n) (hbit : s.testBit (n - 1 - p.length) = true) :
    Frontier n key node s (true :: p) (insert a S) o' := by
  have hagrees : Agrees n s (true :: p) := ⟨hlen, hbit, hf.agrees⟩
  refine ⟨hagrees, fun c hc => ?_, fun c hc => ?_, fun q hq => ?_⟩
  · rcases Set.mem_insert_iff.mp hc with rfl | hc
    · exact below_nil hp
    · exact hf.seen c hc
  · rcases hf.rest c hc with h | h | h | h
    · exact Or.inl (Set.mem_insert_of_mem a h)
    · rcases h.cases with h | h | h
      · rw [hp, Option.some.injEq] at h
        exact Or.inl (h ▸ Set.mem_insert _ S)
      · have hagrees' := hk.below_agrees h
        obtain ⟨q, -, hq⟩ := h
        have habove' : SameAbove n (key c) s := fun j hj => (habove q c hq j hj).symm
        exact Or.inr (Or.inr (Or.inl (lt_of_agrees hagrees' hagrees habove')))
      · exact Or.inr (Or.inl h)
    · exact Or.inr (Or.inr (Or.inl h))
    · exact Or.inr (Or.inr (Or.inr h))
  · obtain ⟨hsome, hrest⟩ := hf.right q hq
    exact ⟨hsome, fun c hc => ⟨(hrest c hc).1, fun d hd => (hrest c hc).2 d hd.of_cons⟩⟩

/-- **The search is over** where the path leads to nothing: the best of the trie is among what
was seen and what is below the last right child. -/
theorem Frontier.best (hf : Frontier n key node s p S o') (hk : Keyed n key node)
    (hp : node p = none)
    (h : Best key s (S ∪ {c | ∃ q ∈ o', Below node q c}) o) :
    Best key s {c | Below node [] c} o := by
  refine h.enlarge ?_ fun c hc hs => ?_
  · rintro c (hc | ⟨q, -, q', -, hq'⟩)
    · exact hf.seen c hc
    · exact below_nil hq'
  · rcases hf.rest c hc with h | h | h | ⟨q, hq, d, hd, hle⟩
    · exact ⟨c, Or.inl h, hs, le_rfl⟩
    · exact absurd h (hk.not_below hp)
    · exact absurd hs (not_le.mpr h)
    · exact ⟨d, Or.inr ⟨q, hq, hd⟩, ((hf.right q hq).2 d hd).1, hle⟩

end Trie
