import Mathlib.Tactic

/-!
Bounded first-in first-out queues over an arbitrary type of elements.

The queue is a list, oldest element first, of at most `n` elements.

* `offer`: append as many of the offered elements as there is room for.
* `take`: remove at most `k` elements from the front.
* `History`: what a queue has accepted and delivered so far; `History.accepted_eq` is the
  law of the queue, that the elements accepted are the elements delivered followed by the
  elements stored.
* `wrap`: the positions of a ring of the slots `0..n`, counted on past its end
  (`wrap_add_inj`, `wrap_wrap_succ_add`).
-/

namespace Fifo

variable {M : Type*}

/-- Append as many of the elements `xs` as a queue of capacity `n` has room for. -/
def offer (n : ℕ) (q xs : List M) : List M := q ++ xs.take (n - q.length)

/-- Remove at most `k` elements from the front. -/
def take (k : ℕ) (q : List M) : List M × List M := (q.take k, q.drop k)

lemma offer_full {n : ℕ} {q : List M} (hq : q.length = n) (xs : List M) : offer n q xs = q := by
  simp [offer, hq]

lemma offer_one {n : ℕ} {q : List M} (hq : q.length < n) (x : M) : offer n q [x] = q ++ [x] := by
  rw [offer, List.take_of_length_le]
  simp only [List.length_cons, List.length_nil]
  omega

lemma length_offer {n : ℕ} {q : List M} (hq : q.length ≤ n) (xs : List M) :
    (offer n q xs).length ≤ n := by
  simp only [offer, List.length_append, List.length_take]
  omega

/-- The accepted, the delivered and the stored elements of a queue of capacity `n` after
some sequence of offers and takes. -/
inductive History (n : ℕ) : List M → List M → List M → Prop where
  | empty : History n [] [] []
  | offer {a d q : List M} (xs : List M) : History n a d q →
      History n (a ++ xs.take (n - q.length)) d (offer n q xs)
  | take {a d q : List M} (k : ℕ) : History n a d q →
      History n a (d ++ (take k q).1) (take k q).2

/-- **The law of the queue**: what was accepted is what was delivered followed by what is
stored, and no more than `n` elements are stored. -/
theorem History.accepted_eq {n : ℕ} {a d q : List M} (h : History n a d q) :
    a = d ++ q ∧ q.length ≤ n := by
  induction h with
  | empty => simp
  | offer xs _ ih =>
      refine ⟨?_, length_offer ih.2 xs⟩
      rw [ih.1, Fifo.offer, List.append_assoc]
  | take k _ ih =>
      refine ⟨?_, ?_⟩
      · rw [ih.1, Fifo.take, List.append_assoc, List.take_append_drop]
      · simp only [Fifo.take, List.length_drop]
        omega

/-! ### A ring of slots -/

/-- Position `k` of the ring of the slots `0..n`, for `k` at most once around. -/
def wrap (n k : ℕ) : ℕ := if k ≤ n then k else k - (n + 1)

lemma wrap_le {n k : ℕ} (hk : k ≤ 2 * n + 1) : wrap n k ≤ n := by
  unfold wrap
  split_ifs <;> omega

lemma wrap_of_le {n k : ℕ} (hk : k ≤ n) : wrap n k = k := if_pos hk

/-- The slot after `i`, as the source computes it. -/
lemma wrap_succ {n i : ℕ} (hi : i ≤ n) : wrap n (i + 1) = if i = n then 0 else i + 1 := by
  unfold wrap
  split_ifs <;> omega

/-- Less than once around, slots are distinct. -/
lemma wrap_add_inj {n r i j : ℕ} (hi : i ≤ n) (hj : j ≤ n)
    (h : wrap n (r + i) = wrap n (r + j)) : i = j := by
  unfold wrap at h
  split_ifs at h <;> omega

lemma wrap_wrap_succ_add {n r i : ℕ} (hr : r ≤ n) (hi : i ≤ n) :
    wrap n (wrap n (r + 1) + i) = wrap n (r + 1 + i) := by
  unfold wrap
  split_ifs <;> omega

lemma wrap_succ_wrap_add {n r i : ℕ} (hr : r ≤ n) (hi : i ≤ n) :
    wrap n (wrap n (r + i) + 1) = wrap n (r + (i + 1)) := by
  unfold wrap
  split_ifs <;> omega

end Fifo
