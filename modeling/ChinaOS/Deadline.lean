import Mathlib.Data.List.Chain
import Mathlib.Data.BitVec
import Mathlib.Tactic

/-!
Deadlines kept as machine words.

Every item of a list has a deadline `key`, a natural number, and a word that is the deadline
modulo `2 ^ w`, shifted by an offset that all items share. Differences of words then tell the
order of deadlines, as long as the deadlines lie within one turn of the word.

* `Tracks`: the words follow the deadlines.
* `Tracks.cons`: an item whose word differs from another's as the deadlines do joins the list.
* `Tracks.toNat_sub`, `Tracks.eq_iff`, `Tracks.sub_le_iff`, `Tracks.lt_sub`: what a difference
  of words says.
* `eq_filter_append`: a list with the items of a kind first.
* `pairwise_insert`: a sorted list stays sorted when an item goes between its neighbours.
-/

namespace Deadline

variable {α : Type*} {w : ℕ}

/-- The words of `l` are its deadlines modulo `2 ^ w`, up to a common offset. -/
def Tracks (key : α → ℕ) (word : α → BitVec w) (l : List α) : Prop :=
  ∃ off, ∀ x ∈ l, word x = BitVec.ofNat w (key x) + off

lemma toNat_ofNat_sub {a b : ℕ} (h : b ≤ a) :
    (BitVec.ofNat w a - BitVec.ofNat w b).toNat = (a - b) % 2 ^ w := by
  have hadd : BitVec.ofNat w a = BitVec.ofNat w (a - b) + BitVec.ofNat w b := by
    rw [← BitVec.ofNat_add, Nat.sub_add_cancel h]
  rw [hadd, BitVec.add_sub_cancel, BitVec.toNat_ofNat]

lemma toNat_ofNat_sub_of_lt {a b : ℕ} (h : a < b) (hb : b < a + 2 ^ w) :
    (BitVec.ofNat w a - BitVec.ofNat w b).toNat = 2 ^ w - (b - a) := by
  have hturn : BitVec.ofNat w a = BitVec.ofNat w (a + 2 ^ w) := by
    apply BitVec.eq_of_toNat_eq
    simp
  rw [hturn, toNat_ofNat_sub (by omega), Nat.mod_eq_of_lt (by omega)]
  omega

namespace Tracks

variable {key key' : α → ℕ} {word word' : α → BitVec w} {l l' : List α} {x y z : α}

lemma congr (h : Tracks key word l) (hl : ∀ x ∈ l', x ∈ l)
    (hk : ∀ x ∈ l', BitVec.ofNat w (key' x) = BitVec.ofNat w (key x))
    (hw : ∀ x ∈ l', word' x = word x) : Tracks key' word' l' := by
  obtain ⟨off, h⟩ := h
  exact ⟨off, fun x hx => by rw [hw x hx, h x (hl x hx), hk x hx]⟩

lemma sub (h : Tracks key word l) (hx : x ∈ l) (hy : y ∈ l) :
    word x - word y = BitVec.ofNat w (key x) - BitVec.ofNat w (key y) := by
  obtain ⟨off, h⟩ := h
  rw [h x hx, h y hy]
  ring

lemma cons (h : Tracks key word l) (hy : y ∈ l)
    (hx : word x - word y = BitVec.ofNat w (key x) - BitVec.ofNat w (key y)) :
    Tracks key word (x :: l) := by
  obtain ⟨off, h⟩ := h
  refine ⟨off, fun z hz => ?_⟩
  rcases List.mem_cons.mp hz with rfl | hz
  · rw [h y hy] at hx
    calc word z
        = word z - (BitVec.ofNat w (key y) + off) + (BitVec.ofNat w (key y) + off) := by ring
      _ = BitVec.ofNat w (key z) + off := by rw [hx]; ring
  · exact h z hz

/-- The item with the later deadline is ahead by the difference. -/
lemma toNat_sub (h : Tracks key word l) (hx : x ∈ l) (hy : y ∈ l) (hle : key y ≤ key x)
    (hlt : key x < key y + 2 ^ w) : (word x - word y).toNat = key x - key y := by
  rw [h.sub hx hy, toNat_ofNat_sub hle, Nat.mod_eq_of_lt (by omega)]

/-- Within one turn, equal words are equal deadlines. -/
lemma eq_iff (h : Tracks key word l) (hx : x ∈ l) (hy : y ∈ l) (hle : key y ≤ key x)
    (hlt : key x < key y + 2 ^ w) : word x = word y ↔ key x = key y := by
  have hsub := h.toNat_sub hx hy hle hlt
  constructor
  · intro heq
    rw [heq, BitVec.sub_self] at hsub
    simp at hsub
    omega
  · intro heq
    rw [heq, Nat.sub_self] at hsub
    exact sub_eq_zero.mp (BitVec.eq_of_toNat_eq hsub)

/-- Seen from an item `y` before both, the words of `x` and `z` compare as their deadlines. -/
lemma sub_le_iff (h : Tracks key word l) (hx : x ∈ l) (hy : y ∈ l) (hz : z ∈ l)
    (hyx : key y ≤ key x) (hx' : key x < key y + 2 ^ w) (hyz : key y ≤ key z)
    (hz' : key z < key y + 2 ^ w) : word x - word y ≤ word z - word y ↔ key x ≤ key z := by
  rw [BitVec.le_def, h.toNat_sub hx hy hyx hx', h.toNat_sub hz hy hyz hz']
  omega

/-- Seen from an item `y` behind it, the word of `x` is beyond that of every item `z` within
a turn of `x`. -/
lemma lt_sub (h : Tracks key word l) (hx : x ∈ l) (hy : y ∈ l) (hz : z ∈ l)
    (hxy : key x < key y) (hyz : key y ≤ key z) (hz' : key z < key x + 2 ^ w) :
    word z - word y < word x - word y := by
  rw [BitVec.lt_def, h.sub hx hy, toNat_ofNat_sub_of_lt hxy (by omega),
    h.toNat_sub hz hy hyz (by omega)]
  omega

end Tracks

/-- A sorted list stays sorted when an item goes between its neighbours. -/
lemma pairwise_insert {key : α → ℕ} {l₁ l₂ : List α} {p x : α}
    (hs : (l₁ ++ p :: l₂).Pairwise fun a b => key a ≤ key b) (hp : key p ≤ key x)
    (hx : ∀ y ∈ l₂.head?, key x ≤ key y) :
    (l₁ ++ p :: x :: l₂).Pairwise fun a b => key a ≤ key b := by
  obtain ⟨h₁, h₂, h₁₂⟩ := List.pairwise_append.mp hs
  obtain ⟨hp₂, hs₂⟩ := List.pairwise_cons.mp h₂
  have hx₂ : ∀ y ∈ l₂, key x ≤ key y := by
    cases l₂ with
    | nil => simp
    | cons z l₂ =>
        intro y hy
        have hz : key x ≤ key z := hx z rfl
        rcases List.mem_cons.mp hy with rfl | hy
        · exact hz
        · exact hz.trans ((List.pairwise_cons.mp hs₂).1 y hy)
  refine List.pairwise_append.mpr ⟨h₁, ?_, fun a ha b hb => ?_⟩
  · refine List.pairwise_cons.mpr ⟨fun b hb => ?_, List.pairwise_cons.mpr ⟨hx₂, hs₂⟩⟩
    rcases List.mem_cons.mp hb with rfl | hb
    · exact hp
    · exact hp₂ b hb
  · have hap : key a ≤ key p := h₁₂ a ha p (List.mem_cons_self)
    rcases List.mem_cons.mp hb with rfl | hb
    · exact hap
    · rcases List.mem_cons.mp hb with rfl | hb
      · exact hap.trans hp
      · exact h₁₂ a ha b (List.mem_cons_of_mem p hb)

/-- In a list where no item without `p` stands before one with it, those with it are first. -/
lemma eq_filter_append {p : α → Prop} [DecidablePred p] {l : List α}
    (h : l.Pairwise fun a b => p b → p a) :
    l = l.filter (fun a => p a) ++ l.filter (fun a => ¬ p a) := by
  induction l with
  | nil => rfl
  | cons a l ih =>
      obtain ⟨ha, hl⟩ := List.pairwise_cons.mp h
      by_cases hp : p a
      · rw [List.filter_cons_of_pos (by simpa using hp),
          List.filter_cons_of_neg (by simpa using hp), List.cons_append, ← ih hl]
      · have hnone : ∀ b ∈ l, ¬ p b := fun b hb hpb => hp (ha b hb hpb)
        rw [List.filter_eq_nil_iff.mpr (by simpa [hp] using hnone),
          List.filter_eq_self.mpr (by simpa [hp] using hnone), List.nil_append]

end Deadline
