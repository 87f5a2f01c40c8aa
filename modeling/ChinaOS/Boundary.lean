import ChinaOS.Bins
import ChinaOS.Tiling

/-!
The chunks of the banks, and the words at their boundaries.

* `Layout`: the chunks tile the banks. `Tags`: the header of each chunk holds its size and its
  mark, and so does the word behind it; a bank ends with the header of a used chunk.
* `Tags.edit`: the headers behind an edit of a stretch of memory.
* `HeapInv`: the chunks, their headers and the bins agree, and no two free chunks are neighbours.
-/

namespace ChinaOS

namespace Heap

open Records Tiling

/-- The word that describes a chunk: its size, and the mark `USED` in the lowest bit. -/
def info (t : Piece) : ℕ := t.size + t.used.toNat

/-- The free chunks with their sizes. -/
def freeOf (c : ℕ → Option Piece) (a : ℕ) : Option ℕ :=
  (c a).bind fun t => if t.used then none else some t.size

/-- The banks have their words below `2 ^ 32`, not at zero, and two headers apart. A bank is given
by its first address and by the address of the header at its end. -/
structure Banks (B : Set (ℕ × ℕ)) : Prop where
  pos : ∀ b ∈ B, 0 < b.1
  aligned : ∀ b ∈ B, b.1 % 4 = 0 ∧ b.2 % 4 = 0
  le : ∀ b ∈ B, b.2 + 8 ≤ 2 ^ 32
  apart : ∀ b ∈ B, ∀ b' ∈ B, b ≠ b' → b.2 + 8 ≤ b'.1 ∨ b'.2 + 8 ≤ b.1

/-- The chunks tile the banks. -/
structure Layout (B : Set (ℕ × ℕ)) (c : ℕ → Option Piece) : Prop where
  banks : Banks B
  tiling : IsTiling B c
  size : ∀ a t, c a = some t → 16 ≤ t.size ∧ t.size % 4 = 0 ∧ a % 4 = 0

/-- The words at the boundaries describe the chunks. -/
structure Tags (B : Set (ℕ × ℕ)) (h : Heap) (c : ℕ → Option Piece) : Prop where
  this : ∀ a t, c a = some t → h.thisInfo a = info t
  prev : ∀ a t, c a = some t → h.prevInfo (a + t.size) = info t
  start : ∀ b ∈ B, h.prevInfo b.1 = used
  last : ∀ b ∈ B, h.thisInfo b.2 = used

/-- The words of the headers. -/
def Header (B : Set (ℕ × ℕ)) (c : ℕ → Option Piece) (w : ℕ) : Prop :=
  (∃ a t, c a = some t ∧ (w = a ∨ w = a + 4)) ∨ ∃ b ∈ B, w = b.2 ∨ w = b.2 + 4

/-- No two free chunks are neighbours. -/
def Coalesced (c : ℕ → Option Piece) : Prop :=
  ∀ a t t', c a = some t → c (a + t.size) = some t' → t.used = true ∨ t'.used = true

/-- **The invariant of the heap.** -/
structure HeapInv (B : Set (ℕ × ℕ)) (h : Heap) (c : ℕ → Option Piece) : Prop where
  layout : Layout B c
  tags : Tags B h c
  bins : Bins h (freeOf c)
  coalesced : Coalesced c
  lock : h.lock = 1

section Boundary

variable {B : Set (ℕ × ℕ)} {h h' : Heap} {c c' : ℕ → Option Piece} {a n k x y w o : ℕ}
  {t : Piece} {F : ℕ → Option ℕ}

/-! ### Free chunks -/

lemma freeOf_eq_some : freeOf c a = some n ↔ c a = some ⟨n, false⟩ := by
  rw [freeOf]
  cases hc : c a with
  | none => simp
  | some t =>
      obtain ⟨m, u⟩ := t
      cases u <;> simp

lemma freeOf_update_used : freeOf (Function.update c a (some ⟨n, true⟩)) =
    Function.update (freeOf c) a none := by
  funext y
  by_cases hy : y = a
  · subst hy
    simp [freeOf]
  · simp [freeOf, Function.update_of_ne hy]

lemma freeOf_update_free : freeOf (Function.update c a (some ⟨n, false⟩)) =
    Function.update (freeOf c) a (some n) := by
  funext y
  by_cases hy : y = a
  · subst hy
    simp [freeOf]
  · simp [freeOf, Function.update_of_ne hy]

lemma freeOf_update_none : freeOf (Function.update c a none) =
    Function.update (freeOf c) a none := by
  funext y
  by_cases hy : y = a
  · subst hy
    simp [freeOf]
  · simp [freeOf, Function.update_of_ne hy]

namespace Layout

lemma le (hl : Layout B c) (ha : c a = some t) : a + t.size + 8 ≤ 2 ^ 32 := by
  obtain ⟨b, hb, -, h₂⟩ := hl.tiling.inside a t ha
  have := hl.banks.le b hb
  omega

lemma pos (hl : Layout B c) (ha : c a = some t) : 0 < a := by
  obtain ⟨b, hb, h₁, -⟩ := hl.tiling.inside a t ha
  have := hl.banks.pos b hb
  omega

/-- The free chunks lie apart. -/
theorem chunks (hl : Layout B c) : Chunks (freeOf c) := by
  refine ⟨fun a n ha => ?_, fun a n ha => ?_, fun a n ha => ?_, fun a n ha => ?_,
    fun a n b k ha hb hlt => ?_⟩
  · exact hl.pos (freeOf_eq_some.mp ha)
  · exact (hl.size a _ (freeOf_eq_some.mp ha)).1
  · obtain ⟨-, h₁, h₂⟩ := hl.size a _ (freeOf_eq_some.mp ha)
    exact ⟨h₂, h₁⟩
  · have := hl.le (freeOf_eq_some.mp ha)
    simp only at this
    omega
  · exact hl.tiling.apart a b _ _ (freeOf_eq_some.mp ha) (freeOf_eq_some.mp hb) hlt

/-- The word behind a chunk is a header. -/
lemma header_end (hl : Layout B c) (ha : c a = some t) : Header B c (a + t.size) := by
  obtain ⟨b, hb, -, -, he | ⟨t', ht', -⟩⟩ := hl.tiling.next_cases ha
  · exact Or.inr ⟨b, hb, Or.inl he⟩
  · exact Or.inl ⟨_, t', ht', Or.inl rfl⟩

lemma header_start (hl : Layout B c) {b : ℕ × ℕ} (hb : b ∈ B) : Header B c b.1 := by
  obtain ⟨t, ht⟩ := Option.isSome_iff_exists.mp (hl.tiling.start b hb)
  exact Or.inl ⟨b.1, t, ht, Or.inl rfl⟩

/-- **No header lies in a record of the bins.** -/
theorem header_ne (hl : Layout B c) (hw : Header B c w) (hown : Own (freeOf c) y o) :
    w ≠ y + o := by
  have hlt : w < 2 ^ 32 := by
    rcases hw with ⟨a, t, ha, hwa⟩ | ⟨b, hb, hwb⟩
    · have := hl.le ha
      have := (hl.size a t ha).1
      omega
    · have := hl.banks.le b hb
      omega
  rcases hown.cases with ⟨n, hn, ho, -, hon⟩ | ⟨i, -, rfl, ho⟩ | ⟨i, -, rfl, rfl⟩
  · have hy := freeOf_eq_some.mp hn
    rcases hw with ⟨a, t, ha, hwa⟩ | ⟨b, hb, hwb⟩
    · have hsize := (hl.size a t ha).1
      rcases Nat.lt_trichotomy a y with h | h | h
      · have := hl.tiling.apart a y t _ ha hy h
        omega
      · omega
      · have : y + n ≤ a := hl.tiling.apart y a _ t hy ha h
        omega
    · obtain ⟨b', hb', h₁, h₂⟩ := hl.tiling.inside y _ hy
      have hyn : y + n ≤ b'.2 := h₂
      by_cases hbb : b = b'
      · subst hbb
        omega
      · have := hl.banks.apart b hb b' hb' hbb
        have := hl.tiling.nonempty b hb
        omega
  · simp only [getSameChunkGroup, mallocor]
    omega
  · simp only [treeSlot, mallocor]
    omega

/-- Two chunks do not overlap. -/
lemma outside (hl : Layout B c) {s : Piece} (hx : c x = some s) (ha : c a = some t)
    (hne : a ≠ x) : a + t.size ≤ x ∨ x + s.size ≤ a := by
  rcases Nat.lt_or_ge a x with h | h
  · exact Or.inl (hl.tiling.apart a x t s ha hx h)
  · exact Or.inr (hl.tiling.apart x a s t hx ha (by omega))

/-! ### The edits of the chunks -/

/-- A chunk changes its mark. -/
lemma mark (hl : Layout B c) (ha : c a = some t) {u : Bool} :
    Layout B (Function.update c a (some ⟨t.size, u⟩)) := by
  refine ⟨hl.banks, hl.tiling.mark ha, fun y s hy => ?_⟩
  rcases eq_some_of_update hy with ⟨rfl, rfl⟩ | ⟨-, hy⟩
  · exact hl.size y t ha
  · exact hl.size y s hy

/-- A chunk is cut in two. -/
lemma split (hl : Layout B c) (ha : c a = some t) {u u' : Bool} (hk : 16 ≤ k)
    (hkt : k + 16 ≤ t.size) (hk4 : k % 4 = 0) :
    Layout B (Function.update (Function.update c a (some ⟨k, u⟩)) (a + k)
      (some ⟨t.size - k, u'⟩)) := by
  obtain ⟨-, h₁, h₂⟩ := hl.size a t ha
  refine ⟨hl.banks, hl.tiling.split ha (by omega) (by omega), fun y s hy => ?_⟩
  rw [Function.update_apply, Function.update_apply] at hy
  split_ifs at hy with hyk hya
  · rw [Option.some.injEq] at hy
    rw [hyk, ← hy]
    exact ⟨by dsimp only; omega, by dsimp only; omega, by omega⟩
  · rw [Option.some.injEq] at hy
    rw [hya, ← hy]
    exact ⟨hk, hk4, h₂⟩
  · exact hl.size y s hy

/-- Two neighbours become one chunk. -/
lemma merge (hl : Layout B c) (ha : c a = some t) {t' : Piece} (ha' : c (a + t.size) = some t')
    {u : Bool} :
    Layout B (Function.update (Function.update c (a + t.size) none) a
      (some ⟨t.size + t'.size, u⟩)) := by
  obtain ⟨h₀, h₁, h₂⟩ := hl.size a t ha
  obtain ⟨-, h₁', -⟩ := hl.size _ t' ha'
  refine ⟨hl.banks, hl.tiling.merge ha ha', fun y s hy => ?_⟩
  rw [Function.update_apply, Function.update_apply] at hy
  split_ifs at hy with hya hyn
  · rw [Option.some.injEq] at hy
    rw [hya, ← hy]
    exact ⟨by dsimp only; omega, by dsimp only; omega, h₂⟩
  · exact hl.size y s hy

end Layout

/-! ### The headers -/

namespace Tags

/-- The tags are read from the headers only. -/
lemma congr (ht : Tags B h c) (hl : Layout B c) (hmem : ∀ w, Header B c w → h'.mem w = h.mem w) :
    Tags B h' c where
  this a t ha := (hmem (a + 4) (Or.inl ⟨a, t, ha, Or.inr rfl⟩)).trans (ht.this a t ha)
  prev a t ha := (hmem _ (hl.header_end ha)).trans (ht.prev a t ha)
  start b hb := (hmem _ (hl.header_start hb)).trans (ht.start b hb)
  last b hb := (hmem _ (Or.inr ⟨b, hb, Or.inr rfl⟩)).trans (ht.last b hb)

/-- The functions on the bins keep the headers. -/
lemma of_edit (ht : Tags B h c) (hl : Layout B c) (he : BinEdit F h h')
    (hF : ∀ x o, Own F x o → Own (freeOf c) x o) : Tags B h' c :=
  ht.congr hl fun w hw => he.mem w fun x o hx => hl.header_ne hw (hF x o hx)

/-- **An edit of a stretch of a bank.** Only words behind its first one and up to the one behind
it are written, and they describe the new chunks. -/
theorem edit (ht : Tags B h c) (hl : Layout B c) {b : ℕ × ℕ} (hb : b ∈ B) (hx : b.1 ≤ x)
    (hn : x + n ≤ b.2) (hmem : ∀ w, w ≤ x ∨ x + n < w → h'.mem w = h.mem w)
    (hnew : ∀ a t, c' a = some t → (c a = some t ∧ (a + t.size ≤ x ∨ x + n ≤ a)) ∨
      (h'.thisInfo a = info t ∧ h'.prevInfo (a + t.size) = info t)) : Tags B h' c' := by
  have hold : ∀ a t, c' a = some t → h'.thisInfo a = info t ∧
      h'.prevInfo (a + t.size) = info t := by
    intro a t ha
    rcases hnew a t ha with ⟨hc, hout⟩ | hin
    · have hsize := (hl.size a t hc).1
      refine ⟨(hmem (a + 4) (by omega)).trans (ht.this a t hc),
        (hmem (a + t.size) (by omega)).trans (ht.prev a t hc)⟩
    · exact hin
  have hbank : ∀ b' ∈ B, (b'.1 ≤ x ∨ x + n < b'.1) ∧ (b'.2 + 4 ≤ x ∨ x + n < b'.2 + 4) := by
    intro b' hb'
    have hne := hl.tiling.nonempty b' hb'
    by_cases hbb : b' = b
    · subst hbb
      omega
    · have := hl.banks.apart b' hb' b hb hbb
      omega
  exact ⟨fun a t ha => (hold a t ha).1, fun a t ha => (hold a t ha).2,
    fun b' hb' => (hmem b'.1 (hbank b' hb').1).trans (ht.start b' hb'),
    fun b' hb' => (hmem (b'.2 + 4) (hbank b' hb').2).trans (ht.last b' hb')⟩

end Tags

/-- The headers hold the sizes of the free chunks. -/
lemma Tags.sized (ht : Tags B h c) : Sized h (freeOf c) := fun a _ ha =>
  ht.this a _ (freeOf_eq_some.mp ha)

/-! ### A chunk outside the bins -/

/-- More chunks own more words. -/
lemma own_mono {F' : ℕ → Option ℕ} (hF : ∀ a n, F a = some n → F' a = some n) (hx : Own F x o) :
    Own F' x o := by
  rcases hx with (⟨n, hn, h⟩ | h) | (⟨n, hn, h⟩ | h)
  · exact Or.inl (Or.inl ⟨n, hF x n hn, h⟩)
  · exact Or.inl (Or.inr h)
  · exact Or.inr (Or.inl ⟨n, hF x n hn, h⟩)
  · exact Or.inr (Or.inr h)

lemma own_of_erase (hx : Own (Function.update F a none) x o) : Own F x o :=
  own_mono (fun _ _ hy => (eq_some_of_erase hy).2) hx

/-- Writing headers keeps the bins. -/
lemma Bins.of_headers (hb : Bins h F) (hl : Layout B c)
    (hF : ∀ a n, F a = some n → freeOf c a = some n)
    (hmem : ∀ w, ¬ Header B c w → h'.mem w = h.mem w) (hsame : h'.sameMap = h.sameMap)
    (htree : h'.treeMap = h.treeMap) : Bins h' F := by
  have hch := hl.chunks
  have hF' : Chunks F :=
    ⟨fun a n ha => hch.pos a n (hF a n ha), fun a n ha => hch.size a n (hF a n ha),
      fun a n ha => hch.aligned a n (hF a n ha), fun a n ha => hch.le a n (hF a n ha),
      fun a n b k ha hb => hch.apart a n b k (hF a n ha) (hF b k hb)⟩
  exact hb.congr hF' (fun x o hx => hmem _ fun hw => hl.header_ne hw (own_mono hF hx) rfl) hsame
    htree

/-- Both words of a chunk are written. -/
def setInfo (h : Heap) (pChunk Size Info : ℕ) : Heap :=
  (h.setPrevInfo (pChunk + Size) Info).setThisInfo pChunk Info

/-- **The words of one chunk** are written, which stands for a stretch of the chunks before. -/
theorem Tags.setInfo {u : Bool} (ht : Tags B h c) (hl : Layout B c) (hl' : Layout B c')
    (hx : c' x = some ⟨n, u⟩)
    (hother : ∀ a t, a ≠ x → c' a = some t → c a = some t) :
    Tags B (h.setInfo x n (info ⟨n, u⟩)) c' := by
  obtain ⟨b, hb, h₁, h₂⟩ := hl'.tiling.inside x _ hx
  have hsize : 16 ≤ n := (hl'.size x _ hx).1
  have hmem : ∀ w, w ≠ x + 4 → w ≠ x + n →
      (h.setInfo x n (info ⟨n, u⟩)).mem w = h.mem w := fun w h4 hn =>
    (Function.update_of_ne h4 _ _).trans (Function.update_of_ne hn _ _)
  refine ht.edit hl hb h₁ h₂ (fun w hw => ?_) fun a t ha => ?_
  · dsimp only at hw
    exact hmem w (by omega) (by omega)
  · by_cases hax : a = x
    · subst hax
      rw [hx, Option.some.injEq] at ha
      subst ha
      refine Or.inr ⟨Function.update_self .., ?_⟩
      exact (Function.update_of_ne (by dsimp only; omega) _ _).trans (Function.update_self ..)
    · exact Or.inl ⟨hother a t hax ha, hl'.outside hx ha hax⟩

lemma Bins.setInfo {u : Bool} (hb : Bins h F) (hl : Layout B c)
    (hF : ∀ a n, F a = some n → freeOf c a = some n) (hx : c x = some ⟨n, u⟩) {v : ℕ} :
    Bins (h.setInfo x n v) F := by
  refine hb.of_headers hl hF (fun w hw => ?_) rfl rfl
  have h4 : w ≠ x + 4 := by
    rintro rfl
    exact hw (Or.inl ⟨x, _, hx, Or.inr rfl⟩)
  have hn : w ≠ x + n := by
    rintro rfl
    exact hw (hl.header_end hx)
  exact (Function.update_of_ne h4 _ _).trans (Function.update_of_ne hn _ _)

/-- The free chunk `a` of `n` bytes is in no bin, and the bins hold the other free chunks. -/
structure Taken (B : Set (ℕ × ℕ)) (h : Heap) (c : ℕ → Option Piece) (a n : ℕ) : Prop where
  layout : Layout B c
  tags : Tags B h c
  chunk : c a = some ⟨n, false⟩
  bins : Bins h (Function.update (freeOf c) a none)

namespace Taken

/-- A chunk that is taken out of the bins. -/
lemma of_bins (hl : Layout B c) (ht : Tags B h c) (hc : c a = some ⟨n, false⟩)
    (he : BinEdit (freeOf c) h h') (hb : Bins h' (Function.update (freeOf c) a none)) :
    Taken B h' c a n :=
  ⟨hl, ht.of_edit hl he fun _ _ h => h, hc, hb⟩

/-- **The chunk goes into the bins.** -/
theorem checkin (ht : Taken B h c a n) :
    ∃ h', h.checkinFreeChunk a n = some h' ∧ Tags B h' c ∧ Bins h' (freeOf c) ∧
      h'.lock = h.lock := by
  have hfree : freeOf c a = some n := freeOf_eq_some.mpr ht.chunk
  have hback : Function.update (Function.update (freeOf c) a none) a (some n) = freeOf c := by
    rw [Function.update_idem, ← hfree, Function.update_eq_self]
  have hsized : Sized h (Function.update (freeOf c) a none) := fun y k hy =>
    ht.tags.sized y k (eq_some_of_erase hy).2
  obtain ⟨h', heq, hedit, hb⟩ := ht.bins.checkin (by rw [hback]; exact ht.layout.chunks) hsized
    (Function.update_self ..)
  rw [hback] at hedit hb
  exact ⟨h', heq, ht.tags.of_edit ht.layout hedit fun _ _ h => h, hb, hedit.lock⟩

end Taken

/-! ### The lock -/

namespace HeapInv

/-- The lock is free. -/
lemma lockWait_eq (hi : HeapInv B h c) : h.lockWait = some { h with lock := 0 } := by
  rw [lockWait, hi.lock]
  rfl

lemma lockPost_eq (hi : HeapInv B h c) : lockPost { h with lock := 0 } = h := by
  rw [lockPost, show (0 : Int32U) + 1 = h.lock by rw [hi.lock]; rfl]

lemma locked_bins (hi : HeapInv B h c) : Bins { h with lock := 0 } (freeOf c) :=
  hi.bins.congr hi.layout.chunks (fun _ _ _ => rfl) rfl rfl

lemma locked_tags (hi : HeapInv B h c) : Tags B { h with lock := 0 } c :=
  hi.tags.congr hi.layout fun _ _ => rfl

end HeapInv

end Boundary

end Heap

end ChinaOS
