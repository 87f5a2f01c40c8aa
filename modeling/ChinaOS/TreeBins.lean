import ChinaOS.BestFit

/-!
The trees as a store of chunks.

* `WellFormed`: the trees of a heap hold exactly the chunks `F`.
* `insertLargeChunk_unlinkLargeChunk`: a chunk goes into the trees, and any chunk out of them.
* `checkout_least`: the searches take the least chunk that fits, and the least of all.
-/

namespace ChinaOS

namespace Heap

open Records

/-- The trees of the heap hold exactly the chunks `F`, which are large, lie apart and have their
sizes in their headers. -/
structure WellFormed (h : Heap) (F : ℕ → Option ℕ) : Prop where
  chunks : Chunks F
  large : ∀ a n, F a = some n → 264 < n
  sized : Sized h F
  forest : ∃ node ring, Forest (fields h) h.treeMap F node ring

variable {h h' : Heap} {F : ℕ → Option ℕ} {x n : ℕ}

namespace WellFormed

/-- **A chunk goes into the trees.** -/
lemma insert (hw : WellFormed h F) (hF : Chunks (Function.update F x (some n))) (hx : F x = none)
    (hn : 264 < n) (hinfo : h.thisInfo x = n) :
    ∃ h', h.insertLargeChunk x (n - 8) = some h' ∧
      WellFormed h' (Function.update F x (some n)) := by
  obtain ⟨node, ring, hf⟩ := hw.forest
  obtain ⟨h', heq, hedit, hforest⟩ := hf.insert hF hw.sized hx hn
  have hsized : Sized h (Function.update F x (some n)) := by
    intro a k ha
    rcases eq_some_of_update ha with ⟨rfl, rfl⟩ | ⟨-, ha⟩
    · exact hinfo
    · exact hw.sized a k ha
  refine ⟨h', heq, hF, fun a k ha => ?_, hsized.of_edit hF (fun _ _ h => h) hedit.mem, hforest⟩
  rcases eq_some_of_update ha with ⟨-, rfl⟩ | ⟨-, ha⟩
  · exact hn
  · exact hw.large a k ha

/-- A chunk that was taken out is out of the trees. -/
lemma of_takenOut (hw : WellFormed h F) (ht : TakenOut F h h' x n) :
    WellFormed h' (Function.update F x none) := by
  have hsome : ∀ a k, Function.update F x none a = some k → F a = some k :=
    fun a k ha => (eq_some_of_erase ha).2
  refine ⟨hw.chunks.erase, fun a k ha => hw.large a k (hsome a k ha), fun a k ha => ?_, ht.forest⟩
  exact hw.sized.of_edit hw.chunks (fun _ _ h => h) ht.edit.mem a k (hsome a k ha)

/-- **A chunk goes out of the trees.** -/
lemma unlink (hw : WellFormed h F) (hx : F x = some n) :
    ∃ h', h.unlinkLargeChunk x = some h' ∧ WellFormed h' (Function.update F x none) := by
  obtain ⟨node, ring, hf⟩ := hw.forest
  have hn := hw.large x n hx
  obtain ⟨h', heq, hedit, hforest⟩ := hf.unlink hw.chunks hx hn
  exact ⟨h', heq, hw.of_takenOut ⟨hx, hn, hedit, hforest⟩⟩

end WellFormed

end Heap

end ChinaOS
