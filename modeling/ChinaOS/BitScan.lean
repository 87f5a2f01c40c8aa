import ChinaOS.BitCount
import ChinaOS.Ready
import ChinaOS.Session

/-!
What the kernel and the allocator find with `bit_scan_forward`.

* `FirstIndex`: the first index with a property. `bitScanForward_first`: the scan of a word.
* `Kernel.shift_first`: `shift` selects the first thread of the first ready list.
* `Heap.listFound_first`: the list from which `malloc` takes a small chunk.
* `bit_scan`: all of these.
-/

namespace ChinaOS

/-- The first index below `n` with `P`, which is `n` if there is none. -/
def FirstIndex (P : ℕ → Prop) (n i : ℕ) : Prop :=
  i < n ∧ P i ∧ (∀ j < i, ¬ P j) ∨ i = n ∧ ∀ j < n, ¬ P j

section Word

variable {P P' : ℕ → Prop} {n i : ℕ}

lemma FirstIndex.congr (hf : FirstIndex P n i) (h : ∀ j < n, (P' j ↔ P j)) :
    FirstIndex P' n i := by
  rcases hf with ⟨hi, hP, hlow⟩ | ⟨hi, hnone⟩
  · exact Or.inl ⟨hi, (h i hi).mpr hP, fun j hj => (h j (hj.trans hi)).not.mpr (hlow j hj)⟩
  · exact Or.inr ⟨hi, fun j hj => (h j hj).not.mpr (hnone j hj)⟩

/-- **The scan of a word** is the index of its first bit. -/
theorem bitScanForward_first (x : Int32U) :
    FirstIndex (fun i => testBit x i = true) 32 (bitScanForward x).toNat := by
  simp only [testBit_eq]
  rcases eq_zero_or_lowest x with rfl | ⟨k, hk, hset, hlow⟩
  · exact Or.inr ⟨bitScanForward_zero, fun j _ => by simp⟩
  · rw [bitScanForward_of_lowest hset hlow]
    exact Or.inl ⟨hk, hset, fun j hj => by simp [hlow j hj]⟩

/-- **The count of a word** is the number of its bits. -/
theorem bitCount_card (x : Int32U) : (bitCount x).toNat =
    ((Finset.range 32).filter fun i => testBit x i = true).card := by
  simp only [testBit_eq]
  rw [toNat_bitCount, ones_eq_card]

end Word

/-! ### The scheduler -/

namespace Kernel

variable {I : Set Head} {k : Kernel} {Q : Head → List ThreadId}

/-- **`shift`** selects the first thread of the list that the scan finds. -/
lemma shift_osThis (k : Kernel) (pStackTop : Int32U) :
    (k.shift pStackTop).map (fun r => r.1.osThis) =
      containerOf (k.links.next (.head (.activeProc (bitScanForward k.osActivePrio).toNat))) := by
  rw [shift, Option.map_map]
  show Option.map _ (containerOf (k.links.next (activeProc (bitScanForward k.osActivePrio)))) = _
  cases h : containerOf (k.links.next (activeProc (bitScanForward k.osActivePrio))) with
  | none => exact h.symm
  | some t => exact h.symm

/-- The list that the scan finds is the first ready list with a thread. -/
lemma Inv.bitScanForward_first (hi : Inv I k Q) :
    FirstIndex (fun p => Q (.activeProc p) ≠ []) 32 (bitScanForward k.osActivePrio).toNat :=
  (ChinaOS.bitScanForward_first _).congr fun p hp => by rw [testBit_eq, hi.lists.bit p hp]

end Kernel

/-! ### The allocator -/

namespace Heap

open Tiling

variable {B : Set (ℕ × ℕ)} {h : Heap} {c : ℕ → Option Piece}

/-- **The list found for a small chunk** is the first one from the size on that is marked, and
zero if there is none. -/
lemma listFound_first (h : Heap) (R : Int32U) : ∃ i,
    FirstIndex (fun j => getBoxIndex (alignUpside R 8).toNat ≤ j ∧ testBit h.sameMap j = true) 32 i ∧
      h.listFound R = i % 32 := by
  set b := getBoxIndex (alignUpside R 8).toNat with hb
  refine ⟨(bitScanForward ((h.sameMap >>> b) <<< b)).toNat, ?_, ?_⟩
  · refine (bitScanForward_first _).congr fun j hj => ?_
    rw [testBit_eq, testBit_eq, getLsbD_shift_back _ hj, Bool.and_eq_true, decide_eq_true_iff,
      and_comm]
  · rw [listFound, ← hb, BitVec.toNat_and, Nat.and_comm]
    exact Nat.and_two_pow_sub_one_eq_mod _ 5

/-- A list is marked if it has a chunk. -/
lemma HeapInv.testBit_sameMap (hi : HeapInv B h c) {j : ℕ} (hj : j < 32) :
    h.freeNext (getSameChunkGroup j) ≠ getSameChunkGroup j ↔ testBit h.sameMap j = true := by
  obtain ⟨⟨box, hg⟩, -⟩ := hi.bins
  rw [testBit_eq, hg.map j hj]
  exact (hg.rings.next_head_eq_iff hj).not

end Heap

/-! ### The results -/

open Kernel Heap in
/-- **The bit scan.** `bit_count` counts the bits of a word, and `bit_scan_forward` finds the
first one. So `shift` selects from the first ready list, or from the last of all, and `malloc`
takes a small chunk from the first list with chunks of its size or above, or from a tree. -/
theorem bit_scan :
    (∀ x : Int32U, (bitCount x).toNat =
      ((Finset.range 32).filter fun i => testBit x i = true).card) ∧
    (bitCount (BitVec.allOnes 32)).toNat = 32 ∧
    (∀ x : Int32U, FirstIndex (fun i => testBit x i = true) 32 (bitScanForward x).toNat) ∧
    (∀ k : Kernel, ∃ p, FirstIndex (fun p => testBit k.osActivePrio p = true) 32 p ∧
      (∀ pStackTop, (k.shift pStackTop).map (fun r => r.1.osThis) =
        containerOf (k.links.next (.head (.activeProc p)))) ∧
      ∀ I Q, Inv I k Q → FirstIndex (fun p => Q (.activeProc p) ≠ []) 32 p) ∧
    ∀ (h : Heap) (R : Int32U), isSmall R.toNat = true → ∃ i,
      FirstIndex (fun j => getBoxIndex (alignUpside R 8).toNat ≤ j ∧ testBit h.sameMap j = true)
        32 i ∧
      h.checkoutChunk R = (if i % 32 ≠ 0 then
        some ((h.checkoutSmallChunkInGroup (getSameChunkGroup (i % 32)) (i % 32)).1,
          (h.checkoutSmallChunkInGroup (getSameChunkGroup (i % 32)) (i % 32)).2, alignUpside R 8)
        else h.checkoutSmallChunkInTree.map fun r => (r.1, r.2, alignUpside R 8)) ∧
      ∀ B c, HeapInv B h c → FirstIndex (fun j => getBoxIndex (alignUpside R 8).toNat ≤ j ∧
        h.freeNext (getSameChunkGroup j) ≠ getSameChunkGroup j) 32 i := by
  refine ⟨bitCount_card, by decide, bitScanForward_first, fun k => ?_, fun h R hR => ?_⟩
  · exact ⟨_, bitScanForward_first _, k.shift_osThis, fun I Q hi => hi.bitScanForward_first⟩
  · obtain ⟨i, hfirst, hfound⟩ := h.listFound_first R
    refine ⟨i, hfirst, ?_, fun B c hi => hfirst.congr fun j hj => ?_⟩
    · rw [checkoutChunk_of_small h hR, hfound]
    · rw [hi.testBit_sameMap hj]

/-- The lists that the kernel and the allocator find after their starts. -/
theorem bit_scan_startup :
    (∃ Q p, Kernel.Inv (Kernel.bootHeads ∅) (Kernel.startup Kernel.reset 0) Q ∧
      FirstIndex (fun p => Q (.activeProc p) ≠ []) 32 p ∧
      ((Kernel.startup Kernel.reset 0).shift 0).map (fun r => r.1.osThis) =
        Kernel.containerOf ((Kernel.startup Kernel.reset 0).links.next (.head (.activeProc p)))) ∧
    ∃ s₀ i, Heap.Session.start Heap.blank Heap.twoBanks = some s₀ ∧
      FirstIndex (fun j => Heap.getBoxIndex (alignUpside 64 8).toNat ≤ j ∧
        s₀.heap.freeNext (Heap.getSameChunkGroup j) ≠ Heap.getSameChunkGroup j) 32 i := by
  refine ⟨?_, ?_⟩
  · obtain ⟨Q, hi⟩ := Kernel.Inv.startup_core Kernel.atReset_reset 0
    obtain ⟨p, -, hshift, hfirst⟩ := bit_scan.2.2.2.1 (Kernel.startup Kernel.reset 0)
    exact ⟨Q, p, hi, hfirst _ _ hi, hshift 0⟩
  · obtain ⟨s₀, s, hs, -⟩ := Heap.twoBlocks_run
    obtain ⟨c, hi⟩ := Heap.SessionInv.start Heap.registrable_twoBanks hs
    obtain ⟨i, -, -, hfirst⟩ := bit_scan.2.2.2.2 s₀.heap 64 (by decide)
    exact ⟨s₀, i, hs, hfirst _ _ hi.heap⟩

end ChinaOS
