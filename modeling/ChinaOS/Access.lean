import ChinaOS.Malloc
import ChinaOS.Trace

/-!
The allocator once more, with a log of the fields that it reads and writes.

* `Field`, `Access`: a field of a chunk, of a list head or of a tree slot, with the pointer through
  which it is accessed. A field that the source reads twice in a row is logged once; the bitmaps
  and the lock are not logged.
* `Logged`: the functions of the allocator. A `TNODE **` of the source is the chunk that it points
  into, with the number of the child.
* `Logged.erase_malloc`, `Logged.erase_free` and the lemmas before them: without the log these are
  the functions of the model.
-/

namespace ChinaOS

namespace Heap

/-- The fields of a chunk and of a tree node, and the pointer in a slot of `pTreeChunks`. -/
inductive Field where
  | prevInfo
  | thisInfo
  | freeNext
  | freePrev
  | child (k : ℕ)
  | parent
  | index
  | slot
  deriving DecidableEq

/-- `pChunk->f`. -/
def get (h : Heap) (pChunk : ℕ) : Field → ℕ
  | .prevInfo => h.prevInfo pChunk
  | .thisInfo => h.thisInfo pChunk
  | .freeNext => h.freeNext pChunk
  | .freePrev => h.freePrev pChunk
  | .child k => h.child pChunk k
  | .parent => h.parent pChunk
  | .index => h.index pChunk
  | .slot => h.mem pChunk

/-- `pChunk->f = v`. -/
def set (h : Heap) (pChunk : ℕ) (f : Field) (v : ℕ) : Heap :=
  match f with
  | .prevInfo => h.setPrevInfo pChunk v
  | .thisInfo => h.setThisInfo pChunk v
  | .freeNext => h.setFreeNext pChunk v
  | .freePrev => h.setFreePrev pChunk v
  | .child k => h.setChild pChunk k v
  | .parent => h.setParent pChunk v
  | .index => h.setIndex pChunk v
  | .slot => h.write pChunk v

/-- The offset of a field. -/
def Field.offset : Field → ℕ
  | prevInfo => 0
  | thisInfo => 4
  | freeNext => 8
  | freePrev => 12
  | child k => 16 + 4 * k
  | parent => 24
  | index => 28
  | slot => 0

/-- An access to a field through a pointer. -/
structure Access where
  pointer : ℕ
  field : Field
  deriving DecidableEq

/-- A function of the allocator that logs its accesses. -/
abbrev Logged (α : Type) : Type := Traced Heap Access α

namespace Logged

open Traced

/-- `pChunk->f` is read. -/
def load (pChunk : ℕ) (f : Field) : Logged ℕ := read ⟨pChunk, f⟩ fun h => h.get pChunk f

/-- `pChunk->f` is written. -/
def store (pChunk : ℕ) (f : Field) (v : ℕ) : Logged Unit :=
  Traced.write ⟨pChunk, f⟩ fun h => h.set pChunk f v

/-- A bitmap is written. -/
def modify (f : Heap → Heap) : Logged Unit := change fun h => some (f h)

/-! ### The functions -/

/-- `get_chunk_size`. -/
def getChunkSize (pChunk : ℕ) : Logged ℕ := do
  return (← load pChunk .thisInfo) &&& 0xFFFFFFFE

/-- `splite_free_chunk`. -/
def spliteFreeChunk (pFreeChunk ChunkSize : ℕ) : Logged ℕ := do
  let FreeSize ← load pFreeChunk .thisInfo
  let pNextChunk := pFreeChunk + FreeSize
  if wsub FreeSize ChunkSize < minChunkSize then
    store pNextChunk .prevInfo (FreeSize ||| used)
    store pFreeChunk .thisInfo (FreeSize ||| used)
    return null
  else
    let RestSize := wsub FreeSize ChunkSize
    let pRestChunk := pFreeChunk + ChunkSize
    store pRestChunk .prevInfo (ChunkSize ||| used)
    store pFreeChunk .thisInfo (ChunkSize ||| used)
    store pNextChunk .prevInfo RestSize
    store pRestChunk .thisInfo RestSize
    return pRestChunk

/-- `insert_small_chunk`. -/
def insertSmallChunk (pChunk Size : ℕ) : Logged Unit := do
  let Index := getBoxIndex Size
  let pHead := getSameChunkGroup Index
  modify fun h => if testBit h.sameMap Index then h else { h with sameMap := setBit h.sameMap Index }
  store pChunk .freeNext (← load pHead .freeNext)
  store pChunk .freePrev pHead
  store (← load pHead .freeNext) .freePrev pChunk
  store pHead .freeNext pChunk

/-- The loop of `insert_large_chunk`. -/
def insertLargeLoop (pChunk ChunkSize : ℕ) : ℕ → ℕ → ℕ → Logged Unit
  | 0, _, _ => fail
  | fuel + 1, pNode, BitMap => do
      if ChunkSize ≠ (← getChunkSize pNode) then
        let k := (BitMap >>> 31) &&& 1
        let BitMap := (BitMap <<< 1) % 2 ^ 32
        let pNext ← load pNode (.child k)
        if pNext ≠ null then insertLargeLoop pChunk ChunkSize fuel pNext BitMap
        else
          store pNode (.child k) pChunk
          store pChunk .parent pNode
          store pChunk .freeNext pChunk
          store pChunk .freePrev pChunk
      else
        store pChunk .parent null
        store pChunk .freeNext (← load pNode .freeNext)
        store pChunk .freePrev pNode
        store (← load pNode .freeNext) .freePrev pChunk
        store pNode .freeNext pChunk

/-- `insert_large_chunk`. -/
def insertLargeChunk (pChunk Size : ℕ) : Logged Unit := do
  let Index := treeSizeToIndex Size
  let pNode ← load (treeSlot Index) .slot
  store pChunk .index Index
  store pChunk (.child 1) null
  store pChunk (.child 0) null
  if testBit (← look Heap.treeMap) Index = false then
    modify fun h => { h with treeMap := setBit h.treeMap Index }
    store (treeSlot Index) .slot pChunk
    store pChunk .parent (treeSlot Index)
    store pChunk .freePrev pChunk
    store pChunk .freeNext pChunk
  else
    insertLargeLoop pChunk (wadd Size 8) loopFuel pNode
      ((Size <<< leftshiftForTreeIndex Index) % 2 ^ 32)

/-- `checkin_free_chunk`. -/
def checkinFreeChunk (pChunk ChunkSize : ℕ) : Logged Unit :=
  if pChunk ≠ null then
    let Size := wsub ChunkSize 8
    if isSmall Size then insertSmallChunk pChunk Size else insertLargeChunk pChunk Size
  else pure ()

/-- `letfmost_child`. -/
def letfmostChild (pTreeNode : ℕ) : Logged ℕ := do
  let pChild ← load pTreeNode (.child 0)
  if pChild ≠ null then return pChild else load pTreeNode (.child 1)

/-- `unlink_small_chunk`. -/
def unlinkSmallChunk (pChunk Size : ℕ) : Logged Unit := do
  let FreeNext ← load pChunk .freeNext
  let FreePrev ← load pChunk .freePrev
  let Index := getBoxIndex Size
  modify fun h => if FreeNext = FreePrev then { h with sameMap := clearBit h.sameMap Index } else h
  store FreeNext .freePrev FreePrev
  store FreePrev .freeNext FreeNext

/-- The loop of `unlink_large_chunk`: the rightmost descendent, with its parent and its number
there. -/
def rightmostLoop : ℕ → ℕ → ℕ → ℕ → Logged (ℕ × ℕ × ℕ)
  | 0, _, _, _ => fail
  | fuel + 1, pNode, k, pReplace => do
      let pRight ← load pReplace (.child 1)
      if pRight ≠ null then rightmostLoop fuel pReplace 1 pRight
      else
        let pLeft ← load pReplace (.child 0)
        if pLeft ≠ null then rightmostLoop fuel pReplace 0 pLeft
        else return (pNode, k, pReplace)

/-- The rightmost descendent below a child is taken out of its place. -/
def cutRightmost (pChunk k pReplace : ℕ) : Logged ℕ := do
  let r ← rightmostLoop loopFuel pChunk k pReplace
  store r.1 (.child r.2.1) null
  return r.2.2

/-- The first part of `unlink_large_chunk`. -/
def chooseReplace (pChunk : ℕ) : Logged ℕ := do
  if (← load pChunk .freePrev) ≠ pChunk then
    let pNext ← load pChunk .freeNext
    let pReplace ← load pChunk .freePrev
    store pNext .freePrev pReplace
    store pReplace .freeNext pNext
    return pReplace
  else
    let pRight ← load pChunk (.child 1)
    if pRight ≠ null then cutRightmost pChunk 1 pRight
    else
      let pLeft ← load pChunk (.child 0)
      if pLeft ≠ null then cutRightmost pChunk 0 pLeft else return null

/-- The parent of `pChunk` gets `pReplace` for a child. -/
def relinkParent (pChunk pReplace pParent : ℕ) : Logged Unit := do
  let ppTmp := treeSlot (← load pChunk .index)
  if pChunk = (← load ppTmp .slot) then
    store ppTmp .slot pReplace
    if pReplace = null then
      let Index ← load pChunk .index
      modify fun h => { h with treeMap := clearBit h.treeMap Index }
    else return ()
  else if (← load pParent (.child 0)) = pChunk then store pParent (.child 0) pReplace
  else store pParent (.child 1) pReplace

/-- A child of `pChunk` becomes a child of `pReplace`. -/
def relinkChild (pChunk pReplace k : ℕ) : Logged Unit := do
  let pChild ← load pChunk (.child k)
  if pChild ≠ null then
    store pReplace (.child k) pChild
    store pChild .parent pReplace
  else return ()

/-- The last part of `unlink_large_chunk`. -/
def relink (pChunk pReplace : ℕ) : Logged Unit := do
  let pParent ← load pChunk .parent
  if pParent ≠ null then
    relinkParent pChunk pReplace pParent
    if pReplace ≠ null then
      store pReplace .parent pParent
      relinkChild pChunk pReplace 0
      relinkChild pChunk pReplace 1
    else return ()
  else return ()

/-- `unlink_large_chunk`. -/
def unlinkLargeChunk (pChunk : ℕ) : Logged Unit :=
  if pChunk = null then pure ()
  else do relink pChunk (← chooseReplace pChunk)

/-- `unlink_chunk`. -/
def unlinkChunk (pChunk Size : ℕ) : Logged Unit :=
  if isSmall Size then unlinkSmallChunk pChunk Size else unlinkLargeChunk pChunk

/-- `checkout_small_chunk_in_group`. -/
def checkoutSmallChunkInGroup (pHead Index : ℕ) : Logged ℕ := do
  let pFirstChunk ← load pHead .freeNext
  let pNext ← load pFirstChunk .freeNext
  modify fun h => if pHead = pNext then { h with sameMap := clearBit h.sameMap Index } else h
  store pHead .freeNext pNext
  store pNext .freePrev pHead
  return pFirstChunk

/-- The loop of `checkout_small_chunk_in_tree`. -/
def smallestLoop : ℕ → ℕ → ℕ → ℕ → Logged ℕ
  | 0, _, _, _ => fail
  | fuel + 1, pTmp, FreeSize, pChunk => do
      let pTmp ← letfmostChild pTmp
      if pTmp ≠ null then
        let ThisMargin ← load pTmp .thisInfo
        if ThisMargin < FreeSize then smallestLoop fuel pTmp ThisMargin pTmp
        else smallestLoop fuel pTmp FreeSize pChunk
      else return pChunk

/-- `checkout_small_chunk_in_tree`. -/
def checkoutSmallChunkInTree : Logged ℕ := do
  let TreeMap ← look Heap.treeMap
  if TreeMap = 0 then return null
  else
    let Index := (bitScanForward TreeMap).toNat
    let pTmp ← load (treeSlot Index) .slot
    let pChunk ← smallestLoop loopFuel pTmp (← load pTmp .thisInfo) pTmp
    unlinkLargeChunk pChunk
    return pChunk

/-- The first loop of `checkout_large_chunk_in_tree`. -/
def descendLoop (ChunkSize : ℕ) : ℕ → ℕ → ℕ → ℕ → ℕ → ℕ → Logged (ℕ × ℕ × ℕ)
  | 0, _, _, _, _, _ => fail
  | fuel + 1, pTree, pBigTree, sizebits, pChunk, rsize => do
      let trem := wsub (← getChunkSize pTree) ChunkSize
      let better := decide (trem < rsize)
      let pChunk := if better then pTree else pChunk
      let rsize := if better then trem else rsize
      if better ∧ rsize = 0 then return (pTree, pChunk, rsize)
      else
        let pRightTree ← load pTree (.child 1)
        let pTree ← load pTree (.child ((sizebits >>> 31) &&& 1))
        let pBigTree := if pRightTree ≠ null ∧ pRightTree ≠ pTree then pRightTree else pBigTree
        if pTree = null then return (pBigTree, pChunk, rsize)
        else descendLoop ChunkSize fuel pTree pBigTree ((sizebits <<< 1) % 2 ^ 32) pChunk rsize

/-- The last loop of `checkout_large_chunk_in_tree`. -/
def leftmostLoop (ChunkSize : ℕ) : ℕ → ℕ → ℕ → ℕ → Logged ℕ
  | 0, _, _, _ => fail
  | fuel + 1, pTree, pChunk, rsize => do
      if pTree ≠ null then
        let trem := wsub (← getChunkSize pTree) ChunkSize
        if trem < rsize then leftmostLoop ChunkSize fuel (← letfmostChild pTree) pTree trem
        else leftmostLoop ChunkSize fuel (← letfmostChild pTree) pChunk rsize
      else return pChunk

/-- The root of the next tree that is not empty, if nothing was found in the tree `idx`. -/
def nextTree (idx pTree pChunk : ℕ) : Logged ℕ := do
  if pTree = null ∧ pChunk = null then
    let leftbits := (← look Heap.treeMap) &&& leftBits (1#32 <<< idx)
    if leftbits ≠ 0 then
      let Index := (bitScanForward leftbits).toNat
      if Index = 32 then return null else load (treeSlot Index) .slot
    else return pTree
  else return pTree

/-- `checkout_large_chunk_in_tree`. -/
def checkoutLargeChunkInTree (Size : ℕ) : Logged ℕ := do
  let idx := treeSizeToIndex Size
  let pTree ← load (treeSlot idx) .slot
  let ChunkSize := wadd Size chunkHead
  let rsize := wsub 0 ChunkSize
  let f ← (if pTree ≠ null then
      descendLoop ChunkSize loopFuel pTree null ((Size <<< leftshiftForTreeIndex idx) % 2 ^ 32)
        null rsize
    else pure (null, null, rsize))
  let pChunk ← leftmostLoop ChunkSize loopFuel (← nextTree idx f.1 f.2.1) f.2.1 f.2.2
  unlinkLargeChunk pChunk
  return pChunk

/-- The search of `malloc` for a chunk. -/
def checkoutChunk (Size : Int32U) : Logged (ℕ × Int32U) := do
  if isSmall Size.toNat then
    let Size := alignUpside Size 8
    let Index := getBoxIndex Size.toNat
    let SameBits := (← look Heap.sameMap) >>> Index
    let Index := (0x1F &&& bitScanForward (SameBits <<< Index)).toNat
    if Index ≠ 0 then
      return (← checkoutSmallChunkInGroup (getSameChunkGroup Index) Index, Size)
    else return (← checkoutSmallChunkInTree, Size)
  else return (← checkoutLargeChunkInTree Size.toNat, Size)

/-- The chunk that was found is cut to size, and the rest goes back into the bins. -/
def takeChunk (pChunk : ℕ) (Size : Int32U) : Logged Unit := do
  if pChunk ≠ null then
    let pFreeChunk ← spliteFreeChunk pChunk (wadd Size.toNat chunkHead)
    checkinFreeChunk pFreeChunk (← load pFreeChunk .thisInfo)
  else return ()

/-- `malloc`. -/
def malloc (Size : Int32U) : Logged ℕ := do
  change lockWait
  let r ← checkoutChunk (alignUpside (Size + 16#32) 4)
  takeChunk r.1 r.2
  modify lockPost
  return chunkToMemeory r.1

/-- The chunk `pThisChunk` is merged with the one in front of it, if that is free. -/
def mergePrev (pThisChunk Size pNextChunk : ℕ) : Logged (ℕ × ℕ) := do
  let PrevSize ← load pThisChunk .prevInfo
  if PrevSize &&& 1 = 0 then
    let pPrevChunk := wsub pThisChunk PrevSize
    let Size := wadd Size PrevSize
    unlinkChunk pPrevChunk (wsub PrevSize chunkHead)
    store pNextChunk .prevInfo Size
    store pPrevChunk .thisInfo Size
    return (pPrevChunk, Size)
  else return (pThisChunk, Size)

/-- It is merged with the one behind it, if that is free. -/
def mergeNext (pThisChunk Size pNextChunk : ℕ) : Logged (ℕ × ℕ) := do
  let NextSize ← load pNextChunk .thisInfo
  if NextSize &&& 1 = 0 then
    let pNextNextChunk := wadd pNextChunk NextSize
    unlinkChunk pNextChunk (wsub NextSize chunkHead)
    let Size := wadd Size NextSize
    store pNextNextChunk .prevInfo Size
    store pThisChunk .thisInfo Size
    return (pThisChunk, Size)
  else return (pThisChunk, Size)

/-- `free`. -/
def free (pMemory : ℕ) : Logged Unit := do
  if pMemory = null then return ()
  else
    change lockWait
    let pThisChunk := wsub pMemory chunkHead
    let Size := (← load pThisChunk .thisInfo) &&& 0xFFFFFFFE
    let pNextChunk := wadd pThisChunk Size
    store pNextChunk .prevInfo Size
    store pThisChunk .thisInfo Size
    let r ← mergePrev pThisChunk Size pNextChunk
    let r ← mergeNext r.1 r.2 pNextChunk
    checkinFreeChunk r.1 r.2
    modify lockPost

/-! ### Without the log -/

section Erase

variable {α : Type} {h : Heap} {pChunk v k : ℕ} {f : Field}

lemma erase_load : (load pChunk f).erase h = some (h, h.get pChunk f) := rfl

lemma erase_store : (store pChunk f v).erase h = some (h.set pChunk f v, ()) := rfl

lemma erase_modify (g : Heap → Heap) : (modify g).erase h = some (g h, ()) := rfl

/-! One access after the other. -/

lemma erase_load_bind (m : ℕ → Logged α) :
    (load pChunk f >>= m).erase h = (m (h.get pChunk f)).erase h := by
  rw [erase_bind, erase_load, Option.bind_some]

lemma erase_store_bind (m : Unit → Logged α) :
    (store pChunk f v >>= m).erase h = (m ()).erase (h.set pChunk f v) := by
  rw [erase_bind, erase_store, Option.bind_some]

lemma erase_modify_bind (g : Heap → Heap) (m : Unit → Logged α) :
    (modify g >>= m).erase h = (m ()).erase (g h) := by
  rw [erase_bind]
  rfl

lemma erase_look_bind {β : Type} (g : Heap → β) (m : β → Logged α) :
    ((look g : Logged β) >>= m).erase h = (m (g h)).erase h := by
  rw [erase_bind, erase_look, Option.bind_some]

lemma erase_getChunkSize_bind (m : ℕ → Logged α) :
    (getChunkSize pChunk >>= m).erase h = (m (h.getChunkSize pChunk)).erase h := by
  rw [getChunkSize, erase_bind, erase_load_bind, erase_pure, Option.bind_some]
  rfl

lemma erase_spliteFreeChunk (pFreeChunk ChunkSize : ℕ) :
    (spliteFreeChunk pFreeChunk ChunkSize).erase h =
      some (h.spliteFreeChunk pFreeChunk ChunkSize) := by
  simp only [spliteFreeChunk, erase_load_bind, erase_ite, erase_store_bind, erase_pure]
  exact (apply_ite some _ _ _).symm

lemma erase_insertSmallChunk (Size : ℕ) :
    (insertSmallChunk pChunk Size).erase h = some (h.insertSmallChunk pChunk Size, ()) := by
  simp only [insertSmallChunk, erase_modify_bind, erase_load_bind, erase_store_bind, erase_store]
  rfl

lemma erase_insertLargeLoop (ChunkSize : ℕ) : ∀ fuel h pNode BitMap,
    (insertLargeLoop pChunk ChunkSize fuel pNode BitMap).erase h =
      (Heap.insertLargeLoop pChunk ChunkSize fuel h pNode BitMap).map fun h => (h, ()) := by
  intro fuel
  induction fuel with
  | zero => exact fun _ _ _ => erase_fail
  | succ fuel ih =>
      intro h pNode BitMap
      simp only [insertLargeLoop, erase_getChunkSize_bind, erase_ite, erase_load_bind,
        erase_store_bind, erase_store, ih]
      rw [Heap.insertLargeLoop, apply_ite (Option.map _)]
      refine if_congr Iff.rfl ?_ rfl
      dsimp only
      rw [apply_ite (Option.map _)]
      rfl

lemma erase_insertLargeChunk (Size : ℕ) :
    (insertLargeChunk pChunk Size).erase h =
      (h.insertLargeChunk pChunk Size).map fun h => (h, ()) := by
  simp only [insertLargeChunk, erase_load_bind, erase_store_bind, erase_look_bind,
    erase_modify_bind, erase_ite, erase_store, erase_insertLargeLoop]
  rw [Heap.insertLargeChunk]
  dsimp only
  rw [apply_ite (Option.map _)]
  rfl

lemma erase_checkinFreeChunk (ChunkSize : ℕ) :
    (checkinFreeChunk pChunk ChunkSize).erase h =
      (h.checkinFreeChunk pChunk ChunkSize).map fun h => (h, ()) := by
  simp only [checkinFreeChunk, Heap.checkinFreeChunk, erase_ite, erase_insertSmallChunk,
    erase_insertLargeChunk, erase_pure, apply_ite (Option.map _), Option.map_some]

lemma erase_letfmostChild :
    (letfmostChild pChunk).erase h = some (h, h.letfmostChild pChunk) := by
  simp only [letfmostChild, erase_load_bind, erase_ite, erase_load, erase_pure]
  rw [Heap.letfmostChild, apply_ite (Prod.mk h), apply_ite some]
  rfl

lemma erase_unlinkSmallChunk (Size : ℕ) :
    (unlinkSmallChunk pChunk Size).erase h = some (h.unlinkSmallChunk pChunk Size, ()) := by
  simp only [unlinkSmallChunk, erase_load_bind, erase_store_bind, erase_store, erase_modify_bind]
  rfl
lemma erase_letfmostChild_bind (m : ℕ → Logged α) :
    (letfmostChild pChunk >>= m).erase h = (m (h.letfmostChild pChunk)).erase h := by
  rw [erase_bind, erase_letfmostChild, Option.bind_some]

/-- The place of the rightmost descendent is a field of its parent. -/
lemma erase_rightmostLoop : ∀ fuel pNode k pReplace,
    ((rightmostLoop fuel pNode k pReplace).erase h).map
        (fun r => (r.1, childAddr r.2.1 r.2.2.1, r.2.2.2)) =
      (Heap.rightmostLoop h fuel (childAddr pNode k) pReplace).map fun r => (h, r) := by
  intro fuel
  induction fuel with
  | zero => exact fun _ _ _ => rfl
  | succ fuel ih =>
      intro pNode k pReplace
      simp only [rightmostLoop, erase_load_bind, erase_ite, erase_pure, apply_ite (Option.map _), ih]
      rw [Heap.rightmostLoop]
      rw [apply_ite (Option.map _), apply_ite (Option.map _)]
      rfl

lemma erase_cutRightmost (k pReplace : ℕ) :
    (cutRightmost pChunk k pReplace).erase h =
      (Heap.rightmostLoop h loopFuel (childAddr pChunk k) pReplace).map fun r =>
        (h.write r.1 null, r.2) := by
  have hloop := congrArg (Option.map fun r : Heap × ℕ × ℕ => (r.1.write r.2.1 null, r.2.2))
    (erase_rightmostLoop (h := h) loopFuel pChunk k pReplace)
  rw [Option.map_map, Option.map_map] at hloop
  refine Eq.trans ?_ hloop
  rw [cutRightmost, erase_bind]
  cases (rightmostLoop loopFuel pChunk k pReplace).erase h with
  | none => rfl
  | some r => rfl

lemma erase_chooseReplace : (chooseReplace pChunk).erase h = h.chooseReplace pChunk := by
  simp only [chooseReplace, erase_load_bind, erase_store_bind, erase_ite, erase_pure,
    erase_cutRightmost]
  rfl

/-- A step that is taken or not. -/
lemma some_ite {c : Prop} [Decidable c] {h₁ h₂ : Heap} :
    some (if c then h₁ else h₂, ()) = if c then some (h₁, ()) else some (h₂, ()) :=
  apply_ite (fun h : Heap => some (h, ())) c h₁ h₂

lemma erase_relinkParent (pReplace : ℕ) :
    (relinkParent pChunk pReplace (h.parent pChunk)).erase h =
      some (h.relinkParent pChunk pReplace, ()) := by
  simp only [relinkParent, erase_load_bind, erase_store_bind, erase_ite, erase_store, erase_modify,
    erase_pure]
  rw [Heap.relinkParent]
  simp only [some_ite]
  rfl

lemma erase_relinkChild (pReplace k : ℕ) :
    (relinkChild pChunk pReplace k).erase h = some (h.relinkChild pChunk pReplace k, ()) := by
  simp only [relinkChild, erase_load_bind, erase_ite, erase_store_bind, erase_store, erase_pure]
  rw [Heap.relinkChild, some_ite]
  rfl

lemma erase_relink (pReplace : ℕ) :
    (relink pChunk pReplace).erase h = some (h.relink pChunk pReplace, ()) := by
  rw [relink, erase_load_bind, erase_ite, Heap.relink]
  dsimp only
  rw [some_ite]
  refine if_congr Iff.rfl ?_ rfl
  rw [erase_bind, show h.get pChunk .parent = h.parent pChunk from rfl, erase_relinkParent,
    Option.bind_some, erase_ite, some_ite]
  refine if_congr Iff.rfl ?_ rfl
  rw [erase_store_bind, erase_bind, erase_relinkChild, Option.bind_some, erase_relinkChild]
  rfl

lemma erase_unlinkLargeChunk :
    (unlinkLargeChunk pChunk).erase h = (h.unlinkLargeChunk pChunk).map fun h => (h, ()) := by
  rw [unlinkLargeChunk, Heap.unlinkLargeChunk, erase_ite, apply_ite (Option.map _)]
  refine if_congr Iff.rfl rfl ?_
  rw [erase_bind, erase_chooseReplace, Option.map_map]
  cases h.chooseReplace pChunk with
  | none => rfl
  | some r => exact erase_relink r.2

lemma erase_unlinkChunk (Size : ℕ) :
    (unlinkChunk pChunk Size).erase h = (h.unlinkChunk pChunk Size).map fun h => (h, ()) := by
  simp only [unlinkChunk, Heap.unlinkChunk, erase_ite, erase_unlinkSmallChunk,
    erase_unlinkLargeChunk, apply_ite (Option.map _), Option.map_some]

lemma erase_checkoutSmallChunkInGroup (pHead Index : ℕ) :
    (checkoutSmallChunkInGroup pHead Index).erase h =
      some (h.checkoutSmallChunkInGroup pHead Index) := by
  simp only [checkoutSmallChunkInGroup, erase_load_bind, erase_modify_bind, erase_store_bind,
    erase_pure]
  rfl

lemma erase_smallestLoop : ∀ fuel pTmp FreeSize pChunk,
    (smallestLoop fuel pTmp FreeSize pChunk).erase h =
      (Heap.smallestLoop h fuel pTmp FreeSize pChunk).map fun r => (h, r) := by
  intro fuel
  induction fuel with
  | zero => exact fun _ _ _ => rfl
  | succ fuel ih =>
      intro pTmp FreeSize pChunk
      simp only [smallestLoop, erase_letfmostChild_bind, erase_load_bind, erase_ite, erase_pure, ih]
      rw [Heap.smallestLoop, apply_ite (Option.map _), apply_ite (Option.map _)]
      rfl

/-- A chunk that was found is taken out of its tree. -/
lemma erase_unlink_found {m : Logged ℕ} {o : Option ℕ} (hm : m.erase h = o.map fun r => (h, r)) :
    (m >>= fun pChunk => unlinkLargeChunk pChunk >>= fun _ => pure pChunk).erase h =
      o.bind fun pChunk => (h.unlinkLargeChunk pChunk).map fun h => (h, pChunk) := by
  rw [erase_bind, hm]
  cases o with
  | none => rfl
  | some p =>
      rw [Option.map_some, Option.bind_some, Option.bind_some]
      dsimp only
      rw [erase_bind, erase_unlinkLargeChunk]
      cases h.unlinkLargeChunk p with
      | none => rfl
      | some h' => rfl

lemma erase_checkoutSmallChunkInTree :
    checkoutSmallChunkInTree.erase h = h.checkoutSmallChunkInTree := by
  simp only [checkoutSmallChunkInTree, erase_look_bind, erase_load_bind, erase_ite, erase_pure]
  rw [Heap.checkoutSmallChunkInTree]
  refine if_congr Iff.rfl rfl ?_
  exact erase_unlink_found (erase_smallestLoop ..)

lemma erase_descendLoop (ChunkSize : ℕ) : ∀ fuel pTree pBigTree sizebits pChunk rsize,
    (descendLoop ChunkSize fuel pTree pBigTree sizebits pChunk rsize).erase h =
      (Heap.descendLoop h ChunkSize fuel pTree pBigTree sizebits pChunk rsize).map
        fun r => (h, r) := by
  intro fuel
  induction fuel with
  | zero => exact fun _ _ _ _ _ => rfl
  | succ fuel ih =>
      intro pTree pBigTree sizebits pChunk rsize
      rw [descendLoop, erase_getChunkSize_bind]
      dsimp only
      rw [erase_ite, Heap.descendLoop]
      dsimp only
      rw [apply_ite (Option.map _)]
      refine if_congr Iff.rfl rfl ?_
      rw [erase_load_bind, erase_load_bind, erase_ite, apply_ite (Option.map _)]
      refine if_congr Iff.rfl rfl ?_
      rw [ih]
      rfl

lemma erase_leftmostLoop (ChunkSize : ℕ) : ∀ fuel pTree pChunk rsize,
    (leftmostLoop ChunkSize fuel pTree pChunk rsize).erase h =
      (Heap.leftmostLoop h ChunkSize fuel pTree pChunk rsize).map fun r => (h, r) := by
  intro fuel
  induction fuel with
  | zero => exact fun _ _ _ => rfl
  | succ fuel ih =>
      intro pTree pChunk rsize
      simp only [leftmostLoop, erase_ite, erase_getChunkSize_bind, erase_letfmostChild_bind, ih,
        erase_pure]
      rw [Heap.leftmostLoop, apply_ite (Option.map _)]
      refine if_congr Iff.rfl ?_ rfl
      dsimp only
      rw [apply_ite (Option.map _)]

lemma erase_nextTree (idx pTree pChunk : ℕ) :
    (nextTree idx pTree pChunk).erase h = some (h, h.nextTree idx pTree pChunk) := by
  simp only [nextTree, erase_ite, erase_look_bind, erase_load, erase_pure]
  rw [Heap.nextTree]
  dsimp only
  rw [apply_ite (Prod.mk h), apply_ite (Prod.mk h), apply_ite (Prod.mk h), apply_ite some,
    apply_ite some, apply_ite some]
  rfl

/-- The second half of the search, behind the descent. -/
lemma erase_search {m : Logged (ℕ × ℕ × ℕ)} {o : Option (ℕ × ℕ × ℕ)} (idx ChunkSize : ℕ)
    (hm : m.erase h = o.map fun r => (h, r)) :
    (m >>= fun f => nextTree idx f.1 f.2.1 >>= fun pTree =>
        leftmostLoop ChunkSize loopFuel pTree f.2.1 f.2.2 >>= fun pChunk =>
          unlinkLargeChunk pChunk >>= fun _ => pure pChunk).erase h =
      o.bind fun f => (h.leftmostLoop ChunkSize loopFuel (h.nextTree idx f.1 f.2.1) f.2.1
        f.2.2).bind fun pChunk => (h.unlinkLargeChunk pChunk).map fun h => (h, pChunk) := by
  rw [erase_bind, hm]
  cases o with
  | none => rfl
  | some f =>
      rw [Option.map_some, Option.bind_some, Option.bind_some]
      dsimp only
      rw [erase_bind, erase_nextTree, Option.bind_some]
      exact erase_unlink_found (erase_leftmostLoop ..)

lemma erase_checkoutLargeChunkInTree (Size : ℕ) :
    (checkoutLargeChunkInTree Size).erase h = h.checkoutLargeChunkInTree Size := by
  rw [checkoutLargeChunkInTree, erase_load_bind, Heap.checkoutLargeChunkInTree]
  refine erase_search _ _ ?_
  rw [erase_ite, erase_descendLoop, erase_pure, apply_ite (Option.map _)]
  rfl

lemma erase_checkoutChunk (Size : Int32U) :
    (checkoutChunk Size).erase h = h.checkoutChunk Size := by
  rw [checkoutChunk, erase_ite, Heap.checkoutChunk]
  refine if_congr Iff.rfl ?_ ?_
  · rw [erase_look_bind, erase_ite]
    refine if_congr Iff.rfl ?_ ?_
    · rw [erase_bind, erase_checkoutSmallChunkInGroup]
      rfl
    · rw [erase_bind, erase_checkoutSmallChunkInTree]
      cases h.checkoutSmallChunkInTree with
      | none => rfl
      | some r => rfl
  · rw [erase_bind, erase_checkoutLargeChunkInTree]
    cases h.checkoutLargeChunkInTree Size.toNat with
    | none => rfl
    | some r => rfl

lemma erase_takeChunk (Size : Int32U) :
    (takeChunk pChunk Size).erase h = (h.takeChunk pChunk Size).map fun h => (h, ()) := by
  rw [takeChunk, erase_ite, Heap.takeChunk, apply_ite (Option.map _)]
  refine if_congr Iff.rfl ?_ rfl
  rw [erase_bind, erase_spliteFreeChunk, Option.bind_some, erase_load_bind, erase_checkinFreeChunk]
  rfl

/-- **`malloc` without the log.** -/
theorem erase_malloc (Size : Int32U) : (malloc Size).erase h = h.malloc Size := by
  rw [malloc, erase_bind, erase_change, Heap.malloc]
  cases h.lockWait with
  | none => rfl
  | some h₀ =>
      rw [Option.map_some, Option.bind_some, Option.bind_some]
      dsimp only
      rw [erase_bind, erase_checkoutChunk]
      cases h₀.checkoutChunk (alignUpside (Size + 16#32) 4) with
      | none => rfl
      | some r =>
          rw [Option.bind_some, Option.bind_some, erase_bind, erase_takeChunk]
          cases r.1.takeChunk r.2.1 r.2.2 with
          | none => rfl
          | some h₂ => rfl

/-- What is done when a chunk is out of its bin. -/
lemma erase_unlinkChunk_bind {Size : ℕ} {m : Unit → Logged α} {g : Heap → Heap × α}
    (hm : ∀ h', (m ()).erase h' = some (g h')) :
    (unlinkChunk pChunk Size >>= m).erase h = (h.unlinkChunk pChunk Size).map g := by
  rw [erase_bind, erase_unlinkChunk]
  cases h.unlinkChunk pChunk Size with
  | none => rfl
  | some h' => exact hm h'

lemma erase_mergePrev (pThisChunk Size pNextChunk : ℕ) :
    (mergePrev pThisChunk Size pNextChunk).erase h =
      h.mergePrev pThisChunk Size pNextChunk := by
  rw [mergePrev, erase_load_bind, erase_ite, Heap.mergePrev]
  refine if_congr Iff.rfl (erase_unlinkChunk_bind fun h' => ?_) rfl
  rw [erase_store_bind, erase_store_bind, erase_pure]
  rfl

lemma erase_mergeNext (pThisChunk Size pNextChunk : ℕ) :
    (mergeNext pThisChunk Size pNextChunk).erase h =
      h.mergeNext pThisChunk Size pNextChunk := by
  rw [mergeNext, erase_load_bind, erase_ite, Heap.mergeNext]
  refine if_congr Iff.rfl (erase_unlinkChunk_bind fun h' => ?_) rfl
  dsimp only
  rw [erase_store_bind, erase_store_bind, erase_pure]
  rfl

/-- The second half of `free`. -/
lemma erase_merge (pThisChunk Size pNextChunk : ℕ) :
    (mergePrev pThisChunk Size pNextChunk >>= fun r => mergeNext r.1 r.2 pNextChunk >>= fun r =>
        checkinFreeChunk r.1 r.2 >>= fun _ => modify lockPost).erase h =
      ((h.mergePrev pThisChunk Size pNextChunk).bind fun r =>
        (r.1.mergeNext r.2.1 r.2.2 pNextChunk).bind fun r =>
          (r.1.checkinFreeChunk r.2.1 r.2.2).map lockPost).map fun h => (h, ()) := by
  rw [erase_bind, erase_mergePrev]
  cases h.mergePrev pThisChunk Size pNextChunk with
  | none => rfl
  | some r =>
      rw [Option.bind_some, Option.bind_some, erase_bind, erase_mergeNext]
      cases r.1.mergeNext r.2.1 r.2.2 pNextChunk with
      | none => rfl
      | some r' =>
          rw [Option.bind_some, Option.bind_some, erase_bind, erase_checkinFreeChunk]
          cases r'.1.checkinFreeChunk r'.2.1 r'.2.2 with
          | none => rfl
          | some h' => rfl

/-- **`free` without the log.** -/
theorem erase_free (pMemory : ℕ) :
    (free pMemory).erase h = (h.free pMemory).map fun h => (h, ()) := by
  rw [free, erase_ite, Heap.free, apply_ite (Option.map _)]
  refine if_congr Iff.rfl rfl ?_
  rw [erase_bind, erase_change]
  cases h.lockWait with
  | none => rfl
  | some h₀ =>
      rw [Option.map_some, Option.bind_some, Option.bind_some]
      dsimp only
      rw [erase_load_bind, erase_store_bind, erase_store_bind]
      exact erase_merge ..

end Erase

end Logged

end Heap

end ChinaOS
