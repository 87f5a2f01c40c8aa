import ChinaOS.Bit
import ChinaOS.Types

/-!
The allocator `library/malloc/malloc.c`.

The memory is a map from the addresses of words to their values, and an address is a number.
`Mallocor` is a static object: its words have addresses from `2 ^ 32` on, behind those of all
memory banks. Chunks, list heads and tree nodes are told apart by their addresses alone, as in
the source: a field is the word at its offset.

* `insertSmallChunk`, `insertLargeChunk`, `unlinkSmallChunk`, `unlinkLargeChunk`: the bins.
* `checkoutSmallChunkInGroup`, `checkoutSmallChunkInTree`, `checkoutLargeChunkInTree`: the
  search for a chunk.
* `malloc`, `free`, `mallocorSetup`: the entries. They return `none` where the lock is taken, so
  that the caller is suspended, and where a loop does not end.
-/

namespace ChinaOS

/-- The memory, the bitmaps `SameMap` and `TreeMap` of `Mallocor`, and `Lock.Counter`. -/
structure Heap where
  mem : ℕ → ℕ
  sameMap : Int32U
  treeMap : Int32U
  lock : Int32U

/-- A memory bank of `aRamBanks`. -/
structure Bank where
  startAddr : Int32U
  endAddr : Int32U

namespace Heap

/-! ### Words and fields -/

/-- The sum of two words. -/
def wadd (x y : ℕ) : ℕ := (x + y) % 2 ^ 32

/-- The difference of two words. -/
def wsub (x y : ℕ) : ℕ := (x + 2 ^ 32 - y) % 2 ^ 32

/-- `NULL`. -/
def null : ℕ := 0

/-- `USED`; `FREE` is zero. -/
def used : ℕ := 1

/-- `MIN_CHUNK_SIZE`. -/
def minChunkSize : ℕ := 16

/-- `sizeof(struct chunk_head)`. -/
def chunkHead : ℕ := 8

/-- The address of `Mallocor`. -/
def mallocor : ℕ := 2 ^ 32

/-- The address of `pTreeChunks[Index]`. -/
def treeSlot (Index : ℕ) : ℕ := mallocor + 272 + 4 * Index

/-- `get_same_chunk_group`: the address of `pSameChunks[Index << 1]`. -/
def getSameChunkGroup (Index : ℕ) : ℕ := mallocor + 8 + 8 * Index

/-- The word at the address `a` becomes `v`. -/
def write (h : Heap) (a v : ℕ) : Heap := { h with mem := Function.update h.mem a v }

def prevInfo (h : Heap) (pChunk : ℕ) : ℕ := h.mem pChunk

def thisInfo (h : Heap) (pChunk : ℕ) : ℕ := h.mem (pChunk + 4)

def freeNext (h : Heap) (pChunk : ℕ) : ℕ := h.mem (pChunk + 8)

def freePrev (h : Heap) (pChunk : ℕ) : ℕ := h.mem (pChunk + 12)

/-- The address of `pChild[k]`. -/
def childAddr (pChunk k : ℕ) : ℕ := pChunk + 16 + 4 * k

def child (h : Heap) (pChunk k : ℕ) : ℕ := h.mem (childAddr pChunk k)

def parent (h : Heap) (pChunk : ℕ) : ℕ := h.mem (pChunk + 24)

def index (h : Heap) (pChunk : ℕ) : ℕ := h.mem (pChunk + 28)

def setPrevInfo (h : Heap) (pChunk v : ℕ) : Heap := h.write pChunk v

def setThisInfo (h : Heap) (pChunk v : ℕ) : Heap := h.write (pChunk + 4) v

def setFreeNext (h : Heap) (pChunk v : ℕ) : Heap := h.write (pChunk + 8) v

def setFreePrev (h : Heap) (pChunk v : ℕ) : Heap := h.write (pChunk + 12) v

def setChild (h : Heap) (pChunk k v : ℕ) : Heap := h.write (childAddr pChunk k) v

def setParent (h : Heap) (pChunk v : ℕ) : Heap := h.write (pChunk + 24) v

def setIndex (h : Heap) (pChunk v : ℕ) : Heap := h.write (pChunk + 28) v

/-! ### Sizes -/

/-- `get_box_index`. -/
def getBoxIndex (Size : ℕ) : ℕ := wsub (Size >>> 3) 1

/-- `tree_size_to_index`. -/
def treeSizeToIndex (Size : ℕ) : ℕ :=
  let x := Size >>> 8
  if x = 0 then 0
  else if 0xFFFF < x then 31
  else
    let y := x
    let n := (wsub y 0x100 >>> 16) &&& 8
    let y := (y <<< n) % 2 ^ 32
    let k := (wsub y 0x1000 >>> 16) &&& 4
    let n := n + k
    let y := (y <<< k) % 2 ^ 32
    let k := (wsub y 0x4000 >>> 16) &&& 2
    let n := n + k
    let y := (y <<< k) % 2 ^ 32
    let k := 14 - n + (y >>> 15)
    (k <<< 1) + ((Size >>> (k + 7)) &&& 1)

/-- `leftshift_for_tree_index`. -/
def leftshiftForTreeIndex (Index : ℕ) : ℕ := if Index = 31 then 0 else 25 - (Index >>> 1)

/-- `get_chunk_size`. -/
def getChunkSize (h : Heap) (pChunk : ℕ) : ℕ := h.thisInfo pChunk &&& 0xFFFFFFFE

/-- `is_small`. -/
def isSmall (Size : ℕ) : Bool := decide (Size ≤ 256)

/-! ### Chunks go into the bins -/

/-- `splite_free_chunk`. -/
def spliteFreeChunk (h : Heap) (pFreeChunk ChunkSize : ℕ) : Heap × ℕ :=
  let FreeSize := h.thisInfo pFreeChunk
  let pNextChunk := pFreeChunk + FreeSize
  if wsub FreeSize ChunkSize < minChunkSize then
    let h := h.setPrevInfo pNextChunk (FreeSize ||| used)
    (h.setThisInfo pFreeChunk (FreeSize ||| used), null)
  else
    let RestSize := wsub FreeSize ChunkSize
    let pRestChunk := pFreeChunk + ChunkSize
    let h := h.setPrevInfo pRestChunk (ChunkSize ||| used)
    let h := h.setThisInfo pFreeChunk (ChunkSize ||| used)
    let h := h.setPrevInfo pNextChunk RestSize
    (h.setThisInfo pRestChunk RestSize, pRestChunk)

/-- `chunk_to_memeory`. -/
def chunkToMemeory (pChunk : ℕ) : ℕ := if pChunk ≠ null then pChunk + 8 else null

/-- `insert_small_chunk`. -/
def insertSmallChunk (h : Heap) (pChunk Size : ℕ) : Heap :=
  let Index := getBoxIndex Size
  let pHead := getSameChunkGroup Index
  let h := if testBit h.sameMap Index then h else { h with sameMap := setBit h.sameMap Index }
  let h := h.setFreeNext pChunk (h.freeNext pHead)
  let h := h.setFreePrev pChunk pHead
  let h := h.setFreePrev (h.freeNext pHead) pChunk
  h.setFreeNext pHead pChunk

/-- A number of iterations that no loop of the allocator exceeds: a path of a tree has at most
33 nodes. -/
def loopFuel : ℕ := 40

/-- The loop of `insert_large_chunk`. -/
def insertLargeLoop (pChunk ChunkSize : ℕ) : ℕ → Heap → ℕ → ℕ → Option Heap
  | 0, _, _, _ => none
  | fuel + 1, h, pNode, BitMap =>
      if ChunkSize ≠ h.getChunkSize pNode then
        let C := childAddr pNode ((BitMap >>> 31) &&& 1)
        let BitMap := (BitMap <<< 1) % 2 ^ 32
        if h.mem C ≠ null then insertLargeLoop pChunk ChunkSize fuel h (h.mem C) BitMap
        else
          let h := h.write C pChunk
          let h := h.setParent pChunk pNode
          let h := h.setFreeNext pChunk pChunk
          some (h.setFreePrev pChunk pChunk)
      else
        let h := h.setParent pChunk null
        let h := h.setFreeNext pChunk (h.freeNext pNode)
        let h := h.setFreePrev pChunk pNode
        let h := h.setFreePrev (h.freeNext pNode) pChunk
        some (h.setFreeNext pNode pChunk)

/-- `insert_large_chunk`. -/
def insertLargeChunk (h : Heap) (pChunk Size : ℕ) : Option Heap :=
  let Index := treeSizeToIndex Size
  let pNode := h.mem (treeSlot Index)
  let h := h.setIndex pChunk Index
  let h := (h.setChild pChunk 1 null).setChild pChunk 0 null
  if testBit h.treeMap Index = false then
    let h := { h with treeMap := setBit h.treeMap Index }
    let h := h.write (treeSlot Index) pChunk
    let h := h.setParent pChunk (treeSlot Index)
    some ((h.setFreePrev pChunk pChunk).setFreeNext pChunk pChunk)
  else
    insertLargeLoop pChunk (wadd Size 8) loopFuel h pNode
      ((Size <<< leftshiftForTreeIndex Index) % 2 ^ 32)

/-- `checkin_free_chunk`. -/
def checkinFreeChunk (h : Heap) (pChunk ChunkSize : ℕ) : Option Heap :=
  if pChunk ≠ null then
    let Size := wsub ChunkSize 8
    if isSmall Size then some (h.insertSmallChunk pChunk Size)
    else h.insertLargeChunk pChunk Size
  else some h

/-! ### Chunks leave the bins -/

/-- `letfmost_child`. -/
def letfmostChild (h : Heap) (pTreeNode : ℕ) : ℕ :=
  if h.child pTreeNode 0 ≠ null then h.child pTreeNode 0 else h.child pTreeNode 1

/-- `unlink_small_chunk`. -/
def unlinkSmallChunk (h : Heap) (pChunk Size : ℕ) : Heap :=
  let FreeNext := h.freeNext pChunk
  let FreePrev := h.freePrev pChunk
  let Index := getBoxIndex Size
  let h := if FreeNext = FreePrev then { h with sameMap := clearBit h.sameMap Index } else h
  (h.setFreePrev FreeNext FreePrev).setFreeNext FreePrev FreeNext

/-- The loop of `unlink_large_chunk`: the rightmost descendent, and the address of the pointer
to it. -/
def rightmostLoop (h : Heap) : ℕ → ℕ → ℕ → Option (ℕ × ℕ)
  | 0, _, _ => none
  | fuel + 1, ppNode, pReplace =>
      if h.child pReplace 1 ≠ null then
        rightmostLoop h fuel (childAddr pReplace 1) (h.child pReplace 1)
      else if h.child pReplace 0 ≠ null then
        rightmostLoop h fuel (childAddr pReplace 0) (h.child pReplace 0)
      else some (ppNode, pReplace)

/-- The first part of `unlink_large_chunk`: the chunk that takes the place of `pChunk`, taken
out of its own place. -/
def chooseReplace (h : Heap) (pChunk : ℕ) : Option (Heap × ℕ) :=
  if h.freePrev pChunk ≠ pChunk then
    let pNext := h.freeNext pChunk
    let pReplace := h.freePrev pChunk
    let h := h.setFreePrev pNext pReplace
    some (h.setFreeNext pReplace pNext, pReplace)
  else if h.child pChunk 1 ≠ null then
    (rightmostLoop h loopFuel (childAddr pChunk 1) (h.child pChunk 1)).map fun r =>
      (h.write r.1 null, r.2)
  else if h.child pChunk 0 ≠ null then
    (rightmostLoop h loopFuel (childAddr pChunk 0) (h.child pChunk 0)).map fun r =>
      (h.write r.1 null, r.2)
  else some (h, null)

/-- The parent of `pChunk` gets `pReplace` for a child. -/
def relinkParent (h : Heap) (pChunk pReplace : ℕ) : Heap :=
  let pParent := h.parent pChunk
  let ppTmp := treeSlot (h.index pChunk)
  if pChunk = h.mem ppTmp then
    let h := h.write ppTmp pReplace
    if pReplace = null then { h with treeMap := clearBit h.treeMap (h.index pChunk) } else h
  else if h.child pParent 0 = pChunk then h.setChild pParent 0 pReplace
  else h.setChild pParent 1 pReplace

/-- A child of `pChunk` becomes a child of `pReplace`. -/
def relinkChild (h : Heap) (pChunk pReplace k : ℕ) : Heap :=
  let pChild := h.child pChunk k
  if pChild ≠ null then (h.setChild pReplace k pChild).setParent pChild pReplace else h

/-- The last part of `unlink_large_chunk`. -/
def relink (h : Heap) (pChunk pReplace : ℕ) : Heap :=
  let pParent := h.parent pChunk
  if pParent ≠ null then
    let h := h.relinkParent pChunk pReplace
    if pReplace ≠ null then
      let h := h.setParent pReplace pParent
      (h.relinkChild pChunk pReplace 0).relinkChild pChunk pReplace 1
    else h
  else h

/-- `unlink_large_chunk`. -/
def unlinkLargeChunk (h : Heap) (pChunk : ℕ) : Option Heap :=
  if pChunk = null then some h
  else (h.chooseReplace pChunk).map fun r => r.1.relink pChunk r.2

/-- `unlink_chunk`. -/
def unlinkChunk (h : Heap) (pChunk Size : ℕ) : Option Heap :=
  if isSmall Size then some (h.unlinkSmallChunk pChunk Size) else h.unlinkLargeChunk pChunk

/-- `checkout_small_chunk_in_group`. -/
def checkoutSmallChunkInGroup (h : Heap) (pHead Index : ℕ) : Heap × ℕ :=
  let pFirstChunk := h.freeNext pHead
  let pNext := h.freeNext pFirstChunk
  let h := if pHead = pNext then { h with sameMap := clearBit h.sameMap Index } else h
  let h := h.setFreeNext pHead pNext
  (h.setFreePrev pNext pHead, pFirstChunk)

/-- The loop of `checkout_small_chunk_in_tree`, from `pTmp` on. -/
def smallestLoop (h : Heap) : ℕ → ℕ → ℕ → ℕ → Option ℕ
  | 0, _, _, _ => none
  | fuel + 1, pTmp, FreeSize, pChunk =>
      let pTmp := h.letfmostChild pTmp
      if pTmp ≠ null then
        let ThisMargin := h.thisInfo pTmp
        if ThisMargin < FreeSize then smallestLoop h fuel pTmp ThisMargin pTmp
        else smallestLoop h fuel pTmp FreeSize pChunk
      else some pChunk

/-- `checkout_small_chunk_in_tree`. -/
def checkoutSmallChunkInTree (h : Heap) : Option (Heap × ℕ) :=
  if h.treeMap = 0 then some (h, null)
  else
    let Index := (bitScanForward h.treeMap).toNat
    let pTmp := h.mem (treeSlot Index)
    (smallestLoop h loopFuel pTmp (h.thisInfo pTmp) pTmp).bind fun pChunk =>
      (h.unlinkLargeChunk pChunk).map fun h => (h, pChunk)

/-- The first loop of `checkout_large_chunk_in_tree`: where to go on (`pTree`), the best chunk
so far and its margin. -/
def descendLoop (h : Heap) (ChunkSize : ℕ) :
    ℕ → ℕ → ℕ → ℕ → ℕ → ℕ → Option (ℕ × ℕ × ℕ)
  | 0, _, _, _, _, _ => none
  | fuel + 1, pTree, pBigTree, sizebits, pChunk, rsize =>
      let trem := wsub (h.getChunkSize pTree) ChunkSize
      let better := decide (trem < rsize)
      let pChunk := if better then pTree else pChunk
      let rsize := if better then trem else rsize
      if better ∧ rsize = 0 then some (pTree, pChunk, rsize)
      else
        let pRightTree := h.child pTree 1
        let pTree := h.child pTree ((sizebits >>> 31) &&& 1)
        let pBigTree := if pRightTree ≠ null ∧ pRightTree ≠ pTree then pRightTree else pBigTree
        if pTree = null then some (pBigTree, pChunk, rsize)
        else descendLoop h ChunkSize fuel pTree pBigTree ((sizebits <<< 1) % 2 ^ 32) pChunk rsize

/-- The last loop of `checkout_large_chunk_in_tree`. -/
def leftmostLoop (h : Heap) (ChunkSize : ℕ) : ℕ → ℕ → ℕ → ℕ → Option ℕ
  | 0, _, _, _ => none
  | fuel + 1, pTree, pChunk, rsize =>
      if pTree ≠ null then
        let trem := wsub (h.getChunkSize pTree) ChunkSize
        if trem < rsize then leftmostLoop h ChunkSize fuel (h.letfmostChild pTree) pTree trem
        else leftmostLoop h ChunkSize fuel (h.letfmostChild pTree) pChunk rsize
      else some pChunk

/-- `left_bits`. -/
def leftBits (x : Int32U) : Int32U := (x <<< 1) ||| -(x <<< 1)

/-- The root of the next tree that is not empty, if nothing was found in the tree `idx`. The
source returns `NULL` for an index of 32, as does what follows here. -/
def nextTree (h : Heap) (idx pTree pChunk : ℕ) : ℕ :=
  if pTree = null ∧ pChunk = null then
    let leftbits := h.treeMap &&& leftBits (1#32 <<< idx)
    if leftbits ≠ 0 then
      let Index := (bitScanForward leftbits).toNat
      if Index = 32 then null else h.mem (treeSlot Index)
    else pTree
  else pTree

/-- `checkout_large_chunk_in_tree`. -/
def checkoutLargeChunkInTree (h : Heap) (Size : ℕ) : Option (Heap × ℕ) :=
  let idx := treeSizeToIndex Size
  let pTree := h.mem (treeSlot idx)
  let ChunkSize := wadd Size chunkHead
  let rsize := wsub 0 ChunkSize
  let found :=
    if pTree ≠ null then
      h.descendLoop ChunkSize loopFuel pTree null ((Size <<< leftshiftForTreeIndex idx) % 2 ^ 32)
        null rsize
    else some (null, null, rsize)
  found.bind fun f =>
    (h.leftmostLoop ChunkSize loopFuel (h.nextTree idx f.1 f.2.1) f.2.1 f.2.2).bind fun pChunk =>
      (h.unlinkLargeChunk pChunk).map fun h => (h, pChunk)

/-! ### The entries -/

/-- `semaphore_wait(&Lock, 0)` where the lock is free. -/
def lockWait (h : Heap) : Option Heap :=
  if h.lock ≠ 0 then some { h with lock := h.lock - 1 } else none

/-- `semaphore_post(&Lock)` where nobody waits. -/
def lockPost (h : Heap) : Heap := { h with lock := h.lock + 1 }

/-- The search of `malloc` for a chunk for the request of `Size` bytes, which is already rounded
up to whole words, and the size it is finally rounded up to. -/
def checkoutChunk (h : Heap) (Size : Int32U) : Option (Heap × ℕ × Int32U) :=
  if isSmall Size.toNat then
    let Size := alignUpside Size 8
    let Index := getBoxIndex Size.toNat
    let SameBits := h.sameMap >>> Index
    let Index := (0x1F &&& bitScanForward (SameBits <<< Index)).toNat
    if Index ≠ 0 then
      let r := h.checkoutSmallChunkInGroup (getSameChunkGroup Index) Index
      some (r.1, r.2, Size)
    else h.checkoutSmallChunkInTree.map fun r => (r.1, r.2, Size)
  else (h.checkoutLargeChunkInTree Size.toNat).map fun r => (r.1, r.2, Size)

/-- The chunk that was found is cut to size, and the rest goes back into the bins. -/
def takeChunk (h : Heap) (pChunk : ℕ) (Size : Int32U) : Option Heap :=
  if pChunk ≠ null then
    let r := h.spliteFreeChunk pChunk (wadd Size.toNat chunkHead)
    r.1.checkinFreeChunk r.2 (r.1.thisInfo r.2)
  else some h

/-- `malloc`. -/
def malloc (h : Heap) (Size : Int32U) : Option (Heap × ℕ) :=
  h.lockWait.bind fun h =>
    (h.checkoutChunk (alignUpside (Size + 16#32) 4)).bind fun r =>
      (r.1.takeChunk r.2.1 r.2.2).map fun h => (h.lockPost, chunkToMemeory r.2.1)

/-- The chunk `pThisChunk` of `Size` bytes in front of `pNextChunk` is merged with the one in
front of it, if that is free. -/
def mergePrev (h : Heap) (pThisChunk Size pNextChunk : ℕ) : Option (Heap × ℕ × ℕ) :=
  if h.prevInfo pThisChunk &&& 1 = 0 then
    let PrevSize := h.prevInfo pThisChunk
    let pPrevChunk := wsub pThisChunk PrevSize
    let Size := wadd Size PrevSize
    (h.unlinkChunk pPrevChunk (wsub PrevSize chunkHead)).map fun h =>
      ((h.setPrevInfo pNextChunk Size).setThisInfo pPrevChunk Size, pPrevChunk, Size)
  else some (h, pThisChunk, Size)

/-- It is merged with the one behind it, if that is free. -/
def mergeNext (h : Heap) (pThisChunk Size pNextChunk : ℕ) : Option (Heap × ℕ × ℕ) :=
  if h.thisInfo pNextChunk &&& 1 = 0 then
    let NextSize := h.thisInfo pNextChunk
    let pNextNextChunk := wadd pNextChunk NextSize
    (h.unlinkChunk pNextChunk (wsub NextSize chunkHead)).map fun h =>
      let Size := wadd Size NextSize
      ((h.setPrevInfo pNextNextChunk Size).setThisInfo pThisChunk Size, pThisChunk, Size)
  else some (h, pThisChunk, Size)

/-- `free`. -/
def free (h : Heap) (pMemory : ℕ) : Option Heap :=
  if pMemory = null then some h
  else
    h.lockWait.bind fun h =>
      let pThisChunk := wsub pMemory chunkHead
      let Size := h.thisInfo pThisChunk &&& 0xFFFFFFFE
      let pNextChunk := wadd pThisChunk Size
      let h := (h.setPrevInfo pNextChunk Size).setThisInfo pThisChunk Size
      (h.mergePrev pThisChunk Size pNextChunk).bind fun r =>
        (r.1.mergeNext r.2.1 r.2.2 pNextChunk).bind fun r =>
          (r.1.checkinFreeChunk r.2.1 r.2.2).map lockPost

/-! ### The setup -/

/-- `memset(&Mallocor, 0, sizeof(Mallocor))`. -/
def clearMallocor (h : Heap) : Heap :=
  { h with
    mem := fun a => if mallocor ≤ a ∧ a < mallocor + 400 then 0 else h.mem a
    sameMap := 0
    treeMap := 0 }

/-- The list heads point at themselves. -/
def initGroups (h : Heap) : Heap :=
  (List.range 32).foldl (fun h i =>
    (h.setFreeNext (getSameChunkGroup i) (getSameChunkGroup i)).setFreePrev
      (getSameChunkGroup i) (getSameChunkGroup i)) h

/-- The aligned start of a bank. -/
def bankStart (b : Bank) : Int32U := alignUpside b.startAddr 4

/-- The aligned end of a bank. -/
def bankEnd (b : Bank) : Int32U := alignDownside b.endAddr 4

/-- A bank becomes one free chunk between two heads of used chunks of no size; a bank that is
too small is passed over. The flag says whether `Counter` is counted up. -/
def registerBank (h : Heap) (b : Bank) : Option (Heap × Bool) :=
  let StartAddr := bankStart b
  let EndAddr := bankEnd b
  if EndAddr < StartAddr then some (h, false)
  else
    let EndAddr := EndAddr - 8#32
    let ChunkSize := EndAddr - StartAddr
    if ChunkSize < 16#32 then some (h, false)
    else
      let h := h.write StartAddr.toNat used
      let h := h.write (StartAddr + 4#32).toNat ChunkSize.toNat
      let h := h.write EndAddr.toNat ChunkSize.toNat
      let h := h.write (EndAddr + 4#32).toNat used
      (h.checkinFreeChunk StartAddr.toNat ChunkSize.toNat).map fun h => (h, true)

/-- The loop over the banks. -/
def registerBanks (h : Heap) : List Bank → Option (Heap × ℕ)
  | [] => some (h, 0)
  | b :: bs =>
      (h.registerBank b).bind fun r =>
        (registerBanks r.1 bs).map fun r' => (r'.1, if r.2 then r'.2 + 1 else r'.2)

/-- `mallocor_setup`, and whether it returns `OK` and not `ERR_NO_MEMERY`. -/
def mallocorSetup (h : Heap) (aRamBanks : List Bank) : Option (Heap × Bool) :=
  let h := { h with lock := 1 }
  (h.clearMallocor.initGroups.registerBanks aRamBanks).map fun r => (r.1, decide (r.2 ≠ 0))

end Heap

end ChinaOS
