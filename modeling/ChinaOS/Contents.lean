import ChinaOS.Dereference

/-!
What a program writes into a block stays there.

* `Logged.Kept`: a function of the allocator changes only the words that it accesses, with one
  lemma for each function.
* `HeapInv.malloc_keeps`, `HeapInv.free_keeps`: no word of a block is among them.
* `Blocks`: what an allocator is for, disjoint blocks with a content each. `blocks_refine`: the
  heap with its program is one.
-/

namespace ChinaOS

namespace Heap

open Records Tiling Traced

/-! ### The functions of the allocator -/

namespace Logged

/-- The function changes only the words that it accesses. -/
abbrev Kept {α : Type} (m : Logged α) : Prop :=
  Frames (fun x : Access => x.pointer + x.field.offset) Heap.mem m

section Kept

set_option synthInstance.maxSize 1000

variable {p k n Size Index fuel : ℕ} {f : Field} {v : ℕ}

instance kept_load : Kept (load p f) := frames_read

instance kept_store : Kept (store p f v) :=
  frames_write fun h i hi => by
    rw [set_eq]
    exact Function.update_of_ne (Ne.symm hi) _ _

lemma kept_modify {g : Heap → Heap} (hg : ∀ h, (g h).mem = h.mem) : Kept (modify g) :=
  frames_change fun h h' hh => by
    rw [← Option.some.inj hh]
    exact hg h

instance kept_lockWait : Kept (change lockWait : Logged Unit) :=
  frames_change fun h h' hh => by
    rw [lockWait] at hh
    split_ifs at hh
    rw [← Option.some.inj hh]

instance kept_lockPost : Kept (modify lockPost) := kept_modify fun _ => rfl

instance kept_setTreeMap {g : Heap → Int32U} :
    Kept (modify fun h => { h with treeMap := g h }) := kept_modify fun _ => rfl

instance kept_addSameMap {c : Heap → Prop} [DecidablePred c] {g : Heap → Int32U} :
    Kept (modify fun h => if c h then h else { h with sameMap := g h }) :=
  kept_modify fun h => by split_ifs <;> rfl

instance kept_cutSameMap {c : Heap → Prop} [DecidablePred c] {g : Heap → Int32U} :
    Kept (modify fun h => if c h then { h with sameMap := g h } else h) :=
  kept_modify fun h => by split_ifs <;> rfl

instance kept_getChunkSize : Kept (getChunkSize p) := by
  unfold getChunkSize
  infer_instance

instance kept_spliteFreeChunk : Kept (spliteFreeChunk p n) := by
  unfold spliteFreeChunk
  infer_instance

instance kept_insertSmallChunk : Kept (insertSmallChunk p Size) := by
  unfold insertSmallChunk
  infer_instance

/-- The loop, by induction on the fuel. -/
instance kept_insertLargeLoop {q : ℕ} :
    Kept (insertLargeLoop p n fuel q k) := by
  induction fuel generalizing q k with
  | zero => exact frames_fail
  | succ fuel ih =>
      have hloop : ∀ q k, Kept (insertLargeLoop p n fuel q k) := fun _ _ => ih
      unfold insertLargeLoop
      infer_instance

instance kept_insertLargeChunk : Kept (insertLargeChunk p Size) := by
  unfold insertLargeChunk
  infer_instance

instance kept_checkinFreeChunk : Kept (checkinFreeChunk p n) := by
  unfold checkinFreeChunk
  infer_instance

instance kept_letfmostChild : Kept (letfmostChild p) := by
  unfold letfmostChild
  infer_instance

instance kept_unlinkSmallChunk : Kept (unlinkSmallChunk p Size) := by
  unfold unlinkSmallChunk
  infer_instance

instance kept_rightmostLoop {q : ℕ} :
    Kept (rightmostLoop fuel p k q) := by
  induction fuel generalizing p k q with
  | zero => exact frames_fail
  | succ fuel ih =>
      have hloop : ∀ p k q, Kept (rightmostLoop fuel p k q) := fun _ _ _ => ih
      unfold rightmostLoop
      infer_instance

instance kept_cutRightmost {q : ℕ} : Kept (cutRightmost p k q) := by
  unfold cutRightmost
  infer_instance

instance kept_chooseReplace : Kept (chooseReplace p) := by
  unfold chooseReplace
  infer_instance

instance kept_relinkParent {r q : ℕ} : Kept (relinkParent p r q) := by
  unfold relinkParent
  infer_instance

instance kept_relinkChild {r : ℕ} : Kept (relinkChild p r k) := by
  unfold relinkChild
  infer_instance

instance kept_relink {r : ℕ} : Kept (relink p r) := by
  unfold relink
  infer_instance

instance kept_unlinkLargeChunk : Kept (unlinkLargeChunk p) := by
  unfold unlinkLargeChunk
  infer_instance

instance kept_unlinkChunk : Kept (unlinkChunk p Size) := by
  unfold unlinkChunk
  infer_instance

instance kept_checkoutSmallChunkInGroup : Kept (checkoutSmallChunkInGroup p Index) := by
  unfold checkoutSmallChunkInGroup
  infer_instance

instance kept_smallestLoop {q : ℕ} :
    Kept (smallestLoop fuel p n q) := by
  induction fuel generalizing p n q with
  | zero => exact frames_fail
  | succ fuel ih =>
      have hloop : ∀ p n q, Kept (smallestLoop fuel p n q) := fun _ _ _ => ih
      unfold smallestLoop
      infer_instance

instance kept_checkoutSmallChunkInTree : Kept checkoutSmallChunkInTree := by
  unfold checkoutSmallChunkInTree
  infer_instance

instance kept_descendLoop {b s c r : ℕ} :
    Kept (descendLoop n fuel p b s c r) := by
  induction fuel generalizing p b s c r with
  | zero => exact frames_fail
  | succ fuel ih =>
      have hloop : ∀ p b s c r, Kept (descendLoop n fuel p b s c r) := fun _ _ _ _ _ => ih
      unfold descendLoop
      infer_instance

instance kept_leftmostLoop {c r : ℕ} :
    Kept (leftmostLoop n fuel p c r) := by
  induction fuel generalizing p c r with
  | zero => exact frames_fail
  | succ fuel ih =>
      have hloop : ∀ p c r, Kept (leftmostLoop n fuel p c r) := fun _ _ _ => ih
      unfold leftmostLoop
      infer_instance

instance kept_nextTree {q : ℕ} : Kept (nextTree n p q) := by
  unfold nextTree
  infer_instance

instance kept_checkoutLargeChunkInTree : Kept (checkoutLargeChunkInTree Size) := by
  unfold checkoutLargeChunkInTree
  infer_instance

instance kept_checkoutChunk {R : Int32U} : Kept (checkoutChunk R) := by
  unfold checkoutChunk
  infer_instance

instance kept_takeChunk {R : Int32U} : Kept (takeChunk p R) := by
  unfold takeChunk
  infer_instance

/-- **`malloc`** changes only what it accesses. -/
instance kept_malloc {R : Int32U} : Kept (malloc R) := by
  unfold malloc
  infer_instance

instance kept_mergePrev {q : ℕ} : Kept (mergePrev p Size q) := by
  unfold mergePrev
  infer_instance

instance kept_mergeNext {q : ℕ} : Kept (mergeNext p Size q) := by
  unfold mergeNext
  infer_instance

/-- **`free`** changes only what it accesses. -/
instance kept_free : Kept (free p) := by
  unfold free
  infer_instance

end Kept

/-- A word that is not accessed. -/
lemma word_eq {α : Type} {m : Logged α} [Kept m] {V : Access → Prop} {Q : α → Heap → Prop}
    {h h' : Heap} {a : α} {w : ℕ} (hw : Within V m Q h) (he : m.erase h = some (h', a))
    (hV : ∀ y, V y → y.pointer + y.field.offset ≠ w) : h'.mem w = h.mem w :=
  hw.keeps he hV

end Logged

section Words

variable {B : Set (ℕ × ℕ)} {banks : List Bank} {h h' : Heap} {c c' : ℕ → Option Piece}
  {a n p w x : ℕ} {Size R : Int32U}

/-- **No field lies in a block**: the words of a used chunk behind its header are nobody else's. -/
lemma Allowed.ne_word (hl : Layout B c) (hx : c x = some ⟨n, true⟩) (hw : x + 8 ≤ w)
    (hlt : w < x + n) {y : Access} (hy : Allowed B c y) : y.pointer + y.field.offset ≠ w := by
  have hle : x + n + 8 ≤ 2 ^ 32 := hl.le hx
  obtain ⟨b, hb, hstart, hend⟩ := hl.tiling.inside x _ hx
  dsimp only at hend
  rcases hy with ⟨t, ht, -, hsize, hused⟩ | ⟨⟨b', hb', hp⟩, hf⟩ | ⟨i, -, hp, -⟩ | ⟨i, -, hp, -⟩
  · by_cases hyx : y.pointer = x
    · rw [hyx, hx, Option.some.injEq] at ht
      subst ht
      have : ¬ 8 ≤ y.field.offset := fun h => by simpa using hused h
      omega
    · have := hl.outside hx ht hyx
      dsimp only at this
      omega
  · have hoffset : y.field.offset ≤ 4 := by
      rcases hf with hf | hf
      · rw [hf]
        decide
      · rw [hf]
        decide
    by_cases hbb : b' = b
    · subst hbb
      omega
    · have := hl.banks.apart b' hb' b hb hbb
      have := hl.tiling.nonempty b' hb'
      omega
  · rw [hp, getSameChunkGroup, mallocor]
    omega
  · rw [hp, treeSlot, mallocor]
    omega

/-- The word that `malloc` reads through `NULL` lies in no block. -/
lemma null_ne_word (hl : Layout B c) (hx : c x = some ⟨n, true⟩) (hw : x + 8 ≤ w) :
    null + Field.thisInfo.offset ≠ w := by
  have := hl.pos hx
  rw [null, Field.offset]
  omega

/-- **A chunk that is not cut**: its headers are written, and what `NULL` points to is read. -/
lemma Taken.within_takeWhole (ht : Taken B h c x n) (hfit : R.toNat + 8 ≤ n)
    (hsmall : n < R.toNat + 24) :
    Within (fun y => Allowed B c y ∨ y = ⟨null, .thisInfo⟩) (Logged.takeChunk x R)
      (fun _ _ => True) h := by
  have hl := ht.layout
  have hx : x ≠ null := (hl.pos ht.chunk).ne'
  have hle : x + n + 8 ≤ 2 ^ 32 := hl.le ht.chunk
  have hk : wadd R.toNat chunkHead = R.toNat + 8 := wadd_of_lt (by rw [chunkHead]; omega)
  have hrest : wsub n (R.toNat + 8) < minChunkSize := by
    rw [wsub_of_le hfit (by omega), minChunkSize]
    omega
  have hself : Headed B c x := headed_of_some ht.chunk
  have hnext : Headed B c (x + n) := headed_next hl ht.chunk
  have hinfo : h.get x .thisInfo = n := ht.tags.this x _ ht.chunk
  rw [Logged.takeChunk, if_pos hx, hk]
  refine Within.bind (Q := fun r _ => r = null) ?_ fun r _ hr => ?_
  · rw [Logged.spliteFreeChunk]
    refine Logged.within_load (Or.inl (allowed_header hl hself (Or.inr rfl))) ?_
    rw [hinfo]
    refine within_ite (fun _ => ?_) fun hlarge => absurd hrest hlarge
    refine Logged.within_store (Or.inl (allowed_header hl hnext (Or.inl rfl))) ?_
    refine Logged.within_store (Or.inl (allowed_header hl hself (Or.inr rfl))) ?_
    exact within_pure rfl
  · rw [hr]
    exact Logged.within_load (Or.inr rfl) (within_pure trivial)

/-- **`malloc` writes into no block.** -/
theorem HeapInv.malloc_keeps (hi : HeapInv B h c) (hsize : Size.toNat ≤ 2 ^ 32 - 24)
    (hm : h.malloc Size = some (h', p)) (hx : c x = some ⟨n, true⟩) (hw : x + 8 ≤ w)
    (hlt : w < x + n) : h'.mem w = h.mem w := by
  obtain ⟨hreq, hreq4, -⟩ := request_spec Size.toNat
  have hl := hi.layout
  have he : (Logged.malloc Size).erase h = some (h', p) := (Logged.erase_malloc Size).trans hm
  obtain ⟨R, hR, ⟨heq, hnone⟩ | ⟨y, m, h₁, heq, ht, hfit, hlock, -⟩⟩ := hi.search hsize
  · rw [hi.malloc_not_found heq, Option.some.injEq, Prod.mk.injEq] at hm
    rw [hm.1]
  · by_cases hsmall : m < R.toNat + 24
    · have hwithin := hi.within_malloc_of heq (ht.within_takeWhole hfit hsmall) fun _ => Or.inl
      refine Logged.word_eq hwithin he fun z hz => ?_
      rcases hz with hz | rfl
      · exact hz.ne_word hl hx hw hlt
      · exact null_ne_word hl hx hw
    · have hwithin := hi.within_malloc_of heq
        (ht.within_takeChunk (by omega) (by omega) (by omega)) fun _ => Or.inl
      have hne : x ≠ y := by
        rintro rfl
        rw [ht.chunk] at hx
        simp at hx
      have hx' : allocated c y m (R.toNat + 8) x = some ⟨n, true⟩ :=
        (allocated_used hl ht.chunk (by omega) hne).mpr hx
      obtain ⟨h₂, -, hl', -⟩ := ht.takeChunk (by omega) hfit (by omega)
      refine Logged.word_eq hwithin he fun z hz => ?_
      rcases hz with hz | hz
      · exact hz.ne_word hl hx hw hlt
      · exact hz.ne_word hl' hx' hw hlt

/-- **`free` writes into no other block.** -/
theorem HeapInv.free_keeps (hi : HeapInv (bankSet banks) h c) {m : ℕ}
    (ha : c a = some ⟨m, true⟩) (hf : h.free (a + 8) = some h') (hx : c x = some ⟨n, true⟩)
    (hne : x ≠ a) (hw : x + 8 ≤ w) (hlt : w < x + n) : h'.mem w = h.mem w := by
  obtain ⟨h₁, c₁, hfree₁, hi₁, hused⟩ := hi.free ha
  obtain ⟨h₂, c₂, hfree₂, hi₂, hwithin⟩ := hi.within_free ha
  obtain rfl : h' = h₁ := Option.some.inj (hf.symm.trans hfree₁)
  obtain rfl : h' = h₂ := Option.some.inj (hf.symm.trans hfree₂)
  have he : (Logged.free (a + 8)).erase h = some (h', ()) := by
    rw [Logged.erase_free, hf]
    rfl
  -- the heap tells which chunks there are
  have hx₂ : c₂ x = some ⟨n, true⟩ :=
    hi₂.chunkAt_iff.mp (hi₁.chunkAt_iff.mpr ((hused x n).mpr ⟨hne, hx⟩))
  refine Logged.word_eq hwithin he fun z hz => ?_
  rcases hz with hz | hz
  · exact hz.ne_word hi.layout hx hw hlt
  · exact hz.ne_word hi₂.layout hx₂ hw hlt

end Words

/-! ### What an allocator is for -/

/-- A block: its size, and the word that was last written at an offset, if one was. -/
structure Block where
  Size : Int32U
  word : ℕ → Option Int32U

/-- The blocks of a program, by their addresses. -/
abbrev Blocks : Type := ℕ → Option Block

/-- The `Size` bytes from `p` lie in a bank, apart from all blocks. -/
structure Blocks.Room (banks : List Bank) (b : Blocks) (p Size : ℕ) : Prop where
  bank : ∃ k ∈ banks, (interval k).1 ≤ p ∧ p + Size ≤ (interval k).2
  new : b p = none
  apart : ∀ q d, b q = some d → p + Size ≤ q ∨ q + d.Size.toNat ≤ p

/-- **What the calls are to do.** `malloc` makes a new block apart from the others, or none; `free`
takes a block away; a word that is written is part of its block. -/
inductive Blocks.Step (banks : List Bank) : Blocks → Call → Blocks → Prop where
  | null (b : Blocks) (Size : Int32U) : Step banks b (.malloc Size) b
  | malloc (b : Blocks) (Size : Int32U) (p : ℕ) (h : b.Room banks p Size.toNat) :
      Step banks b (.malloc Size) (Function.update b p (some ⟨Size, fun _ => none⟩))
  | free (b : Blocks) (p : ℕ) (d : Block) (h : b p = some d) :
      Step banks b (.free p) (Function.update b p none)
  | store (b : Blocks) (p o : ℕ) (v : Int32U) (d : Block) (h : b p = some d)
      (ho : o < d.Size.toNat) :
      Step banks b (.store p (p + o) v)
        (Function.update b p (some ⟨d.Size, Function.update d.word o (some v)⟩))

/-- The blocks after some calls. -/
inductive Blocks.Run (banks : List Bank) : Blocks → List Call → Blocks → Prop where
  | nil (b : Blocks) : Run banks b [] b
  | cons {b b₁ b' : Blocks} {a : Call} {calls : List Call} (h : Blocks.Step banks b a b₁)
      (hrun : Run banks b₁ calls b') : Run banks b (a :: calls) b'

/-- **The heap holds the blocks**: they are those that were handed out, and a word that was
written can be read. -/
structure Holds (s : Session) (b : Blocks) : Prop where
  live : ∀ p, s.live p = (b p).map Block.Size
  word : ∀ p d o v, b p = some d → d.word o = some v →
    o < d.Size.toNat ∧ s.heap.mem (p + o) = v.toNat

section Holds

variable {banks : List Bank} {h₀ h' : Heap} {s s' s₀ : Session} {c : ℕ → Option Piece} {b : Blocks}
  {a : Call} {calls : List Call} {Size v : Int32U} {p w : ℕ}

lemma Holds.isSome (hb : Holds s b) (hp : s.live p = some Size) : ∃ d, b p = some d ∧
    d.Size = Size := by
  rw [hb.live p] at hp
  exact Option.map_eq_some_iff.mp hp

/-- The words of a block lie in its chunk. -/
lemma Holds.chunk (hb : Holds s b) (hi : SessionInv banks s c) {d : Block} (hd : b p = some d) :
    ∃ x n, p = x + 8 ∧ c x = some ⟨n, true⟩ ∧ d.Size.toNat + 8 ≤ n := by
  have hp : s.live p = some d.Size := by
    rw [hb.live p, hd]
    rfl
  obtain ⟨x, n, rfl, hx⟩ := hi.block p _ hp
  obtain ⟨Size, hSize, hroom⟩ := hi.live x n hx
  rw [hp, Option.some.injEq] at hSize
  exact ⟨x, n, rfl, hx, hSize ▸ hroom⟩

/-- **`malloc`** makes a block apart from the others, or none, and keeps all words. -/
lemma Holds.malloc (hb : Holds s b) (hi : SessionInv banks s c)
    (hnot : ¬ Overflows s (.malloc Size)) (hs : s.step (.malloc Size) = some s') :
    ∃ b', Blocks.Step banks b (.malloc Size) b' ∧ Holds s' b' := by
  rw [Session.step, Option.map_eq_some_iff] at hs
  obtain ⟨⟨h', p⟩, heq, rfl⟩ := hs
  dsimp only
  have hnull : s.heap.malloc Size = some (s.heap, null) → ∃ b', Blocks.Step banks b (.malloc Size) b' ∧
      Holds ⟨h', if p = null then s.live else Function.update s.live p (some Size)⟩ b' := by
    intro h
    rw [heq, Option.some.injEq, Prod.mk.injEq] at h
    rw [if_pos h.2, h.1]
    exact ⟨b, .null b Size, hb⟩
  by_cases hsize : Size.toNat ≤ 2 ^ 32 - 24
  · rcases hi.malloc hsize with ⟨h, -⟩ | ⟨x, n, h₁, h, hx, -, hi'⟩
    · exact hnull h
    · rw [heq, Option.some.injEq, Prod.mk.injEq] at h
      obtain ⟨rfl, rfl⟩ := h
      rw [if_neg (show x + 8 ≠ null from Nat.succ_ne_zero _)]
      have hplaced := hi.placed_of_malloc hi' hx
      have hnone : b (x + 8) = none := by
        by_contra hsome
        obtain ⟨d, hd⟩ := Option.ne_none_iff_exists'.mp hsome
        obtain ⟨y, m, hyx, hy, -⟩ := hb.chunk hi hd
        obtain rfl : x = y := Nat.add_right_cancel hyx
        rw [hx] at hy
        simp at hy
      refine ⟨_, .malloc b Size (x + 8) ⟨hplaced.bank, hnone, fun q d hd => ?_⟩, fun q => ?_,
        fun q d o v hd ho => ?_⟩
      · refine hplaced.blocks q d.Size ?_
        rw [hb.live q, hd]
        rfl
      · dsimp only
        rw [Function.update_apply, Function.update_apply]
        split_ifs
        · rfl
        · exact hb.live q
      · by_cases hqx : q = x + 8
        · rw [hqx, Function.update_self, Option.some.injEq] at hd
          rw [← hd] at ho
          simp at ho
        · rw [Function.update_of_ne hqx] at hd
          obtain ⟨hlt, hword⟩ := hb.word q d o v hd ho
          obtain ⟨y, m, rfl, hy, hroom⟩ := hb.chunk hi hd
          exact ⟨hlt, (hi.heap.malloc_keeps hsize heq hy (by omega) (by omega)).trans hword⟩
  · have hsize' := not_le.mp hsize
    exact hnull (hi.heap.malloc_null hsize' fun hfinds => hnot ⟨hsize', hfinds⟩)

/-- **`free`** takes a block away, and keeps the words of the others. -/
lemma Holds.free (hb : Holds s b) (hi : SessionInv banks s c) (hs : s.step (.free p) = some s') :
    ∃ b', Blocks.Step banks b (.free p) b' ∧ Holds s' b' := by
  rw [Session.step] at hs
  split_ifs at hs with hp
  obtain ⟨h', heq, rfl⟩ := Option.map_eq_some_iff.mp hs
  obtain ⟨Size, hSize⟩ := Option.isSome_iff_exists.mp hp
  obtain ⟨d, hd, -⟩ := hb.isSome hSize
  obtain ⟨x, m, rfl, hx, -⟩ := hb.chunk hi hd
  refine ⟨_, .free b _ d hd, fun q => ?_, fun q e o v he ho => ?_⟩
  · dsimp only
    rw [Function.update_apply, Function.update_apply]
    split_ifs
    · rfl
    · exact hb.live q
  · obtain ⟨hqx, he⟩ := eq_some_of_erase he
    obtain ⟨hlt, hword⟩ := hb.word q e o v he ho
    obtain ⟨y, k, rfl, hy, hroom⟩ := hb.chunk hi he
    refine ⟨hlt, Eq.trans ?_ hword⟩
    exact hi.heap.free_keeps hx heq hy (by omega) (by omega) (by omega)

/-- **A write** changes one word of one block. -/
lemma Holds.store (hb : Holds s b) (hi : SessionInv banks s c)
    (hs : s.step (.store p w v) = some s') :
    ∃ b', Blocks.Step banks b (.store p w v) b' ∧ Holds s' b' := by
  rw [Session.step, Option.bind_eq_some_iff] at hs
  obtain ⟨Size, hSize, hs⟩ := hs
  split_ifs at hs with hw
  obtain rfl := Option.some.inj hs
  obtain ⟨d, hd, rfl⟩ := hb.isSome hSize
  obtain ⟨o, rfl⟩ := Nat.exists_eq_add_of_le hw.1
  have ho : o < d.Size.toNat := by omega
  refine ⟨_, .store b p o v d hd ho, fun q => ?_, fun q e i u he hu => ?_⟩
  · rw [Function.update_apply]
    split_ifs with hqp
    · rw [hqp, Option.map_some]
      exact hSize
    · exact hb.live q
  · dsimp only [write]
    by_cases hqp : q = p
    · rw [hqp, Function.update_self, Option.some.injEq] at he
      subst he
      subst hqp
      dsimp only at hu ⊢
      by_cases hio : i = o
      · rw [hio, Function.update_self, Option.some.injEq] at hu
        rw [hio, hu, Function.update_self]
        exact ⟨ho, rfl⟩
      · rw [Function.update_of_ne hio] at hu
        rw [Function.update_of_ne (by omega)]
        exact hb.word q d i u hd hu
    · rw [Function.update_of_ne hqp] at he
      obtain ⟨hlt, hword⟩ := hb.word q e i u he hu
      have hlive : Function.update s.live p none q = some e.Size := by
        rw [Function.update_of_ne hqp, hb.live q, he]
        rfl
      have := (hi.placed hSize).blocks q e.Size hlive
      rw [Function.update_of_ne (by omega)]
      exact ⟨hlt, hword⟩

/-- **One call.** -/
lemma Holds.step (hb : Holds s b) (hi : SessionInv banks s c) (hnot : ¬ Overflows s a)
    (hs : s.step a = some s') : ∃ b', Blocks.Step banks b a b' ∧ Holds s' b' := by
  cases a with
  | malloc Size => exact hb.malloc hi hnot hs
  | free p => exact hb.free hi hs
  | store p w v => exact hb.store hi hs

/-- **The heap is an allocator.** Set up on memory banks and used in any order, without a request
so large that its size wraps and finds a chunk all the same, the heap is one of disjoint blocks in
the banks: `malloc` returns `NULL` or a block apart from all others, and what the program writes
into a block stays there, whatever it allocates, frees and writes elsewhere, until it frees the
block. -/
theorem blocks_refine (hr : Registrable (registered banks))
    (hstart : Session.start h₀ banks = some s₀)
    (hrun : Run.exec Session.step s₀ calls = some s)
    (hnot : Run.Along Session.step (fun s a _ => ¬ Overflows s a) s₀ calls) :
    ∃ b, Blocks.Run (registered banks) (fun _ => none) calls b ∧ Holds s b := by
  have hsound : Sound (registered banks) s₀ := SessionInv.start_registered hr hstart
  have hb : Holds s₀ fun _ => none := by
    obtain ⟨r, -, rfl⟩ := Option.map_eq_some_iff.mp hstart
    exact ⟨fun _ => rfl, fun p d o v hd => by simp at hd⟩
  clear hstart
  generalize (fun _ => none : Blocks) = b₀ at hb ⊢
  induction calls generalizing s₀ b₀ with
  | nil =>
      obtain rfl : s₀ = s := Option.some.inj hrun
      exact ⟨b₀, .nil b₀, hb⟩
  | cons a calls ih =>
      rw [Run.exec, Option.bind_eq_some_iff] at hrun
      obtain ⟨s₁, hs, hrun⟩ := hrun
      obtain ⟨ha, hnot⟩ := hnot s₁ hs
      obtain ⟨c, hi⟩ := hsound
      obtain ⟨b₁, hstep, hb₁⟩ := hb.step hi ha hs
      obtain ⟨b', hrest, hb'⟩ := ih hrun hnot (hi.step ha hs).1 b₁ hb₁
      exact ⟨b', .cons hstep hrest, hb'⟩

/-- Two blocks; a word of the first one, which is freed. -/
theorem blocks_refine_twoBlocks : ∃ s₀ s b, Session.start blank twoBanks = some s₀ ∧
    Run.exec Session.step s₀ twoBlocks = some s ∧
    Blocks.Run (registered twoBanks) (fun _ => none) twoBlocks b ∧ Holds s b := by
  obtain ⟨s₀, s, hs, hrun⟩ := twoBlocks_run
  obtain ⟨b, hb⟩ := blocks_refine (by rw [registered_twoBanks]; exact registrable_twoBanks) hs hrun
    (not_overflows_of_le twoBlocks_size)
  exact ⟨s₀, s, b, hs, hrun, hb⟩

end Holds

end Heap

end ChinaOS
