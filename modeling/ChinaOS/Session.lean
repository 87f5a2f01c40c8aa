import ChinaOS.Overflow
import ChinaOS.Run
import ChinaOS.Walk

/-!
A program that uses the allocator: `mallocor_setup`, and then any calls of `malloc` and `free`,
and writes into the blocks that the program holds.

* `Session`: the heap and the blocks in use. `Session.step`: what a call does.
* `SessionInv`: the invariant of a run, with one lemma for each call.
* `boundary_tags`, `bins_exact`, `malloc_complete`: what holds after every run of requests of
  proper sizes.
* `adequate_iff`: every block that `malloc` returns is where it should be, exactly in the runs
  without a wrapped request that finds a chunk.
-/

namespace ChinaOS

namespace Heap

open Tiling

/-- The heap, and the blocks that were handed out and not freed, with the sizes they were asked
for. -/
structure Session where
  heap : Heap
  live : ℕ → Option Int32U

/-- A call of `malloc`, a call of `free` on a block, or a write to the word `w` of a block. -/
inductive Call where
  | malloc (Size : Int32U)
  | free (pMemory : ℕ)
  | store (pMemory w : ℕ) (v : Int32U)

/-- The heap after the setup, with no block in use. -/
def Session.start (h : Heap) (aRamBanks : List Bank) : Option Session :=
  (h.mallocorSetup aRamBanks).map fun r => ⟨r.1, fun _ => none⟩

/-- What a call does. The program frees blocks that it holds, and writes to them. -/
def Session.step (s : Session) : Call → Option Session
  | .malloc Size => (s.heap.malloc Size).map fun r =>
      ⟨r.1, if r.2 = null then s.live else Function.update s.live r.2 (some Size)⟩
  | .free p =>
      if (s.live p).isSome then
        (s.heap.free p).map fun h => ⟨h, Function.update s.live p none⟩
      else none
  | .store p w v => (s.live p).bind fun Size =>
      if p ≤ w ∧ w < p + Size.toNat ∧ w % 4 = 0 then some ⟨s.heap.write w v.toNat, s.live⟩
      else none

/-- A request that wraps and finds a chunk all the same. -/
def Overflows (s : Session) : Call → Prop
  | .malloc Size => 2 ^ 32 - 24 < Size.toNat ∧ s.heap.Finds (alignUpside (Size + 16#32) 4)
  | _ => False

/-- The `Size` bytes from `p` lie in a bank, before the header at its end, and apart from the
blocks `live`, from all headers and from the free chunks. -/
structure Placed (banks : List Bank) (h : Heap) (live : ℕ → Option Int32U) (p Size : ℕ) :
    Prop where
  bank : ∃ b ∈ banks, (interval b).1 ≤ p ∧ p + Size ≤ (interval b).2
  blocks : ∀ q Size', live q = some Size' → p + Size ≤ q ∨ q + Size'.toNat ≤ p
  headers : ∀ x t, h.ChunkAt banks x t → p + Size ≤ x ∨ x + 8 ≤ p
  ends : ∀ b ∈ banks, p + Size ≤ (interval b).2 ∨ (interval b).2 + 8 ≤ p
  free : ∀ x n, h.ChunkAt banks x ⟨n, false⟩ → p + Size ≤ x ∨ x + n ≤ p

/-- What `malloc` returns is `NULL` or well placed. -/
def Adequate (banks : List Bank) (s : Session) (a : Call) (_ : Session) : Prop :=
  ∀ Size h' p, a = .malloc Size → s.heap.malloc Size = some (h', p) → p ≠ null →
    Placed banks h' s.live p Size.toNat

/-- **The invariant of a run**: the used chunks are the blocks that the program holds, and they
have room for them. -/
structure SessionInv (banks : List Bank) (s : Session) (c : ℕ → Option Piece) : Prop where
  heap : HeapInv (bankSet banks) s.heap c
  live : ∀ a n, c a = some ⟨n, true⟩ → ∃ Size, s.live (a + 8) = some Size ∧ Size.toNat + 8 ≤ n
  block : ∀ p Size, s.live p = some Size → ∃ a n, p = a + 8 ∧ c a = some ⟨n, true⟩

/-- The invariant holds for some chunks. -/
def Sound (banks : List Bank) (s : Session) : Prop := ∃ c, SessionInv banks s c

/-- **The boundary tags.** Every walk ends at the header at the end of its bank, the two words
that describe a chunk agree, the chunks in use are the blocks of the program, no two free chunks
are neighbours, and without a block in use each bank is the chunk that it was after the setup. No
call is stuck. -/
structure Tagged (banks : List Bank) (s : Session) : Prop where
  walk_end : ∀ b ∈ banks, ∃ n, s.heap.walk b n = (interval b).2 ∧
    ∀ k < n, s.heap.walk b k < (interval b).2
  tag : ∀ a t, s.heap.ChunkAt banks a t →
    s.heap.prevInfo (s.heap.nextChunk a) = s.heap.thisInfo a
  used_iff : ∀ p, (s.live p).isSome ↔ ∃ a n, s.heap.ChunkAt banks a ⟨n, true⟩ ∧ p = a + 8
  coalesced : ∀ a t t', s.heap.ChunkAt banks a t → s.heap.ChunkAt banks (s.heap.nextChunk a) t' →
    t.used = true ∨ t'.used = true
  single : (∀ p, s.live p = none) → ∀ b ∈ banks, ∀ a t,
    s.heap.Met b a ∧ s.heap.pieceAt a = t ↔
      a = (interval b).1 ∧ t = ⟨(interval b).2 - (interval b).1, false⟩
  malloc_returns : ∀ Size : Int32U, Size.toNat ≤ 2 ^ 32 - 32 → ∃ s', s.step (.malloc Size) = some s'
  free_returns : ∀ p, (s.live p).isSome → ∃ s', s.step (.free p) = some s'

section Session

variable {banks : List Bank} {h₀ h' : Heap} {s s' s₀ : Session} {c : ℕ → Option Piece}
  {Size v : Int32U} {p w x n : ℕ} {a : Call} {calls : List Call}

/-- Requests of proper sizes do not overflow. -/
lemma not_overflows_of_le (hsize : ∀ Size, .malloc Size ∈ calls → Size.toNat ≤ 2 ^ 32 - 32) :
    Run.Along Session.step (fun s a _ => ¬ Overflows s a) s₀ calls := by
  refine Run.along_of_mem fun a ha s s' _ => ?_
  cases a with
  | malloc Size =>
      have := hsize Size ha
      rintro ⟨hlt, -⟩
      omega
  | free p => exact id
  | store p w v => exact id

/-! ### The calls -/

namespace SessionInv

/-- The setup. -/
lemma start (hr : Registrable banks) (hs : Session.start h₀ banks = some s₀) :
    Sound banks s₀ := by
  obtain ⟨h', c, heq, hi, hu⟩ := mallocorSetup_spec (h := h₀) hr
  rw [Session.start, heq, Option.map_some, Option.some.injEq] at hs
  subst hs
  exact ⟨c, hi, fun a n ha => absurd ha (hu a n), fun p Size hp => by simp at hp⟩

/-- **`malloc`** returns `NULL` or a chunk that was free. -/
lemma malloc (hi : SessionInv banks s c) (hsize : Size.toNat ≤ 2 ^ 32 - 24) :
    (s.heap.malloc Size = some (s.heap, null) ∧
      ∀ a n, c a = some ⟨n, false⟩ → n - 8 < request Size.toNat) ∨
    ∃ x n h', s.heap.malloc Size = some (h', x + 8) ∧ c x = some ⟨n, false⟩ ∧
      request Size.toNat + 8 ≤ n ∧
      SessionInv banks ⟨h', Function.update s.live (x + 8) (some Size)⟩
        (allocated c x n (request Size.toNat + 8)) := by
  obtain ⟨-, -, hreq⟩ := request_spec Size.toNat
  rcases hi.heap.malloc hsize with hnull | ⟨x, n, h', heq, hx, hfit, hheap⟩
  · exact Or.inl hnull
  · refine Or.inr ⟨x, n, h', heq, hx, hfit, hheap, fun a m ha => ?_, fun p Size' hp => ?_⟩
    · dsimp only
      by_cases hax : a = x
      · obtain ⟨m', hm', hcase⟩ := allocated_self (c := c) (x := x) (n := n)
          (k := request Size.toNat + 8) (by omega)
        rw [hax, hm', Option.some.injEq, Piece.mk.injEq] at ha
        exact ⟨Size, by rw [hax, Function.update_self], by omega⟩
      · rw [Function.update_of_ne (by omega)]
        exact hi.live a m ((allocated_used hi.heap.layout hx (by omega) hax).mp ha)
    · dsimp only at hp
      by_cases hpx : p = x + 8
      · obtain ⟨m, hm, -⟩ := allocated_self (c := c) (x := x) (n := n)
          (k := request Size.toNat + 8) (by omega)
        exact ⟨x, m, hpx, hm⟩
      · rw [Function.update_of_ne hpx] at hp
        obtain ⟨a, m, rfl, ha⟩ := hi.block p Size' hp
        exact ⟨a, m, rfl, (allocated_used hi.heap.layout hx (by omega) (by omega)).mpr ha⟩

/-- **`free`** gives a block back. -/
lemma free (hi : SessionInv banks s c) (hp : (s.live p).isSome) :
    ∃ h' c', s.heap.free p = some h' ∧
      SessionInv banks ⟨h', Function.update s.live p none⟩ c' := by
  obtain ⟨Size, hSize⟩ := Option.isSome_iff_exists.mp hp
  obtain ⟨x, n, rfl, hx⟩ := hi.block p Size hSize
  obtain ⟨h', c', heq, hheap, hused⟩ := hi.heap.free hx
  refine ⟨h', c', heq, hheap, fun a m ha => ?_, fun q Size' hq => ?_⟩
  · obtain ⟨hax, ha⟩ := (hused a m).mp ha
    dsimp only
    rw [Function.update_of_ne (by omega)]
    exact hi.live a m ha
  · dsimp only at hq
    obtain ⟨hqx, hq⟩ := Records.eq_some_of_erase hq
    obtain ⟨a, m, rfl, ha⟩ := hi.block q Size' hq
    exact ⟨a, m, rfl, (hused a m).mpr ⟨by omega, ha⟩⟩

/-- **What is written into a block** leaves the headers and the bins alone. -/
lemma overwrite (hi : SessionInv banks s c) (hp : s.live p = some Size)
    (hmem : ∀ w, w < p ∨ p + Size.toNat ≤ w → h'.mem w = s.heap.mem w)
    (hsame : h'.sameMap = s.heap.sameMap) (htree : h'.treeMap = s.heap.treeMap)
    (hlock : h'.lock = s.heap.lock) : SessionInv banks ⟨h', s.live⟩ c := by
  have hl := hi.heap.layout
  obtain ⟨x, n, rfl, hx⟩ := hi.block p Size hp
  obtain ⟨Size', hSize', hroom⟩ := hi.live x n hx
  rw [hp, Option.some.injEq] at hSize'
  subst hSize'
  have hle : x + n + 8 ≤ 2 ^ 32 := hl.le hx
  have hheader : ∀ w, Header (bankSet banks) c w → w < x + 8 ∨ x + 8 + Size.toNat ≤ w := by
    rintro w (⟨a, t, ha, hwa⟩ | ⟨b, hb, hwb⟩)
    · obtain ⟨ht, -, -⟩ := hl.size a t ha
      by_cases hax : a = x
      · omega
      · have := hl.outside hx ha hax
        dsimp only at this
        omega
    · obtain ⟨b', hb', h₁, h₂⟩ := hl.tiling.inside x _ hx
      have := hl.tiling.nonempty b hb
      dsimp only at h₂
      by_cases hbb : b = b'
      · subst hbb
        omega
      · have := hl.banks.apart b hb b' hb' hbb
        omega
  have hown : ∀ y o, Own (freeOf c) y o → y + o < x + 8 ∨ x + 8 + Size.toNat ≤ y + o := by
    intro y o hy
    rcases hy.cases with ⟨m, hm, ho⟩ | ⟨i, -, rfl, -⟩ | ⟨i, -, rfl, -⟩
    · have hcy := freeOf_eq_some.mp hm
      obtain ⟨ho₁, ho₂, ho₃⟩ := ho
      have hyx : y ≠ x := by
        rintro rfl
        rw [hx] at hcy
        simp at hcy
      have := hl.outside hx hcy hyx
      dsimp only at this
      omega
    · simp only [getSameChunkGroup, mallocor]
      omega
    · simp only [treeSlot, mallocor]
      omega
  exact ⟨⟨hl, hi.heap.tags.congr hl fun w hw => hmem w (hheader w hw),
    hi.heap.bins.congr hl.chunks (fun y o hy => hmem _ (hown y o hy)) hsame htree,
    hi.heap.coalesced, hlock.trans hi.heap.lock⟩, hi.live, hi.block⟩

/-- **A write to a block** keeps the invariant. -/
lemma store (hi : SessionInv banks s c) (hp : s.live p = some Size) (hw : p ≤ w)
    (hlt : w < p + Size.toNat) {v : ℕ} : SessionInv banks ⟨s.heap.write w v, s.live⟩ c :=
  hi.overwrite hp (fun w' hw' => Function.update_of_ne (by omega) _ _) rfl rfl rfl

/-- **A block of the program is well placed**, apart from its other blocks. -/
theorem placed (hi : SessionInv banks s c) (hp : s.live p = some Size) :
    Placed banks s.heap (Function.update s.live p none) p Size.toNat := by
  have hl := hi.heap.layout
  obtain ⟨x, n, rfl, hx⟩ := hi.block p Size hp
  obtain ⟨Size₁, hSize₁, hroom⟩ := hi.live x n hx
  rw [hp, Option.some.injEq] at hSize₁
  subst hSize₁
  obtain ⟨-, ⟨b, hb, rfl⟩, h₁, h₂⟩ := hl.tiling.inside x _ hx
  dsimp only at h₂
  refine ⟨⟨b, hb, by omega, by omega⟩, fun q Size' hq => ?_, fun y t hy => ?_, fun b' hb' => ?_,
    fun y m hy => ?_⟩
  · obtain ⟨hqx, hq⟩ := Records.eq_some_of_erase hq
    obtain ⟨y, m, rfl, hy⟩ := hi.block q Size' hq
    obtain ⟨Size₂, hSize₂, hroom'⟩ := hi.live y m hy
    rw [hq, Option.some.injEq] at hSize₂
    subst hSize₂
    have := hl.outside hx hy (by omega)
    dsimp only at this
    omega
  · have hcy := hi.heap.chunkAt_iff.mp hy
    have hsize := (hl.size y t hcy).1
    by_cases hyx : y = x
    · exact Or.inr (by omega)
    · have := hl.outside hx hcy hyx
      dsimp only at this
      omega
  · by_cases hbb : interval b' = interval b
    · rw [hbb]
      exact Or.inl (by omega)
    · have := hl.banks.apart _ ⟨b', hb', rfl⟩ _ ⟨b, hb, rfl⟩ hbb
      have := hl.tiling.nonempty _ ⟨b', hb', rfl⟩
      omega
  · have hcy := hi.heap.chunkAt_iff.mp hy
    have hyx : y ≠ x := by
      rintro rfl
      rw [hx] at hcy
      simp at hcy
    have := hl.outside hx hcy hyx
    dsimp only at this
    omega

/-- **A block that was handed out** is well placed, apart from those that the program had. -/
theorem placed_of_malloc (hi : SessionInv banks s c) {c' : ℕ → Option Piece}
    (hi' : SessionInv banks ⟨h', Function.update s.live (x + 8) (some Size)⟩ c')
    (hx : c x = some ⟨n, false⟩) : Placed banks h' s.live (x + 8) Size.toNat := by
  -- the chunk was free, so that no block was there
  have hfree : s.live (x + 8) = none := by
    by_contra hsome
    obtain ⟨Size₁, hSize₁⟩ := Option.ne_none_iff_exists'.mp hsome
    obtain ⟨y, m, hyx, hy⟩ := hi.block _ Size₁ hSize₁
    obtain rfl : x = y := Nat.add_right_cancel hyx
    rw [hx] at hy
    simp at hy
  have hplaced := hi'.placed (p := x + 8) (Function.update_self ..)
  dsimp only at hplaced
  rwa [Function.update_idem, ← hfree, Function.update_eq_self] at hplaced

/-! ### Steps and runs -/

/-- **A call that does not overflow** keeps the invariant, and what it returns is well placed. -/
theorem step (hi : SessionInv banks s c) (hnot : ¬ Overflows s a) (hs : s.step a = some s') :
    Sound banks s' ∧ Adequate banks s a s' := by
  cases a with
  | malloc Size =>
      have hnull : s.heap.malloc Size = some (s.heap, null) →
          Sound banks s' ∧ Adequate banks s (.malloc Size) s' := by
        intro heq
        rw [Session.step, heq, Option.map_some, Option.some.injEq] at hs
        subst hs
        refine ⟨⟨c, hi⟩, fun Size' h' p ha hp hne => ?_⟩
        obtain rfl : Size = Size' := Call.malloc.inj ha
        rw [heq, Option.some.injEq, Prod.mk.injEq] at hp
        exact absurd hp.2.symm hne
      by_cases hsize : Size.toNat ≤ 2 ^ 32 - 24
      · rcases hi.malloc hsize with ⟨heq, -⟩ | ⟨x, n, h', heq, hx, -, hi'⟩
        · exact hnull heq
        · have hne : x + 8 ≠ null := Nat.succ_ne_zero _
          rw [Session.step, heq, Option.map_some, Option.some.injEq, if_neg hne] at hs
          subst hs
          refine ⟨⟨_, hi'⟩, fun Size' h₁ p ha hp _ => ?_⟩
          obtain rfl : Size = Size' := Call.malloc.inj ha
          rw [heq, Option.some.injEq, Prod.mk.injEq] at hp
          obtain ⟨rfl, rfl⟩ := hp
          exact hi.placed_of_malloc hi' hx
      · have hsize' := not_le.mp hsize
        exact hnull (hi.heap.malloc_null hsize' fun hfinds => hnot ⟨hsize', hfinds⟩)
  | free p =>
      refine ⟨?_, fun _ _ _ ha => by simp at ha⟩
      rw [Session.step] at hs
      split_ifs at hs with hp
      obtain ⟨h', c', heq, hi'⟩ := hi.free hp
      rw [heq, Option.map_some, Option.some.injEq] at hs
      exact ⟨c', hs ▸ hi'⟩
  | store p w v =>
      refine ⟨?_, fun _ _ _ ha => by simp at ha⟩
      rw [Session.step, Option.bind_eq_some_iff] at hs
      obtain ⟨Size, hp, hs⟩ := hs
      split_ifs at hs with hw
      rw [Option.some.injEq] at hs
      exact ⟨c, hs ▸ hi.store hp hw.1 hw.2.1⟩

/-- **A request that overflows** is not served well, where it returns. -/
theorem not_adequate (hi : SessionInv banks s c) (ha : Overflows s a) (hs : s.step a = some s') :
    ¬ Adequate banks s a s' := by
  intro hadequate
  cases a with
  | malloc Size =>
      obtain ⟨hsize, hfinds⟩ := ha
      rw [Session.step, Option.map_eq_some_iff] at hs
      obtain ⟨⟨h', p⟩, heq, -⟩ := hs
      obtain ⟨x, n, hx, rfl⟩ := hi.heap.malloc_finds hsize hfinds heq
      obtain ⟨b, -, -, hend⟩ := (hadequate Size h' _ rfl heq (Nat.succ_ne_zero _)).bank
      have hpos := hi.heap.layout.pos hx
      obtain ⟨-, -, hx4⟩ := hi.heap.layout.size x _ hx
      have hb4 := bankEnd_mod (b := b)
      have hb := (bankEnd b).isLt
      dsimp only [interval] at hend
      omega
  | free p => exact ha
  | store p w v => exact ha

/-- The setup passes over the banks that it does not register. -/
lemma start_registered (hr : Registrable (registered banks))
    (hs : Session.start h₀ banks = some s₀) : Sound (registered banks) s₀ := by
  have hs' : Session.start h₀ (registered banks) = some s₀ := by
    rw [Session.start, mallocorSetup_registered]
    exact hs
  exact start hr hs'

/-- **The invariant holds after every run** without an overflow. -/
theorem reached (hr : Registrable (registered banks)) (hs : Session.start h₀ banks = some s₀)
    (hgood : Run.Along Session.step (fun s a _ => ¬ Overflows s a) s₀ calls)
    (hrun : Run.exec Session.step s₀ calls = some s) : Sound (registered banks) s := by
  refine Run.invariant_of_exec (fun s a s' hi hnot hs => ?_) (start_registered hr hs) hgood hrun
  obtain ⟨c, hi⟩ := hi
  exact (hi.step hnot hs).1

/-- **The invariant holds after every run** of requests of proper sizes. -/
theorem run (hr : Registrable banks) (hs : Session.start h₀ banks = some s₀)
    (hsize : ∀ Size, .malloc Size ∈ calls → Size.toNat ≤ 2 ^ 32 - 32)
    (hrun : Run.exec Session.step s₀ calls = some s) : Sound banks s := by
  have hstart : Sound banks s₀ := start hr hs
  refine Run.invariant_of_exec (fun s a s' hi hnot hs => ?_) hstart (not_overflows_of_le hsize) hrun
  obtain ⟨c, hi⟩ := hi
  exact (hi.step hnot hs).1

/-- The boundary tags under the invariant. -/
theorem tagged (hi : SessionInv banks s c) : Tagged banks s := by
  have hl := hi.heap.layout
  refine ⟨fun b hb => hi.heap.walk_end ⟨b, hb, rfl⟩, fun a t ha => ?_, fun p => ⟨fun hp => ?_, ?_⟩,
    fun a t t' ha ha' => ?_, fun hnone b hb a t => ?_, fun Size hsize => ?_, fun p hp => ?_⟩
  · have hc := hi.heap.chunkAt_iff.mp ha
    rw [hi.heap.nextChunk_eq hc, hi.heap.tags.prev a t hc, hi.heap.tags.this a t hc]
  · obtain ⟨Size, hSize⟩ := Option.isSome_iff_exists.mp hp
    obtain ⟨a, n, rfl, ha⟩ := hi.block p Size hSize
    exact ⟨a, n, hi.heap.chunkAt_iff.mpr ha, rfl⟩
  · rintro ⟨a, n, ha, rfl⟩
    obtain ⟨Size, hSize, -⟩ := hi.live a n (hi.heap.chunkAt_iff.mp ha)
    exact Option.isSome_iff_exists.mpr ⟨Size, hSize⟩
  · have hc := hi.heap.chunkAt_iff.mp ha
    rw [hi.heap.nextChunk_eq hc] at ha'
    exact hi.heap.coalesced a t t' hc (hi.heap.chunkAt_iff.mp ha')
  · have hunused : Unused c := by
      intro y n hy
      obtain ⟨Size, hSize, -⟩ := hi.live y n hy
      rw [hnone] at hSize
      simp at hSize
    have hb' : interval b ∈ bankSet banks := ⟨b, hb, rfl⟩
    have hwhole := hi.heap.unused hunused hb'
    have hne := hl.tiling.nonempty _ hb'
    rw [hi.heap.met_iff hb']
    constructor
    · rintro ⟨⟨hsome, h₁, h₂⟩, rfl⟩
      have ha : a = (interval b).1 := by
        by_contra hab
        rw [hl.tiling.none_inside hwhole (by omega) (by dsimp only; omega)] at hsome
        simp at hsome
      exact ⟨ha, by rw [ha, hi.heap.pieceAt_eq hwhole]⟩
    · rintro ⟨rfl, rfl⟩
      exact ⟨⟨by rw [hwhole]; rfl, le_rfl, hne⟩, hi.heap.pieceAt_eq hwhole⟩
  · rcases hi.malloc (show Size.toNat ≤ 2 ^ 32 - 24 by omega) with ⟨heq, -⟩ | ⟨x, n, h', heq, -⟩
    · exact ⟨_, by rw [Session.step, heq, Option.map_some]⟩
    · exact ⟨_, by rw [Session.step, heq, Option.map_some]⟩
  · obtain ⟨h', c', heq, -⟩ := hi.free hp
    exact ⟨_, by rw [Session.step, if_pos hp, heq, Option.map_some]⟩

end SessionInv

/-! ### The results -/

/-- A heap before the setup. -/
def blank : Heap := ⟨fun _ => 0, 0, 0, 0⟩

/-- Two banks, of which one has to be aligned. -/
def twoBanks : List Bank := [⟨4097, 5203⟩, ⟨8192, 8300⟩]

lemma registrable_twoBanks : Registrable twoBanks := by
  refine ⟨fun b hb => ?_, List.pairwise_pair.mpr (by decide)⟩
  rcases List.mem_pair.mp hb with rfl | rfl <;> decide

lemma registered_twoBanks : registered twoBanks = twoBanks := by
  refine List.filter_eq_self.mpr fun b hb => ?_
  rcases List.mem_pair.mp hb with rfl | rfl <;> decide

/-- Two blocks, of which the first one is written to and freed. -/
def twoBlocks : List Call := [.malloc 100, .malloc 50, .store 4108 4200 7, .free 4108]

lemma twoBlocks_size (Size : Int32U) (hmem : .malloc Size ∈ twoBlocks) :
    Size.toNat ≤ 2 ^ 32 - 32 := by
  simp only [twoBlocks, List.mem_cons, Call.malloc.injEq, reduceCtorEq, or_false, List.not_mem_nil]
    at hmem
  rcases hmem with rfl | rfl <;> decide

lemma twoBlocks_run : ∃ s₀ s, Session.start blank twoBanks = some s₀ ∧
    Run.exec Session.step s₀ twoBlocks = some s := by
  have hrun : ((Session.start blank twoBanks).bind fun s₀ =>
      Run.exec Session.step s₀ twoBlocks).isSome = true := by decide +kernel
  obtain ⟨s, hs⟩ := Option.isSome_iff_exists.mp hrun
  obtain ⟨s₀, hs₀, hs⟩ := Option.bind_eq_some_iff.mp hs
  exact ⟨s₀, s, hs₀, hs⟩

/-- **The boundary tags hold** after every run of requests of proper sizes. -/
theorem boundary_tags (hr : Registrable banks) (hs : Session.start h₀ banks = some s₀)
    (hsize : ∀ Size, .malloc Size ∈ calls → Size.toNat ≤ 2 ^ 32 - 32)
    (hrun : Run.exec Session.step s₀ calls = some s) : Tagged banks s := by
  obtain ⟨c, hi⟩ := SessionInv.run hr hs hsize hrun
  exact hi.tagged

theorem boundary_tags_twoBlocks : ∃ s₀ s, Session.start blank twoBanks = some s₀ ∧
    Run.exec Session.step s₀ twoBlocks = some s ∧ Tagged twoBanks s := by
  obtain ⟨s₀, s, hs, hrun⟩ := twoBlocks_run
  exact ⟨s₀, s, hs, hrun, boundary_tags registrable_twoBanks hs twoBlocks_size hrun⟩

/-- **The bins are exact** after every run of requests of proper sizes. -/
theorem bins_exact (hr : Registrable banks) (hs : Session.start h₀ banks = some s₀)
    (hsize : ∀ Size, .malloc Size ∈ calls → Size.toNat ≤ 2 ^ 32 - 32)
    (hrun : Run.exec Session.step s₀ calls = some s) : s.heap.Indexed banks := by
  obtain ⟨c, hi⟩ := SessionInv.run hr hs hsize hrun
  exact hi.heap.indexed

theorem bins_exact_twoBlocks : ∃ s₀ s, Session.start blank twoBanks = some s₀ ∧
    Run.exec Session.step s₀ twoBlocks = some s ∧ s.heap.Indexed twoBanks := by
  obtain ⟨s₀, s, hs, hrun⟩ := twoBlocks_run
  exact ⟨s₀, s, hs, hrun, bins_exact registrable_twoBanks hs twoBlocks_size hrun⟩

/-- **`malloc` fails only where nothing fits**, and then changes nothing; otherwise it takes one
free chunk, and leaves at most one in its place. -/
theorem malloc_complete (hr : Registrable banks) (hs : Session.start h₀ banks = some s₀)
    (hsize : ∀ Size, .malloc Size ∈ calls → Size.toNat ≤ 2 ^ 32 - 32)
    (hrun : Run.exec Session.step s₀ calls = some s) (hSize : Size.toNat ≤ 2 ^ 32 - 32) :
    ∃ h' p, s.heap.malloc Size = some (h', p) ∧
      (p = null ↔ ∀ a m, s.heap.FreeAt banks a m → m < request Size.toNat) ∧
      (p = null → h' = s.heap) ∧
      (p ≠ null → ∃ x n, p = x + 8 ∧ s.heap.ChunkAt banks x ⟨n, false⟩ ∧
        request Size.toNat ≤ n - 8 ∧
        ((n - (request Size.toNat + 8) < 16 ∧ ∀ a t, h'.ChunkAt banks a t ↔
            if a = x then t = ⟨n, true⟩ else s.heap.ChunkAt banks a t) ∨
          (16 ≤ n - (request Size.toNat + 8) ∧ ∀ a t, h'.ChunkAt banks a t ↔
            if a = x then t = ⟨request Size.toNat + 8, true⟩
            else if a = x + (request Size.toNat + 8) then
              t = ⟨n - (request Size.toNat + 8), false⟩
            else s.heap.ChunkAt banks a t))) := by
  obtain ⟨c, hi⟩ := SessionInv.run hr hs hsize hrun
  rcases hi.malloc (show Size.toNat ≤ 2 ^ 32 - 24 by omega) with ⟨heq, hnone⟩ | ⟨x, n, h', heq, hx, hfit, hi'⟩
  · refine ⟨s.heap, null, heq, ⟨fun _ a m hm => ?_, fun _ => rfl⟩, fun _ => rfl,
      fun h => absurd rfl h⟩
    obtain ⟨n, hn, rfl⟩ := hi.heap.freeAt_iff.mp hm
    exact hnone a n hn
  · have hne : x + 8 ≠ null := Nat.succ_ne_zero _
    refine ⟨h', x + 8, heq, ⟨fun h => absurd h hne, fun hall => ?_⟩, fun h => absurd h hne,
      fun _ => ⟨x, n, rfl, hi.heap.chunkAt_iff.mpr hx, by omega, ?_⟩⟩
    · have := hall x _ (hi.heap.freeAt_iff.mpr ⟨n, hx, rfl⟩)
      omega
    · have hchunk : ∀ a t, h'.ChunkAt banks a t ↔
          allocated c x n (request Size.toNat + 8) a = some t := fun a t => hi'.heap.chunkAt_iff
      by_cases hrest : n - (request Size.toNat + 8) < minChunkSize
      · refine Or.inl ⟨hrest, fun a t => ?_⟩
        rw [hchunk, allocated_whole hrest]
        split_ifs
        · rw [Option.some.injEq, eq_comm]
        · exact hi.heap.chunkAt_iff.symm
      · refine Or.inr ⟨not_lt.mp hrest, fun a t => ?_⟩
        rw [hchunk, allocated_split hrest (Nat.succ_pos _)]
        split_ifs
        · rw [Option.some.injEq, eq_comm]
        · rw [Option.some.injEq, eq_comm]
        · exact hi.heap.chunkAt_iff.symm

theorem malloc_complete_twoBlocks : ∃ s₀ s h' p, Session.start blank twoBanks = some s₀ ∧
    Run.exec Session.step s₀ twoBlocks = some s ∧ s.heap.malloc 300 = some (h', p) ∧
    (p = null ↔ ∀ a m, s.heap.FreeAt twoBanks a m → m < request 300) := by
  obtain ⟨s₀, s, hs, hrun⟩ := twoBlocks_run
  obtain ⟨h', p, heq, hnull, -⟩ := malloc_complete registrable_twoBanks hs twoBlocks_size hrun
    (show (300 : Int32U).toNat ≤ 2 ^ 32 - 32 by decide)
  exact ⟨s₀, s, h', p, hs, hrun, heq, hnull⟩

/-- **`malloc` serves the requests** of a run well, each of any size, exactly if none of them
overflows and finds a chunk. -/
theorem adequate_iff (hr : Registrable (registered banks))
    (hs : Session.start h₀ banks = some s₀) :
    Run.Along Session.step (Adequate (registered banks)) s₀ calls ↔
      Run.Along Session.step (fun s a _ => ¬ Overflows s a) s₀ calls := by
  refine Run.along_iff_of_invariant (fun s a s' hi hnot hs => ?_) (fun s a s' hi hbad hs => ?_)
    (SessionInv.start_registered hr hs)
  · obtain ⟨c, hi⟩ := hi
    exact hi.step hnot hs
  · obtain ⟨c, hi⟩ := hi
    exact hi.not_adequate hbad hs

theorem adequate_iff_twoBlocks : ∃ s₀, Session.start blank twoBanks = some s₀ ∧
    Run.Along Session.step (Adequate (registered twoBanks)) s₀ twoBlocks := by
  obtain ⟨s₀, s, hs, -⟩ := twoBlocks_run
  exact ⟨s₀, hs, (adequate_iff (by rw [registered_twoBanks]; exact registrable_twoBanks) hs).mpr
    (not_overflows_of_le twoBlocks_size)⟩

/-- A request of `2 ^ 32 - 1` bytes is served with a block of 24 bytes. -/
theorem not_adequate_wrapped : ∃ s₀, Session.start blank [⟨4096, 4136⟩] = some s₀ ∧
    ¬ Run.Along Session.step (Adequate (registered [⟨4096, 4136⟩])) s₀ [.malloc 0xFFFFFFFF] := by
  have hserved : ((Session.start blank [⟨4096, 4136⟩]).bind fun s₀ =>
      (s₀.heap.malloc 0xFFFFFFFF).map Prod.snd) = some 4104 := by decide +kernel
  obtain ⟨s₀, hs, hserved⟩ := Option.bind_eq_some_iff.mp hserved
  obtain ⟨⟨h', p⟩, heq, rfl⟩ := Option.map_eq_some_iff.mp hserved
  refine ⟨s₀, hs, fun halong => ?_⟩
  have hstep : s₀.step (.malloc 0xFFFFFFFF) =
      some ⟨h', Function.update s₀.live 4104 (some 0xFFFFFFFF)⟩ := by
    rw [Session.step, heq]
    rfl
  obtain ⟨b, -, -, hend⟩ := ((halong _ hstep).1 _ h' 4104 rfl heq (by decide)).bank
  have hb := (bankEnd b).isLt
  have hsize : (0xFFFFFFFF : Int32U).toNat = 2 ^ 32 - 1 := rfl
  dsimp only [interval] at hend
  omega

end Session

end Heap

end ChinaOS
