import ChinaOS.Bit
import ChinaOS.Mailbox
import ChinaOS.Pipe
import ChinaOS.Session

/-!
The constructors `mailbox_new` and `pipe_new` on the heap of the allocator.

Both compute a number of bytes with wrapping products and sums and ask `malloc` for it. The
length of a pipe is rounded first, to twice its lowest set bit where it is no power of two.

* `constructors_cover_iff`: the bytes asked for have room for what the later calls use, exactly
  where the product and the sum do not wrap.
* `roundUp_lt`: the rounding goes below a length that is no power of two.
* `capacity_iff`: the pipes that hold as many elements as they were asked for.
-/

namespace ChinaOS

/-- The block that `malloc` returns for `Byte` bytes, if it is not `NULL`. -/
def Heap.block (h : Heap) (Byte : Int32U) : Option Int32U :=
  (h.malloc Byte).bind fun r =>
    let pMemory := BitVec.ofNat 32 r.2
    if pMemory = 0 then none else some pMemory

/-- The words of that block behind the header of a mailbox. -/
def Heap.slots (h : Heap) (Byte : Int32U) : Option (ℕ → Mail) :=
  (h.malloc Byte).bind fun r =>
    let pMemory := BitVec.ofNat 32 r.2
    if pMemory = 0 then none
    else some fun i => BitVec.ofNat 32 (r.1.mem (pMemory.toNat + 24 + 4 * i))

lemma Heap.block_ne_zero {h : Heap} {Byte pMemory : Int32U} (hb : h.block Byte = some pMemory) :
    pMemory ≠ 0 := by
  obtain ⟨r, -, hr⟩ := Option.bind_eq_some_iff.mp hb
  dsimp only at hr
  split_ifs at hr with h0
  exact Option.some.inj hr ▸ h0

namespace Mailbox

/-- What the header and the slots `0..Size` of a mailbox take up was asked for, and the number
was computed without a wrap. -/
structure Covered (b : Mailbox) : Prop where
  header : 24 ≤ b.byte.toNat
  slots : ∀ Index : Int32U, Index ≤ b.size → b.InBlock Index
  mul : BitVec.umulOverflow b.size 4 = false
  add : BitVec.uaddOverflow (b.size * 4) 28 = false

/-- The bytes of a mailbox suffice exactly if their number does not wrap. -/
lemma covered_iff {b : Mailbox} (hbyte : b.byte = b.size * 4 + 28) :
    b.Covered ↔ b.size.toNat * 4 + 28 < 2 ^ 32 := by
  have hnat : b.byte.toNat = (b.size.toNat * 4 + 28) % 2 ^ 32 := by
    rw [hbyte, BitVec.toNat_add, BitVec.toNat_mul]
    simp
  constructor
  · intro h
    have hlast := h.slots b.size (BitVec.le_refl _)
    rw [InBlock, hnat] at hlast
    omega
  · intro h
    rw [Nat.mod_eq_of_lt h] at hnat
    refine ⟨by omega, fun Index hle => ?_, ?_, ?_⟩
    · have := BitVec.le_def.mp hle
      rw [InBlock, hnat]
      omega
    · rw [BitVec.umulOverflow, decide_eq_false_iff_not]
      show ¬ b.size.toNat * 4 ≥ 2 ^ 32
      omega
    · rw [BitVec.uaddOverflow, decide_eq_false_iff_not, BitVec.toNat_mul]
      show ¬ b.size.toNat * 4 % 2 ^ 32 + 28 ≥ 2 ^ 32
      omega

end Mailbox

namespace Pipe

/-! ### The rounding -/

/-- The length of a new pipe, as `pipe_new` rounds it. -/
def roundUp (Length : Int32U) : Int32U :=
  if Length &&& (Length - 1) ≠ 0 then (Length &&& -Length) <<< 1 else Length

/-- The bytes that `pipe_new` asks `malloc` for. -/
def pipeByte (Width Length : Int32U) : Int32U := roundUp Length * Width + 24

/-- `pipe_new`, for an allocator that answers a request for so many bytes with the address of a
block or with `NULL`. -/
def pipeNew (malloc : Int32U → Option Int32U) (Width Length : Int32U) : Option Pipe :=
  if Length = 0 ∨ Width = 0 then none
  else
    match malloc (pipeByte Width Length) with
    | none => none
    | some pPipe => some
        { pBuffer := pPipe + 24, lenth := roundUp Length, width := Width, In := 0, Out := 0,
          pReadThread := none }

section Rounding

variable {Length : Int32U}

/-- The test of the source is the one for powers of two. -/
lemma and_sub_one_eq_zero_iff (h0 : Length ≠ 0) :
    Length &&& (Length - 1) = 0 ↔ Length.toNat.isPowerOfTwo := by
  have hpos : Length.toNat ≠ 0 := fun h => h0 (BitVec.eq_of_toNat_eq h)
  have hsub : (Length - 1).toNat = Length.toNat - 1 := by bv_omega
  rw [← Nat.and_sub_one_eq_zero_iff_isPowerOfTwo hpos, ← hsub, ← BitVec.toNat_and]
  exact ⟨fun h => by rw [h]; rfl, fun h => BitVec.eq_of_toNat_eq h⟩

/-- A power of two is left as it is. -/
lemma roundUp_of_pow (h0 : Length ≠ 0) (h : Length.toNat.isPowerOfTwo) :
    roundUp Length = Length :=
  if_neg (not_not.mpr ((and_sub_one_eq_zero_iff h0).mpr h))

/-- Any other length is at least three times its lowest bit. -/
lemma exists_lowest (h0 : Length ≠ 0) (h : ¬ Length.toNat.isPowerOfTwo) :
    ∃ k, Length &&& -Length = 1#32 <<< k ∧ 2 ^ k * 3 ≤ Length.toNat := by
  obtain ⟨k, -, hbit, hlow⟩ := (eq_zero_or_lowest Length).resolve_left h0
  refine ⟨k, and_neg_of_lowest hbit hlow, ?_⟩
  -- an odd multiple of the lowest bit, and not that bit alone
  have hdvd : Length.toNat % 2 ^ k = 0 := by
    refine Nat.eq_of_testBit_eq fun j => ?_
    rw [Nat.testBit_mod_two_pow, Nat.zero_testBit]
    by_cases hj : j < k
    · rw [show Length.toNat.testBit j = Length.getLsbD j from rfl, hlow j hj, Bool.and_false]
    · simp [hj]
  have hodd : Length.toNat / 2 ^ k % 2 = 1 := by
    have htest : Length.toNat.testBit k = true := hbit
    rwa [Nat.testBit_eq_decide_div_mod_eq, decide_eq_true_eq] at htest
  have hmul : Length.toNat = 2 ^ k * (Length.toNat / 2 ^ k) := by
    have := Nat.div_add_mod Length.toNat (2 ^ k)
    omega
  have hne : Length.toNat / 2 ^ k ≠ 1 := fun h1 => h ⟨k, by rw [hmul, h1, Nat.mul_one]⟩
  have hthree : 3 ≤ Length.toNat / 2 ^ k := by
    generalize Length.toNat / 2 ^ k = m at hodd hne
    omega
  calc 2 ^ k * 3 ≤ 2 ^ k * (Length.toNat / 2 ^ k) := Nat.mul_le_mul_left _ hthree
    _ = Length.toNat := hmul.symm

/-- **It is rounded down**, below the least power of two that is not below it. -/
theorem roundUp_lt (h0 : Length ≠ 0) (h : ¬ Length.toNat.isPowerOfTwo) :
    (roundUp Length).toNat < Length.toNat := by
  obtain ⟨k, hk, hthree⟩ := exists_lowest h0 h
  have hpos := Nat.two_pow_pos k
  rw [roundUp, if_pos fun hz => h ((and_sub_one_eq_zero_iff h0).mp hz), hk]
  calc ((1#32 <<< k) <<< 1).toNat
      ≤ 2 ^ k * 2 := by
        simp only [BitVec.toNat_shiftLeft, Nat.shiftLeft_eq, BitVec.toNat_ofNat]
        refine (Nat.mod_le _ _).trans ?_
        rw [pow_one]
        exact Nat.mul_le_mul_right 2 ((Nat.mod_le _ _).trans (by simp))
    _ < 2 ^ k * 3 := by omega
    _ ≤ Length.toNat := hthree

/-- Twice the lowest bit of such a length is a word. -/
lemma not_umulOverflow_lowest (h0 : Length ≠ 0) (h : ¬ Length.toNat.isPowerOfTwo) :
    BitVec.umulOverflow (Length &&& -Length) 2 = false := by
  obtain ⟨k, hk, hthree⟩ := exists_lowest h0 h
  have hlt := Length.isLt
  have hle : (1#32 <<< k).toNat ≤ 2 ^ k := by
    rw [BitVec.toNat_shiftLeft, Nat.shiftLeft_eq]
    exact (Nat.mod_le _ _).trans (by simp)
  rw [hk, BitVec.umulOverflow, decide_eq_false_iff_not]
  show ¬ (1#32 <<< k).toNat * 2 ≥ 2 ^ 32
  omega

end Rounding

/-! ### The bytes asked for -/

/-- The header of the pipe and its `Lenth * Width` bytes were asked for, and their number was
computed without a wrap. -/
structure Covered (p : Pipe) (Length Byte : Int32U) : Prop where
  header : 24 ≤ Byte.toNat
  buffer : 24 + p.lenth.toNat * p.width.toNat ≤ Byte.toNat
  shift : Length.toNat.isPowerOfTwo ∨ BitVec.umulOverflow (Length &&& -Length) 2 = false
  mul : BitVec.umulOverflow p.lenth p.width = false
  add : BitVec.uaddOverflow (p.lenth * p.width) 24 = false

section New

variable {malloc : Int32U → Option Int32U} {Width Length : Int32U} {p : Pipe}

/-- The pipe that `pipe_new` returns. -/
lemma of_pipeNew (hp : pipeNew malloc Width Length = some p) :
    Length ≠ 0 ∧ Width ≠ 0 ∧ ∃ pPipe, malloc (pipeByte Width Length) = some pPipe ∧
      p = { pBuffer := pPipe + 24, lenth := roundUp Length, width := Width, In := 0, Out := 0,
            pReadThread := none } := by
  rw [pipeNew] at hp
  split_ifs at hp with h0
  rw [not_or] at h0
  cases hm : malloc (pipeByte Width Length) with
  | none => simp [hm] at hp
  | some pPipe =>
      rw [hm] at hp
      exact ⟨h0.1, h0.2, pPipe, rfl, (Option.some.inj hp).symm⟩

/-- The bytes of a pipe suffice exactly if their number does not wrap. -/
lemma covered_iff (hp : pipeNew malloc Width Length = some p) :
    p.Covered Length (pipeByte Width Length) ↔ (roundUp Length).toNat * Width.toNat + 24 < 2 ^ 32 := by
  obtain ⟨h0, -, pPipe, -, rfl⟩ := of_pipeNew hp
  have hnat : (pipeByte Width Length).toNat =
      ((roundUp Length).toNat * Width.toNat + 24) % 2 ^ 32 := by
    rw [pipeByte, BitVec.toNat_add, BitVec.toNat_mul]
    simp
  have hmul : BitVec.umulOverflow (roundUp Length) Width = false ↔
      (roundUp Length).toNat * Width.toNat < 2 ^ 32 := by
    rw [BitVec.umulOverflow, decide_eq_false_iff_not, ge_iff_le, not_le]
  have hadd : BitVec.uaddOverflow (roundUp Length * Width) 24 = false ↔
      (roundUp Length).toNat * Width.toNat % 2 ^ 32 + 24 < 2 ^ 32 := by
    rw [BitVec.uaddOverflow, decide_eq_false_iff_not, ge_iff_le, not_le, BitVec.toNat_mul]
    rfl
  constructor
  · intro h
    have hbuffer := h.buffer
    dsimp only at hbuffer
    omega
  · intro h
    rw [Nat.mod_eq_of_lt h] at hnat
    refine ⟨by omega, by dsimp only; omega, ?_, hmul.mpr (by omega), hadd.mpr (by omega)⟩
    exact or_iff_not_imp_left.mpr fun hpow => not_umulOverflow_lowest h0 hpow

end New

end Pipe

/-! ### What was asked for and what is used -/

/-- **The constructors ask for enough** exactly where the number of bytes does not wrap, on every
heap and for all arguments for which they return an object. -/
theorem constructors_cover_iff (h : Heap) (Size Width Length : Int32U) :
    (∀ b, Mailbox.mailboxNew h.slots Size = some b →
      (b.Covered ↔ Size.toNat * 4 + 28 < 2 ^ 32)) ∧
    ∀ p, Pipe.pipeNew h.block Width Length = some p →
      (p.Covered Length (Pipe.pipeByte Width Length) ↔
        (Pipe.roundUp Length).toNat * Width.toNat + 24 < 2 ^ 32) := by
  refine ⟨fun b hb => ?_, fun p hp => Pipe.covered_iff hp⟩
  obtain ⟨-, hsize, -, -, hbyte⟩ := Mailbox.mailboxNew_eq_some hb
  rw [Mailbox.covered_iff, hsize]
  refine BitVec.eq_of_toNat_eq ?_
  rw [hbyte, hsize, BitVec.toNat_add, BitVec.toNat_mul]
  simp

/-- A mailbox of eight messages and a pipe of four pairs have room on a heap after the setup. -/
theorem constructors_cover_iff_small : ∃ s b p, Heap.Session.start Heap.blank Heap.twoBanks = some s ∧
    Mailbox.mailboxNew s.heap.slots 8 = some b ∧ b.Covered ∧
    Pipe.pipeNew s.heap.block 2 4 = some p ∧ p.Covered 4 (Pipe.pipeByte 2 4) := by
  have hrun : ((Heap.Session.start Heap.blank Heap.twoBanks).bind fun s =>
      (Mailbox.mailboxNew s.heap.slots 8).bind fun _ =>
        Pipe.pipeNew s.heap.block 2 4).isSome = true := by decide +kernel
  obtain ⟨p, hp⟩ := Option.isSome_iff_exists.mp hrun
  obtain ⟨s, hs, hp⟩ := Option.bind_eq_some_iff.mp hp
  obtain ⟨b, hb, hp⟩ := Option.bind_eq_some_iff.mp hp
  obtain ⟨hmailbox, hpipe⟩ := constructors_cover_iff s.heap 8 2 4
  exact ⟨s, b, p, hs, hb, (hmailbox b hb).mpr (by decide), hp, (hpipe p hp).mpr (by decide)⟩

/-- On the same heap a mailbox of `0x40000000` messages is made of 28 bytes, and a pipe of two
elements of `0x80000000` bytes of 24. -/
theorem not_covered_wrapped : ∃ s b p, Heap.Session.start Heap.blank Heap.twoBanks = some s ∧
    Mailbox.mailboxNew s.heap.slots 0x40000000 = some b ∧ ¬ b.Covered ∧
    Pipe.pipeNew s.heap.block 0x80000000 2 = some p ∧
    ¬ p.Covered 2 (Pipe.pipeByte 0x80000000 2) := by
  have hrun : ((Heap.Session.start Heap.blank Heap.twoBanks).bind fun s =>
      (Mailbox.mailboxNew s.heap.slots 0x40000000).bind fun _ =>
        Pipe.pipeNew s.heap.block 0x80000000 2).isSome = true := by decide +kernel
  obtain ⟨p, hp⟩ := Option.isSome_iff_exists.mp hrun
  obtain ⟨s, hs, hp⟩ := Option.bind_eq_some_iff.mp hp
  obtain ⟨b, hb, hp⟩ := Option.bind_eq_some_iff.mp hp
  obtain ⟨-, hsize, -, -, hbyte⟩ := Mailbox.mailboxNew_eq_some hb
  refine ⟨s, b, p, hs, hb, fun hcov => ?_, hp, fun hcov => ?_⟩
  · have hlast := hcov.slots b.size (BitVec.le_refl _)
    rw [Mailbox.InBlock, hbyte, hsize] at hlast
    simp at hlast
  · obtain ⟨-, -, pPipe, -, rfl⟩ := Pipe.of_pipeNew hp
    have hmul : BitVec.umulOverflow (Pipe.roundUp 2) 0x80000000 = false := hcov.mul
    exact absurd hmul (by decide)

/-! ### The capacity of a pipe -/

/-- Under the invariant of the allocator a block lies in the address space. -/
lemma Heap.SessionInv.block_le {banks : List Bank} {s : Heap.Session} {c : ℕ → Option Tiling.Piece}
    {Byte pMemory : Int32U} (hi : Heap.SessionInv banks s c) (hsize : Byte.toNat ≤ 2 ^ 32 - 24)
    (hb : s.heap.block Byte = some pMemory) : pMemory.toNat + Byte.toNat ≤ 2 ^ 32 := by
  obtain ⟨r, hr, hb⟩ := Option.bind_eq_some_iff.mp hb
  rcases hi.malloc hsize with ⟨heq, -⟩ | ⟨x, n, h', heq, hx, hfit, hi'⟩
  · rw [heq, Option.some.injEq] at hr
    subst hr
    simp [Heap.null] at hb
  · rw [heq, Option.some.injEq] at hr
    subst hr
    dsimp only at hb
    split_ifs at hb
    obtain ⟨-, -, hreq⟩ := Heap.request_spec Byte.toNat
    have hle : x + n + 8 ≤ 2 ^ 32 := hi.heap.layout.le hx
    rw [← Option.some.inj hb, BitVec.toNat_ofNat]
    have := Nat.mod_le (x + 8) (2 ^ 32)
    omega

namespace Pipe

/-- The slots of the pipe lie behind its header in the address space, and in every run of calls
the first `n` elements are accepted, in any split, and what is read are the elements written, in
order. -/
structure Capacity (p : Pipe) (n : ℕ) : Prop where
  low : 24 ≤ p.pBuffer.toNat
  high : p.pBuffer.toNat + p.lenth.toNat * p.width.toNat ≤ 2 ^ 32
  write : ∀ ram₀ ram p' a d, Reach ram₀ p ram p' a d → ∀ pElements Length : Int32U,
    a.length + Length.toNat ≤ n → Data p' pElements Length.toNat →
      ∃ ram' p'', pipeWrite ram p' pElements Length = (ram', p'', .ok (Length.toNat : ℤ))
  read : ∀ ram₀ ram p' a d, Reach ram₀ p ram p' a d → ∃ q, a = d ++ q ∧ QueueLaw ram p' q

/-- A pipe has the capacity for what its length allows. -/
lemma Block.capacity {p : Pipe} {n : ℕ} (hb : Block p) (hempty : p.In = p.Out)
    (hreader : p.pReadThread = none) (hn : n ≤ p.lenth.toNat) : p.Capacity n := by
  refine ⟨hb.low, hb.high, fun ram₀ ram p' a d hreach pElements Length hle hd => ?_,
    fun ram₀ ram p' a d hreach => ?_⟩
  · obtain ⟨q, hhist, hholds, hp⟩ := hreach.holds hb hempty hreader
    have hlenth : p'.lenth = p.lenth := by rw [hp]
    have hlength := congrArg List.length hhist.accepted_eq.1
    rw [List.length_append] at hlength
    have hmin : min Length.toNat (p'.lenth.toNat - q.length) = Length.toNat := by
      rw [hlenth]
      omega
    obtain ⟨ram', p'', hw, -⟩ := hholds.write (hmin.symm ▸ hd)
    rw [hmin] at hw
    exact ⟨ram', p'', hw⟩
  · obtain ⟨q, hhist, hholds, -⟩ := hreach.holds hb hempty hreader
    exact ⟨q, hhist.accepted_eq.1, hholds.queueLaw⟩

/-- A new pipe of a power of two of elements holds them, if they have room behind the header. -/
lemma capacity_of_room {h : Heap} {Width Length pPipe : Int32U} {p : Pipe}
    (hp : pipeNew h.block Width Length = some p) (hpow : Length.toNat.isPowerOfTwo)
    (hblock : h.block (pipeByte Width Length) = some pPipe)
    (hle : pPipe.toNat + 24 + Length.toNat * Width.toNat ≤ 2 ^ 32) :
    IsLeast {n | n.isPowerOfTwo ∧ Length.toNat ≤ n} p.lenth.toNat ∧ p.Capacity Length.toNat := by
  obtain ⟨h0, hW, pPipe', hblock', rfl⟩ := of_pipeNew hp
  rw [hblock, Option.some.injEq] at hblock'
  subst hblock'
  have hpos : 0 < Length.toNat := Nat.pos_of_ne_zero fun h => h0 (BitVec.eq_of_toNat_eq h)
  have hWpos : 0 < Width.toNat := Nat.pos_of_ne_zero fun h => hW (BitVec.eq_of_toNat_eq h)
  have hprod : 0 < Length.toNat * Width.toNat := Nat.mul_pos hpos hWpos
  have hadd : (pPipe + 24).toNat = pPipe.toNat + 24 := by
    rw [BitVec.toNat_add, Nat.mod_eq_of_lt (by simp; omega)]
    rfl
  have hnull : pPipe.toNat ≠ 0 := fun h1 => Heap.block_ne_zero hblock (BitVec.eq_of_toNat_eq h1)
  rw [roundUp_of_pow h0 hpow]
  refine ⟨⟨⟨hpow, le_rfl⟩, fun n hn => hn.2⟩,
    Block.capacity ⟨hpow, hWpos, ?_, ?_, ?_⟩ rfl rfl le_rfl⟩
  · dsimp only
    omega
  · dsimp only
    omega
  · dsimp only
    omega

/-- **A new pipe holds what it was asked to hold** exactly if the length asked for is a power of
two and the block that `malloc` returns has the elements behind the header within the address
space. -/
theorem capacity_iff (h : Heap) {Width Length : Int32U} {p : Pipe}
    (hp : pipeNew h.block Width Length = some p) :
    IsLeast {n | n.isPowerOfTwo ∧ Length.toNat ≤ n} p.lenth.toNat ∧ p.Capacity Length.toNat ↔
      Length.toNat.isPowerOfTwo ∧ ∃ pPipe, h.block (pipeByte Width Length) = some pPipe ∧
        pPipe.toNat + 24 + Length.toNat * Width.toNat ≤ 2 ^ 32 := by
  constructor
  · rintro ⟨hleast, hcap⟩
    obtain ⟨h0, -, pPipe, hblock, rfl⟩ := of_pipeNew hp
    have hpow : Length.toNat.isPowerOfTwo := by
      by_contra hpow
      have hlt := roundUp_lt h0 hpow
      have hle := hleast.1.2
      dsimp only at hle
      omega
    have hlow := hcap.low
    have hhigh := hcap.high
    dsimp only at hlow hhigh
    rw [roundUp_of_pow h0 hpow] at hhigh
    have hadd : (pPipe + 24).toNat = pPipe.toNat + 24 := by bv_omega
    exact ⟨hpow, pPipe, hblock, by omega⟩
  · rintro ⟨hpow, pPipe', hblock', hle⟩
    exact capacity_of_room hp hpow hblock' hle

/-- **On a heap in use** a pipe of a power of two of elements holds them all, if the number of
bytes does not wrap, in `pipe_new` or in `malloc`. -/
theorem capacity_of_sound {banks : List Bank} {s : Heap.Session} {Width Length : Int32U}
    {p : Pipe} (hs : Heap.Sound banks s) (hpow : Length.toNat.isPowerOfTwo)
    (hsize : Length.toNat * Width.toNat + 24 ≤ 2 ^ 32 - 24)
    (hp : pipeNew s.heap.block Width Length = some p) :
    IsLeast {n | n.isPowerOfTwo ∧ Length.toNat ≤ n} p.lenth.toNat ∧ p.Capacity Length.toNat := by
  obtain ⟨c, hi⟩ := hs
  obtain ⟨h0, -, pPipe, hblock, -⟩ := of_pipeNew hp
  have hByte : (pipeByte Width Length).toNat = Length.toNat * Width.toNat + 24 := by
    rw [pipeByte, roundUp_of_pow h0 hpow, BitVec.toNat_add, BitVec.toNat_mul, Nat.mod_add_mod]
    exact Nat.mod_eq_of_lt (show Length.toNat * Width.toNat + 24 < 2 ^ 32 by omega)
  have hle := hi.block_le (by omega) hblock
  exact capacity_of_room hp hpow hblock (by omega)

/-- A pipe of four pairs on a heap after the setup. -/
theorem capacity_iff_four : ∃ s p, Heap.Session.start Heap.blank Heap.twoBanks = some s ∧
    pipeNew s.heap.block 2 4 = some p ∧ p.lenth = 4 ∧ p.Capacity 4 := by
  have hrun : ((Heap.Session.start Heap.blank Heap.twoBanks).bind fun s =>
      (pipeNew s.heap.block 2 4).map fun p => decide (p.pBuffer = 8224)) = some true := by
    decide +kernel
  obtain ⟨s, hs, hrun⟩ := Option.bind_eq_some_iff.mp hrun
  obtain ⟨p, hp, haddr⟩ := Option.map_eq_some_iff.mp hrun
  have hpBuffer := of_decide_eq_true haddr
  obtain ⟨-, -, pPipe, hblock, heq⟩ := of_pipeNew hp
  have hpPipe : pPipe = 8200 := by
    rw [heq] at hpBuffer
    dsimp only at hpBuffer
    bv_omega
  have hlenth : roundUp 4 = 4 := by decide
  have hcap := (capacity_iff s.heap hp).mpr
    ⟨⟨2, by decide⟩, pPipe, hblock, by rw [hpPipe]; decide⟩
  exact ⟨s, p, hs, hp, by rw [heq]; exact hlenth, hcap.2⟩

/-- On the same heap a pipe for three elements has two. -/
theorem not_capacity_three : ∃ s p, Heap.Session.start Heap.blank Heap.twoBanks = some s ∧
    pipeNew s.heap.block 1 3 = some p ∧ p.lenth = 2 ∧
    ¬ IsLeast {n | n.isPowerOfTwo ∧ 3 ≤ n} p.lenth.toNat := by
  have hrun : ((Heap.Session.start Heap.blank Heap.twoBanks).bind fun s =>
      pipeNew s.heap.block 1 3).isSome = true := by decide +kernel
  obtain ⟨p, hp⟩ := Option.isSome_iff_exists.mp hrun
  obtain ⟨s, hs, hp⟩ := Option.bind_eq_some_iff.mp hp
  obtain ⟨-, -, pPipe, -, rfl⟩ := of_pipeNew hp
  have hlenth : roundUp 3 = 2 := by decide
  refine ⟨s, _, hs, hp, hlenth, fun hleast => ?_⟩
  have hle := hleast.1.2
  dsimp only at hle
  rw [hlenth] at hle
  exact absurd hle (by decide)

end Pipe

end ChinaOS
