import ChinaOS.Types
import ChinaOS.Fifo
import ChinaOS.RingBuffer

/-!
The pipes of `kernel/pipe/pipe.c`: a ring buffer of `Lenth` elements of `Width` bytes with
counters `In` and `Out` that run freely modulo `2 ^ 32`.

The bytes of the machine are one flat memory; `pBuffer` points behind the 24 bytes of the
pipe's own header. Only the data of the pipe is here, not the threads that wait on it.

* `Holds`: the elements in the slots from `Out` to `In` are a given queue.
* `Holds.write`, `Holds.read`: the calls on such a pipe.
* `Reach.holds`: a sequence of calls is a history of the bounded queue.
* `pipe_refines_fifo`: what holds after any sequence of calls.
-/

namespace ChinaOS

open RingBuffer

/-- The bytes of the address space. -/
abbrev Ram := ℕ → BitVec 8

/-- `struct pipe_t`. -/
structure Pipe where
  pBuffer : Int32U
  lenth : Int32U
  width : Int32U
  In : Int32U
  Out : Int32U
  pReadThread : Option ThreadId

namespace Pipe

/-- `memcpy`, between regions that do not overlap. -/
def memcpy (ram : Ram) (dst src n : Int32U) : Ram := copy ram dst.toNat src.toNat n.toNat

/-- `pipe_write`, for a pipe on which no reader waits. -/
def pipeWrite (ram : Ram) (p : Pipe) (pElements Length : Int32U) :
    Ram × Pipe × Except Status ℤ :=
  if pElements = 0 then (ram, p, .error .errBadParam)
  else
    let Length := umin Length (p.lenth - p.In + p.Out)
    let Size := umin Length (p.lenth - (p.In &&& (p.lenth - 1)))
    let ram := memcpy ram (p.pBuffer + p.width * (p.In &&& (p.lenth - 1))) pElements
      (Size * p.width)
    let ram := memcpy ram p.pBuffer (pElements + Size * p.width) ((Length - Size) * p.width)
    (ram, { p with In := p.In + Length }, .ok Length.toInt)

/-- `pipe_read` up to the point where it blocks; `none` when the caller is to be
suspended. -/
def pipeRead (ram : Ram) (p : Pipe) (pElements Length : Int32U) :
    Option (Ram × Pipe × Except Status ℤ) :=
  if pElements = 0 then some (ram, p, .error .errBadParam)
  else if p.In ≠ p.Out then
    let Length := umin Length (p.In - p.Out)
    let Size := umin Length (p.lenth - (p.Out &&& (p.lenth - 1)))
    let ram := memcpy ram pElements (p.pBuffer + p.width * (p.Out &&& (p.lenth - 1)))
      (Size * p.width)
    let ram := memcpy ram (pElements + Size * p.width) p.pBuffer ((Length - Size) * p.width)
    some (ram, { p with Out := p.Out + Length }, .ok Length.toInt)
  else none

/-- `pipe_read` from the point where the caller runs again. -/
def pipeReadResumed (ram : Ram) (p : Pipe) (pElements Length : Int32U) :
    Ram × Pipe × Except Status ℤ :=
  let p := { p with pReadThread := none }
  if p.In = p.Out then (ram, p, .error .errTimeout)
  else
    let Length := umin Length (p.In - p.Out)
    let Size := umin Length (p.lenth - (p.Out &&& (p.lenth - 1)))
    let ram := memcpy ram pElements (p.pBuffer + p.width * (p.Out &&& (p.lenth - 1)))
      (Size * p.width)
    let ram := memcpy ram (pElements + Size * p.width) p.pBuffer ((Length - Size) * p.width)
    (ram, { p with Out := p.Out + Length }, .ok Length.toInt)

/-- A pipe of a power of two of elements, whose block, header and buffer, lies in the
address space. -/
structure Block (p : Pipe) : Prop where
  pow : ∃ k, p.lenth.toNat = 2 ^ k
  width_pos : 0 < p.width.toNat
  size : p.lenth.toNat * p.width.toNat + 24 < 2 ^ 32
  low : 24 ≤ p.pBuffer.toNat
  high : p.pBuffer.toNat + p.lenth.toNat * p.width.toNat ≤ 2 ^ 32

/-- The caller's array of `n` elements: not `NULL`, in the address space, and apart from the
pipe's block. -/
structure Data (p : Pipe) (pElements : Int32U) (n : ℕ) : Prop where
  ne_zero : pElements ≠ 0
  high : pElements.toNat + n * p.width.toNat ≤ 2 ^ 32
  apart : pElements.toNat + n * p.width.toNat + 24 ≤ p.pBuffer.toNat ∨
    p.pBuffer.toNat + p.lenth.toNat * p.width.toNat ≤ pElements.toNat

/-- The elements `q` are stored: `In - Out` modulo `2 ^ 32` of them, in the slots from `Out`
on. -/
structure Holds (ram : Ram) (p : Pipe) (q : List (List (BitVec 8))) : Prop where
  block : Block p
  noReader : p.pReadThread = none
  length_eq : (p.In - p.Out).toNat = q.length
  length_le : q.length ≤ p.lenth.toNat
  stored : ∀ i (hi : i < q.length), elem ram p.pBuffer.toNat p.width.toNat
    ((p.Out.toNat + i) % p.lenth.toNat) = q[i]

section Words

variable {p : Pipe} {pElements x n : Int32U} {k m : ℕ}

lemma Block.lenth_pos (hb : Block p) : 0 < p.lenth.toNat := by
  obtain ⟨k, hk⟩ := hb.pow
  rw [hk]
  exact Nat.two_pow_pos k

lemma Block.dvd (hb : Block p) : p.lenth.toNat ∣ 2 ^ 32 := by
  obtain ⟨k, hk⟩ := hb.pow
  have hlt := p.lenth.isLt
  rw [hk] at hlt ⊢
  exact Nat.pow_dvd_pow 2 ((Nat.pow_lt_pow_iff_right (by norm_num)).mp hlt).le

/-- Masking by `Lenth - 1` is the remainder by `Lenth`. -/
lemma Block.toNat_mask (hb : Block p) (x : Int32U) :
    (x &&& (p.lenth - 1)).toNat = x.toNat % p.lenth.toNat := by
  obtain ⟨k, hk⟩ := hb.pow
  have h1 : (p.lenth - 1).toNat = 2 ^ k - 1 := by
    have hpos := hb.lenth_pos
    have hlt := p.lenth.isLt
    rw [BitVec.toNat_sub, show (1 : Int32U).toNat = 1 from rfl, ← hk]
    omega
  rw [BitVec.toNat_and, h1, Nat.and_two_pow_sub_one_eq_mod, hk]

/-- A slot's first byte lies in the buffer. -/
lemma Block.slot_lt (hb : Block p) (x : Int32U) :
    p.width.toNat * (x.toNat % p.lenth.toNat) + p.width.toNat ≤
      p.lenth.toNat * p.width.toNat := by
  have h1 := Nat.mod_lt x.toNat hb.lenth_pos
  have h2 := Nat.mul_le_mul_right p.width.toNat (Nat.succ_le_of_lt h1)
  rw [Nat.succ_mul] at h2
  rw [Nat.mul_comm]
  exact h2

/-- The address of a slot is computed without wrapping. -/
lemma Block.toNat_slot (hb : Block p) (x : Int32U) :
    (p.pBuffer + p.width * (x &&& (p.lenth - 1))).toNat =
      p.pBuffer.toNat + p.width.toNat * (x.toNat % p.lenth.toNat) := by
  have h1 := hb.slot_lt x
  have h2 := hb.high
  have h3 := hb.size
  have h4 := hb.width_pos
  rw [BitVec.toNat_add, BitVec.toNat_mul, hb.toNat_mask]
  rw [Nat.mod_eq_of_lt (a := p.width.toNat * _) (by omega), Nat.mod_eq_of_lt (by omega)]

/-- The number of elements up to the end of the buffer. -/
lemma Block.toNat_rest (hb : Block p) (n x : Int32U) :
    (umin n (p.lenth - (x &&& (p.lenth - 1)))).toNat =
      min n.toNat (p.lenth.toNat - x.toNat % p.lenth.toNat) := by
  have h1 := Nat.mod_lt x.toNat hb.lenth_pos
  have h2 := p.lenth.isLt
  rw [toNat_umin, BitVec.toNat_sub, hb.toNat_mask]
  congr 1
  omega

/-- A number of bytes of the buffer is computed without wrapping. -/
lemma Block.toNat_bytes (hb : Block p) (hn : n.toNat ≤ p.lenth.toNat) :
    (n * p.width).toNat = n.toNat * p.width.toNat := by
  have h1 := Nat.mul_le_mul_right p.width.toNat hn
  have h2 := hb.size
  rw [BitVec.toNat_mul, Nat.mod_eq_of_lt (by omega)]

/-- The rest behind the end of the buffer is copied from its own place, or is empty. -/
lemma Block.memcpy_rest (hb : Block p) (ram : Ram) {dst Size : Int32U}
    (hn : n.toNat ≤ p.lenth.toNat) (hs : Size.toNat ≤ n.toNat) (hd : Data p pElements n.toNat) :
    memcpy ram dst (pElements + Size * p.width) ((n - Size) * p.width) =
        copy ram dst.toNat (pElements.toNat + Size.toNat * p.width.toNat)
          ((n.toNat - Size.toNat) * p.width.toNat) ∧
      memcpy ram (pElements + Size * p.width) dst ((n - Size) * p.width) =
        copy ram (pElements.toNat + Size.toNat * p.width.toNat) dst.toNat
          ((n.toNat - Size.toNat) * p.width.toNat) := by
  have hsub : (n - Size).toNat = n.toNat - Size.toNat := BitVec.toNat_sub_of_le hs
  have hlen : ((n - Size) * p.width).toNat = (n.toNat - Size.toNat) * p.width.toNat := by
    rw [hb.toNat_bytes (by omega), hsub]
  have hsz := hb.toNat_bytes (n := Size) (by omega)
  rcases Nat.eq_or_lt_of_le hs with h | h
  · -- an empty rest may start at the very end of the address space
    rw [memcpy, memcpy, hlen, h, Nat.sub_self, Nat.zero_mul]
    simp
  · have h1 := Nat.mul_le_mul_right p.width.toNat (Nat.succ_le_of_lt h)
    rw [Nat.succ_mul] at h1
    have h2 := hd.high
    have h3 := hb.width_pos
    have hsrc : (pElements + Size * p.width).toNat =
        pElements.toNat + Size.toNat * p.width.toNat := by
      rw [BitVec.toNat_add, hsz, Nat.mod_eq_of_lt (by omega)]
    rw [memcpy, memcpy, hlen, hsrc]
    exact ⟨rfl, rfl⟩

/-- The two copies of `pipe_write` are one copy into the ring buffer. -/
lemma Block.memcpy_in (hb : Block p) (ram : Ram) (hn : n.toNat ≤ p.lenth.toNat)
    (hd : Data p pElements n.toNat) {Size : Int32U}
    (hs : Size = umin n (p.lenth - (x &&& (p.lenth - 1)))) :
    memcpy (memcpy ram (p.pBuffer + p.width * (x &&& (p.lenth - 1))) pElements
        (Size * p.width)) p.pBuffer (pElements + Size * p.width) ((n - Size) * p.width) =
      copyIn ram p.pBuffer.toNat p.lenth.toNat p.width.toNat x.toNat pElements.toNat n.toNat := by
  have hsn : Size.toNat = min n.toNat (p.lenth.toNat - x.toNat % p.lenth.toNat) := by
    rw [hs, hb.toNat_rest]
  rw [(hb.memcpy_rest _ hn (by omega) hd).1, memcpy, hb.toNat_slot,
    hb.toNat_bytes (n := Size) (by omega), hsn]
  rfl

/-- The two copies of `pipe_read` are one copy out of the ring buffer. -/
lemma Block.memcpy_out (hb : Block p) (ram : Ram) (hn : n.toNat ≤ p.lenth.toNat)
    (hd : Data p pElements n.toNat) {Size : Int32U}
    (hs : Size = umin n (p.lenth - (x &&& (p.lenth - 1)))) :
    memcpy (memcpy ram pElements (p.pBuffer + p.width * (x &&& (p.lenth - 1)))
        (Size * p.width)) (pElements + Size * p.width) p.pBuffer ((n - Size) * p.width) =
      copyOut ram p.pBuffer.toNat p.lenth.toNat p.width.toNat x.toNat pElements.toNat n.toNat := by
  have hsn : Size.toNat = min n.toNat (p.lenth.toNat - x.toNat % p.lenth.toNat) := by
    rw [hs, hb.toNat_rest]
  rw [(hb.memcpy_rest _ hn (by omega) hd).2, memcpy, hb.toNat_slot,
    hb.toNat_bytes (n := Size) (by omega), hsn]
  rfl

/-- The caller's array and the buffer do not both fit unless a count of elements is a
positive `int`. -/
lemma Block.toInt_count (hb : Block p) (hn : n.toNat ≤ p.lenth.toNat)
    (hd : Data p pElements n.toNat) : n.toInt = (n.toNat : ℤ) := by
  have h1 := Nat.mul_le_mul_right p.width.toNat hn
  have h2 : n.toNat ≤ n.toNat * p.width.toNat := Nat.le_mul_of_pos_right _ hb.width_pos
  have h3 := hd.high
  have h4 := hb.high
  have h5 := hb.low
  rw [BitVec.toInt_eq_toNat_of_lt]
  rcases hd.apart with h | h <;> omega

/-- Adding to a free-running counter moves its slot on, across the wrap as well. -/
lemma Block.add_mod (hb : Block p) (x n : Int32U) (i : ℕ) :
    ((x + n).toNat + i) % p.lenth.toNat = (x.toNat + (n.toNat + i)) % p.lenth.toNat := by
  rw [BitVec.toNat_add, Nat.add_mod, Nat.mod_mod_of_dvd _ hb.dvd, ← Nat.add_mod, Nat.add_assoc]

end Words

/-! ### The calls on a pipe that stores a queue -/

namespace Holds

variable {ram ram' : Ram} {p : Pipe} {q : List (List (BitVec 8))} {pElements Length : Int32U}

/-- The slot of `In` is the one behind the stored elements. -/
lemma in_mod (h : Holds ram p q) (i : ℕ) :
    (p.In.toNat + i) % p.lenth.toNat = (p.Out.toNat + (q.length + i)) % p.lenth.toNat := by
  have h1 : p.In = p.Out + (p.In - p.Out) := by
    rw [BitVec.add_comm, BitVec.sub_add_cancel]
  rw [← h.length_eq]
  conv_lhs => rw [h1]
  exact h.block.add_mod _ _ _

/-- The space left in the pipe. -/
lemma toNat_space (h : Holds ram p q) (Length : Int32U) :
    (umin Length (p.lenth - p.In + p.Out)).toNat =
      min Length.toNat (p.lenth.toNat - q.length) := by
  have h1 : p.lenth - p.In + p.Out = p.lenth - (p.In - p.Out) := by bv_omega
  have h2 := h.length_le
  rw [toNat_umin, h1, BitVec.toNat_sub_of_le (by rw [BitVec.le_def, h.length_eq]; exact h2),
    h.length_eq]

lemma toNat_stored (h : Holds ram p q) (Length : Int32U) :
    (umin Length (p.In - p.Out)).toNat = min Length.toNat q.length := by
  rw [toNat_umin, h.length_eq]

lemma in_eq_out_iff (h : Holds ram p q) : p.In = p.Out ↔ q = [] := by
  have h1 := h.length_eq
  constructor
  · intro he
    rw [he, BitVec.sub_self] at h1
    exact List.eq_nil_of_length_eq_zero h1.symm
  · rintro rfl
    have h2 : p.In - p.Out = 0 := BitVec.eq_of_toNat_eq h1
    rw [← BitVec.sub_add_cancel p.In p.Out, h2]
    simp

/-- Only the bytes of the buffer matter. -/
lemma congr (h : Holds ram p q) (hram : ∀ a, p.pBuffer.toNat ≤ a →
    a < p.pBuffer.toNat + p.lenth.toNat * p.width.toNat → ram' a = ram a) : Holds ram' p q := by
  refine ⟨h.block, h.noReader, h.length_eq, h.length_le, fun i hi => ?_⟩
  rw [← h.stored i hi]
  refine elem_congr fun j hj => hram _ (by omega) ?_
  have h1 := (cell_lt_iff hj).mpr (Nat.mod_lt (p.Out.toNat + i) h.block.lenth_pos)
  omega

/-- **`pipe_write`** accepts as many elements as there is room for, in the slots behind the
stored ones, and touches nothing but the buffer. -/
theorem write (h : Holds ram p q)
    (hd : Data p pElements (min Length.toNat (p.lenth.toNat - q.length))) :
    ∃ ram' p', pipeWrite ram p pElements Length =
        (ram', p', .ok (min Length.toNat (p.lenth.toNat - q.length) : ℕ)) ∧
      Holds ram' p' (Fifo.offer p.lenth.toNat q
        (elems ram pElements.toNat p.width.toNat Length.toNat)) ∧
      (∀ a, a < p.pBuffer.toNat ∨ p.pBuffer.toNat + p.lenth.toNat * p.width.toNat ≤ a →
        ram' a = ram a) ∧
      (∀ i < q.length, elem ram' p.pBuffer.toNat p.width.toNat
        ((p.Out.toNat + i) % p.lenth.toNat) = elem ram p.pBuffer.toNat p.width.toNat
          ((p.Out.toNat + i) % p.lenth.toNat)) ∧
      p' = { p with In := p'.In } := by
  set N := umin Length (p.lenth - p.In + p.Out) with hN
  have hn : N.toNat = min Length.toNat (p.lenth.toNat - q.length) := h.toNat_space Length
  rw [← hn] at hd ⊢
  have hle := h.length_le
  have hnL : N.toNat ≤ p.lenth.toNat := by omega
  have hpos := h.block.lenth_pos
  have hapart : pElements.toNat + N.toNat * p.width.toNat ≤ p.pBuffer.toNat ∨
      p.pBuffer.toNat + p.lenth.toNat * p.width.toNat ≤ pElements.toNat := by
    rcases hd.apart with h1 | h1
    · exact Or.inl (by omega)
    · exact Or.inr h1
  have hold : ∀ i < q.length, elem (copyIn ram p.pBuffer.toNat p.lenth.toNat p.width.toNat
      p.In.toNat pElements.toNat N.toNat) p.pBuffer.toNat p.width.toNat
        ((p.Out.toNat + i) % p.lenth.toNat) =
      elem ram p.pBuffer.toNat p.width.toNat ((p.Out.toNat + i) % p.lenth.toNat) := by
    intro i hi
    refine elem_copyIn_old hpos hnL (Nat.mod_lt _ hpos) fun j hj hij => ?_
    rw [h.in_mod] at hij
    have := add_mod_inj hpos (by omega) (by omega) hij
    omega
  refine ⟨copyIn ram p.pBuffer.toNat p.lenth.toNat p.width.toNat p.In.toNat pElements.toNat
    N.toNat, { p with In := p.In + N }, ?_, ?_, ?_, hold, rfl⟩
  · rw [← h.block.toInt_count hnL hd, ← h.block.memcpy_in ram hnL hd rfl, pipeWrite,
      if_neg hd.ne_zero]
  · have hlen : (p.In + N - p.Out).toNat = q.length + N.toNat := by
      have h1 : p.In + N - p.Out = (p.In - p.Out) + N := by bv_omega
      have h2 := p.lenth.isLt
      rw [h1, BitVec.toNat_add, h.length_eq, Nat.mod_eq_of_lt (by omega)]
    have hoffer : Fifo.offer p.lenth.toNat q
        (elems ram pElements.toNat p.width.toNat Length.toNat) =
          q ++ elems ram pElements.toNat p.width.toNat N.toNat := by
      rw [Fifo.offer, elems, elems, ← List.map_take, List.take_range, hn, Nat.min_comm]
    rw [hoffer]
    refine ⟨⟨h.block.pow, h.block.width_pos, h.block.size, h.block.low, h.block.high⟩,
      h.noReader, ?_, ?_, ?_⟩
    · rw [List.length_append, length_elems]
      exact hlen
    · rw [List.length_append, length_elems]
      show q.length + N.toNat ≤ p.lenth.toNat
      omega
    · intro i hi
      rw [List.length_append, length_elems] at hi
      by_cases hiq : i < q.length
      · rw [List.getElem_append_left hiq, ← h.stored i hiq]
        exact hold i hiq
      · rw [List.getElem_append_right (by omega), getElem_elems]
        have h1 := h.in_mod (i - q.length)
        rw [Nat.add_sub_cancel' (by omega : q.length ≤ i)] at h1
        show elem _ p.pBuffer.toNat p.width.toNat ((p.Out.toNat + i) % p.lenth.toNat) = _
        rw [← h1]
        exact elem_copyIn_new hpos hnL (by omega) hapart
  · exact fun a ha => copyIn_of_outside hpos hnL ha

/-- **`pipe_read`** on a pipe that is not empty delivers the oldest elements, at most as many
as are stored, and touches nothing but the caller's array; the path behind a wake-up does
the same. -/
theorem read (h : Holds ram p q) (hq : q ≠ [])
    (hd : Data p pElements (min Length.toNat q.length)) :
    ∃ ram' p', pipeRead ram p pElements Length =
        some (ram', p', .ok (min Length.toNat q.length : ℕ)) ∧
      pipeReadResumed ram p pElements Length =
        (ram', p', .ok (min Length.toNat q.length : ℕ)) ∧
      elems ram' pElements.toNat p.width.toNat (min Length.toNat q.length) =
        (Fifo.take Length.toNat q).1 ∧
      Holds ram' p' (Fifo.take Length.toNat q).2 ∧
      (∀ a, a < pElements.toNat ∨
        pElements.toNat + min Length.toNat q.length * p.width.toNat ≤ a → ram' a = ram a) ∧
      p' = { p with Out := p'.Out } := by
  set N := umin Length (p.In - p.Out) with hN
  have hn : N.toNat = min Length.toNat q.length := h.toNat_stored Length
  rw [← hn] at hd ⊢
  have hle := h.length_le
  have hnL : N.toNat ≤ p.lenth.toNat := by omega
  have hpos := h.block.lenth_pos
  have hne : p.In ≠ p.Out := fun he => hq (h.in_eq_out_iff.mp he)
  have hapart : pElements.toNat + N.toNat * p.width.toNat ≤ p.pBuffer.toNat ∨
      p.pBuffer.toNat + p.lenth.toNat * p.width.toNat ≤ pElements.toNat := by
    rcases hd.apart with h1 | h1
    · exact Or.inl (by omega)
    · exact Or.inr h1
  have hreader : ({ p with pReadThread := none } : Pipe) = p := by
    rw [← h.noReader]
  have hframe : ∀ a, a < pElements.toNat ∨
      pElements.toNat + N.toNat * p.width.toNat ≤ a →
        copyOut ram p.pBuffer.toNat p.lenth.toNat p.width.toNat p.Out.toNat pElements.toNat
          N.toNat a = ram a := fun a ha => copyOut_of_outside ha
  refine ⟨copyOut ram p.pBuffer.toNat p.lenth.toNat p.width.toNat p.Out.toNat pElements.toNat
    N.toNat, { p with Out := p.Out + N }, ?_, ?_, ?_, ?_, hframe, rfl⟩
  · rw [← h.block.toInt_count hnL hd, ← h.block.memcpy_out ram hnL hd rfl, pipeRead,
      if_neg hd.ne_zero, if_pos hne]
  · rw [← h.block.toInt_count hnL hd, ← h.block.memcpy_out ram hnL hd rfl, pipeReadResumed,
      hreader, if_neg hne]
  · refine List.ext_getElem ?_ fun i h1 h2 => ?_
    · rw [length_elems, Fifo.take, List.length_take, hn]
    · rw [length_elems] at h1
      have hiq : i < q.length := by omega
      rw [getElem_elems, elem_copyOut hpos hnL h1 hapart, h.stored i hiq]
      simp [Fifo.take]
  · have hrest : Holds (copyOut ram p.pBuffer.toNat p.lenth.toNat p.width.toNat p.Out.toNat
        pElements.toNat N.toNat) p q := by
      refine h.congr fun a h1 h2 => hframe a ?_
      rcases hapart with h3 | h3 <;> omega
    have hlen : (p.In - (p.Out + N)).toNat = q.length - N.toNat := by
      have h1 : p.In - (p.Out + N) = (p.In - p.Out) - N := by bv_omega
      rw [h1, BitVec.toNat_sub_of_le (by rw [BitVec.le_def, h.length_eq]; omega), h.length_eq]
    have hdrop : (q.drop Length.toNat).length = q.length - N.toNat := by
      rw [List.length_drop]
      omega
    refine ⟨⟨h.block.pow, h.block.width_pos, h.block.size, h.block.low, h.block.high⟩,
      h.noReader, ?_, ?_, ?_⟩
    · exact hlen.trans hdrop.symm
    · show (q.drop Length.toNat).length ≤ p.lenth.toNat
      omega
    · intro i hi
      have hi' : i < (q.drop Length.toNat).length := hi
      have hNl : N.toNat = Length.toNat := by
        rw [hdrop] at hi'
        omega
      show elem _ p.pBuffer.toNat p.width.toNat (((p.Out + N).toNat + i) % p.lenth.toNat) = _
      rw [h.block.add_mod, hrest.stored (N.toNat + i) (by omega)]
      simp [Fifo.take, hNl]

end Holds

/-! ### Sequences of calls -/

/-- **A run of calls on the pipe `p₀`**: the memory and the pipe after some sequence of
calls, the elements accepted so far, as many from the front of the caller's array as each
`pipe_write` returned, and the elements delivered, as many in the caller's array as each
`pipe_read` returned. Between two calls the memory outside the pipe's block may change. -/
inductive Reach (ram₀ : Ram) (p₀ : Pipe) :
    Ram → Pipe → List (List (BitVec 8)) → List (List (BitVec 8)) → Prop where
  | start : Reach ram₀ p₀ ram₀ p₀ [] []
  | other {ram ram' : Ram} {p : Pipe} {a d : List (List (BitVec 8))} :
      Reach ram₀ p₀ ram p a d →
      (∀ x, p.pBuffer.toNat - 24 ≤ x → x < p.pBuffer.toNat + p.lenth.toNat * p.width.toNat →
        ram' x = ram x) →
      Reach ram₀ p₀ ram' p a d
  | write {ram ram' : Ram} {p p' : Pipe} {a d : List (List (BitVec 8))}
      {r : ℤ} (pElements Length : Int32U) :
      Reach ram₀ p₀ ram p a d →
      Data p pElements (min Length.toNat (p.lenth.toNat - (p.In - p.Out).toNat)) →
      pipeWrite ram p pElements Length = (ram', p', .ok r) →
      Reach ram₀ p₀ ram' p' (a ++ elems ram pElements.toNat p.width.toNat r.toNat) d
  | read {ram ram' : Ram} {p p' : Pipe} {a d : List (List (BitVec 8))}
      {r : ℤ} (pElements Length : Int32U) :
      Reach ram₀ p₀ ram p a d → p.In ≠ p.Out →
      Data p pElements (min Length.toNat (p.In - p.Out).toNat) →
      pipeRead ram p pElements Length = some (ram', p', .ok r) →
      Reach ram₀ p₀ ram' p' a (d ++ elems ram' pElements.toNat p.width.toNat r.toNat)
  | resume {ram ram' : Ram} {p p' : Pipe} {a d : List (List (BitVec 8))}
      {r : ℤ} (pElements Length : Int32U) (t : Option ThreadId) :
      Reach ram₀ p₀ ram p a d → p.In ≠ p.Out →
      Data p pElements (min Length.toNat (p.In - p.Out).toNat) →
      pipeReadResumed ram { p with pReadThread := t } pElements Length = (ram', p', .ok r) →
      Reach ram₀ p₀ ram' p' a (d ++ elems ram' pElements.toNat p.width.toNat r.toNat)

/-- What the calls do on a pipe that stores the elements `q`: how many elements a call moves
and returns, what a read delivers, and which bytes it leaves alone. -/
structure QueueLaw (ram : Ram) (p : Pipe) (q : List (List (BitVec 8))) : Prop where
  stored : (p.In - p.Out).toNat = q.length
  stored_le : q.length ≤ p.lenth.toNat
  write : ∀ pElements Length : Int32U,
    Data p pElements (min Length.toNat (p.lenth.toNat - q.length)) →
      ∃ ram' p', pipeWrite ram p pElements Length =
          (ram', p', .ok (min Length.toNat (p.lenth.toNat - q.length) : ℕ)) ∧
        (∀ x, x < p.pBuffer.toNat ∨ p.pBuffer.toNat + p.lenth.toNat * p.width.toNat ≤ x →
          ram' x = ram x) ∧
        (∀ i < q.length, elem ram' p.pBuffer.toNat p.width.toNat
          ((p.Out.toNat + i) % p.lenth.toNat) = elem ram p.pBuffer.toNat p.width.toNat
            ((p.Out.toNat + i) % p.lenth.toNat))
  read : ∀ pElements Length : Int32U, q ≠ [] → Data p pElements (min Length.toNat q.length) →
      ∃ ram' p', pipeRead ram p pElements Length =
          some (ram', p', .ok (min Length.toNat q.length : ℕ)) ∧
        (∀ t, pipeReadResumed ram { p with pReadThread := t } pElements Length =
          (ram', p', .ok (min Length.toNat q.length : ℕ))) ∧
        elems ram' pElements.toNat p.width.toNat (min Length.toNat q.length) =
          q.take Length.toNat ∧
        (∀ x, x < pElements.toNat ∨
          pElements.toNat + min Length.toNat q.length * p.width.toNat ≤ x → ram' x = ram x)
  null : ∀ Length, pipeWrite ram p 0 Length = (ram, p, .error .errBadParam) ∧
    pipeRead ram p 0 Length = some (ram, p, .error .errBadParam)

/-- The queue law of the representation. -/
lemma Holds.queueLaw {ram : Ram} {p : Pipe} {q : List (List (BitVec 8))} (h : Holds ram p q) :
    QueueLaw ram p q where
  stored := h.length_eq
  stored_le := h.length_le
  write _ _ hd := by
    obtain ⟨ram', p', hw, -, hframe, hold, -⟩ := h.write hd
    exact ⟨ram', p', hw, hframe, hold⟩
  read _ _ hq hd := by
    obtain ⟨ram', p', hr, hres, helems, -, hframe, -⟩ := h.read hq hd
    exact ⟨ram', p', hr, fun _ => hres, helems, hframe⟩
  null _ := ⟨if_pos rfl, if_pos rfl⟩

/-- An empty pipe stores no element. -/
lemma holds_nil {ram : Ram} {p : Pipe} (hb : Block p) (hempty : p.In = p.Out)
    (hreader : p.pReadThread = none) : Holds ram p [] :=
  ⟨hb, hreader, by simp [hempty], by simp, by simp⟩

/-- Every run of calls is a history of the bounded queue, and the pipe stores its queue. -/
theorem Reach.holds {ram₀ ram : Ram} {p₀ p : Pipe} {a d : List (List (BitVec 8))}
    (hb : Block p₀) (hempty : p₀.In = p₀.Out) (hreader : p₀.pReadThread = none)
    (h : Reach ram₀ p₀ ram p a d) :
    ∃ q, Fifo.History p₀.lenth.toNat a d q ∧ Holds ram p q ∧
      p = { p₀ with In := p.In, Out := p.Out } := by
  induction h with
  | start => exact ⟨[], .empty, holds_nil hb hempty hreader, rfl⟩
  | other _ hram ih =>
      obtain ⟨q, hhist, hholds, hp⟩ := ih
      exact ⟨q, hhist, hholds.congr fun x h1 h2 => hram x (by omega) h2, hp⟩
  | @write ram ram' p p' a d r pElements Length _ hd hw ih =>
      obtain ⟨q, hhist, hholds, hp⟩ := ih
      rw [hholds.length_eq] at hd
      obtain ⟨ram₁, p₁, hw', hholds', -, -, hp₁⟩ := hholds.write hd
      rw [hw'] at hw
      obtain ⟨rfl, rfl, rfl⟩ : ram₁ = ram' ∧ p₁ = p' ∧ (_ : ℤ) = r := by
        simpa only [Prod.mk.injEq, Except.ok.injEq] using hw
      have hlenth : p₀.lenth = p.lenth := by rw [hp]
      have hacc : elems ram pElements.toNat p.width.toNat
          (min Length.toNat (p.lenth.toNat - q.length) : ℕ) =
          (elems ram pElements.toNat p.width.toNat Length.toNat).take
            (p₀.lenth.toNat - q.length) := by
        rw [hlenth, elems, elems, ← List.map_take, List.take_range, Nat.min_comm]
      rw [Int.toNat_natCast, hacc]
      refine ⟨_, .offer _ hhist, hlenth ▸ hholds', ?_⟩
      rw [hp₁, hp]
  | @read ram ram' p p' a d r pElements Length _ hne hd hr ih =>
      obtain ⟨q, hhist, hholds, hp⟩ := ih
      have hq : q ≠ [] := fun h => hne (hholds.in_eq_out_iff.mpr h)
      rw [hholds.length_eq] at hd
      obtain ⟨ram₁, p₁, hr', -, helems, hholds', -, hp₁⟩ := hholds.read hq hd
      rw [hr'] at hr
      obtain ⟨rfl, rfl, rfl⟩ : ram₁ = ram' ∧ p₁ = p' ∧ (_ : ℤ) = r := by
        simpa only [Option.some.injEq, Prod.mk.injEq, Except.ok.injEq] using hr
      rw [Int.toNat_natCast, helems]
      exact ⟨_, .take _ hhist, hholds', by rw [hp₁, hp]⟩
  | @resume ram ram' p p' a d r pElements Length t _ hne hd hr ih =>
      obtain ⟨q, hhist, hholds, hp⟩ := ih
      have hq : q ≠ [] := fun h => hne (hholds.in_eq_out_iff.mpr h)
      rw [hholds.length_eq] at hd
      obtain ⟨ram₁, p₁, -, hr', helems, hholds', -, hp₁⟩ := hholds.read hq hd
      have hsame : pipeReadResumed ram { p with pReadThread := t } pElements Length =
        pipeReadResumed ram p pElements Length := rfl
      rw [hsame, hr'] at hr
      obtain ⟨rfl, rfl, rfl⟩ : ram₁ = ram' ∧ p₁ = p' ∧ (_ : ℤ) = r := by
        simpa only [Option.some.injEq, Prod.mk.injEq, Except.ok.injEq] using hr
      rw [Int.toNat_natCast, helems]
      exact ⟨_, .take _ hhist, hholds', by rw [hp₁, hp]⟩

/-- **The pipe is a bounded queue.** After any sequence of calls on a pipe that was empty,
the elements accepted are the elements delivered followed by a queue of at most `Lenth`
elements, and the next call is one of that queue. -/
theorem pipe_refines_fifo {ram₀ ram : Ram} {p₀ p : Pipe} {a d : List (List (BitVec 8))}
    (hb : Block p₀) (hempty : p₀.In = p₀.Out) (hreader : p₀.pReadThread = none)
    (h : Reach ram₀ p₀ ram p a d) :
    ∃ q, a = d ++ q ∧ p = { p₀ with In := p.In, Out := p.Out } ∧ QueueLaw ram p q := by
  obtain ⟨q, hhist, hholds, hp⟩ := h.holds hb hempty hreader
  exact ⟨q, hhist.accepted_eq.1, hp, hholds.queueLaw⟩

/-- A pipe of four elements of two bytes, with counters about to wrap. -/
def fourPairs : Pipe := ⟨1024, 4, 2, 0xfffffffe, 0xfffffffe, none⟩

lemma block_fourPairs : Block fourPairs :=
  ⟨⟨2, rfl⟩, by decide, by decide, by decide, by decide⟩

/-- Three elements written to it and two of them read, across the wrap of the counters. -/
theorem pipe_refines_fifo_fourPairs :
    ∃ ram p a d q, Reach (fun _ => 0) fourPairs ram p a d ∧ a.length = 3 ∧ d.length = 2 ∧
      a = d ++ q ∧ QueueLaw ram p q := by
  have h0 : Reach (fun _ => 0) fourPairs (fun _ => 0) fourPairs [] [] := .start
  have h1 := h0.write 64 3 ⟨by decide, by decide, Or.inl (by decide)⟩ rfl
  have h2 := h1.read 64 2 (by decide) ⟨by decide, by decide, Or.inl (by decide)⟩ rfl
  obtain ⟨q, ha, -, hlaw⟩ := pipe_refines_fifo block_fourPairs rfl rfl h2
  exact ⟨_, _, _, _, q, h2, by rw [List.nil_append, length_elems]; rfl,
    by rw [List.nil_append, length_elems]; rfl, ha, hlaw⟩

end Pipe

end ChinaOS
