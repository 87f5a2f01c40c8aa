import ChinaOS.OnesComplement

/-!
The Internet checksum of `ethernet/core/ipv4/inet_chksum.c`, on the little-endian machine.

* `lwipStandardChksum1`, `lwipStandardChksum`, `lwipStandardChksum3`: the three versions of the
  source; the second one is compiled.
* `number`: the bytes as one little-endian number. `lwipStandardChksum_spec`: the sum of the bytes
  is that of the number, with the carry taken around.
* `inetChksumPbuf`, `inetChksumPseudo`, `inetChksumPseudoPartial`: the checksum of a chain of
  buffers, with a pseudo header or without.
* `chksum_versions_agree`, `chksum_of_chain`, `chksum_accepts_iff`: the versions agree; how the
  bytes are distributed does not matter; which packets are accepted.
-/

namespace ChinaOS

namespace Checksum

open OnesComplement

/-! ### The functions of the source -/

/-- `FOLD_U32T`. -/
def foldU32t (u : BitVec 32) : BitVec 32 := (u >>> 16) + (u &&& 0x0000ffff)

/-- `SWAP_BYTES_IN_WORD`. -/
def swapBytesInWord (w : BitVec 32) : BitVec 32 := (w &&& 0xff) <<< 8 ||| (w &&& 0xff00) >>> 8

/-- `lwip_htons`. -/
def htons (n : BitVec 16) : BitVec 16 := (n &&& 0xff) <<< 8 ||| (n &&& 0xff00) >>> 8

/-- A word in memory. -/
def word (lo hi : BitVec 8) : BitVec 16 := hi ++ lo

/-- A double word in memory. -/
def long (b0 b1 b2 b3 : BitVec 8) : BitVec 32 := word b2 b3 ++ word b0 b1

/-- The loop of the first version, with the octet that may remain. -/
def accumulate : List (BitVec 8) → BitVec 32 → BitVec 32
  | a :: b :: rest, acc => accumulate rest (acc + (word b a).setWidth 32)
  | [a], acc => acc + (word 0 a).setWidth 32
  | [], acc => acc

/-- `lwip_standard_chksum`, version 1. -/
def lwipStandardChksum1 (data : List (BitVec 8)) : BitVec 16 :=
  let acc := accumulate data 0
  let acc := (acc >>> 16) + (acc &&& 0x0000ffff)
  let acc := if acc &&& 0xffff0000 ≠ 0 then (acc >>> 16) + (acc &&& 0x0000ffff) else acc
  htons (acc.setWidth 16)

/-- The loop over the words, and the byte that may be left over. -/
def sumWords : List (BitVec 8) → BitVec 32 → BitVec 32 × List (BitVec 8)
  | a :: b :: rest, sum => sumWords rest (sum + (word a b).setWidth 32)
  | rest, sum => (sum, rest)

/-- The end bytes are added, the sum is folded, and swapped if the alignment was odd. -/
def finish (odd : Bool) (t1 : BitVec 8) (ps : List (BitVec 8)) (sum : BitVec 32) : BitVec 16 :=
  let sum := sum + (word (ps.headD 0) t1).setWidth 32
  let sum := foldU32t (foldU32t sum)
  (if odd then swapBytesInWord sum else sum).setWidth 16

/-- Get aligned to a word: the first byte of an odd address is the upper half of a word. -/
def alignWord : Bool → List (BitVec 8) → BitVec 8 × List (BitVec 8)
  | true, b :: pb => (b, pb)
  | _, pb => (0, pb)

/-- `lwip_standard_chksum`, version 2, of the bytes at an address. -/
def lwipStandardChksum (dataptr : ℕ) (data : List (BitVec 8)) : BitVec 16 :=
  let odd := decide (dataptr % 2 = 1)
  let (t1, pb) := alignWord odd data
  let (sum, ps) := sumWords pb 0
  finish odd t1 ps sum

/-- The loop over pairs of double words; a carry is added back. -/
def sumLongs : List (BitVec 8) → BitVec 32 → BitVec 32 × List (BitVec 8)
  | a0 :: a1 :: a2 :: a3 :: b0 :: b1 :: b2 :: b3 :: rest, sum =>
      let tmp := sum + long a0 a1 a2 a3
      let tmp := if tmp < sum then tmp + 1 else tmp
      let sum := tmp + long b0 b1 b2 b3
      let sum := if sum < tmp then sum + 1 else sum
      sumLongs rest sum
  | rest, sum => (sum, rest)

/-- Get aligned to a double word. -/
def alignLong (ps : ℕ) : List (BitVec 8) → BitVec 32 × List (BitVec 8)
  | a :: b :: rest => if ps % 4 ≠ 0 then ((word a b).setWidth 32, rest) else (0, a :: b :: rest)
  | rest => (0, rest)

/-- Version 3 from an even address on. -/
def sumEven (ps : ℕ) (data : List (BitVec 8)) : BitVec 32 × List (BitVec 8) :=
  let (sum, pl) := alignLong ps data
  let (sum, ps) := sumLongs pl sum
  sumWords ps (foldU32t sum)

/-- `lwip_standard_chksum`, version 3. -/
def lwipStandardChksum3 (dataptr : ℕ) (data : List (BitVec 8)) : BitVec 16 :=
  let odd := decide (dataptr % 2 = 1)
  let (t1, pb) := alignWord odd data
  let (sum, ps) := sumEven (if odd then dataptr + 1 else dataptr) pb
  finish odd t1 ps sum

/-- A `struct pbuf`: the address of the payload, and the bytes there. -/
structure Pbuf where
  payload : ℕ
  data : List (BitVec 8)
  len_lt : data.length < 2 ^ 16

/-- The loop over a chain of buffers. -/
def sumChain : List Pbuf → BitVec 32 → Bool → BitVec 32 × Bool
  | [], acc, swapped => (acc, swapped)
  | q :: p, acc, swapped =>
      let acc := foldU32t (acc + (lwipStandardChksum q.payload q.data).setWidth 32)
      if q.data.length % 2 ≠ 0 then sumChain p (swapBytesInWord acc) (!swapped)
      else sumChain p acc swapped

/-- `inet_chksum`. -/
def inetChksum (dataptr : ℕ) (data : List (BitVec 8)) : BitVec 16 :=
  ~~~lwipStandardChksum dataptr data

/-- `inet_chksum_pbuf`. -/
def inetChksumPbuf (p : List Pbuf) : BitVec 16 :=
  let (acc, swapped) := sumChain p 0 false
  let acc := if swapped then swapBytesInWord acc else acc
  ~~~acc.setWidth 16

/-- The pseudo header is added; the addresses are in network order, as they are in memory. -/
def addPseudo (acc src dest : BitVec 32) (proto : BitVec 8) (protoLen : BitVec 16) : BitVec 16 :=
  let acc := acc + (src &&& 0xffff)
  let acc := acc + ((src >>> 16) &&& 0xffff)
  let acc := acc + (dest &&& 0xffff)
  let acc := acc + ((dest >>> 16) &&& 0xffff)
  let acc := acc + (htons (proto.setWidth 16)).setWidth 32
  let acc := acc + (htons protoLen).setWidth 32
  let acc := foldU32t (foldU32t acc)
  ~~~acc.setWidth 16

/-- `inet_chksum_pseudo`. -/
def inetChksumPseudo (p : List Pbuf) (src dest : BitVec 32) (proto : BitVec 8)
    (protoLen : BitVec 16) : BitVec 16 :=
  let (acc, swapped) := sumChain p 0 false
  let acc := if swapped then swapBytesInWord acc else acc
  addPseudo acc src dest proto protoLen

/-- The loop of `inet_chksum_pseudo_partial`; whether the sum is swapped depends on the length of
the buffer, not on that of the part that is summed. -/
def sumPartial : List Pbuf → ℕ → BitVec 32 → Bool → BitVec 32 × Bool
  | [], _, acc, swapped => (acc, swapped)
  | q :: p, chksumLen, acc, swapped =>
      if chksumLen = 0 then (acc, swapped)
      else
        let chklen := min q.data.length chksumLen
        let acc := foldU32t (acc + (lwipStandardChksum q.payload (q.data.take chklen)).setWidth 32)
        let chksumLen := chksumLen - chklen
        if q.data.length % 2 ≠ 0 then sumPartial p chksumLen (swapBytesInWord acc) (!swapped)
        else sumPartial p chksumLen acc swapped

/-- `inet_chksum_pseudo_partial`. -/
def inetChksumPseudoPartial (p : List Pbuf) (src dest : BitVec 32) (proto : BitVec 8)
    (protoLen chksumLen : BitVec 16) : BitVec 16 :=
  let (acc, swapped) := sumPartial p chksumLen.toNat 0 false
  let acc := if swapped then swapBytesInWord acc else acc
  addPseudo acc src dest proto protoLen

/-! ### Words as numbers -/

/-- The bytes as one number, the first one the least significant. -/
def number (data : List (BitVec 8)) : ℕ := Nat.ofDigits 256 (data.map BitVec.toNat)

/-- The sum of the bytes. -/
def internetSum (data : List (BitVec 8)) : ℕ := carrySum 65535 (number data)

section Words

variable {u w : BitVec 32} {n : BitVec 16} {a b lo hi : BitVec 8} {data rest : List (BitVec 8)}

@[simp] lemma number_nil : number [] = 0 := rfl

@[simp] lemma number_cons : number (a :: data) = a.toNat + 256 * number data := by
  simp [number, Nat.ofDigits_cons]

lemma number_append : number (data ++ rest) = number data + 256 ^ data.length * number rest := by
  rw [number, List.map_append, Nat.ofDigits_append, List.length_map, number, number]

lemma toNat_word : (word lo hi).toNat = lo.toNat + 256 * hi.toNat := by
  rw [word, BitVec.toNat_append, ← Nat.shiftLeft_add_eq_or_of_lt lo.isLt, Nat.shiftLeft_eq]
  omega

lemma toNat_setWidth_word : ((word lo hi).setWidth 32).toNat = lo.toNat + 256 * hi.toNat := by
  rw [BitVec.toNat_setWidth, toNat_word, Nat.mod_eq_of_lt]
  have := lo.isLt
  have := hi.isLt
  omega

lemma toNat_long {b0 b1 b2 b3 : BitVec 8} : (long b0 b1 b2 b3).toNat =
    b0.toNat + 256 * (b1.toNat + 256 * (b2.toNat + 256 * b3.toNat)) := by
  rw [long, BitVec.toNat_append, ← Nat.shiftLeft_add_eq_or_of_lt (word b0 b1).isLt,
    Nat.shiftLeft_eq, toNat_word, toNat_word]
  omega

lemma toNat_low (u : BitVec 32) : (u &&& 0xffff).toNat = u.toNat % 65536 := by
  rw [BitVec.toNat_and, show (0xffff : BitVec 32).toNat = 2 ^ 16 - 1 from rfl,
    Nat.and_two_pow_sub_one_eq_mod]

lemma toNat_high (u : BitVec 32) : (u >>> 16).toNat = u.toNat / 65536 := by
  rw [BitVec.toNat_ushiftRight, Nat.shiftRight_eq_div_pow]

lemma toNat_foldU32t : (foldU32t u).toNat = u.toNat / 65536 + u.toNat % 65536 := by
  rw [foldU32t, BitVec.toNat_add, toNat_high, toNat_low, Nat.mod_eq_of_lt]
  have := u.isLt
  omega

/-- Folding keeps the sum. -/
lemma carrySum_foldU32t : carrySum 65535 (foldU32t u).toNat = carrySum 65535 u.toNat := by
  rw [toNat_foldU32t]
  exact carrySum_fold

/-- Folding twice makes a word of it. -/
lemma toNat_fold_fold : (foldU32t (foldU32t u)).toNat = carrySum 65535 u.toNat := by
  rw [← carrySum_foldU32t, ← carrySum_foldU32t, carrySum_of_le]
  rw [toNat_foldU32t, toNat_foldU32t]
  have := u.isLt
  omega

lemma toNat_byte {k : ℕ} (hk : 8 ≤ k) (x : BitVec k) : (x &&& 0xff).toNat = x.toNat % 256 := by
  have h : (0xff : BitVec k).toNat = 2 ^ 8 - 1 := by
    have hlt : 255 < 2 ^ k := by
      calc 255 < 2 ^ 8 := by norm_num
        _ ≤ 2 ^ k := Nat.pow_le_pow_right two_pos hk
    exact Nat.mod_eq_of_lt hlt
  rw [BitVec.toNat_and, h, Nat.and_two_pow_sub_one_eq_mod]

/-- Two bytes that are put together the other way round. -/
lemma toNat_swapped {k : ℕ} (hk : 16 ≤ k) (x : BitVec k) :
    ((x &&& 0xff) <<< 8 ||| (x >>> 8 &&& 0xff)).toNat =
      x.toNat % 256 * 256 + x.toNat / 256 % 256 := by
  have hpow : (2 : ℕ) ^ 16 ≤ 2 ^ k := Nat.pow_le_pow_right two_pos hk
  rw [BitVec.toNat_or, BitVec.toNat_shiftLeft, toNat_byte (by omega), toNat_byte (by omega),
    BitVec.toNat_ushiftRight, Nat.shiftRight_eq_div_pow, Nat.mod_eq_of_lt,
    ← Nat.shiftLeft_add_eq_or_of_lt (Nat.mod_lt _ (by norm_num)), Nat.shiftLeft_eq]
  rw [Nat.shiftLeft_eq]
  omega

lemma toNat_swapBytesInWord :
    (swapBytesInWord w).toNat = w.toNat % 256 * 256 + w.toNat / 256 % 256 := by
  have hmask : (w &&& 0xff00) >>> 8 = w >>> 8 &&& 0xff := by
    ext i hi
    interval_cases i <;> simp
  rw [swapBytesInWord, hmask, toNat_swapped (by norm_num)]

lemma toNat_htons : (htons n).toNat = n.toNat % 256 * 256 + n.toNat / 256 := by
  have hmask : (n &&& 0xff00) >>> 8 = n >>> 8 &&& 0xff := by
    ext i hi
    interval_cases i <;> simp
  rw [htons, hmask, toNat_swapped le_rfl]
  have := n.isLt
  omega

/-- Swapping the bytes of a word is a shift by one byte. -/
lemma toNat_swap_of_lt (h : w.toNat < 65536) :
    (swapBytesInWord w).toNat = carrySum 65535 (256 * w.toNat) := by
  have := carrySum_swap (h := 256) (a := w.toNat) (by norm_num) (by omega)
  rw [toNat_swapBytesInWord, show (65535 : ℕ) = 256 * 256 - 1 from rfl, this]
  omega

end Words

/-! ### The three versions -/

section Versions

variable {sum acc : BitVec 32} {a b t1 : BitVec 8} {data ps : List (BitVec 8)} {k : ℕ}

/-- A byte in front shifts the number behind it. -/
lemma internetSum_cons : internetSum (a :: data) = carrySum 65535 (256 * number data + a.toNat) := by
  rw [internetSum, number_cons, Nat.add_comm]

variable (data) in
lemma internetSum_lt : internetSum data < 65536 := Nat.lt_succ_of_le (carrySum_le (by norm_num))

/-- What a loop over words has added. -/
structure Summed (data : List (BitVec 8)) (sum : BitVec 32) (k : ℕ)
    (p : BitVec 32 × List (BitVec 8)) : Prop where
  sum_eq : carrySum 65535 (p.1.toNat + number p.2) = carrySum 65535 (sum.toNat + number data)
  le : p.1.toNat ≤ sum.toNat + 65535 * k
  length_le : p.2.length ≤ 1

/-- Two bytes that are added as a word. -/
lemma carrySum_word {m : ℕ} : carrySum 65535 (m + (a.toNat + 256 * b.toNat) + number data) =
    carrySum 65535 (m + number (a :: b :: data)) := by
  have hshift : carrySum 65535 (m + (a.toNat + 256 * b.toNat) + number data) =
      carrySum 65535 (m + (a.toNat + 256 * b.toNat) + 65536 * number data) := by
    rw [← carrySum_add_right, ← carrySum_add_right (b := 65536 * number data),
      show (65536 : ℕ) = 65535 + 1 from rfl, carrySum_mul_base]
  rw [hshift, number_cons, number_cons]
  congr 1
  ring

/-- **The loop over words.** -/
lemma sumWords_spec (hlen : data.length ≤ 2 * k + 1) (hsum : sum.toNat + 65535 * k < 2 ^ 32) :
    Summed data sum k (sumWords data sum) := by
  induction k generalizing data sum with
  | zero =>
      match data, hlen with
      | [], _ => exact ⟨rfl, le_rfl, Nat.zero_le 1⟩
      | [a], _ => exact ⟨rfl, le_rfl, le_rfl⟩
  | succ k ih =>
      match data, hlen with
      | [], _ => exact ⟨rfl, Nat.le_add_right _ _, Nat.zero_le 1⟩
      | [a], _ => exact ⟨rfl, Nat.le_add_right _ _, le_rfl⟩
      | a :: b :: rest, hlen =>
          have hw : (sum + (word a b).setWidth 32).toNat = sum.toNat + (a.toNat + 256 * b.toNat) := by
            rw [BitVec.toNat_add, toNat_setWidth_word, Nat.mod_eq_of_lt]
            have := a.isLt
            have := b.isLt
            omega
          have hle : a.toNat + 256 * b.toNat ≤ 65535 := by
            have := a.isLt
            have := b.isLt
            omega
          rw [List.length_cons, List.length_cons] at hlen
          obtain ⟨h1, h2, h3⟩ := @ih (sum + (word a b).setWidth 32) rest
            (by omega) (by rw [hw]; omega)
          rw [sumWords]
          refine ⟨?_, ?_, h3⟩
          · rw [h1, hw, carrySum_word]
          · rw [hw] at h2
            omega

/-- The end bytes, from an even address on. -/
lemma finish_even {p : BitVec 32 × List (BitVec 8)} (h : Summed data sum k p)
    (hsum : sum.toNat + 65535 * k + 65535 < 2 ^ 32) :
    (finish false 0 p.2 p.1).toNat = carrySum 65535 (sum.toNat + number data) := by
  obtain ⟨h1, h2, h3⟩ := h
  have hps : number p.2 = (p.2.headD 0).toNat := by
    match p.2, h3 with
    | [], _ => rfl
    | [b], _ => simp
  have hlo := (p.2.headD 0).isLt
  have hadd : (p.1 + (word (p.2.headD 0) 0).setWidth 32).toNat = p.1.toNat + number p.2 := by
    rw [BitVec.toNat_add, toNat_setWidth_word, hps, show (0 : BitVec 8).toNat = 0 from rfl,
      Nat.mod_eq_of_lt (by omega), Nat.mul_zero, Nat.add_zero]
  have hle := carrySum_le (M := 65535) (n := p.1.toNat + number p.2) (by norm_num)
  rw [finish, if_neg Bool.false_ne_true, BitVec.toNat_setWidth, toNat_fold_fold, hadd,
    Nat.mod_eq_of_lt (by omega), h1]

/-- The end bytes, from an odd address on: the first byte is the upper half of the last word. -/
lemma finish_odd {p : BitVec 32 × List (BitVec 8)} (h : Summed data 0 k p)
    (hsum : 65535 * k + 65535 < 2 ^ 32) :
    (finish true t1 p.2 p.1).toNat = internetSum (t1 :: data) := by
  obtain ⟨h1, h2, h3⟩ := h
  rw [show (0 : BitVec 32).toNat = 0 from rfl, Nat.zero_add] at h1 h2
  have hps : number p.2 = (p.2.headD 0).toNat := by
    match p.2, h3 with
    | [], _ => rfl
    | [b], _ => simp
  have hlo := (p.2.headD 0).isLt
  have ht1 := t1.isLt
  have hadd : (p.1 + (word (p.2.headD 0) t1).setWidth 32).toNat =
      p.1.toNat + number p.2 + 256 * t1.toNat := by
    rw [BitVec.toNat_add, toNat_setWidth_word, hps, Nat.mod_eq_of_lt (by omega), Nat.add_assoc]
  have hfold : (foldU32t (foldU32t (p.1 + (word (p.2.headD 0) t1).setWidth 32))).toNat =
      carrySum 65535 (number data + 256 * t1.toNat) := by
    rw [toNat_fold_fold, hadd, carrySum_add_congr h1]
  have hlt : carrySum 65535 (number data + 256 * t1.toNat) < 65536 :=
    Nat.lt_succ_of_le (carrySum_le (by norm_num))
  have hshift : carrySum 65535 (256 * (number data + 256 * t1.toNat)) =
      internetSum (t1 :: data) := by
    rw [internetSum_cons, Nat.mul_add, ← Nat.mul_assoc, ← carrySum_add_right,
      show 256 * 256 = 65535 + 1 from rfl, carrySum_mul_base, carrySum_add_right]
  rw [finish, if_pos rfl, BitVec.toNat_setWidth, toNat_swap_of_lt (by rwa [hfold]), hfold,
    carrySum_mul (by norm_num), hshift, Nat.mod_eq_of_lt (internetSum_lt _)]

/-- The whole of fewer than `2 ^ 16` bytes. -/
lemma sumWords_zero (hlen : data.length < 2 ^ 16) : Summed data 0 32768 (sumWords data 0) :=
  sumWords_spec (by omega) (by decide)

/-- **Version 2** computes the sum of the bytes, at an even and at an odd address. -/
lemma lwipStandardChksum_spec {dataptr : ℕ} (hlen : data.length < 2 ^ 16) :
    (lwipStandardChksum dataptr data).toNat = internetSum data := by
  rw [lwipStandardChksum]
  cases decide (dataptr % 2 = 1) with
  | false =>
      show (finish false 0 (sumWords data 0).2 (sumWords data 0).1).toNat = _
      rw [finish_even (sumWords_zero hlen) (by decide), show (0 : BitVec 32).toNat = 0 from rfl,
        Nat.zero_add, internetSum]
  | true =>
      match data, hlen with
      | [], _ => rfl
      | b :: pb, hlen =>
          rw [List.length_cons] at hlen
          exact finish_odd (sumWords_zero (by omega)) (by norm_num)

/-- A sum of two double words, with the carry added back. -/
lemma carrySum_addBack {s x : BitVec 32} :
    carrySum 65535 (if s + x < s then s + x + 1 else s + x).toNat =
      carrySum 65535 (s.toNat + x.toNat) := by
  have hs := s.isLt
  have hx := x.isLt
  have hadd : (s + x).toNat = (s.toNat + x.toNat) % 2 ^ 32 := BitVec.toNat_add ..
  by_cases hover : s.toNat + x.toNat < 2 ^ 32
  · rw [Nat.mod_eq_of_lt hover] at hadd
    rw [if_neg (by rw [BitVec.lt_def, hadd]; omega), hadd]
  · have hadd : (s + x).toNat = s.toNat + x.toNat - 2 ^ 32 := by
      rw [hadd, Nat.mod_eq_sub_mod (by omega), Nat.mod_eq_of_lt (by omega)]
    have hone : (s + x + 1).toNat = s.toNat + x.toNat - 4294967295 := by
      rw [BitVec.toNat_add, hadd, show (1 : BitVec 32).toNat = 1 from rfl, Nat.mod_eq_of_lt (by omega)]
      omega
    rw [if_pos (by rw [BitVec.lt_def, hadd]; omega), hone]
    refine carrySum_eq_iff.mpr ⟨?_, by omega⟩
    rw [Nat.ModEq]
    omega

/-- **The loop over double words** adds them as words. -/
lemma sumLongs_spec (hlen : data.length ≤ 8 * k + 7) :
    carrySum 65535 ((sumLongs data sum).1.toNat + number (sumLongs data sum).2) =
        carrySum 65535 (sum.toNat + number data) ∧ (sumLongs data sum).2.length ≤ 7 := by
  induction k generalizing data sum with
  | zero =>
      rw [sumLongs]
      · exact ⟨rfl, hlen⟩
      · rintro a0 a1 a2 a3 b0 b1 b2 b3 rest rfl
        simp only [List.length_cons] at hlen
        omega
  | succ k ih =>
      by_cases hshort : data.length ≤ 7
      · rw [sumLongs]
        · exact ⟨rfl, hshort⟩
        · rintro a0 a1 a2 a3 b0 b1 b2 b3 rest rfl
          simp only [List.length_cons] at hshort
          omega
      · obtain ⟨a0, a1, a2, a3, b0, b1, b2, b3, rest, rfl⟩ :
            ∃ a0 a1 a2 a3 b0 b1 b2 b3 rest, data = a0 :: a1 :: a2 :: a3 :: b0 :: b1 :: b2 :: b3 :: rest := by
          match data, hshort with
          | a0 :: a1 :: a2 :: a3 :: b0 :: b1 :: b2 :: b3 :: rest, _ =>
              exact ⟨a0, a1, a2, a3, b0, b1, b2, b3, rest, rfl⟩
          | [], h | [_], h | [_, _], h | [_, _, _], h | [_, _, _, _], h | [_, _, _, _, _], h
          | [_, _, _, _, _, _], h | [_, _, _, _, _, _, _], h => exact absurd (by simp) h
        simp only [List.length_cons] at hlen
        rw [sumLongs]
        obtain ⟨h1, h2⟩ := @ih _ rest (by omega)
        refine ⟨h1.trans ?_, h2⟩
        rw [← carrySum_add_left, carrySum_addBack, carrySum_add_left, Nat.add_assoc,
          ← carrySum_add_left, carrySum_addBack, carrySum_add_left, toNat_long, toNat_long]
        -- eight bytes are four words
        refine carrySum_eq_iff.mpr ⟨?_, ?_⟩
        · simp only [number_cons, Nat.ModEq]
          omega
        · simp only [number_cons]
          omega

/-- Version 3 before the end bytes. -/
lemma sumEven_spec {dataptr : ℕ} (hlen : data.length < 2 ^ 16) :
    Summed data 0 5 (sumEven dataptr data) := by
  -- the double words, from a sum of at most one word on
  have hlongs : ∀ (pl : List (BitVec 8)) (s : BitVec 32), pl.length < 2 ^ 16 →
      carrySum 65535 (s.toNat + number pl) = internetSum data →
      Summed data 0 5 (sumWords (sumLongs pl s).2 (foldU32t (sumLongs pl s).1)) := by
    intro pl s hpl hs
    obtain ⟨hsum, hshort⟩ := @sumLongs_spec s pl 8192 (by omega)
    have hfold : (foldU32t (sumLongs pl s).1).toNat ≤ 131070 := by
      rw [toNat_foldU32t]
      have := (sumLongs pl s).1.isLt
      omega
    obtain ⟨h1, h2, h3⟩ : Summed (sumLongs pl s).2 (foldU32t (sumLongs pl s).1) 3 _ :=
      sumWords_spec (by omega) (by omega)
    refine ⟨?_, ?_, h3⟩
    · rw [h1, carrySum_add_congr carrySum_foldU32t, hsum, hs, show (0 : BitVec 32).toNat = 0 from rfl,
        Nat.zero_add, internetSum]
    · rw [show (0 : BitVec 32).toNat = 0 from rfl]
      omega
  have hzero : carrySum 65535 ((0 : BitVec 32).toNat + number data) = internetSum data := by
    rw [show (0 : BitVec 32).toNat = 0 from rfl, Nat.zero_add, internetSum]
  match data, hlen, hlongs, hzero with
  | [], hlen, hlongs, hzero => exact hlongs [] 0 hlen hzero
  | [a], hlen, hlongs, hzero => exact hlongs [a] 0 hlen hzero
  | a :: b :: rest, hlen, hlongs, hzero =>
      rw [sumEven, alignLong]
      split_ifs with halign
      · simp only [List.length_cons] at hlen
        refine hlongs rest _ (by omega) ?_
        rw [toNat_setWidth_word, ← Nat.zero_add (a.toNat + 256 * b.toNat), carrySum_word,
          Nat.zero_add, internetSum]
      · exact hlongs _ 0 hlen hzero

/-- **Version 3** computes the sum of the bytes. -/
lemma lwipStandardChksum3_spec {dataptr : ℕ} (hlen : data.length < 2 ^ 16) :
    (lwipStandardChksum3 dataptr data).toNat = internetSum data := by
  rw [lwipStandardChksum3]
  cases decide (dataptr % 2 = 1) with
  | false =>
      show (finish false 0 (sumEven dataptr data).2 (sumEven dataptr data).1).toNat = _
      rw [finish_even (sumEven_spec hlen) (by decide), show (0 : BitVec 32).toNat = 0 from rfl,
        Nat.zero_add, internetSum]
  | true =>
      match data, hlen with
      | [], _ => rfl
      | b :: pb, hlen =>
          rw [List.length_cons] at hlen
          exact finish_odd (sumEven_spec (by omega)) (by norm_num)

/-- The loop of the first version adds the words with their bytes changed. -/
lemma accumulate_spec (hlen : data.length ≤ 2 * k) (hacc : acc.toNat + 65535 * k < 2 ^ 32) :
    carrySum 65535 (accumulate data acc).toNat =
      carrySum 65535 (acc.toNat + 256 * number data) := by
  induction k generalizing data acc with
  | zero =>
      obtain rfl : data = [] := List.length_eq_zero_iff.mp (by omega)
      rfl
  | succ k ih =>
      match data, hlen with
      | [], _ => rfl
      | [a], _ =>
          have ha := a.isLt
          rw [accumulate, BitVec.toNat_add, toNat_setWidth_word, show (0 : BitVec 8).toNat = 0 from rfl,
            Nat.mod_eq_of_lt (by omega), number_cons, number_nil, Nat.zero_add, Nat.mul_zero,
            Nat.add_zero]
      | a :: b :: rest, hlen =>
          have ha := a.isLt
          have hb := b.isLt
          have hw : (acc + (word b a).setWidth 32).toNat = acc.toNat + (b.toNat + 256 * a.toNat) := by
            rw [BitVec.toNat_add, toNat_setWidth_word, Nat.mod_eq_of_lt (by omega)]
          simp only [List.length_cons] at hlen
          rw [accumulate, ih (by omega) (by rw [hw]; omega), hw, number_cons, number_cons]
          refine carrySum_eq_iff.mpr ⟨?_, by omega⟩
          rw [Nat.ModEq]
          omega

/-- **Version 1** computes the sum of the bytes. -/
lemma lwipStandardChksum1_spec (hlen : data.length < 2 ^ 16) :
    (lwipStandardChksum1 data).toNat = internetSum data := by
  have hacc : carrySum 65535 (accumulate data 0).toNat = carrySum 65535 (256 * number data) := by
    rw [accumulate_spec (k := 32768) (by omega) (by decide), show (0 : BitVec 32).toNat = 0 from rfl,
      Nat.zero_add]
  rw [lwipStandardChksum1]
  generalize accumulate data 0 = acc at hacc
  -- the second fold is left out only where it would do nothing
  have hfold : (if foldU32t acc &&& 0xffff0000 ≠ 0 then foldU32t (foldU32t acc) else foldU32t acc) =
      foldU32t (foldU32t acc) := by
    split_ifs with h
    · rfl
    · have hmask : foldU32t acc &&& (0xffff0000 : BitVec 32) = foldU32t acc >>> 16 <<< 16 := by
        ext i hi
        interval_cases i <;> simp
      rw [not_not, hmask, ← BitVec.toNat_inj, BitVec.toNat_shiftLeft, toNat_high,
        Nat.shiftLeft_eq, show (0 : BitVec 32).toNat = 0 from rfl] at h
      refine BitVec.eq_of_toNat_eq ?_
      rw [toNat_foldU32t (u := foldU32t acc)]
      have := (foldU32t acc).isLt
      omega
  show (htons (BitVec.setWidth 16 (if foldU32t acc &&& 0xffff0000 ≠ 0 then
    foldU32t (foldU32t acc) else foldU32t acc))).toNat = _
  rw [hfold, toNat_htons, BitVec.toNat_setWidth, toNat_fold_fold, hacc]
  have hlt : carrySum 65535 (256 * number data) < 65536 :=
    Nat.lt_succ_of_le (carrySum_le (by norm_num))
  have hswap := carrySum_swap (h := 256) (a := carrySum 65535 (256 * number data)) (by norm_num)
    (by omega)
  rw [Nat.mod_eq_of_lt hlt, ← hswap, carrySum_mul (by norm_num), ← Nat.mul_assoc,
    show 256 * 256 = 65535 + 1 from rfl, show 65535 + 1 - 1 = 65535 from rfl, carrySum_mul_base,
    internetSum]

/-- **The versions agree**, for any bytes at any address, and a byte sum is what they compute. -/
theorem chksum_versions_agree (dataptr : ℕ) (hlen : data.length < 2 ^ 16) :
    lwipStandardChksum dataptr data = lwipStandardChksum1 data ∧
      lwipStandardChksum3 dataptr data = lwipStandardChksum1 data ∧
      (lwipStandardChksum1 data).toNat = internetSum data := by
  have h1 := lwipStandardChksum1_spec hlen
  exact ⟨BitVec.eq_of_toNat_eq ((lwipStandardChksum_spec hlen).trans h1.symm),
    BitVec.eq_of_toNat_eq ((lwipStandardChksum3_spec hlen).trans h1.symm), h1⟩

theorem chksum_versions_agree_odd : lwipStandardChksum 7 [1, 2, 3] = lwipStandardChksum1 [1, 2, 3] :=
  (chksum_versions_agree 7 (by decide)).1

end Versions

/-! ### Chains of buffers -/

/-- The bytes of a chain. -/
def bytes (p : List Pbuf) : List (BitVec 8) := (p.map Pbuf.data).flatten

/-- A number, shifted by one byte or not. -/
def shifted (swapped : Bool) (n : ℕ) : ℕ := if swapped then 256 * n else n

section Chain

variable {acc : BitVec 32} {swapped : Bool} {p : List Pbuf} {q : Pbuf} {data : List (BitVec 8)}
  {m n k : ℕ}

@[simp] lemma bytes_cons : bytes (q :: p) = q.data ++ bytes p := rfl

lemma shifted_congr (h : carrySum 65535 m = carrySum 65535 n) :
    carrySum 65535 (shifted swapped m) = carrySum 65535 (shifted swapped n) := by
  cases swapped with
  | false => exact h
  | true => exact carrySum_mul_congr h

/-- Two shifts are none. -/
lemma carrySum_shift_shift : carrySum 65535 (256 * (256 * n)) = carrySum 65535 n := by
  rw [← Nat.mul_assoc, show 256 * 256 = 65535 + 1 from rfl, carrySum_mul_base]

/-- A shift that is undone by a swap. -/
lemma carrySum_shifted_not :
    carrySum 65535 (shifted (!swapped) (256 * n)) = carrySum 65535 (shifted swapped n) := by
  cases swapped with
  | false => exact carrySum_shift_shift
  | true => rfl

/-- The bytes behind some others are shifted if the number of these is odd. -/
lemma carrySum_pow : carrySum 65535 (256 ^ k * n) =
    carrySum 65535 (shifted (decide (k % 2 ≠ 0)) n) := by
  induction k using Nat.twoStepInduction with
  | zero => simp [shifted]
  | one => simp [shifted]
  | more k ih _ =>
      have hpow : 256 ^ (k + 2) * n = 256 * (256 * (256 ^ k * n)) := by ring
      rw [hpow, carrySum_shift_shift, ih, show (k + 2) % 2 = k % 2 by omega]

/-- One buffer is added. -/
lemma sum_buffer (dataptr : ℕ) (hacc : acc.toNat < 65536) (hlen : data.length < 2 ^ 16) :
    (foldU32t (acc + (lwipStandardChksum dataptr data).setWidth 32)).toNat < 65536 ∧
      carrySum 65535 (foldU32t (acc + (lwipStandardChksum dataptr data).setWidth 32)).toNat =
        carrySum 65535 (acc.toNat + number data) := by
  have hchk : ((lwipStandardChksum dataptr data).setWidth 32).toNat = internetSum data := by
    rw [BitVec.toNat_setWidth, lwipStandardChksum_spec hlen, Nat.mod_eq_of_lt]
    have := internetSum_lt data
    omega
  have hlt := internetSum_lt data
  have hadd : (acc + (lwipStandardChksum dataptr data).setWidth 32).toNat =
      acc.toNat + internetSum data := by
    rw [BitVec.toNat_add, hchk, Nat.mod_eq_of_lt (by omega)]
  refine ⟨?_, ?_⟩
  · rw [toNat_foldU32t, hadd]
    omega
  · rw [carrySum_foldU32t, hadd, internetSum, carrySum_add_right]

/-- What a loop over buffers has added. -/
def Chained (swapped : Bool) (m : ℕ) (r : BitVec 32 × Bool) : Prop :=
  r.1.toNat < 65536 ∧
    carrySum 65535 (shifted r.2 r.1.toNat) = carrySum 65535 (shifted swapped m)

/-- One more buffer, and the rest of the chain behind it. -/
lemma chained_step {r : BitVec 32 × Bool} (hacc : acc.toNat < 65536)
    (hsum : carrySum 65535 acc.toNat = carrySum 65535 n)
    (h : if k % 2 ≠ 0 then Chained (!swapped) ((swapBytesInWord acc).toNat + m) r
      else Chained swapped (acc.toNat + m) r) :
    Chained swapped (n + 256 ^ k * m) r := by
  have hpow := carrySum_pow (k := k) (n := m)
  have hgoal : carrySum 65535 (shifted swapped (n + 256 ^ k * m)) =
      carrySum 65535 (shifted swapped (acc.toNat + shifted (decide (k % 2 ≠ 0)) m)) := by
    refine shifted_congr ?_
    rw [carrySum_add_congr hsum.symm, ← carrySum_add_right, hpow, carrySum_add_right]
  split_ifs at h with hodd
  · refine ⟨h.1, h.2.trans ?_⟩
    rw [hgoal, decide_eq_true hodd]
    have hswap : carrySum 65535 ((swapBytesInWord acc).toNat + m) =
        carrySum 65535 (256 * (acc.toNat + 256 * m)) := by
      rw [toNat_swap_of_lt hacc, carrySum_add_left, Nat.mul_add, ← carrySum_add_right,
        ← carrySum_shift_shift (n := m), carrySum_add_right]
    rw [shifted_congr hswap, carrySum_shifted_not]
    rfl
  · refine ⟨h.1, h.2.trans ?_⟩
    rw [hgoal, decide_eq_false hodd]
    rfl

/-- **The loop over a chain.** -/
lemma sumChain_spec (hacc : acc.toNat < 65536) :
    Chained swapped (acc.toNat + number (bytes p)) (sumChain p acc swapped) := by
  induction p generalizing acc swapped with
  | nil => exact ⟨hacc, rfl⟩
  | cons q p ih =>
      obtain ⟨hlt, hsum⟩ := sum_buffer q.payload hacc q.len_lt
      rw [sumChain, bytes_cons, number_append, ← Nat.add_assoc]
      refine chained_step hlt hsum ?_
      split_ifs with hodd
      · exact ih (by rw [toNat_swap_of_lt hlt]; exact Nat.lt_succ_of_le (carrySum_le (by norm_num)))
      · exact ih hlt

/-- The loop over a part of a chain: where the last buffer is summed in part only, the swap that
its length asks for is undone at the end. -/
lemma sumPartial_spec (hacc : acc.toNat < 65536) :
    Chained swapped (acc.toNat + number ((bytes p).take n)) (sumPartial p n acc swapped) := by
  induction p generalizing acc swapped n with
  | nil => exact ⟨hacc, by simp [bytes, sumPartial]⟩
  | cons q p ih =>
      rw [sumPartial]
      by_cases hn : n = 0
      · rw [if_pos hn, hn]
        exact ⟨hacc, by simp⟩
      rw [if_neg hn]
      dsimp only
      have hnumber : number ((bytes (q :: p)).take n) =
          number (q.data.take (min q.data.length n)) +
            256 ^ q.data.length * number ((bytes p).take (n - min q.data.length n)) := by
        rw [bytes_cons, List.take_append]
        rcases Nat.le_total q.data.length n with hle | hle
        · rw [Nat.min_eq_left hle, List.take_of_length_le hle, List.take_of_length_le le_rfl,
            number_append]
        · rw [Nat.min_eq_right hle, Nat.sub_self, Nat.sub_eq_zero_of_le hle]
          simp
      obtain ⟨hlt, hsum⟩ := sum_buffer q.payload hacc
        ((List.length_take_le (min q.data.length n) q.data).trans_lt (by have := q.len_lt; omega))
      rw [hnumber, ← Nat.add_assoc]
      refine chained_step hlt hsum ?_
      split_ifs with hodd
      · exact ih (by rw [toNat_swap_of_lt hlt]; exact Nat.lt_succ_of_le (carrySum_le (by norm_num)))
      · exact ih hlt

/-- The swap at the end. -/
lemma Chained.unswap {r : BitVec 32 × Bool} (h : Chained false m r) :
    (if r.2 then swapBytesInWord r.1 else r.1).toNat < 65536 ∧
      carrySum 65535 (if r.2 then swapBytesInWord r.1 else r.1).toNat = carrySum 65535 m := by
  obtain ⟨hlt, hsum⟩ := h
  have hswap := toNat_swap_of_lt hlt
  cases hr : r.2 with
  | false =>
      rw [hr] at hsum
      exact ⟨hlt, hsum⟩
  | true =>
      rw [hr] at hsum
      rw [if_pos rfl, hswap, carrySum_carrySum (by norm_num)]
      exact ⟨Nat.lt_succ_of_le (carrySum_le (by norm_num)), hsum⟩

/-- The complement of a sum. -/
lemma toNat_not_setWidth {w : BitVec 32} (h : w.toNat < 65536) :
    (~~~w.setWidth 16).toNat = 65535 - w.toNat := by
  rw [BitVec.toNat_not, BitVec.toNat_setWidth, Nat.mod_eq_of_lt h]

/-- **The checksum of a chain.** -/
lemma inetChksumPbuf_spec : (inetChksumPbuf p).toNat = 65535 - internetSum (bytes p) := by
  have h : Chained false _ (sumChain p 0 false) := sumChain_spec (by decide)
  rw [show (0 : BitVec 32).toNat = 0 from rfl, Nat.zero_add] at h
  obtain ⟨hlt, hsum⟩ := h.unswap
  rw [inetChksumPbuf, toNat_not_setWidth hlt, ← carrySum_of_le (M := 65535) (Nat.le_of_lt_succ hlt),
    hsum, internetSum]

lemma inetChksum_spec {dataptr : ℕ} (hlen : data.length < 2 ^ 16) :
    (inetChksum dataptr data).toNat = 65535 - internetSum data := by
  rw [inetChksum, BitVec.toNat_not, lwipStandardChksum_spec hlen]

/-- The pseudo header, as it would be in memory. -/
def pseudoHeader (src dest : BitVec 32) (proto : BitVec 8) (protoLen : BitVec 16) :
    List (BitVec 8) :=
  let addr (a : BitVec 32) : List (BitVec 8) :=
    [a.setWidth 8, (a >>> 8).setWidth 8, (a >>> 16).setWidth 8, (a >>> 24).setWidth 8]
  addr src ++ addr dest ++ [0, proto, (protoLen >>> 8).setWidth 8, protoLen.setWidth 8]

variable {src dest : BitVec 32} {proto : BitVec 8} {protoLen : BitVec 16}

lemma length_pseudoHeader : (pseudoHeader src dest proto protoLen).length = 12 := rfl

/-- Four bytes of an address. -/
lemma number_address (a : BitVec 32) : number [a.setWidth 8, (a >>> 8).setWidth 8,
    (a >>> 16).setWidth 8, (a >>> 24).setWidth 8] = a.toNat := by
  have h := a.isLt
  simp only [number_cons, number_nil, BitVec.toNat_setWidth, BitVec.toNat_ushiftRight,
    Nat.shiftRight_eq_div_pow]
  omega

lemma carrySum_pseudoHeader : carrySum 65535 (n + number (pseudoHeader src dest proto protoLen)) =
    carrySum 65535 (n + (src.toNat + dest.toNat + 256 * proto.toNat +
      (protoLen.toNat / 256 + 256 * (protoLen.toNat % 256)))) := by
  have hlast : number [0, proto, (protoLen >>> 8).setWidth 8, protoLen.setWidth 8] =
      256 * proto.toNat + 65536 * (protoLen.toNat / 256 + 256 * (protoLen.toNat % 256)) := by
    have h := protoLen.isLt
    simp only [number_cons, number_nil, BitVec.toNat_setWidth, BitVec.toNat_ushiftRight,
      Nat.shiftRight_eq_div_pow]
    rw [show (0 : BitVec 8).toNat = 0 from rfl]
    omega
  rw [pseudoHeader, number_append, number_append, number_address, number_address, hlast]
  simp only [List.length_append, List.length_cons, List.length_nil]
  refine carrySum_eq_iff.mpr ⟨?_, by omega⟩
  rw [Nat.ModEq]
  omega

/-- A sum of double words that does not wrap. -/
lemma toNat_add_eq {x y : BitVec 32} (hx : x.toNat = m) (hy : y.toNat = n) (h : m + n < 2 ^ 32) :
    (x + y).toNat = m + n := by
  rw [BitVec.toNat_add, hx, hy, Nat.mod_eq_of_lt h]

/-- **The pseudo header is added.** -/
lemma addPseudo_spec (hacc : acc.toNat < 65536) :
    (addPseudo acc src dest proto protoLen).toNat =
      65535 - carrySum 65535 (acc.toNat + number (pseudoHeader src dest proto protoLen)) := by
  have hsrc := src.isLt
  have hdest := dest.isLt
  have hproto := proto.isLt
  have hlen := protoLen.isLt
  have h1 : ((htons (proto.setWidth 16)).setWidth 32).toNat = 256 * proto.toNat := by
    rw [BitVec.toNat_setWidth, toNat_htons, BitVec.toNat_setWidth,
      Nat.mod_eq_of_lt (show proto.toNat < 2 ^ 16 by omega), Nat.mod_eq_of_lt hproto,
      Nat.div_eq_of_lt hproto, Nat.mod_eq_of_lt (by omega)]
    omega
  have h2 : ((htons protoLen).setWidth 32).toNat =
      protoLen.toNat / 256 + 256 * (protoLen.toNat % 256) := by
    rw [BitVec.toNat_setWidth, toNat_htons, Nat.mod_eq_of_lt (by omega)]
    omega
  have hhigh : ∀ u : BitVec 32, ((u >>> 16) &&& (0xffff : BitVec 32)).toNat = u.toNat / 65536 := fun u => by
    have := u.isLt
    rw [toNat_low, toNat_high, Nat.mod_eq_of_lt (by omega)]
  have hsum : (acc + (src &&& (0xffff : BitVec 32)) + ((src >>> 16) &&& (0xffff : BitVec 32)) +
      (dest &&& (0xffff : BitVec 32)) + ((dest >>> 16) &&& (0xffff : BitVec 32)) +
      (htons (proto.setWidth 16)).setWidth 32 + (htons protoLen).setWidth 32).toNat = acc.toNat + src.toNat % 65536 + src.toNat / 65536 +
        dest.toNat % 65536 + dest.toNat / 65536 + 256 * proto.toNat +
        (protoLen.toNat / 256 + 256 * (protoLen.toNat % 256)) :=
    toNat_add_eq (toNat_add_eq (toNat_add_eq (toNat_add_eq (toNat_add_eq (toNat_add_eq rfl
      (toNat_low src) (by omega)) (hhigh src) (by omega)) (toNat_low dest) (by omega))
      (hhigh dest) (by omega)) h1 (by omega)) h2 (by omega)
  rw [addPseudo, toNat_not_setWidth (by
      rw [toNat_fold_fold]
      exact Nat.lt_succ_of_le (carrySum_le (by norm_num))),
    toNat_fold_fold, hsum, carrySum_pseudoHeader]
  congr 1
  refine carrySum_eq_iff.mpr ⟨?_, by omega⟩
  rw [Nat.ModEq]
  omega

/-- The pseudo header in front of some bytes. -/
lemma internetSum_pseudoHeader : internetSum (pseudoHeader src dest proto protoLen ++ data) =
    carrySum 65535 (number data + number (pseudoHeader src dest proto protoLen)) := by
  rw [internetSum, number_append, length_pseudoHeader, Nat.add_comm, ← carrySum_add_left,
    carrySum_pow, carrySum_add_left]
  rfl

/-- **The checksum of a chain behind a pseudo header.** -/
lemma inetChksumPseudo_spec : (inetChksumPseudo p src dest proto protoLen).toNat =
    65535 - internetSum (pseudoHeader src dest proto protoLen ++ bytes p) := by
  have h : Chained false _ (sumChain p 0 false) := sumChain_spec (by decide)
  rw [show (0 : BitVec 32).toNat = 0 from rfl, Nat.zero_add] at h
  obtain ⟨hlt, hsum⟩ := h.unswap
  rw [inetChksumPseudo, addPseudo_spec hlt, internetSum_pseudoHeader, carrySum_add_congr hsum]

lemma inetChksumPseudoPartial_spec {chksumLen : BitVec 16} :
    (inetChksumPseudoPartial p src dest proto protoLen chksumLen).toNat =
      65535 - internetSum (pseudoHeader src dest proto protoLen ++
        (bytes p).take chksumLen.toNat) := by
  have h : Chained false _ (sumPartial p chksumLen.toNat 0 false) := sumPartial_spec (by decide)
  rw [show (0 : BitVec 32).toNat = 0 from rfl, Nat.zero_add] at h
  obtain ⟨hlt, hsum⟩ := h.unswap
  rw [inetChksumPseudoPartial, addPseudo_spec hlt, internetSum_pseudoHeader,
    carrySum_add_congr hsum]

/-- **How the bytes are distributed does not matter**: over which buffers, at which addresses, in
how many parts. The checksum of a chain is that of the bytes in one piece, and the pseudo header
counts as if it stood in front of them. -/
theorem chksum_of_chain {p' : List Pbuf} (h : bytes p = bytes p') (chksumLen : BitVec 16) :
    inetChksumPbuf p = inetChksumPbuf p' ∧
      inetChksumPseudo p src dest proto protoLen = inetChksumPseudo p' src dest proto protoLen ∧
      inetChksumPseudoPartial p src dest proto protoLen chksumLen =
        inetChksumPseudoPartial p' src dest proto protoLen chksumLen ∧
      ((bytes p).length + 12 < 2 ^ 16 → ∀ dataptr,
        inetChksumPbuf p = inetChksum dataptr (bytes p) ∧
        inetChksumPseudo p src dest proto protoLen =
          inetChksum dataptr (pseudoHeader src dest proto protoLen ++ bytes p) ∧
        inetChksumPseudoPartial p src dest proto protoLen chksumLen =
          inetChksum dataptr (pseudoHeader src dest proto protoLen ++
            (bytes p).take chksumLen.toNat)) := by
  refine ⟨BitVec.eq_of_toNat_eq ?_, BitVec.eq_of_toNat_eq ?_, BitVec.eq_of_toNat_eq ?_,
    fun hlen dataptr => ⟨BitVec.eq_of_toNat_eq ?_, BitVec.eq_of_toNat_eq ?_,
      BitVec.eq_of_toNat_eq ?_⟩⟩
  · rw [inetChksumPbuf_spec, inetChksumPbuf_spec, h]
  · rw [inetChksumPseudo_spec, inetChksumPseudo_spec, h]
  · rw [inetChksumPseudoPartial_spec, inetChksumPseudoPartial_spec, h]
  · rw [inetChksumPbuf_spec, inetChksum_spec (by omega)]
  · rw [inetChksumPseudo_spec, inetChksum_spec]
    rw [List.length_append, length_pseudoHeader]
    omega
  · rw [inetChksumPseudoPartial_spec, inetChksum_spec]
    rw [List.length_append, length_pseudoHeader]
    have := List.length_take_le chksumLen.toNat (bytes p)
    have := List.length_take_le' chksumLen.toNat (bytes p)
    omega

/-- Three bytes in one buffer and in two, of which the second is at an odd address. -/
theorem chksum_of_chain_three :
    inetChksumPbuf [⟨16, [1, 2, 3], by decide⟩] =
      inetChksumPbuf [⟨32, [1], by decide⟩, ⟨65, [2, 3], by decide⟩] :=
  (@chksum_of_chain _ 0 0 0 0 _ rfl 0).1

/-- A word at an even place of the bytes. -/
lemma internetSum_word {pre post : List (BitVec 8)} {lo hi : BitVec 8} (hpre : pre.length % 2 = 0) :
    internetSum (pre ++ lo :: hi :: post) =
      carrySum 65535 (number (pre ++ 0 :: 0 :: post) + (word lo hi).toNat) := by
  have hpow : carrySum 65535 (256 ^ pre.length * (lo.toNat + 256 * hi.toNat)) =
      carrySum 65535 (lo.toNat + 256 * hi.toNat) := by
    rw [carrySum_pow, decide_eq_false (by omega)]
    rfl
  have hsplit : number (pre ++ lo :: hi :: post) = number (pre ++ 0 :: 0 :: post) +
      256 ^ pre.length * (lo.toNat + 256 * hi.toNat) := by
    rw [number_append, number_append, number_cons, number_cons, number_cons, number_cons,
      show (0 : BitVec 8).toNat = 0 from rfl]
    ring
  rw [internetSum, hsplit, ← carrySum_add_right, hpow, carrySum_add_right, toNat_word]

/-- The complement is zero. -/
lemma eq_zero_iff {c : BitVec 16} (h : c.toNat = 65535 - n) (hn : n ≤ 65535) :
    c = 0 ↔ n = 65535 := by
  rw [← BitVec.toNat_inj, h, show (0 : BitVec 16).toNat = 0 from rfl]
  omega

/-- What a word has to be for a checksum of zero. -/
lemma accepts_iff (pre post : List (BitVec 8)) {lo hi : BitVec 8} {c c' : BitVec 16}
    (hpre : pre.length % 2 = 0) (hc : c.toNat = 65535 - internetSum (pre ++ 0 :: 0 :: post))
    (hc' : c'.toNat = 65535 - internetSum (pre ++ lo :: hi :: post)) :
    c' = 0 ↔ word lo hi = c ∨ c = 0 ∧ word lo hi = 0xffff := by
  have hw := (word lo hi).isLt
  have hle := Nat.le_of_lt_succ (internetSum_lt (pre ++ lo :: hi :: post))
  rw [eq_zero_iff hc' hle, internetSum_word hpre,
    carrySum_add_eq_iff (by norm_num) (Nat.le_of_lt_succ hw), ← BitVec.toNat_inj (x := word lo hi),
    ← BitVec.toNat_inj (x := c), ← BitVec.toNat_inj (x := word lo hi), hc]
  rfl

/-- **Which packets are accepted.** Take a packet with a word at an even place, for instance that
of its checksum. The checksum over the packet is zero, as the receiver asks for, exactly if this
word is the checksum of the packet with zero in its place, or all ones where this is zero, as it is
sent for UDP. So a packet whose checksum was filled in is accepted, and one in which one word was
damaged is not, unless all ones became zero or the other way round. -/
theorem chksum_accepts_iff {p' : List Pbuf} {pre post : List (BitVec 8)} {lo hi : BitVec 8}
    (hpre : pre.length % 2 = 0) (hp : bytes p = pre ++ 0 :: 0 :: post)
    (hp' : bytes p' = pre ++ lo :: hi :: post) :
    (inetChksumPbuf p' = 0 ↔ word lo hi = inetChksumPbuf p ∨
      inetChksumPbuf p = 0 ∧ word lo hi = 0xffff) ∧
    (inetChksumPseudo p' src dest proto protoLen = 0 ↔
      word lo hi = inetChksumPseudo p src dest proto protoLen ∨
        inetChksumPseudo p src dest proto protoLen = 0 ∧ word lo hi = 0xffff) := by
  constructor
  · refine accepts_iff pre post hpre ?_ ?_
    · rw [inetChksumPbuf_spec, hp]
    · rw [inetChksumPbuf_spec, hp']
  · refine accepts_iff (pseudoHeader src dest proto protoLen ++ pre) post ?_ ?_ ?_
    · rw [List.length_append, length_pseudoHeader]
      omega
    · rw [inetChksumPseudo_spec, hp, List.append_assoc]
    · rw [inetChksumPseudo_spec, hp', List.append_assoc]

/-- Two words of data, and the checksum behind them. -/
theorem chksum_accepts_iff_six :
    inetChksumPbuf [⟨0, [1, 2, 3, 4, 0xfb, 0xf9], by decide⟩] = 0 :=
  ((@chksum_accepts_iff [⟨0, [1, 2, 3, 4, 0, 0], by decide⟩] 0 0 0 0 _ [1, 2, 3, 4] [] 0xfb 0xf9
    rfl rfl rfl).1).mpr (Or.inl (by decide))

end Chain

end Checksum

end ChinaOS
