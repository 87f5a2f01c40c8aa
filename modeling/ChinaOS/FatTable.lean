import ChinaOS.FatVolume

/-!
The entries of a FAT, as bytes.

An entry of a FAT12 takes one and a half bytes, so two entries share a byte. An entry of a FAT16
takes two bytes, one of a FAT32 four, of which the upper four bits belong to nobody.

* `ldWord`, `ldDWord`, `stWord`, `stDWord`: the macros of `file/ff.h`.
* `load`, `store`: the value of an entry, and the bytes after an entry is stored, as `get_fat` and
  `put_fat` compute them.
* `load_store`: a stored entry reads back, up to the width of an entry, and the others are as
  before. `store_of_notMem`: no other byte is touched.
-/

namespace ChinaOS

/-- `LD_WORD`. -/
def ldWord (p : ℕ → Byte) (i : ℕ) : DWord := (p (i + 1)).setWidth 32 <<< 8 ||| (p i).setWidth 32

/-- `LD_DWORD`. -/
def ldDWord (p : ℕ → Byte) (i : ℕ) : DWord :=
  (p (i + 3)).setWidth 32 <<< 24 ||| (p (i + 2)).setWidth 32 <<< 16 |||
    (p (i + 1)).setWidth 32 <<< 8 ||| (p i).setWidth 32

/-- `ST_WORD`. -/
def stWord (p : ℕ → Byte) (i : ℕ) (val : DWord) : ℕ → Byte :=
  Function.update (Function.update p i (val.setWidth 8)) (i + 1) ((val >>> 8).setWidth 8)

/-- `ST_DWORD`. -/
def stDWord (p : ℕ → Byte) (i : ℕ) (val : DWord) : ℕ → Byte :=
  let p := Function.update p i (val.setWidth 8)
  let p := Function.update p (i + 1) ((val >>> 8).setWidth 8)
  let p := Function.update p (i + 2) ((val >>> 16).setWidth 8)
  Function.update p (i + 3) ((val >>> 24).setWidth 8)

section Words

variable {p q : ℕ → Byte} {i j : ℕ} {val : DWord}

lemma ldWord_congr (h0 : p i = q j) (h1 : p (i + 1) = q (j + 1)) : ldWord p i = ldWord q j := by
  rw [ldWord, ldWord, h0, h1]

lemma ldDWord_congr (h : ∀ k < 4, p (i + k) = q (j + k)) : ldDWord p i = ldDWord q j := by
  rw [ldDWord, ldDWord, h 1 (by norm_num), h 2 (by norm_num), h 3 (by norm_num)]
  have := h 0 (by norm_num)
  rw [Nat.add_zero, Nat.add_zero] at this
  rw [this]

lemma stWord_of_ne (h0 : j ≠ i) (h1 : j ≠ i + 1) : stWord p i val j = p j := by
  rw [stWord, Function.update_of_ne h1, Function.update_of_ne h0]

lemma stDWord_of_ne (h : ∀ k < 4, j ≠ i + k) : stDWord p i val j = p j := by
  rw [stDWord, Function.update_of_ne (h 3 (by norm_num)), Function.update_of_ne (h 2 (by norm_num)),
    Function.update_of_ne (h 1 (by norm_num)),
    Function.update_of_ne (show j ≠ i from h 0 (by norm_num))]

/-- A word reads back as it was stored. -/
lemma ldWord_stWord : ldWord (stWord p i val) i = val &&& 0xFFFF := by
  have h0 : stWord p i val i = val.setWidth 8 := by
    rw [stWord, Function.update_of_ne (by omega), Function.update_self]
  have h1 : stWord p i val (i + 1) = (val >>> 8).setWidth 8 := Function.update_self ..
  rw [ldWord, h0, h1]
  ext b hb
  interval_cases b <;> simp

/-- A double word reads back as it was stored. -/
lemma ldDWord_stDWord : ldDWord (stDWord p i val) i = val := by
  have h0 : stDWord p i val i = val.setWidth 8 := by simp [stDWord]
  have h1 : stDWord p i val (i + 1) = (val >>> 8).setWidth 8 := by simp [stDWord]
  have h2 : stDWord p i val (i + 2) = (val >>> 16).setWidth 8 := by simp [stDWord]
  have h3 : stDWord p i val (i + 3) = (val >>> 24).setWidth 8 := Function.update_self ..
  rw [ldDWord, h0, h1, h2, h3]
  ext b hb
  interval_cases b <;> simp

end Words

namespace FatTable

/-- The first byte of an entry. -/
def offset : FsType → ℕ → ℕ
  | .fat12, c => c + c / 2
  | .fat16, c => 2 * c
  | .fat32, c => 4 * c
  | .notMounted, _ => 0

/-- The number of bytes that an entry has a part of. -/
def width : FsType → ℕ
  | .fat12 => 2
  | .fat16 => 2
  | .fat32 => 4
  | .notMounted => 0

/-- The bits of an entry. -/
def mask : FsType → DWord
  | .fat12 => 0xFFF
  | .fat16 => 0xFFFF
  | .fat32 => 0x0FFFFFFF
  | .notMounted => 0

/-- `szbfat` of `chk_mounted`: the bytes that a FAT of so many entries takes. -/
def szbfat : FsType → ℕ → ℕ
  | .fat12, n => n * 3 / 2 + n % 2
  | .fat16, n => n * 2
  | .fat32, n => n * 4
  | .notMounted, _ => 0

/-- The value of an entry, as `get_fat` puts it together. -/
def load (t : FsType) (b : ℕ → Byte) (c : ℕ) : DWord :=
  match t with
  | .fat12 => if c % 2 = 1 then ldWord b (c + c / 2) >>> 4 else ldWord b (c + c / 2) &&& 0xFFF
  | .fat16 => ldWord b (2 * c)
  | .fat32 => ldDWord b (4 * c) &&& 0x0FFFFFFF
  | .notMounted => 0xFFFFFFFF

/-- The bytes after `put_fat`. -/
def store (t : FsType) (b : ℕ → Byte) (c : ℕ) (val : DWord) : ℕ → Byte :=
  match t with
  | .fat12 =>
      let bc := c + c / 2
      let b := Function.update b bc
        (if c % 2 = 1 then b bc &&& 0x0F ||| val.setWidth 8 <<< 4 else val.setWidth 8)
      Function.update b (bc + 1)
        (if c % 2 = 1 then (val >>> 4).setWidth 8
          else b (bc + 1) &&& 0xF0 ||| (val >>> 8).setWidth 8 &&& 0x0F)
  | .fat16 => stWord b (2 * c) val
  | .fat32 => stDWord b (4 * c) (val ||| ldDWord b (4 * c) &&& 0xF0000000)
  | .notMounted => b

section Entries

variable {t : FsType} {b b' : ℕ → Byte} {c d n i : ℕ} {val : DWord}

/-- An entry lies within the bytes of the FAT. -/
lemma offset_add_width_le (hc : c < n) : offset t c + width t ≤ szbfat t n := by
  cases t with
  | fat12 =>
      simp only [offset, width, szbfat]
      rcases Nat.even_or_odd' n with ⟨m, rfl | rfl⟩
      · omega
      · omega
  | fat16 | fat32 | notMounted =>
      simp only [offset, width, szbfat]
      omega

/-- The value of an entry depends on its bytes only. -/
lemma load_congr (h : ∀ i, offset t c ≤ i → i < offset t c + width t → b i = b' i) :
    load t b c = load t b' c := by
  cases t with
  | notMounted => rfl
  | fat12 =>
      have h : ldWord b (c + c / 2) = ldWord b' (c + c / 2) :=
        ldWord_congr (h _ le_rfl (Nat.lt_add_of_pos_right two_pos))
          (h _ (Nat.le_succ _) (Nat.lt_succ_self _))
      rw [load, load, h]
  | fat16 =>
      exact ldWord_congr (h _ le_rfl (Nat.lt_add_of_pos_right two_pos))
        (h _ (Nat.le_succ _) (Nat.lt_succ_self _))
  | fat32 =>
      have h : ldDWord b (4 * c) = ldDWord b' (4 * c) :=
        ldDWord_congr fun k hk => h _ (Nat.le_add_right _ k) (Nat.add_lt_add_left hk _)
      rw [load, load, h]

/-- **No other byte is touched.** -/
lemma store_of_notMem (h : i < offset t c ∨ offset t c + width t ≤ i) :
    store t b c val i = b i := by
  cases t with
  | notMounted => rfl
  | fat12 =>
      have h : i < c + c / 2 ∨ c + c / 2 + 2 ≤ i := h
      rw [store, Function.update_of_ne (by omega), Function.update_of_ne (by omega)]
  | fat16 =>
      have h : i < 2 * c ∨ 2 * c + 2 ≤ i := h
      exact stWord_of_ne (by omega) (by omega)
  | fat32 =>
      have h : i < 4 * c ∨ 4 * c + 4 ≤ i := h
      exact stDWord_of_ne fun k hk => by omega

/-- What is read is no wider than an entry. -/
lemma load_and_mask (ht : t ≠ .notMounted) : load t b c &&& mask t = load t b c := by
  cases t with
  | notMounted => exact absurd rfl ht
  | fat12 =>
      simp only [load, mask, ldWord]
      split_ifs
      · ext i hi
        interval_cases i <;> simp
      · rw [BitVec.and_assoc, BitVec.and_self]
  | fat16 =>
      simp only [load, mask, ldWord]
      ext i hi
      interval_cases i <;> simp
  | fat32 =>
      simp only [load, mask]
      rw [BitVec.and_assoc, BitVec.and_self]

/-- **Round trip**: the entry reads back, as far as an entry is wide. -/
theorem load_store_self (ht : t ≠ .notMounted) : load t (store t b c val) c = val &&& mask t := by
  cases t with
  | notMounted => exact absurd rfl ht
  | fat16 => exact ldWord_stWord
  | fat32 =>
      rw [load, store, ldDWord_stDWord]
      ext i hi
      simp only [mask]
      interval_cases i <;> simp
  | fat12 =>
      have h1 : store .fat12 b c val (c + c / 2 + 1) = (if c % 2 = 1 then (val >>> 4).setWidth 8
          else b (c + c / 2 + 1) &&& 0xF0 ||| (val >>> 8).setWidth 8 &&& 0x0F) := by
        rw [store, Function.update_self, Function.update_of_ne (by omega)]
      have h0 : store .fat12 b c val (c + c / 2) = (if c % 2 = 1 then
          b (c + c / 2) &&& 0x0F ||| val.setWidth 8 <<< 4 else val.setWidth 8) := by
        rw [store, Function.update_of_ne (by omega), Function.update_self]
      simp only [load, ldWord, mask, h0, h1]
      split_ifs
      · ext i hi
        interval_cases i <;> simp
      · ext i hi
        interval_cases i <;> simp

/-- The next entry of a FAT12 keeps its half of the shared byte, and so does the one before. -/
lemma load_store_neighbour (hd : d ≠ c) : load .fat12 (store .fat12 b c val) d = load .fat12 b d := by
  have h1 : store .fat12 b c val (c + c / 2 + 1) = (if c % 2 = 1 then (val >>> 4).setWidth 8
      else b (c + c / 2 + 1) &&& 0xF0 ||| (val >>> 8).setWidth 8 &&& 0x0F) := by
    rw [store, Function.update_self, Function.update_of_ne (by omega)]
  have h0 : store .fat12 b c val (c + c / 2) = (if c % 2 = 1 then
      b (c + c / 2) &&& 0x0F ||| val.setWidth 8 <<< 4 else val.setWidth 8) := by
    rw [store, Function.update_of_ne (by omega), Function.update_self]
  have hother : ∀ i, i < c + c / 2 ∨ c + c / 2 + 2 ≤ i → store .fat12 b c val i = b i :=
    fun i hi => store_of_notMem hi
  by_cases hnext : c % 2 = 0 ∧ d = c + 1
  · -- the shared byte is the second of `c` and the first of `d`
    obtain ⟨hc, rfl⟩ := hnext
    have hfirst : c + 1 + (c + 1) / 2 = c + c / 2 + 1 := by omega
    simp only [load, ldWord, hfirst, if_pos (show (c + 1) % 2 = 1 by omega),
      hother (c + c / 2 + 1 + 1) (by omega), h1, if_neg (show ¬ c % 2 = 1 by omega)]
    ext i hi
    interval_cases i <;> simp
  by_cases hprev : c % 2 = 1 ∧ c = d + 1
  · -- the shared byte is the second of `d` and the first of `c`
    obtain ⟨hc, rfl⟩ := hprev
    have hfirst : d + d / 2 + 1 = d + 1 + (d + 1) / 2 := by omega
    simp only [load, ldWord, if_neg (show ¬ d % 2 = 1 by omega), hother (d + d / 2) (by omega)]
    rw [hfirst, h0, if_pos hc]
    ext i hi
    interval_cases i <;> simp
  · refine load_congr fun i hi1 hi2 => hother i ?_
    have hi1 : d + d / 2 ≤ i := hi1
    have hi2 : i < d + d / 2 + 2 := hi2
    omega

/-- **Every other entry is as before.** -/
theorem load_store_of_ne (hd : d ≠ c) : load t (store t b c val) d = load t b d := by
  cases t with
  | notMounted => rfl
  | fat12 => exact load_store_neighbour hd
  | fat16 =>
      refine load_congr fun i hi1 hi2 => store_of_notMem ?_
      simp only [offset, width] at hi1 hi2 ⊢
      omega
  | fat32 =>
      refine load_congr fun i hi1 hi2 => store_of_notMem ?_
      simp only [offset, width] at hi1 hi2 ⊢
      omega

/-- **The FAT after an entry is stored.** -/
theorem load_store (ht : t ≠ .notMounted) :
    load t (store t b c val) = Function.update (load t b) c (val &&& mask t) := by
  funext d
  by_cases hd : d = c
  · rw [hd, Function.update_self, load_store_self ht]
  · rw [Function.update_of_ne hd, load_store_of_ne hd]

end Entries

end FatTable

end ChinaOS
