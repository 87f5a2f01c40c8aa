import Mathlib.Data.List.GetD
import ChinaOS.FatFiles

/-!
The data area of a volume: the sectors of the clusters of a file, and requests for several
sectors at once.

* `dataSector`: the sectors of a cluster. `dataSector_inj`: different clusters have different ones.
* `Extent`: the chains of some files that may be empty, and what a new cluster does to one of them.
* `InFat`: where the window is after the FAT has been used.
* `Owns.store`: the data area is nothing that the FAT depends on.
-/

namespace ChinaOS

namespace Drive

/-! ### Requests for several sectors -/

/-- `disk_read` of several sectors; the first one that fails ends it. -/
def diskReads : ℕ → Drive → DWord → Drive × List Sector × Bool
  | 0, d, _ => (d, [], true)
  | n + 1, d, sector =>
      match d.diskRead sector with
      | (d, buffer, false) => (d, [buffer], false)
      | (d, buffer, true) =>
          match diskReads n d (sector + 1) with
          | (d, buffers, res) => (d, buffer :: buffers, res)

/-- `disk_write` of several sectors; the first one that fails ends it. -/
def diskWrites : List Sector → Drive → DWord → Drive × Bool
  | [], d, _ => (d, true)
  | buffer :: buffers, d, sector =>
      match d.diskWrite sector buffer with
      | (d, false) => (d, false)
      | (d, true) => diskWrites buffers d (sector + 1)

section Requests

variable {d : Drive} {a : DWord} {n k : ℕ} (sector : DWord) (buffer : Sector)
  (buffers : List Sector)

/-- One sector of a drive that makes no error. -/
lemma Reliable.diskRead_eq (h : d.Reliable) : ∃ d',
    d.diskRead sector = (d', d.sectors sector, true) ∧ d'.Reliable ∧ d'.sectors = d.sectors := by
  obtain ⟨hrel, hok⟩ := h.diskRead sector
  obtain ⟨hsec, hbuf⟩ := diskRead_spec (d := d) sector
  refine ⟨(d.diskRead sector).1, ?_, hrel, hsec⟩
  rw [← hbuf hok, ← hok]

lemma Reliable.diskWrite_eq (h : d.Reliable) : ∃ d', d.diskWrite sector buffer = (d', true) ∧
    d'.Reliable ∧ d'.sectors = Function.update d.sectors sector buffer := by
  obtain ⟨hrel, hok⟩ := h.diskWrite sector buffer
  obtain ⟨hother, hself⟩ := diskWrite_spec (d := d) sector buffer
  refine ⟨(d.diskWrite sector buffer).1, by rw [← hok], hrel, ?_⟩
  funext a
  by_cases ha : a = sector
  · rw [ha, hself hok, Function.update_self]
  · rw [hother a ha, Function.update_of_ne ha]

/-- The sectors that are read. -/
lemma Reliable.diskReads (h : d.Reliable) : ∃ d', Drive.diskReads n d sector =
    (d', (List.range n).map fun k => d.sectors (sector + BitVec.ofNat 32 k), true) ∧
      d'.Reliable ∧ d'.sectors = d.sectors := by
  induction n generalizing d sector with
  | zero => exact ⟨d, rfl, h, rfl⟩
  | succ n ih =>
      obtain ⟨d₁, h₁, hrel₁, hsec₁⟩ := h.diskRead_eq sector
      obtain ⟨d₂, h₂, hrel₂, hsec₂⟩ := ih (sector + 1) hrel₁
      refine ⟨d₂, ?_, hrel₂, hsec₂.trans hsec₁⟩
      rw [Drive.diskReads, h₁]
      dsimp only
      rw [h₂, hsec₁, List.range_succ_eq_map, List.map_cons, List.map_map]
      have hnext : ∀ k : ℕ, sector + 1 + BitVec.ofNat 32 k = sector + BitVec.ofNat 32 (k + 1) := by
        intro k
        rw [BitVec.ofNat_add, BitVec.add_assoc, BitVec.add_comm 1]
        rfl
      refine congrArg (fun s => (d₂, s, true)) (congrArg₂ _ (by simp) (List.map_congr_left ?_))
      exact fun k _ => congrArg d.sectors (hnext k)

/-- The sectors that are written, as long as their numbers do not wrap. -/
lemma Reliable.diskWrites (h : d.Reliable) (hlen : sector.toNat + buffers.length ≤ 2 ^ 32) :
    ∃ d', Drive.diskWrites buffers d sector = (d', true) ∧ d'.Reliable ∧
      (∀ k, (hk : k < buffers.length) → ∀ a : DWord, a.toNat = sector.toNat + k →
        d'.sectors a = buffers[k]) ∧
      ∀ a : DWord, (∀ k < buffers.length, a.toNat ≠ sector.toNat + k) →
        d'.sectors a = d.sectors a := by
  induction buffers generalizing d sector with
  | nil => exact ⟨d, rfl, h, fun k hk => absurd hk (Nat.not_lt_zero k), fun _ _ => rfl⟩
  | cons buffer buffers ih =>
      rw [List.length_cons] at hlen
      obtain ⟨d₁, h₁, hrel₁, hsec₁⟩ := h.diskWrite_eq sector buffer
      by_cases hnil : buffers = []
      · subst hnil
        refine ⟨d₁, by rw [Drive.diskWrites, h₁]; rfl, hrel₁, fun k hk a ha => ?_, fun a ha => ?_⟩
        · obtain rfl : k = 0 := by simpa using hk
          rw [hsec₁, BitVec.eq_of_toNat_eq (show a.toNat = sector.toNat from ha)]
          exact Function.update_self ..
        · rw [hsec₁, Function.update_of_ne]
          rintro rfl
          exact ha 0 (by simp) rfl
      have hpos := List.length_pos_iff.mpr hnil
      have hnext : (sector + 1).toNat = sector.toNat + 1 := by
        rw [BitVec.toNat_add, show (1 : DWord).toNat = 1 from rfl, Nat.mod_eq_of_lt (by omega)]
      obtain ⟨d₂, h₂, hrel₂, hself, hother⟩ :=
        ih (sector + 1) hrel₁ (by omega)
      rw [hnext] at hself hother
      refine ⟨d₂, ?_, hrel₂, fun k hk a ha => ?_, fun a ha => ?_⟩
      · rw [Drive.diskWrites, h₁]
        exact h₂
      · cases k with
        | zero =>
            rw [hother a fun k _ => by omega, hsec₁,
              BitVec.eq_of_toNat_eq (show a.toNat = sector.toNat from ha)]
            exact Function.update_self ..
        | succ k => exact hself k (by simpa using hk) a (by omega)
      · rw [hother a fun k hk => ?_, hsec₁, Function.update_of_ne]
        · rintro rfl
          exact ha 0 (by simp) rfl
        · have := ha (k + 1) (by simpa using hk)
          omega

end Requests

end Drive

namespace FatFs

open Links

/-! ### The sectors of clusters -/

/-- The data area lies behind the FAT, and the sectors of all clusters have numbers. -/
structure Geometry (fs : FatFs) : Prop where
  csize : ∃ k ≤ 7, fs.csize.toNat = 2 ^ k
  behind : fs.fatbase.toNat + fs.nFats.toNat * fs.fsize.toNat ≤ fs.database.toNat
  room : fs.database.toNat + (fs.nFatent.toNat - 2) * fs.csize.toNat ≤ 2 ^ 32

/-- A sector of a cluster. -/
def dataSector (fs : FatFs) (c : DWord) (k : ℕ) : DWord := fs.clust2sect c + BitVec.ofNat 32 k

/-- The bytes of a cluster. -/
def clusterBytes (fs : FatFs) : ℕ := 512 * fs.csize.toNat

/-- The bytes that the clusters of a chain have room for. -/
def capacity (fs : FatFs) (l : List DWord) : ℕ := l.length * fs.clusterBytes

/-- The sector of a byte of a chain. -/
def sectorOf (fs : FatFs) (l : List DWord) (i : ℕ) : DWord :=
  fs.dataSector (l.getD (i / fs.clusterBytes) 0) (i % fs.clusterBytes / 512)

/-- The volume as it is, but for the window, the drive and what is known of free clusters. -/
def SameLayout (fs fs' : FatFs) : Prop := ∃ wflag fsiFlag lastClust freeClust winsect win drive,
  fs' = { fs with wflag, fsiFlag, lastClust, freeClust, winsect, win, drive }

section Sectors

variable {fs fs' : FatFs} {c d : DWord} {l r : List DWord} {i j k m : ℕ}

lemma SameLayout.refl (fs : FatFs) : SameLayout fs fs := ⟨_, _, _, _, _, _, _, rfl⟩

lemma SameLayout.trans {fs'' : FatFs} (h : SameLayout fs fs') (h' : SameLayout fs' fs'') :
    SameLayout fs fs'' := by
  obtain ⟨f, i, l, n, w, b, d, rfl⟩ := h
  obtain ⟨f', i', l', n', w', b', d', rfl⟩ := h'
  exact ⟨_, _, _, _, _, _, _, rfl⟩

lemma Kept.sameLayout {E : ℕ → DWord} {free : DWord} (h : Kept fs fs' E free) :
    SameLayout fs fs' := by
  obtain ⟨f, i, l, w, b, d, rfl⟩ := h.layout
  exact ⟨_, _, _, _, _, _, _, rfl⟩

lemma SameLayout.geometry (h : SameLayout fs fs') (hg : Geometry fs) : Geometry fs' := by
  obtain ⟨f, i, l, n, w, b, d, rfl⟩ := h
  exact ⟨hg.csize, hg.behind, hg.room⟩

lemma SameLayout.clusterBytes (h : SameLayout fs fs') : fs'.clusterBytes = fs.clusterBytes := by
  obtain ⟨f, i, l, n, w, b, d, rfl⟩ := h
  rfl

lemma SameLayout.capacity (h : SameLayout fs fs') : fs'.capacity l = fs.capacity l := by
  rw [FatFs.capacity, h.clusterBytes, FatFs.capacity]

lemma SameLayout.sectorOf (h : SameLayout fs fs') : fs'.sectorOf l i = fs.sectorOf l i := by
  obtain ⟨f, i, l, n, w, b, d, rfl⟩ := h
  rfl

lemma SameLayout.clust2sect (h : SameLayout fs fs') : fs'.clust2sect c = fs.clust2sect c := by
  obtain ⟨f, i, l, n, w, b, d, rfl⟩ := h
  rfl

lemma SameLayout.isCopy {a : DWord} (h : SameLayout fs fs') : fs'.IsCopy a ↔ fs.IsCopy a := by
  obtain ⟨f, i, l, n, w, b, d, rfl⟩ := h
  rfl

lemma Geometry.csize_pos (hg : Geometry fs) : 0 < fs.csize.toNat ∧ fs.csize.toNat ≤ 128 := by
  obtain ⟨k, hk, hc⟩ := hg.csize
  have : 2 ^ k ≤ 2 ^ 7 := Nat.pow_le_pow_right (by norm_num) hk
  have := Nat.one_le_two_pow (n := k)
  omega

lemma Geometry.clusterBytes_pos (hg : Geometry fs) : 0 < fs.clusterBytes := by
  have := hg.csize_pos.1
  rw [FatFs.clusterBytes]
  omega

/-- The first sector of a cluster. -/
lemma Geometry.toNat_clust2sect (hg : Geometry fs) (hc : fs.IsCluster c) :
    (fs.clust2sect c).toNat = fs.database.toNat + (c.toNat - 2) * fs.csize.toNat := by
  obtain ⟨h2, hn⟩ := hc
  have hsub : (c - 2).toNat = c.toNat - 2 :=
    BitVec.toNat_sub_of_le (BitVec.le_def.mpr h2)
  have hsubn : (fs.nFatent - 2).toNat = fs.nFatent.toNat - 2 :=
    BitVec.toNat_sub_of_le (BitVec.le_def.mpr (by rw [show (2 : DWord).toNat = 2 from rfl]; omega))
  have hmul : (c.toNat - 2) * fs.csize.toNat + fs.csize.toNat ≤
      (fs.nFatent.toNat - 2) * fs.csize.toNat := by
    rw [← Nat.succ_mul]
    exact Nat.mul_le_mul_right _ (by omega)
  have := hg.room
  have := hg.csize_pos
  rw [clust2sect, if_neg fun hle => by rw [BitVec.le_def, hsub, hsubn] at hle; omega,
    BitVec.toNat_add, BitVec.toNat_mul, hsub, BitVec.toNat_setWidth,
    Nat.mod_eq_of_lt (a := fs.csize.toNat) (by omega), Nat.mod_eq_of_lt (a := _ * _) (by omega),
    Nat.mod_eq_of_lt (by omega), Nat.add_comm]

/-- The sectors of a cluster, as numbers. -/
lemma Geometry.toNat_dataSector (hg : Geometry fs) (hc : fs.IsCluster c)
    (hk : k < fs.csize.toNat) : (fs.dataSector c k).toNat =
      fs.database.toNat + ((c.toNat - 2) * fs.csize.toNat + k) ∧
      (c.toNat - 2) * fs.csize.toNat + k < (fs.nFatent.toNat - 2) * fs.csize.toNat := by
  have hmul : (c.toNat - 2) * fs.csize.toNat + fs.csize.toNat ≤
      (fs.nFatent.toNat - 2) * fs.csize.toNat := by
    rw [← Nat.succ_mul]
    exact Nat.mul_le_mul_right _ (by have := hc.1; have := hc.2; omega)
  have := hg.room
  refine ⟨?_, by omega⟩
  rw [dataSector, BitVec.toNat_add, BitVec.toNat_ofNat, hg.toNat_clust2sect hc,
    Nat.mod_eq_of_lt (a := k) (by omega), Nat.mod_eq_of_lt (by omega)]
  omega

/-- **Different clusters have different sectors.** -/
lemma Geometry.dataSector_inj (hg : Geometry fs) (hc : fs.IsCluster c) (hd : fs.IsCluster d)
    (hk : k < fs.csize.toNat) (hm : m < fs.csize.toNat)
    (h : fs.dataSector c k = fs.dataSector d m) : c = d ∧ k = m := by
  have hval := congrArg BitVec.toNat h
  rw [(hg.toNat_dataSector hc hk).1, (hg.toNat_dataSector hd hm).1] at hval
  have hpos := hg.csize_pos.1
  have hsame : (c.toNat - 2) * fs.csize.toNat + k = (d.toNat - 2) * fs.csize.toNat + m := by omega
  have hkm : k = m := by
    have := congrArg (· % fs.csize.toNat) hsame
    simpa [Nat.mul_add_mod_self_right, Nat.mod_eq_of_lt hk, Nat.mod_eq_of_lt hm] using this
  refine ⟨BitVec.eq_of_toNat_eq ?_, hkm⟩
  have hcd : c.toNat - 2 = d.toNat - 2 :=
    Nat.eq_of_mul_eq_mul_right hpos (by omega)
  have := hc.1
  have := hd.1
  omega

/-- The clusters of a chain are clusters of the volume. -/
def InVolume (fs : FatFs) (l : List DWord) : Prop := ∀ c ∈ l, fs.IsCluster c

/-- The cluster of a byte of a chain. -/
lemma cluster_of (hg : Geometry fs) (hl : fs.InVolume l) (hi : i < fs.capacity l) :
    i / fs.clusterBytes < l.length ∧ fs.IsCluster (l.getD (i / fs.clusterBytes) 0) ∧
      l.getD (i / fs.clusterBytes) 0 ∈ l ∧ i % fs.clusterBytes / 512 < fs.csize.toNat := by
  have hlt : i / fs.clusterBytes < l.length := Nat.div_lt_of_lt_mul (by rwa [Nat.mul_comm])
  have hmem : l.getD (i / fs.clusterBytes) 0 ∈ l := by
    rw [List.getD_eq_getElem _ _ hlt]
    exact List.getElem_mem hlt
  refine ⟨hlt, hl _ hmem, hmem, Nat.div_lt_of_lt_mul ?_⟩
  exact Nat.mod_lt _ hg.clusterBytes_pos

/-- A byte of a chain, by the number of its cluster and that of its sector in the cluster. -/
lemma div_clusterBytes (fs : FatFs) (i : ℕ) :
    i / fs.clusterBytes = i / 512 / fs.csize.toNat ∧
      i % fs.clusterBytes / 512 = i / 512 % fs.csize.toNat := by
  rw [FatFs.clusterBytes]
  exact ⟨(Nat.div_div_eq_div_mul ..).symm, Nat.mod_mul_right_div_self ..⟩

lemma mod_clusterBytes (fs : FatFs) (i : ℕ) : i % fs.clusterBytes % 512 = i % 512 := by
  rw [FatFs.clusterBytes, Nat.mod_mul_right_mod]

lemma sectorOf_congr (h : i / 512 = j / 512) : fs.sectorOf l i = fs.sectorOf l j := by
  rw [sectorOf, sectorOf, (div_clusterBytes fs i).1, (div_clusterBytes fs i).2, h,
    (div_clusterBytes fs j).1, (div_clusterBytes fs j).2]

/-- The sectors of a cluster follow each other. -/
lemma sectorOf_add (hk : i / 512 % fs.csize.toNat + k < fs.csize.toNat) :
    fs.sectorOf l (i + 512 * k) = fs.sectorOf l i + BitVec.ofNat 32 k := by
  have hdiv : (i + 512 * k) / 512 = i / 512 + k := by omega
  have hdm := Nat.div_add_mod (i / 512) fs.csize.toNat
  have hcluster : (i / 512 + k) / fs.csize.toNat = i / 512 / fs.csize.toNat := by
    refine Nat.div_eq_of_lt_le ?_ ?_
    · rw [Nat.mul_comm]
      omega
    · rw [Nat.succ_mul, Nat.mul_comm]
      omega
  have hsector : (i / 512 + k) % fs.csize.toNat = i / 512 % fs.csize.toNat + k := by
    have := Nat.div_add_mod (i / 512 + k) fs.csize.toNat
    rw [hcluster] at this
    omega
  rw [sectorOf, sectorOf, (div_clusterBytes fs _).1, (div_clusterBytes fs _).2,
    (div_clusterBytes fs i).1, (div_clusterBytes fs i).2, hdiv, hcluster, hsector, dataSector,
    dataSector, BitVec.ofNat_add, BitVec.add_assoc]

/-- The sectors of a chain lie in the data area. -/
lemma Geometry.le_sectorOf (hg : Geometry fs) (hl : fs.InVolume l) (hi : i < fs.capacity l) :
    fs.database.toNat ≤ (fs.sectorOf l i).toNat := by
  obtain ⟨-, hc, -, hk⟩ := cluster_of hg hl hi
  rw [sectorOf, (hg.toNat_dataSector hc hk).1]
  omega

/-- Sectors that follow each other have numbers that do. -/
lemma Geometry.toNat_sectorOf_add (hg : Geometry fs) (hl : fs.InVolume l) (hi : i < fs.capacity l)
    (hk : i / 512 % fs.csize.toNat + k < fs.csize.toNat) :
    (fs.sectorOf l i + BitVec.ofNat 32 k).toNat = (fs.sectorOf l i).toNat + k := by
  obtain ⟨-, hc, -, hm⟩ := cluster_of hg hl hi
  rw [(div_clusterBytes fs i).2] at hm
  have h1 := (hg.toNat_dataSector hc hk).1
  rw [dataSector, BitVec.ofNat_add, ← BitVec.add_assoc, ← dataSector] at h1
  rw [sectorOf, (div_clusterBytes fs i).2, h1, (hg.toNat_dataSector hc hm).1]
  omega

/-- Bytes of a chain that are in the same sector. -/
lemma Geometry.sectorOf_eq_iff (hg : Geometry fs) (hl : fs.InVolume l) (hnodup : l.Nodup)
    (hi : i < fs.capacity l) (hj : j < fs.capacity l) :
    fs.sectorOf l i = fs.sectorOf l j ↔ i / 512 = j / 512 := by
  obtain ⟨hilt, hic, -, hik⟩ := cluster_of hg hl hi
  obtain ⟨hjlt, hjc, -, hjk⟩ := cluster_of hg hl hj
  have hdiv := div_clusterBytes fs
  constructor
  · intro h
    obtain ⟨hc, hk⟩ := hg.dataSector_inj hic hjc hik hjk h
    rw [List.getD_eq_getElem _ _ hilt, List.getD_eq_getElem _ _ hjlt,
      hnodup.getElem_inj_iff] at hc
    rw [(hdiv i).1, (hdiv j).1] at hc
    rw [(hdiv i).2, (hdiv j).2] at hk
    rw [← Nat.div_add_mod (i / 512) fs.csize.toNat, hc, hk, Nat.div_add_mod]
  · exact sectorOf_congr

/-- Chains that have no cluster in common have no sector in common. -/
lemma Geometry.sectorOf_ne (hg : Geometry fs) (hl : fs.InVolume l) (hr : fs.InVolume r)
    (hdisj : ∀ c ∈ l, c ∉ r) (hi : i < fs.capacity l) (hj : j < fs.capacity r) :
    fs.sectorOf l i ≠ fs.sectorOf r j := by
  obtain ⟨-, hic, himem, hik⟩ := cluster_of hg hl hi
  obtain ⟨-, hjc, hjmem, hjk⟩ := cluster_of hg hr hj
  intro h
  obtain ⟨hc, -⟩ := hg.dataSector_inj hic hjc hik hjk h
  exact hdisj _ himem (hc ▸ hjmem)

/-- A chain that has got longer. -/
lemma sectorOf_append (hi : i < fs.capacity l) :
    fs.sectorOf (l ++ r) i = fs.sectorOf l i := by
  have hlt : i / fs.clusterBytes < l.length := Nat.div_lt_of_lt_mul (by rwa [Nat.mul_comm])
  rw [sectorOf, sectorOf, List.getD_append _ _ _ _ hlt]

end Sectors

/-! ### Where the window is -/

/-- A sector of the first copy of the FAT. -/
def InFat (fs : FatFs) (a : DWord) : Prop :=
  fs.fatbase.toNat ≤ a.toNat ∧ a.toNat < fs.fatbase.toNat + fs.fsize.toNat

section Window

variable {fs fs₀ fs' : FatFs} {clst val scl ncl : DWord} {E : ℕ → DWord} {free : DWord}
  {i fuel : ℕ}

lemma SameLayout.inFat {a : DWord} (h : SameLayout fs fs') : fs'.InFat a ↔ fs.InFat a := by
  obtain ⟨f, i, l, n, w, b, d, rfl⟩ := h
  rfl

lemma Table.inFat (h : Table fs) (hi : i < 512 * fs.fsize.toNat) : fs.InFat (fs.fatSector i) := by
  obtain ⟨h1, h2⟩ := h.toNat_fatSector hi
  exact ⟨by omega, by omega⟩

lemma Table.inFat_moved (h : Table fs) (hi : i < 512 * fs.fsize.toNat)
    (hm : Moved fs (fs.fatSector i) fs') : fs.InFat fs'.winsect := by
  rw [hm.winsect (h.fatSector_ok hi).1]
  exact h.inFat hi

/-- Only the window is where it was, or it has been moved to the FAT. -/
def Stays (fs fs' : FatFs) : Prop := fs'.winsect = fs.winsect ∨ fs.InFat fs'.winsect

/-- `get_fat` leaves the window at the entry. -/
lemma getFat_inFat (h : Table fs) (hrel : fs.drive.Reliable) (hc : fs.IsCluster clst) :
    fs.InFat (fs.getFat clst).1.winsect := by
  have hlt := h.offset_lt hc.2
  rw [getFat, if_neg (isCluster_iff.mp hc)]
  cases ht : fs.fsType with
  | notMounted => exact absurd ht h.mounted
  | fat12 =>
      rw [ht, show FatTable.width .fat12 = 2 from rfl] at hlt
      obtain ⟨hbc, hbc1⟩ := h.toNat_bc hc ht
      have hoff : FatTable.offset .fat12 clst.toNat = clst.toNat + clst.toNat / 2 := rfl
      dsimp only
      rw [sector_eq, hbc]
      obtain ⟨fs₁, hmw, hm⟩ := (h.move_cases (i := clst.toNat + clst.toNat / 2)
        (by omega)).resolve_right fun hr => hr.2 hrel
      rw [hmw]
      dsimp only
      have h₁ : Table fs₁ := hm.seen.table h
      have hsize : fs₁.fsize = fs.fsize := by
        obtain ⟨f, w, b, d, rfl⟩ := hm.volume
        rfl
      rw [sector_eq, hbc1]
      obtain ⟨fs₂, hmw₂, hm₂⟩ := (h₁.move_cases (i := clst.toNat + clst.toNat / 2 + 1)
        (by rw [hsize]; omega)).resolve_right fun hr => hr.2 (hm.copies hrel).1
      rw [hmw₂]
      have hin := h₁.inFat_moved (by rw [hsize]; omega) hm₂
      obtain ⟨f, w, b, d, rfl⟩ := hm.volume
      exact hin
  | fat16 =>
      dsimp only
      rw [sector16_eq]
      rw [ht, show FatTable.width .fat16 = 2 from rfl] at hlt
      have hoff : FatTable.offset .fat16 clst.toNat = 2 * clst.toNat := rfl
      have hi : 2 * clst.toNat < 512 * fs.fsize.toNat := by omega
      obtain ⟨fs₁, hmw, hm⟩ := (h.move_cases hi).resolve_right fun hr => hr.2 hrel
      rw [hmw]
      exact h.inFat_moved hi hm
  | fat32 =>
      dsimp only
      rw [sector32_eq]
      rw [ht, show FatTable.width .fat32 = 4 from rfl] at hlt
      have hoff : FatTable.offset .fat32 clst.toNat = 4 * clst.toNat := rfl
      have hi : 4 * clst.toNat < 512 * fs.fsize.toNat := by omega
      obtain ⟨fs₁, hmw, hm⟩ := (h.move_cases hi).resolve_right fun hr => hr.2 hrel
      rw [hmw]
      exact h.inFat_moved hi hm

/-- So does `put_fat`. -/
lemma putFat_inFat (val : DWord) (h : Table fs) (hrel : fs.drive.Reliable)
    (hc : fs.IsCluster clst) :
    fs.InFat (fs.putFat clst val).1.winsect := by
  have hlt := h.offset_lt hc.2
  rw [putFat, if_neg (isCluster_iff.mp hc)]
  cases ht : fs.fsType with
  | notMounted => exact absurd ht h.mounted
  | fat12 =>
      rw [ht, show FatTable.width .fat12 = 2 from rfl] at hlt
      obtain ⟨hbc, hbc1⟩ := h.toNat_bc hc ht
      have hoff : FatTable.offset .fat12 clst.toNat = clst.toNat + clst.toNat / 2 := rfl
      have hi : clst.toNat + clst.toNat / 2 < 512 * fs.fsize.toNat := by omega
      dsimp only
      rw [sector_eq, toNat_mod_sector, hbc]
      obtain ⟨fs₁, hmw, hm⟩ := (h.move_cases hi).resolve_right fun hr => hr.2 hrel
      rw [hmw]
      dsimp only
      have hw₁ : fs₁.winsect = fs₁.fatSector (clst.toNat + clst.toNat / 2) := by
        rw [hm.winsect (h.fatSector_ok hi).1, hm.volume.fatSector]
      have h₁ := ((Bytes.start h.toReady).moved h hm.seen).poke h hi hw₁ fun p =>
        if clst &&& 1 ≠ 0 then p &&& 0x0F ||| val.setWidth 8 <<< 4 else val.setWidth 8
      revert h₁
      generalize fs₁.poke ((clst.toNat + clst.toNat / 2) % 512) _ = fs₂
      intro h₁
      rw [sector_eq, toNat_mod_sector, hbc1]
      have hi₂ : clst.toNat + clst.toNat / 2 + 1 < 512 * fs₂.fsize.toNat := by
        rw [h₁.fsize_eq]
        omega
      obtain ⟨fs₃, hmw₃, hm₃⟩ := ((h₁.table h).move_cases hi₂).resolve_right
        fun hr => hr.2 (h₁.copies hrel).1
      rw [hmw₃]
      have hin := (h₁.table h).inFat_moved hi₂ hm₃
      obtain ⟨f, w, b, d, rfl⟩ := h₁.volume
      exact hin
  | fat16 =>
      dsimp only
      rw [sector16_eq]
      rw [ht, show FatTable.width .fat16 = 2 from rfl] at hlt
      have hoff : FatTable.offset .fat16 clst.toNat = 2 * clst.toNat := rfl
      have hi : 2 * clst.toNat < 512 * fs.fsize.toNat := by omega
      obtain ⟨fs₁, hmw, hm⟩ := (h.move_cases hi).resolve_right fun hr => hr.2 hrel
      rw [hmw]
      exact (h.inFat_moved hi hm :)
  | fat32 =>
      dsimp only
      rw [sector32_eq]
      rw [ht, show FatTable.width .fat32 = 4 from rfl] at hlt
      have hoff : FatTable.offset .fat32 clst.toNat = 4 * clst.toNat := rfl
      have hi : 4 * clst.toNat < 512 * fs.fsize.toNat := by omega
      obtain ⟨fs₁, hmw, hm⟩ := (h.move_cases hi).resolve_right fun hr => hr.2 hrel
      rw [hmw]
      exact (h.inFat_moved hi hm :)

/-- The search leaves the window where it was, or at an entry; if it finds a cluster, at that
entry. -/
lemma search_stays (ht : Table fs₀) (hrel : fs₀.drive.Reliable) (h : Kept fs₀ fs E free)
    {p : FatFs × Except DWord DWord} (hp : search fuel fs scl ncl = some p) :
    Stays fs p.1 ∧ (∀ x, p.2 = .ok x → fs₀.InFat p.1.winsect) ∧
      ∀ v, p.2 = .error v → v = 0 ∨ v = 1 := by
  induction fuel generalizing fs ncl with
  | zero => exact absurd hp (by simp [search])
  | succ fuel ih =>
      rw [search] at hp
      dsimp only at hp
      revert hp
      generalize (if fs.nFatent ≤ ncl + 1 then (2 : DWord) else ncl + 1) = c
      intro hp
      by_cases hwrap : fs.nFatent ≤ ncl + 1 ∧ scl < c
      · rw [if_pos hwrap] at hp
        obtain rfl := Option.some.inj hp
        exact ⟨Or.inl rfl, by simp, by simp⟩
      rw [if_neg hwrap] at hp
      by_cases hc : fs₀.IsCluster c
      · have hget := h.getFat ht hc
        have hin := getFat_inFat (h.table ht) (h.copies hrel).1 (h.isCluster.mpr hc)
        rcases hg : fs.getFat c with ⟨fs₁, x⟩
        rw [hg] at hget hin hp
        obtain ⟨rfl, h₁⟩ := hget.resolve_right fun hr => hr.2 hrel
        have hin₀ : fs₀.InFat fs₁.winsect := h.sameLayout.inFat.mp hin
        dsimp only at hp
        split_ifs at hp with h0 hbad
        · obtain rfl := Option.some.inj hp
          exact ⟨Or.inr hin, fun _ _ => hin₀, by simp⟩
        · obtain rfl := Option.some.inj hp
          refine ⟨Or.inr hin, by simp, fun v hv => ?_⟩
          obtain rfl := Except.error.inj hv
          exact Or.inr (hbad.resolve_left (h.ne_error ht hc.2))
        · obtain rfl := Option.some.inj hp
          exact ⟨Or.inr hin, by simp, fun v hv => Or.inl (Except.error.inj hv).symm⟩
        · obtain ⟨hst, hok⟩ := ih h₁ hp
          refine ⟨Or.inr ?_, hok⟩
          rcases hst with heq | hin'
          · rw [heq]
            exact hin
          · exact h.sameLayout.inFat.mpr (h₁.sameLayout.inFat.mp hin')
      · -- no cluster of the volume
        have hno : ¬ fs.IsCluster c := fun hcl => hc (h.isCluster.mp hcl)
        rw [getFat, if_pos (not_not.mp (isCluster_iff.not.mp hno))] at hp
        dsimp only at hp
        rw [if_neg (by decide), if_pos (Or.inr rfl)] at hp
        obtain rfl := Option.some.inj hp
        exact ⟨Or.inl rfl, by simp, fun v hv => Or.inr (Except.error.inj hv).symm⟩

lemma countTaken_winsect : (fs.countTaken ncl).winsect = fs.winsect := by
  rw [countTaken]
  split_ifs <;> rfl

/-- `create_chain` leaves the window where it was, or at an entry; if it takes a cluster, at an
entry. -/
lemma createFrom_stays {v : DWord} (ht : Table fs₀) (hrel : fs₀.drive.Reliable)
    (h : Kept fs₀ fs E free) (hs1 : 1 ≤ scl.toNat) (hsn : scl.toNat < fs₀.nFatent.toNat)
    (hc : clst ≠ 0 → fs₀.IsCluster clst) (hp : fs.createFrom clst scl = some (fs', v)) :
    Stays fs fs' ∧ (fs₀.InFat fs'.winsect ∨ v = 0 ∨ v = 1) := by
  have hlim := ht.nFatent_le
  obtain ⟨⟨fs₁, out⟩, hs, h₁, hres⟩ := search_spec fs.nFatent.toNat ht hrel h
    (visits_circle hlim hs1 hsn) (fun c hc => (mem_circle hlim hs1 hsn).mp hc)
    (by rw [length_circle hs1 hsn, h.nFatent_eq]; omega)
  obtain ⟨hst, hok, herr⟩ := search_stays ht hrel h hs
  rw [createFrom, hs] at hp
  rcases out with w | x
  · obtain ⟨rfl, rfl⟩ := Prod.mk.inj (Option.some.inj hp)
    exact ⟨hst, Or.inr (herr w rfl)⟩
  dsimp only at hp
  have hx : fs₀.IsCluster x :=
    (mem_circle hlim hs1 hsn).mp (firstFree_ok (E := E) hres.symm).1
  -- the end mark of the new cluster, and the link to it
  have hput := h₁.putFat 0x0FFFFFFF ht hx
  have hin := putFat_inFat 0x0FFFFFFF (h₁.table ht) (h₁.copies hrel).1
    (h₁.isCluster.mpr hx)
  rcases hp₁ : fs₁.putFat x 0x0FFFFFFF with ⟨fs₂, r⟩
  rw [hp₁] at hput hin hp
  obtain ⟨hr, h₂⟩ := hput.resolve_right fun hr => hr.2 hrel
  obtain rfl : r = .ok := hr
  have hin₂ : fs₀.InFat fs₂.winsect := h₁.sameLayout.inFat.mp hin
  suffices hfin : fs₀.InFat fs'.winsect from
    ⟨Or.inr (h.sameLayout.inFat.mpr hfin), Or.inl hfin⟩
  dsimp only at hp
  by_cases hclst : clst = 0
  · rw [if_neg fun hand => hand.2 hclst] at hp
    obtain ⟨rfl, rfl⟩ := Prod.mk.inj (Option.some.inj hp)
    rw [countTaken_winsect]
    exact hin₂
  · rw [if_pos ⟨rfl, hclst⟩] at hp
    have h₂ := show Kept fs₀ fs₂ _ free from h₂
    have hput := h₂.putFat x ht (hc hclst)
    have hin := putFat_inFat x (h₂.table ht) (h₂.copies hrel).1
      (h₂.isCluster.mpr (hc hclst))
    rcases hp₂ : fs₂.putFat clst x with ⟨fs₃, r⟩
    rw [hp₂] at hput hin hp
    obtain ⟨hr, -⟩ := hput.resolve_right fun hr => hr.2 hrel
    obtain rfl : r = .ok := hr
    obtain ⟨rfl, rfl⟩ := Prod.mk.inj (Option.some.inj hp)
    rw [countTaken_winsect]
    exact h₂.sameLayout.inFat.mp hin

/-- The same for `create_chain` itself. -/
lemma createChain_stays {v : DWord} (ht : Table fs) (hrel : fs.drive.Reliable)
    (hn : 2 ≤ fs.nFatent.toNat) (hc : clst ≠ 0 → fs.IsCluster clst)
    (hp : fs.createChain clst = some (fs', v)) :
    Stays fs fs' ∧ (fs.InFat fs'.winsect ∨ v = 0 ∨ v = 1) := by
  have hstart := Kept.start ht.toReady
  rw [createChain] at hp
  by_cases hclst : clst = 0
  · subst hclst
    rw [if_pos rfl] at hp
    obtain ⟨hs1, hsn⟩ := start_range hn
    simp only [← BitVec.le_def] at hs1 hsn
    exact createFrom_stays ht hrel hstart hs1 hsn hc hp
  · rw [if_neg hclst] at hp
    have hcl := hc hclst
    have hget := hstart.getFat ht hcl
    have hin := getFat_inFat ht hrel hcl
    rcases hg : fs.getFat clst with ⟨fs₁, x⟩
    rw [hg] at hget hp hin
    dsimp only at hget hp hin
    obtain ⟨rfl, h₁⟩ := hget.resolve_right fun hr => hr.2 hrel
    split_ifs at hp with h2 hlt
    · obtain ⟨rfl, rfl⟩ := Prod.mk.inj (Option.some.inj hp)
      exact ⟨Or.inr hin, Or.inl hin⟩
    · obtain ⟨rfl, rfl⟩ := Prod.mk.inj (Option.some.inj hp)
      exact ⟨Or.inr hin, Or.inl hin⟩
    · obtain ⟨hst, -⟩ := createFrom_stays ht hrel h₁ (by have := hcl.1; omega) hcl.2 hc hp
      suffices hfin : fs.InFat fs'.winsect from ⟨Or.inr hfin, Or.inl hfin⟩
      rcases hst with heq | hin'
      · rw [heq]
        exact hin
      · exact h₁.sameLayout.inFat.mp hin'

end Window

/-! ### The chain of a file that may be empty -/

/-- The files that have clusters. -/
def chains (ls : List (List DWord)) : List (List DWord) := ls.filter (!·.isEmpty)

/-- No entry of the FAT is the reserved one. -/
def Unmarked (fs : FatFs) : Prop := ∀ c, fs.IsCluster c → fs.entry c.toNat ≠ 1

/-- No cluster is free. -/
def Full (fs : FatFs) : Prop := ∀ c, fs.IsCluster c → fs.entry c.toNat ≠ 0

section Chains

variable {fs fs' : FatFs} {c d : DWord} {l r : List DWord} {A B files files' : List (List DWord)}

lemma chains_append : chains (A ++ B) = chains A ++ chains B := List.filter_append ..

lemma chains_cons (hl : l ≠ []) : chains (A ++ l :: B) = chains A ++ l :: chains B := by
  rw [chains_append, chains, chains, List.filter_cons_of_pos (by simpa using hl)]
  rfl

lemma chains_nil : chains (A ++ [] :: B) = chains A ++ chains B := by
  rw [chains_append]
  rfl

lemma Owns.inVolume (h : Owns fs (chains (A ++ l :: B))) : fs.InVolume l := by
  by_cases hl : l = []
  · rw [hl]
    exact fun c hc => absurd hc List.not_mem_nil
  · rw [chains_cons hl] at h
    exact fun c hc => ((files_iff.mp h.files).1.cluster c hc).1

lemma Owns.nodup (h : Owns fs (chains (A ++ l :: B))) : l.Nodup := by
  by_cases hl : l = []
  · rw [hl]
    exact List.nodup_nil
  · rw [chains_cons hl] at h
    exact (files_iff.mp h.files).1.chain.nodup

/-- Files have no cluster in common. -/
lemma Owns.disjoint (h : Owns fs (chains (A ++ l :: B))) (hr : r ∈ A ++ B) :
    ∀ c ∈ l, c ∉ r := by
  intro c hcl hcr
  have hl : l ≠ [] := List.ne_nil_of_mem hcl
  rw [chains_cons hl] at h
  refine (files_iff.mp h.files).2.2 c hcl (List.mem_flatten.mpr ⟨r, ?_, hcr⟩)
  rw [← chains_append, chains, List.mem_filter]
  exact ⟨hr, by simpa using List.ne_nil_of_mem hcr⟩

/-- The entries that a call has left or set are not the reserved one. -/
lemma Kept.unmarked {E : ℕ → DWord} {free : DWord} (h : Kept fs fs' E free)
    (hE : ∀ c, fs.IsCluster c → E c.toNat ≠ 1) : Unmarked fs' := fun c hc => by
  have hc := h.isCluster.mp hc
  rw [h.entry _ hc.2]
  exact hE c hc

lemma choose_marked {n : ℕ} {E : ℕ → DWord} {last : DWord} (hlim : n ≤ 2 ^ 28) (hn : 2 ≤ n)
    (hc : c ≠ 0 → (2 ≤ c.toNat ∧ c.toNat < n) ∧ n ≤ (E c.toNat).toNat)
    (hm : ∀ d : DWord, 2 ≤ d.toNat ∧ d.toNat < n → E d.toNat ≠ 1) :
    choose n E last c ≠ .error 1 := by
  have hfirst : ∀ {scl : DWord}, 1 ≤ scl.toNat → scl.toNat < n →
      firstFree E (circle n scl) ≠ .error 1 := by
    intro scl hs1 hsn herr
    rcases firstFree_error herr with ⟨h0, -⟩ | ⟨-, d, hd, hd1⟩
    · exact absurd h0 (by decide)
    · exact hm d ((mem_circle hlim hs1 hsn).mp hd) hd1
  rw [choose]
  by_cases h0 : c = 0
  · rw [if_pos h0]
    obtain ⟨hs1, hsn⟩ := start_range hn
    exact hfirst hs1 hsn
  · obtain ⟨hcl, hend⟩ := hc h0
    rw [if_neg h0, if_neg (by omega), if_neg (by omega)]
    exact hfirst (by omega) hcl.2

/-- What a call for one of the files has done to the FAT. -/
structure Grown (fs fs' : FatFs) (files' : List (List DWord)) : Prop where
  owns : Owns fs' (chains files')
  kept : ∃ E free, Kept fs fs' E free
  stays : Stays fs fs'
  unmarked : Unmarked fs'

/-- The last cluster of a file, if there is one. -/
lemma Owns.last (h : Owns fs (chains (A ++ l :: B))) (hlast : l.getLastD 0 = c) (h0 : c ≠ 0) :
    ∃ u, l = u ++ [c] ∧ fs.IsCluster c ∧ fs.nFatent.toNat ≤ (fs.entry c.toNat).toNat := by
  rcases List.eq_nil_or_concat l with rfl | ⟨u, d, rfl⟩
  · exact absurd hlast.symm h0
  · obtain rfl : d = c := by simpa using hlast
    rw [List.concat_eq_append] at h ⊢
    rw [chains_cons (by simp)] at h
    obtain ⟨hcl, -, hend, -⟩ := h.next
    exact ⟨u, rfl, hcl, hend rfl⟩

/-- The files with a cluster more. -/
lemma Files.grow {n : ℕ} {E : ℕ → DWord} {v m : DWord} (h : Files n E (FatFs.chains (A ++ l :: B)))
    (hv : 2 ≤ v.toNat ∧ v.toNat < n) (h0 : E v.toNat = 0) (hm : n ≤ m.toNat)
    (hc : l.getLastD 0 ≠ 0 ∨ l = []) :
    Files n (if l.getLastD 0 = 0 then Function.update E v.toNat m
      else Function.update (Function.update E v.toNat m) (l.getLastD 0).toNat v)
      (FatFs.chains (A ++ (l ++ [v]) :: B)) := by
  rw [chains_cons (by simp)]
  rcases List.eq_nil_or_concat l with rfl | ⟨u, d, rfl⟩
  · rw [chains_nil] at h
    have hnew := h.create hv h0 hm
    refine ⟨fun l hl => hnew.chains l ?_, ?_⟩
    · simp only [List.mem_append, List.mem_cons, List.not_mem_nil, or_false,
        List.nil_append] at hl ⊢
      tauto
    · refine (List.Perm.flatten ?_).nodup_iff.mp hnew.disjoint
      rw [List.append_assoc, List.nil_append]
      exact List.Perm.append_left _ List.perm_append_comm
  · rw [List.concat_eq_append] at h hc ⊢
    rw [chains_cons (by simp)] at h
    have hd : (u ++ [d]).getLastD 0 = d := by simp
    rw [hd] at hc ⊢
    rw [if_neg (hc.resolve_right (by simp)), List.append_assoc]
    exact h.append hv h0 hm

/-- **A cluster is added to a file** that has none or ends with `c`, unless all are in use. -/
lemma Owns.grow (h : Owns fs (chains (A ++ l :: B))) (hm : Unmarked fs)
    (hlast : l.getLastD 0 = c) : ∃ fs' v, fs.createChain c = some (fs', v) ∧
      (v = 0 ∧ Full fs' ∧ Grown fs fs' (A ++ l :: B) ∨
        fs.IsCluster v ∧ fs.entry v.toNat = 0 ∧ fs.InFat fs'.winsect ∧
          Grown fs fs' (A ++ (l ++ [v]) :: B)) := by
  have hlim := h.table.nFatent_le
  have hc : c ≠ 0 → fs.IsCluster c ∧ fs.nFatent.toNat ≤ (fs.entry c.toNat).toNat := fun h0 => by
    obtain ⟨-, -, hcl, hend⟩ := h.last hlast h0
    exact ⟨hcl, hend⟩
  obtain ⟨⟨fs', v⟩, hp, hres⟩ :=
    createChain_spec h.table h.reliable h.clusters (fun h0 => (hc h0).1) h.counted
  obtain ⟨hstays, hin⟩ :=
    createChain_stays h.table h.reliable h.clusters (fun h0 => (hc h0).1) hp
  refine ⟨fs', v, hp, ?_⟩
  rcases hch : choose fs.nFatent.toNat fs.entry fs.lastClust c with x | x
  · -- none is free
    rw [hch] at hres
    obtain ⟨hv, hk⟩ := hres
    obtain rfl : v = x := hv
    have hk : Kept fs fs' fs.entry fs.freeClust := hk
    have hlt : v.toNat < 2 := (choose_error hch).resolve_right fun hr => by
      have := (hc hr.1).2
      rw [← hr.2.1] at this
      omega
    have hne1 : v ≠ 1 := fun h1 =>
      choose_marked hlim h.clusters hc hm (hch.trans (congrArg Except.error h1))
    obtain rfl : v = 0 := BitVec.eq_of_toNat_eq (by
      have : v.toNat ≠ 1 := fun h1 => hne1 (BitVec.eq_of_toNat_eq h1)
      rw [show (0 : DWord).toNat = 0 from rfl]
      omega)
    refine Or.inl ⟨rfl, fun d hd => ?_, hk.owns h h.counted h.files, ⟨_, _, hk⟩, hstays,
      hk.unmarked hm⟩
    have hd := hk.isCluster.mp hd
    rw [hk.entry _ hd.2]
    exact choose_full h.clusters hlim (fun h0 => (hc h0).1) hch d hd
  · rw [hch] at hres
    obtain ⟨hv, -, free', hk, hcount⟩ := hres
    obtain rfl : v = x := hv
    have hk : Kept fs fs' (appended (FatTable.mask fs.fsType) fs.entry c v) free' := hk
    obtain ⟨hvcl, h0⟩ := choose_ok hlim h.clusters (fun h0 => (hc h0).1) hch
    have hv1 : v ≠ 1 ∧ v ≠ 0 := ⟨fun h1 => absurd hvcl.1 (by rw [h1]; decide),
      fun h1 => absurd hvcl.1 (by rw [h1]; decide)⟩
    refine Or.inr ⟨hvcl, h0, hin.resolve_right (by tauto), hk.owns h hcount ?_, ⟨_, _, hk⟩, hstays,
      hk.unmarked fun d hd => ?_⟩
    · rw [appended, ← hlast]
      refine h.files.grow hvcl h0 h.table.limit ?_
      rw [hlast]
      by_cases hc0 : c = 0
      · refine Or.inr (by_contra fun hl => ?_)
        obtain ⟨u, d, rfl⟩ := (List.eq_nil_or_concat l).resolve_left hl
        have hd : d = 0 := by
          rw [← hc0, ← hlast]
          simp
        exact absurd (h.inVolume d (by simp)).1 (by rw [hd]; decide)
      · exact Or.inl hc0
    · have hmask : FatTable.mask fs.fsType ≠ 1 := by
        cases fs.fsType <;> decide
      have hnew : ∀ e : DWord, fs.IsCluster e →
          Function.update fs.entry v.toNat (FatTable.mask fs.fsType) e.toNat ≠ 1 := fun e he => by
        by_cases hev : e.toNat = v.toNat
        · rw [hev, Function.update_self]
          exact hmask
        · rw [Function.update_of_ne hev]
          exact hm e he
      rw [appended]
      split_ifs
      · exact hnew d hd
      · by_cases hdc : d.toNat = c.toNat
        · rw [hdc, Function.update_self]
          exact hv1.1
        · rw [Function.update_of_ne hdc]
          exact hnew d hd

/-- Two neighbouring clusters of a file. -/
lemma split_next {k : ℕ} (hc : l[k]? = some c) (hd : l[k + 1]? = some d) :
    ∃ u r, l = u ++ c :: d :: r := by
  obtain ⟨u, r, rfl, rfl⟩ := exists_split hc
  cases r with
  | nil => simp at hd
  | cons e r =>
      refine ⟨u, r, ?_⟩
      obtain rfl : e = d := by simpa using hd
      rfl

/-- **The next cluster of a file** as `create_chain` finds it. -/
lemma Owns.createChain_next {k : ℕ} (h : Owns fs (chains (A ++ l :: B))) (hm : Unmarked fs)
    (hc : l[k]? = some c) (hd : l[k + 1]? = some d) :
    ∃ fs', fs.createChain c = some (fs', d) ∧ Grown fs fs' (A ++ l :: B) := by
  obtain ⟨u, r, rfl⟩ := split_next hc hd
  have h₀ := h
  rw [chains_cons (by simp)] at h
  have hcl : fs.IsCluster c := h.next.1
  have hc0 : c ≠ 0 := fun h0 => absurd hcl.1 (by rw [h0]; decide)
  have hcd : fs.entry c.toNat = d := h.next.2.2.2 d rfl
  have hdcl : fs.IsCluster d := ((files_iff.mp h.files).1.cluster d (by simp)).1
  obtain ⟨⟨fs', v⟩, hp, hres⟩ :=
    createChain_spec h.table h.reliable h.clusters (fun _ => hcl) h.counted
  obtain ⟨hstays, -⟩ := createChain_stays h.table h.reliable h.clusters (fun _ => hcl) hp
  rw [choose, if_neg hc0, if_neg (by rw [hcd]; have := hdcl.1; omega),
    if_pos (by rw [hcd]; exact hdcl.2), hcd] at hres
  obtain ⟨hv, hk⟩ := hres
  obtain rfl : v = d := hv
  have hk : Kept fs fs' fs.entry fs.freeClust := hk
  exact ⟨fs', hp, hk.owns h₀ h₀.counted h₀.files, ⟨_, _, hk⟩, hstays, hk.unmarked hm⟩

/-- The same as `get_fat` finds it. -/
lemma Owns.getFat_next {k : ℕ} (h : Owns fs (chains (A ++ l :: B))) (hm : Unmarked fs)
    (hc : l[k]? = some c) (hd : l[k + 1]? = some d) :
    ∃ fs', fs.getFat c = (fs', d) ∧ Grown fs fs' (A ++ l :: B) := by
  obtain ⟨u, r, rfl⟩ := split_next hc hd
  have h₀ := h
  rw [chains_cons (by simp)] at h
  have hcl : fs.IsCluster c := h.next.1
  have hcd : fs.entry c.toNat = d := h.next.2.2.2 d rfl
  have hget := (Kept.start h.table.toReady).getFat h.table hcl
  have hin := getFat_inFat h.table h.reliable hcl
  rcases hg : fs.getFat c with ⟨fs', x⟩
  rw [hg] at hget hin
  obtain ⟨hx, hk⟩ := hget.resolve_right fun hr => hr.2 h.reliable
  obtain rfl : x = d := hx.trans hcd
  have hk : Kept fs fs' fs.entry fs.freeClust := hk
  exact ⟨fs', rfl, hk.owns h₀ h₀.counted h₀.files, ⟨_, _, hk⟩, Or.inr hin, hk.unmarked hm⟩

/-! ### Sectors outside the FAT -/

/-- The FAT does not depend on the data area, as long as the window is not there. -/
lemma Owns.store {drive : Drive} (h : Owns fs files) (hg : Geometry fs) (hrel : drive.Reliable)
    (hsec : ∀ a : DWord, a.toNat < fs.database.toNat → drive.sectors a = fs.drive.sectors a)
    (hwin : drive.sectors fs.winsect = fs.drive.sectors fs.winsect) :
    Owns { fs with drive } files ∧ (∀ c < fs.nFatent.toNat,
      FatFs.entry { fs with drive } c = fs.entry c) ∧
      (Mirrored fs → Mirrored { fs with drive }) := by
  have hentry : ∀ c < fs.nFatent.toNat, FatFs.entry { fs with drive } c = fs.entry c := by
    intro c hc
    have hlt := h.table.offset_lt hc
    refine FatTable.load_congr fun i _ hi => ?_
    have hi : i < FatTable.offset fs.fsType c + FatTable.width fs.fsType := hi
    have hlow : (fs.fatSector i).toNat < fs.database.toNat := by
      obtain ⟨h1, h2⟩ := h.table.toNat_fatSector (i := i) (by omega)
      have := h.table.toArea.toNat_end.2
      have := hg.behind
      omega
    show FatFs.view { fs with drive } (fs.fatSector i) _ = fs.view (fs.fatSector i) _
    rw [view, view]
    split_ifs
    · rfl
    · rw [← hsec _ hlow]
  have harea : Area { fs with drive } := ⟨h.table.base_pos, h.table.fats_pos, h.table.high⟩
  refine ⟨⟨⟨⟨harea, h.table.idle, h.table.primary, fun hne hw => ?_⟩, h.table.mounted,
    h.table.size, h.table.limit⟩, hrel, h.clusters, h.files.congr fun c hc => hentry _ ?_, ?_⟩,
    hentry, fun hmir a b k hk ha1 ha2 hb => ?_⟩
  · exact hwin.trans (h.table.clean hne hw)
  · obtain ⟨l, hl, hcl⟩ := List.mem_flatten.mp hc
    exact ((h.files.chains l hl).cluster c hcl).1.2
  · rw [Counted, zeros_congr hentry]
    exact h.counted
  · have h1 : (k + 1) * fs.fsize.toNat ≤ fs.nFats.toNat * fs.fsize.toNat :=
      Nat.mul_le_mul_right _ hk
    rw [Nat.succ_mul] at h1
    have h2 : k * fs.fsize.toNat ≤ fs.nFats.toNat * fs.fsize.toNat := by omega
    have := hg.behind
    show drive.sectors b = drive.sectors a
    have ha2 : a.toNat < fs.fatbase.toNat + fs.fsize.toNat := ha2
    have hb : b.toNat = a.toNat + k * fs.fsize.toNat := hb
    rw [hsec a (by omega), hsec b (by omega)]
    exact hmir a b k hk ha1 ha2 hb

end Chains

end FatFs

end ChinaOS
