import ChinaOS.FatObject

/-!
`f_read` of `file/ff.c` delivers the bytes of the file from the position on.

* `copyOut_spec`, `readDirect_spec`: bytes from the buffer, and whole sectors past it.
* `readTurn_spec`: one turn of the loop. `readLoop_spec`: all of them.
* `fRead_spec`: the call.
-/

namespace ChinaOS

namespace FatFs

section Read

variable {fs fs' : FatFs} {fp fp' : Fil} {A B : List (List DWord)} {l : List DWord}
  {btr cc sect : DWord} {i n : ℕ}

/-- The bytes of the file from the position on. -/
def content (fs : FatFs) (fp : Fil) (l : List DWord) (n : ℕ) : List Byte :=
  (List.range n).map fun j => byteAt fs fp l (fp.fptr.toNat + j)

/-- **The current cluster** of a read on a sector boundary. -/
lemma readCluster_spec (hv : Volume fs A l B) (hb : Buffer fs fp l) (hp : Placed fs fp l)
    (h512 : fp.fptr.toNat % 512 = 0) (hlt : fp.fptr.toNat < fs.capacity l) : ∃ fs' c,
    (if fs.csect fp = 0 then fs.readCluster fp else (fs, fp, .ok)) =
        (fs', { fp with currClust := c }, .ok) ∧
      Served fs fp A l B ∅ fs' { fp with currClust := c } l ∧
      l[fp.fptr.toNat / fs.clusterBytes]? = some c := by
  have hidx := lt_of_capacity hlt
  by_cases hc : fs.csect fp = 0
  swap
  · rw [if_neg hc]
    exact ⟨fs, fp.currClust, rfl, .refl hv hb,
      hp.cluster (mt (hv.geometry.boundary h512).mpr hc)⟩
  have hbound := (hv.geometry.boundary h512).mp hc
  rw [if_pos hc, readCluster]
  by_cases h0 : fp.fptr = 0
  · -- the first cluster
    have hz : fp.fptr.toNat / fs.clusterBytes = 0 := by
      rw [h0]
      exact Nat.zero_div _
    rw [hz] at hidx ⊢
    obtain ⟨c, r, rfl⟩ := List.exists_cons_of_length_pos hidx
    have horg : fp.orgClust = c := hb.org
    obtain ⟨hle, -, -, hall⟩ := hv.cluster_ne (c := c) List.mem_cons_self
    rw [← horg] at hle hall
    rw [if_pos h0]
    refine ⟨fs, fp.orgClust, ?_, (Served.refl hv hb).move _ fp.fptr, congrArg some horg.symm⟩
    dsimp only
    rw [if_neg hle, if_neg hall]
  · -- the one behind the current one
    have hpos : 0 < fp.fptr.toNat :=
      Nat.pos_of_ne_zero fun h => h0 (BitVec.eq_of_toNat_eq h)
    obtain ⟨k, hk, hcur⟩ := hp.before hpos hbound
    rw [hk] at hidx ⊢
    have hd : l[k + 1]? = some l[k + 1] := List.getElem?_eq_getElem hidx
    obtain ⟨fs', hget, hg⟩ := hv.owns.getFat_next hv.unmarked hcur hd
    obtain ⟨hle, -, -, hall⟩ := hv.cluster_ne (c := l[k + 1]) (List.getElem_mem hidx)
    rw [if_neg h0, hget]
    refine ⟨fs', l[k + 1], ?_, (hv.served hb List.prefix_rfl hg (Or.inl rfl) hb.org rfl).move _
      fp.fptr, hd⟩
    dsimp only
    rw [if_neg hle, if_neg hall]

variable (btr) in
/-- **Bytes from the buffer.** -/
lemma copyOut_spec (hb : Buffer fs fp l) (h0 : fp.dsect ≠ 0)
    (hheld : fp.dsect = fs.sectorOf l fp.fptr.toNat) :
    (copyOut fp btr).1 = content fs fp l (inSector fp btr).toNat := by
  rw [copyOut, content]
  dsimp only
  refine List.map_congr_left fun j hj => ?_
  have hj := List.mem_range.mp hj
  rw [toNat_inSector] at hj
  rw [hb.byteAt_held h0 (by rw [hheld]; exact sectorOf_congr (by omega)), toNat_mod_sector]
  congr 1
  omega

/-- The bytes of sectors that follow each other. -/
lemma bytesOf_map (g : ℕ → Sector) : bytesOf ((List.range n).map g) =
    (List.range (512 * n)).map fun j => g (j / 512) (j % 512) := by
  induction n with
  | zero => rfl
  | succ n ih =>
      have hone : (List.range 512).map (g n) =
          (List.range 512).map fun j => g ((512 * n + j) / 512) ((512 * n + j) % 512) := by
        refine List.map_congr_left fun j hj => ?_
        have := List.mem_range.mp hj
        rw [show (512 * n + j) / 512 = n by omega, show (512 * n + j) % 512 = j by omega]
      rw [List.range_succ, List.map_append, bytesOf, List.flatMap_append, ← bytesOf, ih,
        Nat.mul_succ, List.range_add, List.map_append, List.map_map]
      simpa [bytesOf, Function.comp_def] using hone

/-- The buffer among the sectors that are read. -/
lemma patched_eq (g : ℕ → Sector) (hcc : cc.toNat < 2 ^ 32) :
    (if fp.faDirty ∧ fp.dsect - sect < cc then
      ((List.range cc.toNat).map g).set (fp.dsect - sect).toNat fp.buf
      else (List.range cc.toNat).map g) =
    (List.range cc.toNat).map fun k =>
      if fp.faDirty ∧ sect + BitVec.ofNat 32 k = fp.dsect then fp.buf else g k := by
  have hsub : ∀ k < cc.toNat, sect + BitVec.ofNat 32 k = fp.dsect ↔ (fp.dsect - sect).toNat = k := by
    intro k hk
    have hkk : (BitVec.ofNat 32 k).toNat = k := by
      rw [BitVec.toNat_ofNat, Nat.mod_eq_of_lt (by omega)]
    constructor
    · intro h
      rw [← h, BitVec.add_comm, BitVec.add_sub_cancel, hkk]
    · rintro rfl
      rw [BitVec.ofNat_toNat, BitVec.setWidth_eq, BitVec.add_comm, BitVec.sub_add_cancel]
  split_ifs with h
  · refine List.ext_getElem (by simp) fun k hk hk' => ?_
    have hk : k < cc.toNat := by simpa using hk
    rw [List.getElem_set, List.getElem_map, List.getElem_map, List.getElem_range]
    simp only [h.1, true_and, hsub k hk]
  · refine List.map_congr_left fun k hk => ?_
    have hk := List.mem_range.mp hk
    rw [if_neg]
    rintro ⟨hd, he⟩
    have := (hsub k hk).mp he
    exact h ⟨hd, BitVec.lt_def.mpr (by omega)⟩

variable (cc) in
/-- **Whole sectors**, past the buffer. -/
lemma readDirect_spec (hv : Volume fs A l B) (hb : Buffer fs fp l)
    (h512 : fp.fptr.toNat % 512 = 0)
    (hcc : fp.fptr.toNat / 512 % fs.csize.toNat + cc.toNat ≤ fs.csize.toNat) : ∃ fs',
    fs.readDirect fp (fs.sectorOf l fp.fptr.toNat) cc =
        (fs', fp, .ok (content fs fp l (512 * cc.toNat), 512 * cc)) ∧
      Served fs fp A l B ∅ fs' fp l := by
  have hsize := hv.geometry.csize_pos.2
  have hbyte : (cc.setWidth 8 : Byte).toNat = cc.toNat := by
    rw [BitVec.toNat_setWidth, Nat.mod_eq_of_lt (by omega)]
  obtain ⟨drive, hr, hrel, hsec⟩ :=
    hv.owns.reliable.diskReads (n := cc.toNat) (fs.sectorOf l fp.fptr.toNat)
  obtain ⟨hv', hloc⟩ := hv.store hrel fun a _ => by rw [hsec]
  refine ⟨{ fs with drive }, ?_, List.prefix_rfl, hv', hloc,
    ⟨hb.org, hb.size, hb.held, fun hd h0 => ?_, hb.dirty⟩, fun i _ _ => ?_⟩
  · rw [readDirect, hbyte, hr]
    dsimp only
    rw [patched_eq _ cc.isLt, bytesOf_map, content]
    congr 3
    refine congrArg₂ _ (List.map_congr_left fun j hj => ?_) rfl
    have hj := List.mem_range.mp hj
    have hsame : fs.sectorOf l (fp.fptr.toNat + j) =
        fs.sectorOf l fp.fptr.toNat + BitVec.ofNat 32 (j / 512) := by
      rw [← sectorOf_add (by omega)]
      exact sectorOf_congr (by omega)
    rw [byteAt, hsame, show (fp.fptr.toNat + j) % 512 = j % 512 by omega]
  · show fp.buf = drive.sectors fp.dsect
    rw [hsec]
    exact hb.clean hd h0
  · show (if _ then fp.buf else drive.sectors (fs.sectorOf l i)) (i % 512) = _
    rw [hsec]
    rfl

/-- The buffer gets the current sector. -/
lemma readBuf_spec (hv : Volume fs A l B) (hb : Buffer fs fp l) (hi : i < fs.capacity l) :
    ∃ fs' buf, fs.readBuf fp (fs.sectorOf l i) =
        (fs', { fp with faDirty := false, dsect := fs.sectorOf l i, buf }, .ok) ∧
      Served fs fp A l B ∅ fs' { fp with faDirty := false, dsect := fs.sectorOf l i, buf } l := by
  obtain ⟨fs₁, hfl, hs₁⟩ := flushBuf_spec hv hb
  have hsect : fs₁.sectorOf l i = fs.sectorOf l i := hs₁.confined.layout.sectorOf
  rw [readBuf, hfl]
  dsimp only
  by_cases he : fp.dsect = fs.sectorOf l i
  · rw [if_neg (not_not.mpr he), ← he]
    exact ⟨fs₁, fp.buf, rfl, hs₁⟩
  · rw [if_pos he]
    obtain ⟨fs₂, buf, hfill, hs₂⟩ := fillBuf_spec hs₁.volume hs₁.buffer rfl
      (by rwa [hs₁.confined.layout.capacity] : i < fs₁.capacity l)
    rw [hsect] at hfill hs₂
    refine ⟨fs₂, buf, hfill, ?_⟩
    have := hs₁.trans hs₂
    rwa [Set.empty_union] at this

/-- What is read does not depend on what has happened to the buffer. -/
lemma Served.content {n : ℕ} (h : Served fs fp A l B ∅ fs' fp' l) (hf : fp'.fptr = fp.fptr)
    (hn : fp.fptr.toNat + n ≤ fs.capacity l) : content fs' fp' l n = content fs fp l n := by
  refine List.map_congr_left fun j hj => ?_
  have := List.mem_range.mp hj
  rw [hf]
  exact h.bytes _ (by omega) (Set.notMem_empty _)

/-- **One turn of the loop** delivers bytes of the file, and moves the position behind them. -/
lemma readTurn_spec (hv : Volume fs A l B) (hb : Buffer fs fp l) (hp : Placed fs fp l)
    (hbtr : 0 < btr.toNat) (hend : fp.fptr.toNat + btr.toNat ≤ fp.fsize.toNat) :
    ∃ fs' fp' rcnt, fs.readTurn fp btr =
        (fs', fp', .ok (content fs fp l rcnt.toNat, rcnt)) ∧
      (0 < rcnt.toNat ∧ rcnt.toNat ≤ btr.toNat) ∧ Served fs fp A l B ∅ fs' fp' l ∧
      Placed fs' { fp' with fptr := fp.fptr + rcnt } l ∧
      ∃ faDirty currClust dsect buf, fp' = { fp with faDirty, currClust, dsect, buf } := by
  have hsize := hb.size
  have hlt : fp.fptr.toNat < fs.capacity l := by omega
  have h32 := fp.fsize.isLt
  -- from the buffer, once it holds the current sector
  have hpart : ∀ {fs₁ : FatFs} {fp₁ : Fil}, Served fs fp A l B ∅ fs₁ fp₁ l → fp₁.fptr = fp.fptr →
      l[fp.fptr.toNat / fs.clusterBytes]? = some fp₁.currClust →
      fp₁.dsect = fs.sectorOf l fp.fptr.toNat →
      copyOut fp₁ btr = (content fs fp l (inSector fp₁ btr).toNat, inSector fp₁ btr) ∧
        (0 < (inSector fp₁ btr).toNat ∧ (inSector fp₁ btr).toNat ≤ btr.toNat) ∧
        Placed fs₁ { fp₁ with fptr := fp.fptr + inSector fp₁ btr } l := by
    intro fs₁ fp₁ hs hf hcur hd
    have hlay := hs.confined.layout
    have hcnt := toNat_inSector fp₁ btr
    rw [hf] at hcnt
    refine ⟨?_, ⟨by omega, by omega⟩, ?_⟩
    · have h0 : fp₁.dsect ≠ 0 := hd ▸ (hv.sector hlt).2.1
      rw [← hs.content hf (by omega)]
      have hout := copyOut_spec btr hs.buffer h0 (by rw [hlay.sectorOf, hf, hd])
      rw [← hout, copyOut]
    · rw [← hf]
      refine Placed.advance fp₁ ?_ (by omega) ?_ (by rw [hf]; omega) fun hne => ?_
      · rw [hlay.clusterBytes, hf]
        exact hcur
      · rw [hlay.clusterBytes, hf]
        exact hv.geometry.fits (by omega)
      · rw [hlay.sectorOf, hf, hd]
        rw [hf] at hne
        exact sectorOf_congr (by omega)
  rw [readTurn]
  by_cases h512 : fp.fptr.toNat % 512 = 0
  swap
  · rw [if_neg (mt mod_sector_iff.mp h512)]
    have hcur := hp.cluster fun h0 => h512 (by rw [← mod_clusterBytes fs, h0])
    obtain ⟨hout, hcnt, hpl⟩ := hpart (.refl hv hb) rfl hcur (hp.inside h512)
    rw [hout]
    exact ⟨fs, fp, _, rfl, hcnt, .refl hv hb, hpl, _, _, _, _, rfl⟩
  rw [if_pos (mod_sector_iff.mpr h512)]
  obtain ⟨fs₁, c, hcl, hs₁, hcur⟩ := readCluster_spec hv hb hp h512 hlt
  have hlay := hs₁.confined.layout
  rw [hcl]
  dsimp only
  rw [sect_spec hs₁.volume (by rw [hlay.clusterBytes]; exact hcur)]
  dsimp only
  by_cases hdir : btr / 512 = 0
  · -- less than a sector
    rw [if_neg (not_not.mpr hdir)]
    obtain ⟨fs₂, buf, hbuf, hs₂⟩ := readBuf_spec hs₁.volume hs₁.buffer (i := fp.fptr.toNat)
      (by rwa [hlay.capacity])
    rw [hbuf]
    have hs := hs₁.trans hs₂
    rw [Set.empty_union] at hs
    obtain ⟨hout, hcnt, hpl⟩ := hpart hs rfl hcur hlay.sectorOf
    dsimp only
    rw [hout]
    exact ⟨fs₂, _, _, rfl, hcnt, hs, hpl, _, _, _, _, rfl⟩
  · rw [if_pos hdir]
    have hclip := toNat_clip { fp with currClust := c } hs₁.volume.geometry (btr / 512) (by
        rw [BitVec.toNat_udiv, show (512 : DWord).toNat = 512 from rfl]
        omega)
    have hdiv : (btr / 512).toNat = btr.toNat / 512 := BitVec.toNat_udiv
    have hpos : (btr / 512).toNat ≠ 0 := fun h0 => hdir (BitVec.eq_of_toNat_eq h0)
    have hgeo := hs₁.volume.geometry.csize_pos
    have hmod := Nat.mod_lt (fp.fptr.toNat / 512) hgeo.1
    revert hclip
    generalize fs₁.clip (fs₁.csect { fp with currClust := c }) (btr / 512) = cc
    intro hclip
    have hclip : cc.toNat = min (btr / 512).toNat
      (fs₁.csize.toNat - fp.fptr.toNat / 512 % fs₁.csize.toNat) := hclip
    obtain ⟨fs₂, hdirect, hs₂⟩ := readDirect_spec cc hs₁.volume hs₁.buffer h512
      (show fp.fptr.toNat / 512 % _ + _ ≤ _ by omega)
    have hs := hs₁.trans hs₂
    rw [Set.empty_union] at hs
    have hcnt : (512 * cc).toNat = 512 * cc.toNat := by
      rw [BitVec.toNat_mul, show (512 : DWord).toNat = 512 from rfl, Nat.mod_eq_of_lt (by omega)]
    rw [show ({ fp with currClust := c } : Fil).fptr = fp.fptr from rfl] at hdirect
    rw [hdirect, ← hcnt, hs₁.content rfl (by omega)]
    refine ⟨fs₂, _, _, rfl, ⟨by omega, by omega⟩, hs, ?_, _, _, _, _, rfl⟩
    have hlay₂ := hs.confined.layout
    refine Placed.advance { fp with currClust := c } ?_ (by omega) ?_ (by
      show fp.fptr.toNat + _ < _
      omega) fun hne => ?_
    · rw [hlay₂.clusterBytes]
      exact hcur
    · show fp.fptr.toNat % _ + _ ≤ _
      rw [hlay₂.clusterBytes, ← hlay.clusterBytes, hcnt]
      exact fits_sectors h512 (by omega)
    · have hne : (fp.fptr.toNat + (512 * cc).toNat) % 512 ≠ 0 := hne
      omega

/-- What is read in two steps. -/
lemma Served.content_append {m n : ℕ} (h : Served fs fp A l B ∅ fs' fp' l)
    (hf : fp'.fptr.toNat = fp.fptr.toNat + m) (hn : fp.fptr.toNat + m + n ≤ fs.capacity l) :
    FatFs.content fs fp l m ++ FatFs.content fs' fp' l n = FatFs.content fs fp l (m + n) := by
  rw [FatFs.content, FatFs.content, FatFs.content, List.range_add, List.map_append, List.map_map]
  refine congrArg _ (List.map_congr_left fun j hj => ?_)
  have := List.mem_range.mp hj
  rw [hf, h.bytes _ (by omega) (Set.notMem_empty _), Function.comp_apply, Nat.add_assoc]

variable (btr) in
/-- **The loop** delivers all that is asked for. -/
lemma readLoop_spec {fuel : ℕ} (rbuff : List Byte) (hv : Volume fs A l B) (hb : Buffer fs fp l)
    (hp : Placed fs fp l) (hend : fp.fptr.toNat + btr.toNat ≤ fp.fsize.toNat)
    (hfuel : btr.toNat < fuel) : ∃ fs' fp',
    readLoop fuel fs fp btr rbuff =
        some (fs', fp', rbuff ++ content fs fp l btr.toNat, .ok) ∧
      Served fs fp A l B ∅ fs' fp' l ∧ Placed fs' fp' l ∧
      fp'.fptr.toNat = fp.fptr.toNat + btr.toNat ∧
      ∃ faDirty fptr currClust dsect buf, fp' = { fp with faDirty, fptr, currClust, dsect, buf } := by
  induction fuel generalizing fs fp btr rbuff with
  | zero => exact absurd hfuel (Nat.not_lt_zero _)
  | succ fuel ih =>
      rw [readLoop]
      by_cases h0 : btr = 0
      · subst h0
        exact ⟨fs, fp, by simp [content], .refl hv hb, hp, rfl, _, _, _, _, _, rfl⟩
      rw [if_neg h0]
      have hpos : 0 < btr.toNat := Nat.pos_of_ne_zero fun h => h0 (BitVec.eq_of_toNat_eq h)
      obtain ⟨fs₁, fp₁, rcnt, hturn, ⟨hcnt, hle⟩, hs₁, hp₁, d, c, s, b, rfl⟩ :=
        readTurn_spec hv hb hp hpos hend
      have h32 := fp.fsize.isLt
      have hfptr : (fp.fptr + rcnt).toNat = fp.fptr.toNat + rcnt.toNat := by
        rw [BitVec.toNat_add, Nat.mod_eq_of_lt (by omega)]
      have hsub : (btr - rcnt).toNat = btr.toNat - rcnt.toNat :=
        BitVec.toNat_sub_of_le (BitVec.le_def.mpr hle)
      have hs₁ := hs₁.move c (fp.fptr + rcnt)
      obtain ⟨fs', fp', hloop, hs', hp', hpos', d', f', c', s', b', rfl⟩ :=
        ih (btr - rcnt) (rbuff ++ content fs fp l rcnt.toNat) hs₁.volume hs₁.buffer hp₁
          (by show (fp.fptr + rcnt).toNat + _ ≤ fp.fsize.toNat; omega) (by omega)
      rw [hturn]
      dsimp only
      have hs := hs₁.trans hs'
      rw [Set.empty_union] at hs
      refine ⟨fs', _, hloop.trans ?_, hs, hp', ?_, _, _, _, _, _, rfl⟩
      · rw [List.append_assoc, hs₁.content_append hfptr (by have := hb.size; omega),
          show rcnt.toNat + (btr - rcnt).toNat = btr.toNat by omega]
      · have hpos' : f'.toNat = (fp.fptr + rcnt).toNat + (btr - rcnt).toNat := hpos'
        show f'.toNat = _
        omega

/-- **`f_read`** delivers the bytes of the file from the position on, as far as there are any. -/
lemma fRead_spec (hv : Volume fs A l B) (hb : Buffer fs fp l) (hp : Placed fs fp l)
    (hend : fp.fptr.toNat ≤ fp.fsize.toNat) (herr : fp.faError = false)
    (hmode : fp.faRead = true) : ∃ fs' fp', fs.fRead fp btr = some (fs', fp',
        content fs fp l (min btr.toNat (fp.fsize.toNat - fp.fptr.toNat)), .ok) ∧
      Served fs fp A l B ∅ fs' fp' l ∧ Placed fs' fp' l ∧
      fp'.fptr.toNat = fp.fptr.toNat + min btr.toNat (fp.fsize.toNat - fp.fptr.toNat) ∧
      ∃ faDirty fptr currClust dsect buf, fp' = { fp with faDirty, fptr, currClust, dsect, buf } := by
  have hremain : (fp.fsize - fp.fptr).toNat = fp.fsize.toNat - fp.fptr.toNat :=
    BitVec.toNat_sub_of_le (BitVec.le_def.mpr hend)
  have hbtr : (if fp.fsize - fp.fptr < btr then fp.fsize - fp.fptr else btr).toNat =
      min btr.toNat (fp.fsize.toNat - fp.fptr.toNat) := by
    split_ifs with h
    · have := BitVec.lt_def.mp h
      omega
    · have := mt BitVec.lt_def.mpr h
      omega
  rw [fRead, if_neg (by simp [herr]), if_neg (by simp [hmode])]
  dsimp only
  revert hbtr
  generalize (if fp.fsize - fp.fptr < btr then fp.fsize - fp.fptr else btr) = n
  intro hbtr
  rw [← hbtr]
  obtain ⟨fs', fp', hloop, h⟩ := readLoop_spec n [] hv hb hp (by omega)
    (Nat.lt_succ_self _)
  exact ⟨fs', fp', by rw [hloop, List.nil_append], h⟩

end Read

end FatFs

end ChinaOS
