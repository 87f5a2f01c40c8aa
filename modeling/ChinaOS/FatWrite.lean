import ChinaOS.FatObject

/-!
`f_write` of `file/ff.c` stores bytes in the file from the position on.

* `writeCluster_spec`: the chain of clusters is followed, or made longer unless the disk is full.
* `copyIn_spec`, `writeDirect_spec`: bytes to the buffer, and whole sectors past it.
* `writeTurn_spec`: one turn of the loop. `writeLoop_spec`: all of them.
* `fWrite_spec`: the call.
-/

namespace ChinaOS

namespace FatFs

/-- The bytes that a write of `n` bytes at `p` changes, in a file of `size` bytes: those, and what
is behind the end of the file. -/
def written (p n size : ℕ) : Set ℕ := {i | p ≤ i ∧ (i < p + n ∨ size ≤ i)}

section Write

variable {fs fs' : FatFs} {fp fp' : Fil} {A B : List (List DWord)} {l l' : List DWord}
  {cc s : DWord} {b : Sector} {i : ℕ} (wbuff : List Byte) (btw : DWord)

/-- A file without clusters has no first one. -/
lemma Volume.org_eq_zero (hv : Volume fs A l B) (hb : Buffer fs fp l) :
    fp.orgClust = 0 ↔ l = [] := by
  rw [hb.org]
  cases l with
  | nil => simp
  | cons c r => simpa using (hv.cluster_ne (c := c) List.mem_cons_self).2.1

/-- **The current cluster** of a write on a sector boundary: it is the next one of the file, or a
new one; none is found only if none is free. -/
lemma writeCluster_spec (hv : Volume fs A l B) (hb : Buffer fs fp l) (hp : Placed fs fp l)
    (h512 : fp.fptr.toNat % 512 = 0) :
    (∃ fs', (if fs.csect fp = 0 then fs.writeCluster fp else some (fs, fp, .ok true)) =
        some (fs', fp, .ok false) ∧ Served fs fp A l B ∅ fs' fp l ∧ Full fs') ∨
      ∃ fs' o c l', (if fs.csect fp = 0 then fs.writeCluster fp else some (fs, fp, .ok true)) =
          some (fs', { fp with orgClust := o, currClust := c }, .ok true) ∧
        Served fs fp A l B ∅ fs' { fp with orgClust := o, currClust := c } l' ∧
        l'[fp.fptr.toNat / fs.clusterBytes]? = some c := by
  by_cases hc : fs.csect fp = 0
  swap
  · rw [if_neg hc]
    exact Or.inr ⟨fs, fp.orgClust, fp.currClust, l, rfl, .refl hv hb,
      hp.cluster (mt (hv.geometry.boundary h512).mpr hc)⟩
  have hbound := (hv.geometry.boundary h512).mp hc
  rw [if_pos hc, writeCluster]
  by_cases h0 : fp.fptr = 0
  · have hz : fp.fptr.toNat / fs.clusterBytes = 0 := by
      rw [h0]
      exact Nat.zero_div _
    rw [if_pos h0, hz]
    by_cases ho : fp.orgClust = 0
    · -- a new chain
      obtain rfl := (hv.org_eq_zero hb).mp ho
      obtain ⟨fs', v, hcr, hres⟩ := hv.owns.grow hv.unmarked (c := 0) rfl
      rw [if_pos ho, hcr]
      rcases hres with ⟨rfl, hfull, hg⟩ | ⟨hvcl, -, hin, hg⟩
      · refine Or.inl ⟨fs', ?_, hv.served hb List.prefix_rfl hg (Or.inl rfl) hb.org rfl, hfull⟩
        simp [← ho]
      · have hs : Served fs fp A [] B ∅ fs' { fp with orgClust := v } [v] :=
          hv.served hb (List.nil_prefix) hg (Or.inr hin) rfl rfl
        obtain ⟨-, hv0, hv1, hall⟩ := hs.volume.cluster_ne (c := v) List.mem_cons_self
        exact Or.inr ⟨fs', v, v, [v], (if_neg hv0).trans ((if_neg hv1).trans (if_neg hall)),
          hs.move v fp.fptr, rfl⟩
    · -- the first cluster
      obtain ⟨c, r, rfl⟩ := List.exists_cons_of_ne_nil (mt (hv.org_eq_zero hb).mpr ho)
      have horg : fp.orgClust = c := hb.org
      obtain ⟨-, hv0, hv1, hall⟩ := hv.cluster_ne (c := c) List.mem_cons_self
      rw [← horg] at hv1 hall
      rw [if_neg ho]
      exact Or.inr ⟨fs, fp.orgClust, fp.orgClust, c :: r,
        (if_neg ho).trans ((if_neg hv1).trans (if_neg hall)), (Served.refl hv hb).move _ fp.fptr,
        congrArg some horg.symm⟩
  · have hpos : 0 < fp.fptr.toNat :=
      Nat.pos_of_ne_zero fun h => h0 (BitVec.eq_of_toNat_eq h)
    obtain ⟨k, hk, hcur⟩ := hp.before hpos hbound
    rw [hk, if_neg h0]
    by_cases hidx : k + 1 < l.length
    · -- the next cluster of the file
      have hd : l[k + 1]? = some l[k + 1] := List.getElem?_eq_getElem hidx
      obtain ⟨fs', hcr, hg⟩ := hv.owns.createChain_next hv.unmarked hcur hd
      obtain ⟨-, hv0, hv1, hall⟩ := hv.cluster_ne (c := l[k + 1]) (List.getElem_mem hidx)
      rw [hcr]
      exact Or.inr ⟨fs', fp.orgClust, l[k + 1], l,
        (if_neg hv0).trans ((if_neg hv1).trans (if_neg hall)),
        (hv.served hb List.prefix_rfl hg (Or.inl rfl) hb.org rfl).move _ fp.fptr, hd⟩
    · -- a new one behind the last
      obtain ⟨hklt, hkc⟩ := List.getElem?_eq_some_iff.mp hcur
      have hlen : k + 1 = l.length := by omega
      have hlast : l.getLastD 0 = fp.currClust := by
        rw [List.getLastD_eq_getLast?, List.getLast?_eq_getElem?, ← hlen, Nat.add_sub_cancel, hcur]
        rfl
      obtain ⟨fs', v, hcr, hres⟩ := hv.owns.grow hv.unmarked hlast
      rw [hcr]
      rcases hres with ⟨rfl, hfull, hg⟩ | ⟨hvcl, -, hin, hg⟩
      · exact Or.inl ⟨fs', rfl, hv.served hb List.prefix_rfl hg (Or.inl rfl) hb.org rfl, hfull⟩
      · have horg : fp.orgClust = (l ++ [v]).headD 0 := by
          rw [hb.org]
          cases l with
          | nil => exact absurd hlen (by simp)
          | cons c r => rfl
        have hs : Served fs fp A l B ∅ fs' fp (l ++ [v]) :=
          hv.served hb (List.prefix_append ..) hg (Or.inr hin) horg rfl
        obtain ⟨-, hv0, hv1, hall⟩ := hs.volume.cluster_ne (c := v) (by simp)
        refine Or.inr ⟨fs', fp.orgClust, v, l ++ [v],
          (if_neg hv0).trans ((if_neg hv1).trans (if_neg hall)), hs.move v fp.fptr, ?_⟩
        rw [hlen, List.getElem?_concat_length]

lemma toNat_copied (fp : Fil) : (fp.fptr % 512).toNat = fp.fptr.toNat % 512 := toNat_mod_sector _

/-- **Bytes to the buffer**, which has been given the current sector `s` with the bytes `b`; they
need not be right where they are overwritten or behind the end of the file. -/
lemma copyIn_spec (hv : Volume fs A l B) (hb : Buffer fs fp l) (hlt : fp.fptr.toNat < fs.capacity l)
    (hs : s = fs.sectorOf l fp.fptr.toNat) (hother : fp.faDirty = true → fp.dsect = s)
    (hbuf : ∀ i < fs.capacity l, i / 512 = fp.fptr.toNat / 512 →
      i ∉ written fp.fptr.toNat (inSector fp btw).toNat fp.fsize.toNat →
        b (i % 512) = byteAt fs fp l i) :
    Served fs fp A l B (written fp.fptr.toNat (inSector fp btw).toNat fp.fsize.toNat) fs
        (copyIn { fp with dsect := s, buf := b } wbuff btw) l ∧
      ∀ j < (inSector fp btw).toNat,
        byteAt fs (copyIn { fp with dsect := s, buf := b } wbuff btw) l (fp.fptr.toNat + j) =
          wbuff.getD j 0 := by
  have hcnt := toNat_inSector fp btw
  have hsame : inSector { fp with dsect := s, buf := b } btw = inSector fp btw := rfl
  have hin : ∀ i < fs.capacity l, fs.sectorOf l i = s ↔ i / 512 = fp.fptr.toNat / 512 := by
    intro i hi
    rw [hs]
    exact hv.geometry.sectorOf_eq_iff hv.owns.inVolume hv.owns.nodup hi hlt
  have hbyte : ∀ i, byteAt fs (copyIn { fp with dsect := s, buf := b } wbuff btw) l i =
      if fs.sectorOf l i = s then
        if fp.fptr.toNat % 512 ≤ i % 512 ∧
            i % 512 < fp.fptr.toNat % 512 + (inSector fp btw).toNat then
          wbuff.getD (i % 512 - fp.fptr.toNat % 512) 0
        else b (i % 512)
      else fs.drive.sectors (fs.sectorOf l i) (i % 512) := by
    intro i
    rw [byteAt, copyIn, ← toNat_copied fp, ← hsame]
    by_cases h : fs.sectorOf l i = s
    · rw [if_pos ⟨rfl, h⟩, if_pos h]
    · rw [if_neg fun hand => h hand.2, if_neg h]
  refine ⟨⟨List.prefix_rfl, hv, .refl fs l, ⟨hb.org, hb.size, fun _ => ⟨_, hlt, hs⟩, by simp [copyIn],
    fun _ => ?_⟩, fun i hi hW => ?_⟩, fun j hj => ?_⟩
  · show s ≠ 0
    rw [hs]
    exact (hv.sector hlt).2.1
  · rw [hbyte i]
    by_cases h : fs.sectorOf l i = s
    · have hdiv := (hin i hi).mp h
      rw [if_pos h, if_neg fun hand => hW ⟨by omega, Or.inl (by omega)⟩]
      exact hbuf i hi hdiv hW
    · rw [if_neg h, byteAt, if_neg]
      rintro ⟨hd, he⟩
      exact h (he.trans (hother hd))
  · have hcap : fp.fptr.toNat + j < fs.capacity l := by
      have h1 : fs.capacity l % 512 = 0 := by
        rw [capacity, clusterBytes, Nat.mul_left_comm, Nat.mul_mod_right]
      omega
    rw [hbyte, if_pos ((hin _ hcap).mpr (by omega)), if_pos ⟨by omega, by omega⟩,
      show (fp.fptr.toNat + j) % 512 - fp.fptr.toNat % 512 = j by omega]

/-- The buffer gets the current sector, unless the file ends before it; then bytes are copied to
it. -/
lemma writePart_spec (hv : Volume fs A l B) (hb : Buffer fs fp l) (hd : fp.faDirty = false)
    (hlt : fp.fptr.toNat < fs.capacity l) (h512 : fp.fptr.toNat % 512 = 0) :
    ∃ fs' b, fs.writeBuf fp (fs.sectorOf l fp.fptr.toNat) =
        (fs', { fp with dsect := fs.sectorOf l fp.fptr.toNat, buf := b }, .ok) ∧
      Served fs fp A l B (written fp.fptr.toNat (inSector fp btw).toNat fp.fsize.toNat) fs'
        (copyIn { fp with dsect := fs.sectorOf l fp.fptr.toNat, buf := b } wbuff btw) l ∧
      ∀ j < (inSector fp btw).toNat, byteAt fs'
        (copyIn { fp with dsect := fs.sectorOf l fp.fptr.toNat, buf := b } wbuff btw) l
          (fp.fptr.toNat + j) = wbuff.getD j 0 := by
  rw [writeBuf]
  by_cases he : fp.dsect = fs.sectorOf l fp.fptr.toNat
  · rw [if_neg (not_not.mpr he)]
    refine ⟨fs, fp.buf, by rw [← he],
      copyIn_spec wbuff btw hv hb hlt rfl (fun _ => he) fun i hi hdiv _ => ?_⟩
    rw [hb.byteAt_held (by rw [he]; exact (hv.sector hlt).2.1)]
    rw [he]
    exact sectorOf_congr hdiv
  rw [if_pos he]
  by_cases hsize : fp.fptr < fp.fsize
  · rw [if_pos hsize]
    obtain ⟨fs', b, hfill, hs⟩ := fillBuf_spec hv hb hd hlt
    have hlay := hs.confined.layout
    have hlt' : fp.fptr.toNat < fs'.capacity l := by rwa [hlay.capacity]
    obtain ⟨hs', hw⟩ := copyIn_spec (b := b) wbuff btw hs.volume hs.buffer hlt'
      (s := fs.sectorOf l fp.fptr.toNat) hlay.sectorOf.symm (fun _ => rfl) fun i hi hdiv _ => by
        rw [hs.buffer.byteAt_held (hv.sector hlt).2.1]
        rw [hlay.sectorOf]
        exact sectorOf_congr hdiv
    refine ⟨fs', b, hfill, ?_, hw⟩
    have := hs.trans hs'
    rwa [Set.empty_union] at this
  · -- at the growing edge
    rw [if_neg hsize]
    have hle : fp.fsize.toNat ≤ fp.fptr.toNat := Nat.le_of_not_lt (mt BitVec.lt_def.mpr hsize)
    refine ⟨fs, fp.buf, rfl,
      copyIn_spec wbuff btw hv hb hlt rfl (fun ht => ?_) fun i hi hdiv hW => ?_⟩
    · exact absurd (hd.symm.trans ht) (by simp)
    · exact absurd ⟨by omega, Or.inr (by omega)⟩ hW

/-- **Whole sectors**, past the buffer, which is refilled if it holds one of them. -/
lemma writeDirect_spec (hv : Volume fs A l B) (hb : Buffer fs fp l) (hd : fp.faDirty = false)
    (hlt : fp.fptr.toNat < fs.capacity l) (h512 : fp.fptr.toNat % 512 = 0)
    (hcc : fp.fptr.toNat / 512 % fs.csize.toNat + cc.toNat ≤ fs.csize.toNat) : ∃ fs' b,
    fs.writeDirect fp (fs.sectorOf l fp.fptr.toNat) cc wbuff =
        (fs', { fp with buf := b }, .ok (some (512 * cc))) ∧
      Served fs fp A l B (written fp.fptr.toNat (512 * cc.toNat) fp.fsize.toNat) fs'
        { fp with buf := b } l ∧
      ∀ j < 512 * cc.toNat,
        byteAt fs' { fp with buf := b } l (fp.fptr.toNat + j) = wbuff.getD j 0 := by
  have hgeo := hv.geometry
  have hsize := hgeo.csize_pos.2
  have hbyte : (cc.setWidth 8 : Byte).toNat = cc.toNat := by
    rw [BitVec.toNat_setWidth, Nat.mod_eq_of_lt (by omega)]
  have hvol := hv.owns.inVolume
  -- the sectors that are written are those of the position and behind it
  have hcap : fp.fptr.toNat + 512 * cc.toNat ≤ fs.capacity l :=
    add_le_capacity hlt (fits_sectors h512 hcc)
  have hnum : ∀ k < cc.toNat, (fs.sectorOf l (fp.fptr.toNat + 512 * k)).toNat =
      (fs.sectorOf l fp.fptr.toNat).toNat + k := fun k hk => by
    rw [sectorOf_add (by omega), hgeo.toNat_sectorOf_add hvol hlt (by omega)]
  obtain ⟨drive, hw, hrel, hself, hother⟩ := hv.owns.reliable.diskWrites
    (fs.sectorOf l fp.fptr.toNat) ((List.range cc.toNat).map (sectorAt wbuff)) (by
      rw [List.length_map, List.length_range]
      rcases Nat.eq_zero_or_pos cc.toNat with h0 | hpos
      · have := (fs.sectorOf l fp.fptr.toNat).isLt
        omega
      · have := hnum (cc.toNat - 1) (by omega)
        have := (fs.sectorOf l (fp.fptr.toNat + 512 * (cc.toNat - 1))).isLt
        omega)
  simp only [List.length_map, List.length_range, List.getElem_map, List.getElem_range]
    at hself hother
  have hnew : ∀ k < cc.toNat,
      drive.sectors (fs.sectorOf l (fp.fptr.toNat + 512 * k)) = sectorAt wbuff k :=
    fun k hk => hself k hk _ (hnum k hk)
  have hold : ∀ a, (∀ k < cc.toNat, a ≠ fs.sectorOf l (fp.fptr.toNat + 512 * k)) →
      drive.sectors a = fs.drive.sectors a := fun a ha => hother a fun k hk he =>
    ha k hk (BitVec.eq_of_toNat_eq (by rw [he, hnum k hk]))
  obtain ⟨hv', hloc⟩ := hv.store hrel fun a ha => hold a fun k hk => ha _ (by omega)
  -- the buffer, which is clean in any case
  obtain ⟨b, hfp, hbuf⟩ : ∃ b, (if fp.dsect - fs.sectorOf l fp.fptr.toNat < cc then
      { fp with
        buf := sectorAt wbuff (fp.dsect - fs.sectorOf l fp.fptr.toNat).toNat
        faDirty := false }
      else fp) = { fp with buf := b } ∧ (fp.dsect ≠ 0 → b = drive.sectors fp.dsect) := by
    have hadd : ∀ k < cc.toNat, fs.sectorOf l (fp.fptr.toNat + 512 * k) =
        fs.sectorOf l fp.fptr.toNat + BitVec.ofNat 32 k := fun k hk => sectorOf_add (by omega)
    by_cases hin : fp.dsect - fs.sectorOf l fp.fptr.toNat < cc
    · rw [if_pos hin]
      refine ⟨sectorAt wbuff (fp.dsect - fs.sectorOf l fp.fptr.toNat).toNat, by rw [← hd],
        fun _ => ?_⟩
      have hlt := BitVec.lt_def.mp hin
      rw [← hnew _ hlt, hadd _ hlt, BitVec.ofNat_toNat, BitVec.setWidth_eq, BitVec.add_comm,
        BitVec.sub_add_cancel]
    · rw [if_neg hin]
      refine ⟨fp.buf, rfl, fun h0 => ?_⟩
      rw [hold fp.dsect fun k hk he => hin ?_]
      · exact hb.clean hd h0
      · rw [he, hadd k hk, BitVec.lt_def, BitVec.add_comm, BitVec.add_sub_cancel,
          BitVec.toNat_ofNat, Nat.mod_eq_of_lt (by omega)]
        exact hk
  refine ⟨{ fs with drive }, b, ?_, ⟨List.prefix_rfl, hv', hloc, ⟨hb.org, hb.size, hb.held,
    fun _ => hbuf, hb.dirty⟩, fun i hi hW => ?_⟩, fun j hj => ?_⟩
  · rw [writeDirect, hbyte, hw]
    dsimp only
    rw [hfp]
  · show (if fp.faDirty = true ∧ _ then b else drive.sectors (fs.sectorOf l i)) (i % 512) = _
    rw [byteAt, if_neg fun hand => absurd (hd.symm.trans hand.1) (by simp),
      if_neg fun hand => absurd (hd.symm.trans hand.1) (by simp), hold _ fun k hk he => ?_]
    have := (hgeo.sectorOf_eq_iff hvol hv.owns.nodup hi (by omega)).mp he
    exact hW ⟨by omega, Or.inl (by omega)⟩
  · show (if fp.faDirty = true ∧ _ then b else
      drive.sectors (fs.sectorOf l (fp.fptr.toNat + j))) ((fp.fptr.toNat + j) % 512) = _
    rw [if_neg fun hand => absurd (hd.symm.trans hand.1) (by simp),
      sectorOf_congr (show _ = (fp.fptr.toNat + 512 * (j / 512)) / 512 by omega),
      hnew _ (by omega), sectorAt, show 512 * (j / 512) + (fp.fptr.toNat + j) % 512 = j by omega]

/-- The position behind the bytes that were copied to the buffer. -/
lemma placed_copyIn (hg : Geometry fs)
    (hcur : l[fp.fptr.toNat / fs.clusterBytes]? = some fp.currClust)
    (hd : fp.dsect = fs.sectorOf l fp.fptr.toNat) (hbtw : 0 < btw.toNat)
    (hover : fp.fptr.toNat + btw.toNat < 2 ^ 32) :
    Placed fs { copyIn fp wbuff btw with fptr := fp.fptr + inSector fp btw } l := by
  have hcnt := toNat_inSector fp btw
  refine Placed.advance (copyIn fp wbuff btw) hcur (by omega) ?_ ?_ fun hne => ?_
  · exact hg.fits (by show fp.fptr.toNat % 512 + _ ≤ _; omega)
  · show fp.fptr.toNat + _ < _
    omega
  · have hne : (fp.fptr.toNat + (inSector fp btw).toNat) % 512 ≠ 0 := hne
    show fp.dsect = fs.sectorOf l (fp.fptr.toNat + (inSector fp btw).toNat)
    rw [hd]
    exact sectorOf_congr (by omega)

/-- **One turn of the loop** stores bytes and moves the position behind them, unless a cluster is
needed and none is free. -/
lemma writeTurn_spec (hv : Volume fs A l B) (hb : Buffer fs fp l) (hp : Placed fs fp l)
    (hbtw : 0 < btw.toNat) (hover : fp.fptr.toNat + btw.toNat < 2 ^ 32) :
    (∃ fs', fs.writeTurn fp wbuff btw = some (fs', fp, .ok none) ∧
      Served fs fp A l B ∅ fs' fp l ∧ Full fs') ∨
    ∃ fs' fp' l' wcnt, fs.writeTurn fp wbuff btw = some (fs', fp', .ok (some wcnt)) ∧
      (0 < wcnt.toNat ∧ wcnt.toNat ≤ btw.toNat) ∧
      Served fs fp A l B (written fp.fptr.toNat wcnt.toNat fp.fsize.toNat) fs' fp' l' ∧
      Placed fs' { fp' with fptr := fp.fptr + wcnt } l' ∧
      (∀ j < wcnt.toNat, byteAt fs' fp' l' (fp.fptr.toNat + j) = wbuff.getD j 0) ∧
      ∃ faDirty orgClust currClust dsect buf,
        fp' = { fp with faDirty, orgClust, currClust, dsect, buf } := by
  have hcnt := toNat_inSector fp btw
  rw [writeTurn]
  by_cases h512 : fp.fptr.toNat % 512 = 0
  swap
  · -- within a sector
    rw [if_neg (mt mod_sector_iff.mp h512)]
    have hlt : fp.fptr.toNat < fs.capacity l := by
      have h1 : fs.capacity l % 512 = 0 := by
        rw [capacity, clusterBytes, Nat.mul_left_comm, Nat.mul_mod_right]
      have := hp.pos
      omega
    have hd := hp.inside h512
    have hcur := hp.cluster fun h0 => h512 (by rw [← mod_clusterBytes fs, h0])
    obtain ⟨hs, hw⟩ := copyIn_spec (b := fp.buf) wbuff btw hv hb hlt hd
      (fun _ => rfl) fun i hi hdiv _ => by
        rw [hb.byteAt_held (by rw [hd]; exact (hv.sector hlt).2.1)]
        rw [hd]
        exact sectorOf_congr hdiv
    exact Or.inr ⟨fs, _, l, _, rfl, ⟨by omega, by omega⟩, hs,
      placed_copyIn wbuff btw hv.geometry hcur hd hbtw hover, hw, _, _, _, _, _, rfl⟩
  rw [if_pos (mod_sector_iff.mpr h512)]
  rcases writeCluster_spec hv hb hp h512 with
    ⟨fs₁, hcl, hs₁, hfull⟩ | ⟨fs₁, o, c, l', hcl, hs₁, hcur⟩
  · rw [hcl]
    exact Or.inl ⟨fs₁, rfl, hs₁, hfull⟩
  have hlay₁ := hs₁.confined.layout
  obtain ⟨fs₂, hfl, hs₂⟩ := flushBuf_spec hs₁.volume hs₁.buffer
  have hs := hs₁.trans hs₂
  rw [Set.empty_union] at hs
  have hlay := hs.confined.layout
  rw [← hlay.clusterBytes] at hcur
  have hlt : fp.fptr.toNat < fs₂.capacity l' := by
    have hidx := (List.getElem?_eq_some_iff.mp hcur).1
    rwa [Nat.div_lt_iff_lt_mul hs.volume.geometry.clusterBytes_pos] at hidx
  have hsect : fs₂.sect { fp with orgClust := o, currClust := c, faDirty := false } = _ :=
    sect_spec hs.volume hcur
  rw [hcl]
  dsimp only
  rw [hfl]
  dsimp only
  rw [hsect]
  dsimp only
  refine Or.inr ?_
  by_cases hdir : btw / 512 = 0
  · -- less than a sector
    rw [if_neg (not_not.mpr hdir)]
    obtain ⟨fs₃, b, hbuf, hs₃, hw⟩ := writePart_spec wbuff btw hs.volume
      hs.buffer rfl hlt h512
    have hs' := hs.trans hs₃
    rw [Set.empty_union] at hs'
    have hlay₃ := hs₃.confined.layout
    have hpl : Placed fs₃ { copyIn { fp with
        orgClust := o, currClust := c, faDirty := false,
        dsect := fs₂.sectorOf l' fp.fptr.toNat, buf := b } wbuff btw with
        fptr := fp.fptr + inSector fp btw } l' :=
      placed_copyIn wbuff btw hs'.volume.geometry (by rw [hlay₃.clusterBytes]; exact hcur)
        hlay₃.sectorOf.symm hbtw hover
    rw [hbuf]
    exact ⟨fs₃, _, l', inSector fp btw, rfl, ⟨by omega, by omega⟩, hs', hpl, hw, _, _, _, _, _, rfl⟩
  · rw [if_pos hdir]
    have hgeo := hs.volume.geometry
    have hpos := hgeo.csize_pos
    have hmod := Nat.mod_lt (fp.fptr.toNat / 512) hpos.1
    have hdiv : (btw / 512).toNat = btw.toNat / 512 := BitVec.toNat_udiv
    have hne : (btw / 512).toNat ≠ 0 := fun h0 => hdir (BitVec.eq_of_toNat_eq h0)
    have hclip := toNat_clip { fp with orgClust := o, currClust := c, faDirty := false } hgeo
      (btw / 512) (by have := btw.isLt; omega)
    revert hclip
    generalize fs₂.clip (fs₂.csect _) (btw / 512) = cc
    intro hclip
    have hclip : cc.toNat = min (btw / 512).toNat
      (fs₂.csize.toNat - fp.fptr.toNat / 512 % fs₂.csize.toNat) := hclip
    have hcc : fp.fptr.toNat / 512 % fs₂.csize.toNat + cc.toNat ≤ fs₂.csize.toNat := by omega
    obtain ⟨fs₃, b, hdirect, hs₃, hw⟩ := writeDirect_spec wbuff hs.volume hs.buffer rfl
      hlt h512 hcc
    have hs' := hs.trans hs₃
    rw [Set.empty_union] at hs'
    have hlay₃ := hs'.confined.layout
    have hcnt : (512 * cc).toNat = 512 * cc.toNat := by
      rw [BitVec.toNat_mul, show (512 : DWord).toNat = 512 from rfl, Nat.mod_eq_of_lt (by omega)]
    rw [← hcnt] at hs' hw
    have hdirect : fs₂.writeDirect { fp with orgClust := o, currClust := c, faDirty := false }
      (fs₂.sectorOf l' fp.fptr.toNat) cc wbuff = _ := hdirect
    rw [hdirect]
    refine ⟨fs₃, _, l', 512 * cc, rfl, ⟨by omega, by omega⟩, hs', ?_, hw, _, _, _, _, _, rfl⟩
    refine Placed.advance { fp with
        orgClust := o, currClust := c, faDirty := false, buf := b } ?_ (by omega) ?_ (by
      show fp.fptr.toNat + _ < _
      omega) fun hmid => ?_
    · rw [hs₃.confined.layout.clusterBytes]
      exact hcur
    · rw [hs₃.confined.layout.clusterBytes, hcnt]
      exact fits_sectors h512 hcc
    · have hmid : (fp.fptr.toNat + (512 * cc).toNat) % 512 ≠ 0 := hmid
      omega

lemma written_union {p m n size : ℕ} :
    written p m size ∪ written (p + m) n size ⊆ written p (m + n) size := by
  rintro i (⟨h1, h2⟩ | ⟨h1, h2⟩)
  · exact ⟨h1, by omega⟩
  · exact ⟨by omega, by omega⟩

/-- **The loop** stores all that is asked for, or as much as there are clusters for. -/
lemma writeLoop_spec {fuel : ℕ} (bw : DWord) (hv : Volume fs A l B) (hb : Buffer fs fp l)
    (hp : Placed fs fp l) (hover : fp.fptr.toNat + btw.toNat < 2 ^ 32) (hfuel : btw.toNat < fuel) :
    ∃ fs' fp' l' n,
      writeLoop fuel fs fp wbuff btw bw = some (fs', fp', bw + BitVec.ofNat 32 n, .ok) ∧
        Served fs fp A l B (written fp.fptr.toNat n fp.fsize.toNat) fs' fp' l' ∧
        Placed fs' fp' l' ∧ fp'.fptr.toNat = fp.fptr.toNat + n ∧
        (∀ j < n, byteAt fs' fp' l' (fp.fptr.toNat + j) = wbuff.getD j 0) ∧
        n ≤ btw.toNat ∧ (n < btw.toNat → Full fs') ∧
        ∃ faDirty fptr orgClust currClust dsect buf,
          fp' = { fp with faDirty, fptr, orgClust, currClust, dsect, buf } := by
  induction fuel generalizing fs fp l wbuff btw bw with
  | zero => exact absurd hfuel (Nat.not_lt_zero _)
  | succ fuel ih =>
      rw [writeLoop]
      by_cases h0 : btw = 0
      · subst h0
        rw [if_pos rfl]
        exact ⟨fs, fp, l, 0, by simp, (Served.refl hv hb).mono (Set.empty_subset _), hp, rfl,
          fun j hj => absurd hj (Nat.not_lt_zero j), le_rfl, fun hlt => absurd hlt (by simp),
          _, _, _, _, _, _, rfl⟩
      rw [if_neg h0]
      have hpos : 0 < btw.toNat := Nat.pos_of_ne_zero fun h => h0 (BitVec.eq_of_toNat_eq h)
      rcases writeTurn_spec wbuff btw hv hb hp hpos hover with
        ⟨fs₁, hturn, hs₁, hfull⟩ |
          ⟨fs₁, fp₁, l₁, wcnt, hturn, ⟨hcnt, hle⟩, hs₁, hp₁, hw₁, d, o, c, s, b, rfl⟩
      · -- the disk is full
        rw [hturn]
        have hlay := hs₁.confined.layout
        exact ⟨fs₁, fp, l, 0, by simp, hs₁.mono (Set.empty_subset _),
          ⟨by rw [hlay.capacity]; exact hp.pos, by rw [hlay.clusterBytes]; exact hp.curr,
            by rw [hlay.sectorOf]; exact hp.inside⟩, rfl,
          fun j hj => absurd hj (Nat.not_lt_zero j), Nat.zero_le _, fun _ => hfull,
          _, _, _, _, _, _, rfl⟩
      have hfptr : (fp.fptr + wcnt).toNat = fp.fptr.toNat + wcnt.toNat := by
        rw [BitVec.toNat_add, Nat.mod_eq_of_lt (by omega)]
      have hsub : (btw - wcnt).toNat = btw.toNat - wcnt.toNat :=
        BitVec.toNat_sub_of_le (BitVec.le_def.mpr hle)
      have hs₁ := hs₁.move c (fp.fptr + wcnt)
      obtain ⟨fs', fp', l', n, hloop, hs', hp', hpos', hw', hn, hfull, d', f', o', c', s', b', rfl⟩ :=
        ih (wbuff.drop wcnt.toNat) (btw - wcnt) (bw + wcnt) hs₁.volume hs₁.buffer hp₁
          (by show (fp.fptr + wcnt).toNat + _ < _; omega) (by omega)
      have hs' : Served fs₁ _ A l₁ B (written (fp.fptr + wcnt).toNat n fp.fsize.toNat) fs' _ l' := hs'
      have hpos' : f'.toNat = (fp.fptr + wcnt).toNat + n := hpos'
      have hw' : ∀ j < n, byteAt fs' _ l' ((fp.fptr + wcnt).toNat + j) =
        (wbuff.drop wcnt.toNat).getD j 0 := hw'
      rw [hfptr] at hs' hw' hpos'
      rw [hturn]
      refine ⟨fs', _, l', wcnt.toNat + n, hloop.trans ?_, (hs₁.trans hs').mono written_union, hp',
        by show f'.toNat = _; omega, fun j hj => ?_, by omega, fun hlt => hfull (by omega),
        _, _, _, _, _, _, rfl⟩
      · rw [BitVec.add_assoc, BitVec.ofNat_add, BitVec.ofNat_toNat, BitVec.setWidth_eq]
      · by_cases hj' : j < wcnt.toNat
        · have hcap : fp.fptr.toNat + wcnt.toNat ≤ fs₁.capacity l₁ := hfptr ▸ hp₁.pos
          rw [hs'.bytes _ (by omega) fun hmem => by have := hmem.1; omega]
          exact hw₁ j hj'
        · have := hw' (j - wcnt.toNat) (by omega)
          rw [show fp.fptr.toNat + wcnt.toNat + (j - wcnt.toNat) = fp.fptr.toNat + j by omega] at this
          rw [this, List.getD_eq_getElem?_getD, List.getElem?_drop, ← List.getD_eq_getElem?_getD,
            show wcnt.toNat + (j - wcnt.toNat) = j by omega]

/-- **`f_write`** stores the bytes in the file from the position on. It stores none if the size of
the file could reach 4 GB, and fewer than it was given only if no cluster is free in the end. -/
lemma fWrite_spec (hv : Volume fs A l B) (hb : Buffer fs fp l) (hp : Placed fs fp l)
    (hend : fp.fptr.toNat ≤ fp.fsize.toNat) (herr : fp.faError = false)
    (hmode : fp.faWrite = true) : ∃ fs' fp' l' n,
    fs.fWrite fp wbuff btw = some (fs', fp', BitVec.ofNat 32 n, .ok) ∧
      Served fs fp A l B (written fp.fptr.toNat n fp.fsize.toNat) fs' fp' l' ∧
      Placed fs' fp' l' ∧ fp'.fptr.toNat = fp.fptr.toNat + n ∧
      fp'.fsize.toNat = max fp.fsize.toNat (fp.fptr.toNat + n) ∧
      (∀ j < n, byteAt fs' fp' l' (fp.fptr.toNat + j) = wbuff.getD j 0) ∧
      n ≤ btw.toNat ∧
      (n < btw.toNat → 2 ^ 32 ≤ fp.fsize.toNat + btw.toNat ∧ n = 0 ∨ Full fs') ∧
      ∃ faDirty faWritten fptr fsize orgClust currClust dsect buf,
        fp' = { fp with faDirty, faWritten, fptr, fsize, orgClust, currClust, dsect, buf } := by
  rw [fWrite, if_neg (by simp [herr]), if_neg (by simp [hmode])]
  dsimp only
  -- the number of bytes that are left when the size could wrap
  obtain ⟨m, hm, hover, hle, hwrap⟩ : ∃ m : DWord,
      (if fp.fsize + btw < fp.fsize then 0 else btw) = m ∧ fp.fsize.toNat + m.toNat < 2 ^ 32 ∧
        m.toNat ≤ btw.toNat ∧
        (m.toNat < btw.toNat → 2 ^ 32 ≤ fp.fsize.toNat + btw.toNat ∧ m.toNat = 0) := by
    have hadd : (fp.fsize + btw).toNat = (fp.fsize.toNat + btw.toNat) % 2 ^ 32 :=
      BitVec.toNat_add ..
    have h1 := fp.fsize.isLt
    have h2 := btw.isLt
    by_cases h : fp.fsize + btw < fp.fsize
    · rw [if_pos h]
      have := BitVec.lt_def.mp h
      exact ⟨0, rfl, by simpa using h1, by simp, fun _ => ⟨by omega, rfl⟩⟩
    · rw [if_neg h]
      have := mt BitVec.lt_def.mpr h
      exact ⟨btw, rfl, by omega, le_rfl, fun hlt => absurd hlt (lt_irrefl _)⟩
  rw [hm]
  obtain ⟨fs', fp', l', n, hloop, hs, hp', hpos, hw, hn, hfull, d, f, o, c, s, b, rfl⟩ :=
    writeLoop_spec wbuff m 0 hv hb hp (by omega) (Nat.lt_succ_self _)
  rw [hloop, show (0 : DWord) + BitVec.ofNat 32 n = BitVec.ofNat 32 n by simp]
  have hpos : f.toNat = fp.fptr.toNat + n := hpos
  have hsize : (if fp.fsize < f then f else fp.fsize).toNat =
      max fp.fsize.toNat (fp.fptr.toNat + n) := by
    split_ifs with h
    · have := BitVec.lt_def.mp h
      omega
    · have := mt BitVec.lt_def.mpr h
      omega
  have hcap := hp'.pos
  have hold := hs.buffer.size
  refine ⟨fs', _, l', n, rfl, ⟨hs.longer, hs.volume, hs.confined, ⟨hs.buffer.org, ?_,
    hs.buffer.held, hs.buffer.clean, hs.buffer.dirty⟩, hs.bytes⟩, ⟨hp'.pos, hp'.curr, hp'.inside⟩,
    hpos, hsize, hw, by omega, fun hlt => ?_, _, _, _, _, _, _, _, _, rfl⟩
  · show (if fp.fsize < f then f else fp.fsize).toNat ≤ fs'.capacity l'
    have hcap : f.toNat ≤ fs'.capacity l' := hcap
    have hold : fp.fsize.toNat ≤ fs'.capacity l' := hold
    omega
  · by_cases hnm : n < m.toNat
    · exact Or.inr (hfull hnm)
    · obtain ⟨h1, h2⟩ := hwrap (by omega)
      exact Or.inl ⟨h1, by omega⟩

end Write

end FatFs

end ChinaOS
