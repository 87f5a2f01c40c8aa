import ChinaOS.FatWrite

/-!
`f_lseek` of `file/ff.c` moves the position, and makes the file longer where that is allowed.

* `Reached`: what is known on a cluster boundary on the way.
* `seekStart_spec`, `followLoop_spec`: the way starts at the current cluster or at the first one,
  and follows the chain or makes it longer.
* `fLseek_spec`: the call.
-/

namespace ChinaOS

namespace FatFs

/-- The lower bits are cleared. -/
lemma toNat_and_not_mask {x m : DWord} {k : ℕ} (hm : m.toNat = 2 ^ k) :
    (x &&& ~~~(m - 1)).toNat = x.toNat / 2 ^ k * 2 ^ k := by
  have hone := Nat.one_le_two_pow (n := k)
  have hmask : (m - 1).toNat = 2 ^ k - 1 := by
    rw [BitVec.toNat_sub_of_le (BitVec.le_def.mpr (by rw [hm]; exact hone)), hm]
    rfl
  refine Nat.eq_of_testBit_eq fun i => ?_
  rw [Nat.testBit_mul_two_pow, Nat.testBit_div_two_pow, BitVec.testBit_toNat, BitVec.getLsbD_and,
    BitVec.getLsbD_not, ← BitVec.testBit_toNat (x := m - 1), hmask, Nat.testBit_two_pow_sub_one]
  by_cases hi : k ≤ i
  · rw [Nat.sub_add_cancel hi, BitVec.testBit_toNat]
    by_cases h32 : i < 32
    · simp [hi, h32]
    · simp [hi, BitVec.getLsbD_of_ge x i (by omega)]
  · have : i < k := by omega
    simp [hi, this]

/-- The position is at the start of the current cluster. -/
structure Reached (fs : FatFs) (fp : Fil) (l : List DWord) : Prop where
  bound : fp.fptr.toNat % fs.clusterBytes = 0
  curr : l[fp.fptr.toNat / fs.clusterBytes]? = some fp.currClust

section Seek

variable {fs fs' : FatFs} {fp fp' : Fil} {A B : List (List DWord)} {l l' : List DWord}
  {ofs clst nsect : DWord} {i : ℕ}

/-- The size of a cluster is a power of two. -/
lemma Geometry.toNat_bcs (hg : Geometry fs) :
    fs.bcs.toNat = fs.clusterBytes ∧ ∃ k, fs.clusterBytes = 2 ^ k := by
  obtain ⟨k, -, hc⟩ := hg.csize
  have hlt := fs.csize.isLt
  refine ⟨?_, k + 9, by rw [clusterBytes, hc, Nat.pow_add, Nat.mul_comm]⟩
  rw [bcs, BitVec.toNat_mul, BitVec.toNat_setWidth, show (512 : DWord).toNat = 512 from rfl,
    Nat.mod_eq_of_lt (a := fs.csize.toNat) (by omega), Nat.mod_eq_of_lt (by omega), clusterBytes,
    Nat.mul_comm]

/-- **Where the way starts**: at the current cluster or at the first one, which may be a new one;
there is none only if the file has none and none is free. -/
lemma seekStart_spec (hv : Volume fs A l B) (hb : Buffer fs fp l) (hp : Placed fs fp l)
    (h0 : 0 < ofs.toNat) :
    (∃ fs' fp', fs.seekStart { fp with fptr := 0 } fp.fptr ofs = some (fs', fp', .ok (0, ofs)) ∧
      Served fs fp A l B ∅ fs' fp' l ∧ l = [] ∧ Full fs' ∧
      ∃ orgClust currClust, fp' = { fp with fptr := 0, orgClust, currClust }) ∨
    ∃ fs' fp' l' rest,
      fs.seekStart { fp with fptr := 0 } fp.fptr ofs = some (fs', fp', .ok (fp'.currClust, rest)) ∧
      Served fs fp A l B ∅ fs' fp' l' ∧ Reached fs' fp' l' ∧
      fp'.fptr.toNat + rest.toNat = ofs.toNat ∧ 0 < rest.toNat ∧
      ∃ fptr orgClust currClust, fp' = { fp with fptr, orgClust, currClust } := by
  obtain ⟨hbcs, k, hpow⟩ := hv.geometry.toNat_bcs
  have hone : ∀ x : DWord, 0 < x.toNat → (x - 1).toNat = x.toNat - 1 := fun x hx =>
    BitVec.toNat_sub_of_le (BitVec.le_def.mpr hx)
  rw [seekStart]
  by_cases hnear : 0 < fp.fptr ∧ (fp.fptr - 1) / fs.bcs ≤ (ofs - 1) / fs.bcs
  · -- from the current cluster on
    have hpos : 0 < fp.fptr.toNat := BitVec.lt_def.mp hnear.1
    have hle := BitVec.le_def.mp hnear.2
    rw [BitVec.toNat_udiv, BitVec.toNat_udiv, hone _ hpos, hone _ h0, hbcs] at hle
    have hbase := toNat_and_not_mask (x := fp.fptr - 1) (hbcs.trans hpow)
    rw [hone _ hpos, ← hpow] at hbase
    rw [if_pos hnear]
    dsimp only
    revert hbase
    generalize (fp.fptr - 1) &&& ~~~(fs.bcs - 1) = base
    intro hbase
    have hcb := hv.geometry.clusterBytes_pos
    have hlt : base.toNat < ofs.toNat := by
      have h1 := Nat.mul_le_mul_right fs.clusterBytes hle
      have h2 := Nat.div_mul_le_self (ofs.toNat - 1) fs.clusterBytes
      omega
    have hsub : (ofs - base).toNat = ofs.toNat - base.toNat :=
      BitVec.toNat_sub_of_le (BitVec.le_def.mpr hlt.le)
    refine Or.inr ⟨fs, _, l, _, rfl, (Served.refl hv hb).move fp.currClust base, ⟨?_, ?_⟩, ?_,
      by omega, _, _, _, rfl⟩
    · show base.toNat % fs.clusterBytes = 0
      rw [hbase, Nat.mul_mod_left]
    · show l[base.toNat / fs.clusterBytes]? = some fp.currClust
      rw [hbase, Nat.mul_div_cancel _ hcb]
      exact hp.curr hpos
    · show base.toNat + _ = _
      omega
  rw [if_neg hnear]
  have hzero : (0 : DWord).toNat / fs.clusterBytes = 0 := Nat.zero_div _
  by_cases ho : fp.orgClust = 0
  · -- a new chain
    obtain rfl := (hv.org_eq_zero hb).mp ho
    obtain ⟨fs', v, hcr, hres⟩ := hv.owns.grow hv.unmarked (c := 0) rfl
    rw [if_pos ho, hcr]
    rcases hres with ⟨rfl, hfull, hg⟩ | ⟨hvcl, -, hin, hg⟩
    · have hs : Served fs fp A [] B ∅ fs' { fp with orgClust := 0 } [] :=
        hv.served hb List.prefix_rfl hg (Or.inl rfl) rfl rfl
      exact Or.inl ⟨fs', _, rfl, hs.move 0 0, rfl, hfull, _, _, rfl⟩
    · have hs : Served fs fp A [] B ∅ fs' { fp with orgClust := v } [v] :=
        hv.served hb List.nil_prefix hg (Or.inr hin) rfl rfl
      obtain ⟨-, -, hv1, hall⟩ := hs.volume.cluster_ne (c := v) List.mem_cons_self
      refine Or.inr ⟨fs', { fp with fptr := 0, orgClust := v, currClust := v }, [v], ofs,
        (if_neg hv1).trans (if_neg hall), hs.move v 0, ⟨Nat.zero_mod _, ?_⟩, Nat.zero_add _, h0,
        _, _, _, rfl⟩
      show [v][(0 : DWord).toNat / fs'.clusterBytes]? = some v
      rw [hs.confined.layout.clusterBytes, hzero]
      rfl
  · -- from the first cluster on
    obtain ⟨c, r, rfl⟩ := List.exists_cons_of_ne_nil (mt (hv.org_eq_zero hb).mpr ho)
    have horg : fp.orgClust = c := hb.org
    rw [if_neg ho]
    refine Or.inr ⟨fs, { fp with fptr := 0, currClust := fp.orgClust }, c :: r, ofs, rfl,
      (Served.refl hv hb).move _ 0, ⟨Nat.zero_mod _, ?_⟩, Nat.zero_add _, h0, _, _, _, rfl⟩
    show (c :: r)[(0 : DWord).toNat / fs.clusterBytes]? = some fp.orgClust
    rw [hzero, horg]
    rfl

/-- **One cluster further**; there is none only if the last one of the file has been reached, and
none is free. -/
lemma followCluster_spec (hv : Volume fs A l B) (hb : Buffer fs fp l) (hr : Reached fs fp l)
    (hsize : fp.faWrite = false → fp.fptr.toNat + fs.clusterBytes < fs.capacity l) :
    ∃ fs' v, (if fp.faWrite then fs.createChain fp.currClust
        else some (fs.getFat fp.currClust)) = some (fs', v) ∧
      (fp.faWrite = true ∧ v = 0 ∧ Served fs fp A l B ∅ fs' fp l ∧ Full fs' ∧
          fp.fptr.toNat + fs.clusterBytes = fs.capacity l ∨
        ∃ l', Served fs fp A l B ∅ fs' fp l' ∧
          l'[fp.fptr.toNat / fs.clusterBytes + 1]? = some v) := by
  have hdm := Nat.div_add_mod fp.fptr.toNat fs.clusterBytes
  rw [hr.bound, Nat.add_zero, Nat.mul_comm] at hdm
  have hcur := hr.curr
  revert hcur hdm
  generalize fp.fptr.toNat / fs.clusterBytes = k
  intro hdm hcur
  obtain ⟨hklt, hkc⟩ := List.getElem?_eq_some_iff.mp hcur
  have hnext : ∀ hidx : k + 1 < l.length, l[k + 1]? = some l[k + 1] :=
    fun hidx => List.getElem?_eq_getElem hidx
  cases hmode : fp.faWrite with
  | false =>
      have hidx : k + 1 < l.length := by
        have := hsize hmode
        rw [← hdm, ← Nat.succ_mul, capacity] at this
        exact Nat.lt_of_mul_lt_mul_right this
      obtain ⟨fs', hget, hg⟩ := hv.owns.getFat_next hv.unmarked hcur (hnext hidx)
      rw [if_neg (by simp), hget]
      exact ⟨fs', _, rfl, Or.inr ⟨l, hv.served hb List.prefix_rfl hg (Or.inl rfl) hb.org rfl,
        hnext hidx⟩⟩
  | true =>
      rw [if_pos rfl]
      by_cases hidx : k + 1 < l.length
      · obtain ⟨fs', hcr, hg⟩ := hv.owns.createChain_next hv.unmarked hcur (hnext hidx)
        exact ⟨fs', _, hcr, Or.inr ⟨l, hv.served hb List.prefix_rfl hg (Or.inl rfl) hb.org rfl,
          hnext hidx⟩⟩
      · have hlen : k + 1 = l.length := by omega
        have hlast : l.getLastD 0 = fp.currClust := by
          rw [List.getLastD_eq_getLast?, List.getLast?_eq_getElem?, ← hlen, Nat.add_sub_cancel,
            hcur]
          rfl
        obtain ⟨fs', v, hcr, hres⟩ := hv.owns.grow hv.unmarked hlast
        refine ⟨fs', v, hcr, ?_⟩
        rcases hres with ⟨rfl, hfull, hg⟩ | ⟨hvcl, -, hin, hg⟩
        · refine Or.inl ⟨rfl, rfl, hv.served hb List.prefix_rfl hg (Or.inl rfl) hb.org rfl, hfull,
            ?_⟩
          rw [← hdm, ← Nat.succ_mul, Nat.succ_eq_add_one, hlen, capacity]
        · have horg : fp.orgClust = (l ++ [v]).headD 0 := by
            rw [hb.org]
            cases l with
            | nil => exact absurd hlen (by simp)
            | cons c r => rfl
          refine Or.inr ⟨l ++ [v], hv.served hb (List.prefix_append ..) hg (Or.inr hin) horg rfl, ?_⟩
          rw [hlen, List.getElem?_concat_length]

variable (ofs) in
/-- **The cluster following loop** ends in the cluster that was asked for, or in the last one if
no more can be had. -/
lemma followLoop_spec (fuel : ℕ) (hv : Volume fs A l B) (hb : Buffer fs fp l)
    (hr : Reached fs fp l) (h0 : 0 < ofs.toNat) (hover : fp.fptr.toNat + ofs.toNat < 2 ^ 32)
    (hsize : fp.faWrite = false → fp.fptr.toNat + ofs.toNat ≤ fs.capacity l)
    (hfuel : ofs.toNat < fuel) : ∃ fs' fp' l' clst rest,
    followLoop fuel fs fp fp.currClust ofs = some (fs', fp', .ok (clst, rest)) ∧
      Served fs fp A l B ∅ fs' fp' l' ∧ Reached fs' fp' l' ∧ 0 < rest.toNat ∧
      rest.toNat ≤ fs.clusterBytes ∧
      (clst = fp'.currClust ∧ fp'.fptr.toNat + rest.toNat = fp.fptr.toNat + ofs.toNat ∨
        fp.faWrite = true ∧ rest.toNat = fs.clusterBytes ∧ Full fs' ∧
          fp'.fptr.toNat + rest.toNat < fp.fptr.toNat + ofs.toNat ∧
          fp'.fptr.toNat + rest.toNat = fs'.capacity l') ∧
      ∃ fptr currClust, fp' = { fp with fptr, currClust } := by
  induction fuel generalizing fs fp l ofs with
  | zero => exact absurd hfuel (Nat.not_lt_zero _)
  | succ fuel ih =>
      have hbcs := hv.geometry.toNat_bcs.1
      have hcb := hv.geometry.clusterBytes_pos
      rw [followLoop]
      by_cases hbig : fs.bcs < ofs
      swap
      · rw [if_neg hbig]
        have := mt BitVec.lt_def.mpr hbig
        exact ⟨fs, fp, l, _, ofs, rfl, .refl hv hb, hr, h0, by omega, Or.inl ⟨rfl, rfl⟩, _, _, rfl⟩
      have hlt := BitVec.lt_def.mp hbig
      obtain ⟨fs₁, v, hnext, hres⟩ := followCluster_spec hv hb hr fun hm => by
        have := hsize hm
        omega
      rw [if_pos hbig, hnext]
      dsimp only
      rcases hres with ⟨hmode, rfl, hs₁, hfull, hcap⟩ | ⟨l₁, hs₁, hv₁⟩
      · -- the disk is full
        have hlay := hs₁.confined.layout
        have hbcs₁ : fs₁.bcs.toNat = fs.clusterBytes := by
          rw [hs₁.volume.geometry.toNat_bcs.1, hlay.clusterBytes]
        rw [if_pos ⟨hmode, rfl⟩]
        refine ⟨fs₁, fp, l, 0, fs₁.bcs, rfl, hs₁, ⟨?_, ?_⟩, by omega, by omega,
          Or.inr ⟨hmode, hbcs₁, hfull, by omega, ?_⟩, _, _, rfl⟩
        · rw [hlay.clusterBytes]
          exact hr.bound
        · rw [hlay.clusterBytes]
          exact hr.curr
        · rw [hlay.capacity]
          omega
      have hlay := hs₁.confined.layout
      have hmem : v ∈ l₁ := List.mem_of_getElem? hv₁
      obtain ⟨hle1, hne0, -, hall⟩ := hs₁.volume.cluster_ne hmem
      have hcl : ¬ fs₁.nFatent ≤ v := fun hle => by
        have := (hs₁.volume.owns.inVolume v hmem).2
        have := BitVec.le_def.mp hle
        omega
      rw [if_neg fun hand => hne0 hand.2, if_neg hall, if_neg fun hor => hor.elim hle1 hcl]
      have hbcs₁ : fs₁.bcs.toNat = fs.clusterBytes := by
        rw [hs₁.volume.geometry.toNat_bcs.1, hlay.clusterBytes]
      have hadd : (fp.fptr + fs₁.bcs).toNat = fp.fptr.toNat + fs.clusterBytes := by
        rw [BitVec.toNat_add, hbcs₁, Nat.mod_eq_of_lt (by omega)]
      have hsub : (ofs - fs₁.bcs).toNat = ofs.toNat - fs.clusterBytes := by
        rw [BitVec.toNat_sub_of_le (BitVec.le_def.mpr (by omega)), hbcs₁]
      have hs₁ := hs₁.move v (fp.fptr + fs₁.bcs)
      have hr₁ : Reached fs₁ { fp with currClust := v, fptr := fp.fptr + fs₁.bcs } l₁ := by
        refine ⟨?_, ?_⟩
        · show (fp.fptr + fs₁.bcs).toNat % fs₁.clusterBytes = 0
          rw [hadd, hlay.clusterBytes, Nat.add_mod_right]
          exact hr.bound
        · show l₁[(fp.fptr + fs₁.bcs).toNat / fs₁.clusterBytes]? = some v
          rw [hadd, hlay.clusterBytes, Nat.add_div_right _ hcb]
          exact hv₁
      obtain ⟨fs', fp', l', clst, rest, hloop, hs', hr', hpos, hle, hend, f, c, rfl⟩ :=
        ih (ofs - fs₁.bcs) hs₁.volume hs₁.buffer hr₁ (by omega)
          (by show (fp.fptr + fs₁.bcs).toNat + _ < _; omega)
          (fun hm => by
            have h1 := hsize hm
            have h2 : fs.capacity l ≤ fs₁.capacity l₁ := by
              obtain ⟨r, rfl⟩ := hs₁.longer
              rw [hlay.capacity, capacity_append]
              omega
            show (fp.fptr + fs₁.bcs).toNat + _ ≤ _
            omega)
          (by omega)
      have hs := hs₁.trans hs'
      rw [Set.empty_union] at hs
      have hend : clst = c ∧ f.toNat + rest.toNat = (fp.fptr + fs₁.bcs).toNat +
          (ofs - fs₁.bcs).toNat ∨ fp.faWrite = true ∧ rest.toNat = fs₁.clusterBytes ∧ Full fs' ∧
            f.toNat + rest.toNat < (fp.fptr + fs₁.bcs).toNat + (ofs - fs₁.bcs).toNat ∧
            f.toNat + rest.toNat = fs'.capacity l' := hend
      rw [hlay.clusterBytes] at hle hend
      refine ⟨fs', _, l', clst, rest, hloop, hs, hr', hpos, hle, ?_, _, _, rfl⟩
      rcases hend with ⟨hc, he⟩ | ⟨hm, hrest, hfull, hlt, hcap⟩
      · exact Or.inl ⟨hc, by show f.toNat + _ = _; omega⟩
      · exact Or.inr ⟨hm, hrest, hfull, by show f.toNat + _ < _; omega, hcap⟩

/-- A position behind the start of the current cluster, up to its end. -/
lemma Reached.forward (hr : Reached fs fp l) (hg : Geometry fs) (h0 : 0 < i)
    (hle : i ≤ fs.clusterBytes) : fp.fptr.toNat + i ≤ fs.capacity l ∧
      l[(fp.fptr.toNat + i - 1) / fs.clusterBytes]? = some fp.currClust := by
  have hcb := hg.clusterBytes_pos
  have hlt : fp.fptr.toNat / fs.clusterBytes < l.length := (List.getElem?_eq_some_iff.mp hr.curr).1
  have hcap : fp.fptr.toNat < fs.capacity l := by
    rwa [Nat.div_lt_iff_lt_mul hcb] at hlt
  refine ⟨add_le_capacity hcap (by rw [hr.bound]; omega), ?_⟩
  rw [← hr.curr]
  congr 1
  have hdm := Nat.div_add_mod fp.fptr.toNat fs.clusterBytes
  rw [hr.bound] at hdm
  refine Nat.div_eq_of_lt_le ?_ ?_
  · rw [Nat.mul_comm]
    omega
  · rw [Nat.succ_mul, Nat.mul_comm]
    omega

/-- Its sector, if it is within one. -/
lemma Reached.sector (hr : Reached fs fp l) (hv : Volume fs A l B) (hmid : i % 512 ≠ 0)
    (hle : i ≤ fs.clusterBytes) : fs.clust2sect fp.currClust ≠ 0 ∧
      fs.clust2sect fp.currClust + BitVec.ofNat 32 (i / 512) =
        fs.sectorOf l (fp.fptr.toNat + i) := by
  have hcl : fs.IsCluster fp.currClust := hv.owns.inVolume _ (List.mem_of_getElem? hr.curr)
  have hfirst := hv.geometry.toNat_clust2sect hcl
  have hbase := hv.owns.table.base_pos
  have hbehind := hv.geometry.behind
  have hlt : i < fs.clusterBytes := by
    have : fs.clusterBytes = 512 * fs.csize.toNat := rfl
    omega
  have hdm := Nat.div_add_mod fp.fptr.toNat fs.clusterBytes
  rw [hr.bound, Nat.add_zero] at hdm
  refine ⟨fun h0 => ?_, ?_⟩
  · rw [h0, show (0 : DWord).toNat = 0 from rfl] at hfirst
    omega
  · rw [sectorOf, dataSector, ← hdm, Nat.mul_add_div hv.geometry.clusterBytes_pos,
      Nat.mul_add_mod, Nat.div_eq_of_lt hlt, Nat.mod_eq_of_lt hlt, Nat.add_zero,
      List.getD_eq_getElem?_getD, hr.curr, Option.getD_some]

variable (ofs) in
/-- **The position is moved**, and the chain is made longer if that is allowed and needed. -/
lemma seekTo_spec (hv : Volume fs A l B) (hb : Buffer fs fp l) (hp : Placed fs fp l)
    (hsize : fp.faWrite = false → ofs.toNat ≤ fp.fsize.toNat) : ∃ fs' fp' l' nsect,
    fs.seekTo { fp with fptr := 0 } fp.fptr ofs = some (fs', fp', .ok nsect) ∧
      Served fs fp A l B ∅ fs' fp' l' ∧ fp'.fptr.toNat ≤ fs'.capacity l' ∧
      (0 < fp'.fptr.toNat → l'[(fp'.fptr.toNat - 1) / fs'.clusterBytes]? = some fp'.currClust) ∧
      (fp'.fptr.toNat % 512 ≠ 0 → nsect = fs'.sectorOf l' fp'.fptr.toNat) ∧
      fp'.fptr.toNat ≤ ofs.toNat ∧
      (fp'.fptr.toNat < ofs.toNat →
        fp.faWrite = true ∧ fp'.fptr.toNat = fs'.capacity l' ∧ Full fs') ∧
      ∃ fptr orgClust currClust, fp' = { fp with fptr, orgClust, currClust } := by
  have hz : (0 : DWord).toNat = 0 := rfl
  rw [seekTo]
  by_cases hofs : ofs = 0
  · subst hofs
    rw [if_pos rfl]
    exact ⟨fs, _, l, 0, rfl, (Served.refl hv hb).move fp.currClust 0, Nat.zero_le _,
      fun h => absurd h (lt_irrefl _), fun h => absurd rfl h, le_rfl,
      fun h => absurd h (lt_irrefl _), _, _, _, rfl⟩
  rw [if_neg hofs]
  have h0 : 0 < ofs.toNat := Nat.pos_of_ne_zero fun h => hofs (BitVec.eq_of_toNat_eq h)
  rcases seekStart_spec hv hb hp h0 with
    ⟨fs₁, fp₁, hst, hs₁, rfl, hfull, o, c, rfl⟩ |
      ⟨fs₁, fp₁, l₁, rest, hst, hs₁, hr₁, hrest, hrest0, f, o, c, rfl⟩
  · -- there is no cluster at all
    have hcap : ∀ fs : FatFs, fs.capacity [] = 0 := fun fs => Nat.zero_mul _
    rw [hst]
    dsimp only
    rw [if_pos rfl]
    refine ⟨fs₁, _, [], 0, rfl, hs₁, Nat.zero_le _, fun h => absurd h (lt_irrefl _),
      fun h => absurd rfl h, Nat.zero_le _, fun _ => ⟨?_, (hcap fs₁).symm, hfull⟩, _, _, _, rfl⟩
    by_contra hm
    have h1 := hsize (Bool.eq_false_of_not_eq_true hm)
    have h2 := hb.size
    rw [hcap] at h2
    omega
  have hne0 : c ≠ 0 := (hs₁.volume.cluster_ne (List.mem_of_getElem? hr₁.curr)).2.1
  have hrest : f.toNat + rest.toNat = ofs.toNat := hrest
  have h32 := ofs.isLt
  obtain ⟨fs₂, fp₂, l₂, clst, rest₂, hloop, hs₂, hr₂, hpos, hle, hend, f₂, c₂, rfl⟩ :=
    followLoop_spec rest (rest.toNat + 1) hs₁.volume hs₁.buffer hr₁ hrest0
      (by show f.toNat + _ < _; omega)
      (fun hm => by
        have h1 := hsize hm
        have h2 := hb.size
        have h3 : fs.capacity l ≤ fs₁.capacity l₁ := by
          obtain ⟨r, rfl⟩ := hs₁.longer
          rw [hs₁.confined.layout.capacity, capacity_append]
          omega
        show f.toNat + _ ≤ _
        omega)
      (Nat.lt_succ_self _)
  have hend : clst = c₂ ∧ f₂.toNat + rest₂.toNat = f.toNat + rest.toNat ∨
      fp.faWrite = true ∧ rest₂.toNat = fs₁.clusterBytes ∧ Full fs₂ ∧
        f₂.toNat + rest₂.toNat < f.toNat + rest.toNat ∧
        f₂.toNat + rest₂.toNat = fs₂.capacity l₂ := hend
  have hs := hs₁.trans hs₂
  rw [Set.empty_union] at hs
  have hcb : fs₁.clusterBytes = fs₂.clusterBytes := hs₂.confined.layout.clusterBytes.symm
  rw [hcb] at hle hend
  have hsum : (f₂ + rest₂).toNat = f₂.toNat + rest₂.toNat := by
    rw [BitVec.toNat_add, Nat.mod_eq_of_lt (by omega)]
  have hgeo := hs.volume.geometry
  obtain ⟨hcap, hcur⟩ := hr₂.forward hgeo hpos hle
  have hf512 : f₂.toNat % 512 = 0 := by
    have h1 : f₂.toNat % fs₂.clusterBytes = 0 := hr₂.bound
    rw [← mod_clusterBytes fs₂, h1]
  have hofs₂ : f₂.toNat + rest₂.toNat ≤ ofs.toNat := by omega
  have hclip : f₂.toNat + rest₂.toNat < ofs.toNat →
      fp.faWrite = true ∧ f₂.toNat + rest₂.toNat = fs₂.capacity l₂ ∧ Full fs₂ := fun hlt =>
    have h := hend.resolve_left fun hl => by omega
    ⟨h.1, h.2.2.2.2, h.2.2.1⟩
  have hmod : (rest₂ % 512).toNat = rest₂.toNat % 512 := toNat_mod_sector _
  rw [hst]
  dsimp only
  rw [if_neg hne0, hloop]
  dsimp only
  -- what is left to say is which sector the buffer has to hold
  suffices hsect : ∃ nsect, (if rest₂ % 512 = 0 then
      some (fs₂, { fp with fptr := f₂ + rest₂, orgClust := o, currClust := c₂ }, .ok 0)
      else if fs₂.clust2sect clst = 0 then
        some (fs₂, { fp with fptr := f₂ + rest₂, orgClust := o, currClust := c₂ },
          .error .intErr)
      else some (fs₂, { fp with fptr := f₂ + rest₂, orgClust := o, currClust := c₂ },
        .ok (fs₂.clust2sect clst + rest₂ / 512))) =
      some (fs₂, { fp with fptr := f₂ + rest₂, orgClust := o, currClust := c₂ },
        (.ok nsect : Except FResult DWord)) ∧
      ((f₂ + rest₂).toNat % 512 ≠ 0 → nsect = fs₂.sectorOf l₂ (f₂ + rest₂).toNat) by
    obtain ⟨nsect, heq, hin⟩ := hsect
    refine ⟨fs₂, _, l₂, nsect, heq, hs.move c₂ (f₂ + rest₂), ?_, fun _ => ?_, hin, ?_, ?_,
      _, _, _, rfl⟩
    · show (f₂ + rest₂).toNat ≤ _
      rw [hsum]
      exact hcap
    · show l₂[((f₂ + rest₂).toNat - 1) / _]? = _
      rw [hsum]
      exact hcur
    · show (f₂ + rest₂).toNat ≤ _
      rw [hsum]
      exact hofs₂
    · show (f₂ + rest₂).toNat < _ → _ ∧ (f₂ + rest₂).toNat = _ ∧ _
      rw [hsum]
      exact hclip
  by_cases hin : rest₂ % 512 = 0
  · rw [if_pos hin]
    refine ⟨0, rfl, fun hne => absurd ?_ hne⟩
    rw [hin] at hmod
    rw [hsum]
    omega
  · rw [if_neg hin]
    have hmid : rest₂.toNat % 512 ≠ 0 := fun h => hin (BitVec.eq_of_toNat_eq (hmod.trans h))
    obtain ⟨hne, hsec⟩ := hr₂.sector hs.volume hmid hle
    obtain ⟨rfl, -⟩ := hend.resolve_right fun hr => by
      have : fs₂.clusterBytes = 512 * fs₂.csize.toNat := rfl
      omega
    rw [if_neg hne]
    refine ⟨_, rfl, fun _ => ?_⟩
    rw [hsum, ← show fs₂.clust2sect clst + BitVec.ofNat 32 (rest₂.toNat / 512) = _ from hsec]
    congr 1
    refine BitVec.eq_of_toNat_eq ?_
    rw [BitVec.toNat_udiv, BitVec.toNat_ofNat, show (512 : DWord).toNat = 512 from rfl,
      Nat.mod_eq_of_lt (by omega)]

/-- The buffer gets the sector of the position, if that is within one. -/
lemma seekBuf_spec (hv : Volume fs A l B) (hb : Buffer fs fp l)
    (hpos : fp.fptr.toNat ≤ fs.capacity l)
    (hin : fp.fptr.toNat % 512 ≠ 0 → nsect = fs.sectorOf l fp.fptr.toNat) : ∃ fs' faDirty dsect buf,
    fs.seekBuf fp nsect = (fs', { fp with faDirty, dsect, buf }, .ok) ∧
      Served fs fp A l B ∅ fs' { fp with faDirty, dsect, buf } l ∧
      (fp.fptr.toNat % 512 ≠ 0 → dsect = fs.sectorOf l fp.fptr.toNat) := by
  rw [seekBuf]
  by_cases hmid : fp.fptr % 512 ≠ 0 ∧ nsect ≠ fp.dsect
  · have h512 : fp.fptr.toNat % 512 ≠ 0 := mt mod_sector_iff.mpr hmid.1
    have hlt : fp.fptr.toNat < fs.capacity l := by
      have h1 : fs.capacity l % 512 = 0 := by
        rw [capacity, clusterBytes, Nat.mul_left_comm, Nat.mul_mod_right]
      omega
    rw [if_pos hmid, hin h512]
    obtain ⟨fs₁, hfl, hs₁⟩ := flushBuf_spec hv hb
    obtain ⟨fs₂, buf, hfill, hs₂⟩ := fillBuf_spec hs₁.volume hs₁.buffer rfl
      (by rwa [hs₁.confined.layout.capacity] : fp.fptr.toNat < fs₁.capacity l)
    rw [hs₁.confined.layout.sectorOf] at hfill hs₂
    have hs := hs₁.trans hs₂
    rw [Set.empty_union] at hs
    rw [hfl]
    exact ⟨fs₂, _, _, _, hfill, hs, fun _ => rfl⟩
  · rw [if_neg hmid]
    refine ⟨fs, _, _, _, rfl, .refl hv hb, fun h512 => ?_⟩
    rw [← hin h512]
    by_contra hne
    exact hmid ⟨mt mod_sector_iff.mp h512, fun he => hne he.symm⟩

/-- **`f_lseek`** moves the position to where it is asked for. Without write access it stops at the
end of the file; with it the file is made longer, and the position falls short only if no cluster
is free in the end, and never inside the file. -/
lemma fLseek_spec (hv : Volume fs A l B) (hb : Buffer fs fp l) (hp : Placed fs fp l)
    (herr : fp.faError = false) : ∃ fs' fp' l', fs.fLseek fp ofs = some (fs', fp', .ok) ∧
      Served fs fp A l B ∅ fs' fp' l' ∧ Placed fs' fp' l' ∧
      fp'.fsize.toNat = max fp.fsize.toNat fp'.fptr.toNat ∧
      (fp.faWrite = false → fp'.fptr.toNat = min ofs.toNat fp.fsize.toNat) ∧
      fp'.fptr.toNat ≤ ofs.toNat ∧
      (fp.faWrite = true → fp'.fptr.toNat < ofs.toNat →
        fp.fsize.toNat ≤ fp'.fptr.toNat ∧ Full fs') ∧
      ∃ faDirty faWritten fptr fsize orgClust currClust dsect buf,
        fp' = { fp with faDirty, faWritten, fptr, fsize, orgClust, currClust, dsect, buf } := by
  rw [fLseek, if_neg (by simp [herr])]
  dsimp only
  -- without write access, the end of the file is the end
  obtain ⟨goal, hgoal, hsize, hw⟩ : ∃ goal : DWord,
      (if fp.fsize < ofs ∧ ¬ fp.faWrite then fp.fsize else ofs) = goal ∧
        (fp.faWrite = false → goal.toNat = min ofs.toNat fp.fsize.toNat) ∧
        (fp.faWrite = true → goal = ofs) := by
    refine ⟨_, rfl, fun hm => ?_, fun hm => if_neg fun hand => hand.2 hm⟩
    split_ifs with h
    · have := BitVec.lt_def.mp h.1
      omega
    · have : ¬ fp.fsize < ofs := fun hlt => h ⟨hlt, by simp [hm]⟩
      have := mt BitVec.lt_def.mpr this
      omega
  rw [hgoal]
  obtain ⟨fs₁, fp₁, l', nsect, hto, hs₁, hpos, hcur, hin, hle, hclip, f, o, c, rfl⟩ :=
    seekTo_spec goal hv hb hp fun hm => by have := hsize hm; omega
  obtain ⟨fs₂, d, s, b, hbuf, hs₂, hin₂⟩ := seekBuf_spec hs₁.volume hs₁.buffer hpos hin
  have hlay := hs₂.confined.layout
  have hs := hs₁.trans hs₂
  rw [Set.empty_union] at hs
  rw [hto]
  dsimp only
  rw [hbuf]
  have hpl : Placed fs₂ { fp with
      fptr := f, orgClust := o, currClust := c, faDirty := d, dsect := s, buf := b } l' :=
    ⟨by rw [hlay.capacity]; exact hpos, by rw [hlay.clusterBytes]; exact hcur,
      by rw [hlay.sectorOf]; exact hin₂⟩
  have hpos : f.toNat ≤ fs₁.capacity l' := hpos
  have hle : f.toNat ≤ goal.toNat := hle
  have hclip : f.toNat < goal.toNat → fp.faWrite = true ∧ f.toNat = fs₁.capacity l' ∧ Full fs₁ :=
    hclip
  have hgo : goal.toNat ≤ ofs.toNat := by
    cases hm : fp.faWrite with
    | false =>
        have := hsize hm
        omega
    | true => rw [hw hm]
  have hread : fp.faWrite = false → f.toNat = min ofs.toNat fp.fsize.toNat := fun hm => by
    have := hsize hm
    by_contra hne
    have := (hclip (by omega)).1
    rw [hm] at this
    exact absurd this (by simp)
  have hwrite : fp.faWrite = true → f.toNat < ofs.toNat →
      fp.fsize.toNat ≤ f.toNat ∧ Full fs₂ := fun hm hlt => by
    obtain ⟨-, hcap, hfull⟩ := hclip (by rwa [hw hm])
    have hsize₁ : fp.fsize.toNat ≤ fs₁.capacity l' := hs₁.buffer.size
    -- at the end of a cluster the buffer is left alone
    have h512 : f % 512 = 0 := by
      rw [← BitVec.toNat_inj, toNat_mod_sector, hcap, capacity, clusterBytes, Nat.mul_left_comm]
      exact Nat.mul_mod_right ..
    rw [seekBuf, if_neg fun hand => hand.1 h512] at hbuf
    obtain ⟨rfl, -⟩ := Prod.mk.inj hbuf
    exact ⟨by omega, hfull⟩
  have hsize₂ : fp.fsize.toNat ≤ fs₂.capacity l' := hs.buffer.size
  by_cases hgrow : fp.fsize < f
  · have hlt := BitVec.lt_def.mp hgrow
    refine ⟨fs₂, { fp with
        fptr := f, orgClust := o, currClust := c, faDirty := d, dsect := s, buf := b,
        fsize := f, faWritten := true }, l', congrArg _ (congrArg _ (congrArg₂ _ (if_pos hgrow) rfl)),
      ⟨hs.longer, hs.volume, hs.confined, ⟨hs.buffer.org, ?_, hs.buffer.held, hs.buffer.clean,
        hs.buffer.dirty⟩, hs.bytes⟩, ⟨hpl.pos, hpl.curr, hpl.inside⟩, ?_, hread, by
        show f.toNat ≤ _
        omega, hwrite, _, _, _, _, _, _, _, _, rfl⟩
    · show f.toNat ≤ _
      rw [hlay.capacity]
      exact hpos
    · show f.toNat = max _ f.toNat
      omega
  · have hge := mt BitVec.lt_def.mpr hgrow
    refine ⟨fs₂, { fp with
        fptr := f, orgClust := o, currClust := c, faDirty := d, dsect := s, buf := b }, l',
      congrArg _ (congrArg _ (congrArg₂ _ (if_neg hgrow) rfl)), hs, hpl, ?_, hread, by
        show f.toNat ≤ _
        omega, hwrite, _, _, _, _, _, _, _, _, rfl⟩
    show fp.fsize.toNat = max _ f.toNat
    omega

end Seek

end FatFs

end ChinaOS
