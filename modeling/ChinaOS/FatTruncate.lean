import ChinaOS.FatSession

/-!
`f_truncate` for one of several open files.

The clusters behind the position are given back, but the buffer of the object is left as it is. If
it holds a sector of one of these clusters, the object is not in order afterwards: a buffer that is
dirty is written back later, to a cluster that may belong to another file by then.

* `fTruncate`: the function of the source.
* `Cut`: the buffer holds a sector that is cut off.
* `truncate_sound_iff`: the file is cut at the position, all others are left alone, and the session
  is in order again exactly if the buffer holds no sector that was cut off.
-/

namespace ChinaOS

namespace FatFs

/-! ### The function of the source -/

/-- `f_truncate`. -/
def fTruncate (fs : FatFs) (fp : Fil) : Option (FatFs × Fil × FResult) :=
  if fp.faError then some (fs, fp, .intErr)
  else if ¬ fp.faWrite then some (fs, fp, .denied)
  else if fp.fptr < fp.fsize then
    let fp := { fp with fsize := fp.fptr, faWritten := true }
    match
      if fp.fptr = 0 then
        (fs.removeChain fp.orgClust).map fun (fs, res) => (fs, { fp with orgClust := 0 }, res)
      else (fs.truncate fp.currClust).map fun (fs, res) => (fs, fp, res) with
    | none => none
    | some (fs, fp, res) =>
        some (fs, if res = .ok then fp else { fp with faError := true }, res)
  else some (fs, fp, .ok)

/-- `f_truncate` for the `i`-th open file. -/
def Session.truncate (s : Session) (i : ℕ) : Option Session := do
  let fp ← s.objects[i]?
  let (fs, fp, _) ← s.fs.fTruncate fp
  some { s with fs, objects := s.objects.set i fp }

/-- The clusters up to the position. -/
def upTo (fs : FatFs) (fp : Fil) (l : List DWord) : List DWord :=
  l.take ((fp.fptr.toNat + fs.clusterBytes - 1) / fs.clusterBytes)

/-- The buffer holds a sector of the clusters behind the position, which are cut off. -/
def Cut (fs : FatFs) (fp : Fil) : Prop :=
  fp.fptr < fp.fsize ∧ fp.dsect ≠ 0 ∧ ∀ i < fs.capacity (fs.upTo fp (fs.clusters fp)),
    fp.dsect ≠ fs.sectorOf (fs.upTo fp (fs.clusters fp)) i

instance (fs : FatFs) (fp : Fil) : Decidable (fs.Cut fp) :=
  inferInstanceAs (Decidable (_ ∧ _ ∧ _))

/-! ### Clusters that are given back -/

section Shrink

variable {fs fs₀ fs' : FatFs} {fp : Fil} {c d clst free : DWord} {E : ℕ → DWord} {fuel : ℕ}
  {l l' r u : List DWord} {A B files' : List (List DWord)}

lemma Stays.trans {fs₁ : FatFs} (h : Stays fs fs₁) (hlay : SameLayout fs fs₁)
    (h' : Stays fs₁ fs') : Stays fs fs' := by
  rcases h' with heq | hin
  · rw [Stays, heq]
    exact h
  · exact Or.inr (hlay.inFat.mp hin)

/-- `remove_chain` leaves the window at the FAT. -/
lemma removeLoop_stays (ht : Table fs₀) (hrel : fs₀.drive.Reliable) (h : Kept fs₀ fs E free)
    (h2 : 2 ≤ clst.toNat) {p : FatFs × FResult} (hp : removeLoop fuel fs clst = some p) :
    Stays fs p.1 := by
  induction fuel generalizing fs E free clst with
  | zero => exact absurd hp (by simp [removeLoop])
  | succ fuel ih =>
      rw [removeLoop] at hp
      by_cases hlt : clst < fs.nFatent
      swap
      · rw [if_neg hlt] at hp
        obtain rfl := Option.some.inj hp
        exact Or.inl rfl
      rw [if_pos hlt] at hp
      have hc : fs.IsCluster clst := ⟨h2, BitVec.lt_def.mp hlt⟩
      have hget := h.getFat ht (h.isCluster.mp hc)
      have hin := getFat_inFat (h.table ht) (h.copies hrel).1 hc
      rcases hg : fs.getFat clst with ⟨fs₁, x⟩
      rw [hg] at hget hin hp
      obtain ⟨-, h₁⟩ := hget.resolve_right fun hr => hr.2 hrel
      have hst : Stays fs fs₁ := Or.inr hin
      dsimp only at hp
      split_ifs at hp with h0 h1 he
      · obtain rfl := Option.some.inj hp
        exact hst
      · obtain rfl := Option.some.inj hp
        exact hst
      · obtain rfl := Option.some.inj hp
        exact hst
      have hx : 2 ≤ x.toNat := by
        by_contra hx
        have hx : x.toNat = 0 ∨ x.toNat = 1 := by omega
        exact hx.elim (fun hx => h0 (BitVec.eq_of_toNat_eq hx))
          fun hx => h1 (BitVec.eq_of_toNat_eq hx)
      have hput := h₁.putFat 0 ht (h.isCluster.mp hc)
      have hin₁ := putFat_inFat 0 (h₁.table ht) (h₁.copies hrel).1
        (h₁.isCluster.mpr (h.isCluster.mp hc))
      rcases hw : fs₁.putFat clst 0 with ⟨fs₂, res⟩
      rw [hw] at hput hin₁ hp
      obtain ⟨hr, h₂⟩ := hput.resolve_right fun hr => hr.2 hrel
      obtain rfl : res = .ok := hr
      have hcount : fs₂.countFreed.winsect = fs₂.winsect := by
        rw [countFreed]
        split_ifs <;> rfl
      have hst₂ : Stays fs fs₂.countFreed := by
        refine Or.inr ?_
        rw [hcount]
        exact h.sameLayout.inFat.mpr (h₁.sameLayout.inFat.mp hin₁)
      rcases ih h₂.countFreed hx hp with heq | hin'
      · rw [Stays, heq]
        exact hst₂
      · exact Or.inr (h.sameLayout.inFat.mpr (h₂.countFreed.sameLayout.inFat.mp hin'))

/-- **A file is removed**, and no entry gets the reserved mark. -/
lemma Owns.remove_grown (h : Owns fs (A ++ (c :: l) :: B)) (hm : Unmarked fs) : ∃ fs',
    fs.removeChain c = some (fs', .ok) ∧ Owns fs' (A ++ B) ∧ (∃ E free, Kept fs fs' E free) ∧
      Stays fs fs' ∧ Unmarked fs' := by
  have hl := (files_iff.mp h.files).1
  have hcl : fs.IsCluster c := (hl.cluster c List.mem_cons_self).1
  obtain ⟨fs', hp, hap⟩ := h.remove
  obtain ⟨p, hp', hres⟩ := removeChain_spec h.table hcl h.counted
  obtain rfl : (fs', FResult.ok) = p := Option.some.inj (hp.symm.trans hp')
  obtain ⟨E, free, hk, -, hfreed, -⟩ := hres.resolve_right fun hr => hr.2 h.reliable
  obtain ⟨hcleared, hother, -⟩ := hl.freed hfreed
  refine ⟨fs', hp, hap.owns, hap.kept, ?_, hk.unmarked fun d hd => ?_⟩
  · rw [removeChain, if_neg (isCluster_iff.mp hcl)] at hp
    exact removeLoop_stays h.table h.reliable (Kept.start h.table.toReady) hcl.1 hp
  · by_cases hdl : d ∈ c :: l
    · rw [hcleared d hdl]
      decide
    · rw [hother d hd.2 hdl]
      exact hm d hd

/-- **The end of a file is cut off**, and no entry gets the reserved mark. -/
lemma Owns.truncate_grown (h : Owns fs (A ++ (u ++ c :: r) :: B)) (hm : Unmarked fs) : ∃ fs',
    fs.truncate c = some (fs', .ok) ∧ Owns fs' (A ++ (u ++ [c]) :: B) ∧
      (∃ E free, Kept fs fs' E free) ∧ Stays fs fs' ∧ Unmarked fs' := by
  obtain ⟨hcl, h2, hend, hnext⟩ := h.next
  have hstart := Kept.start h.table.toReady
  have hget := hstart.getFat h.table hcl
  have hin := getFat_inFat h.table h.reliable hcl
  rcases hg : fs.getFat c with ⟨fs₁, x⟩
  rw [hg] at hget hin
  obtain ⟨hx, h₁⟩ := hget.resolve_right fun hr => hr.2 h.reliable
  obtain rfl : x = fs.entry c.toNat := hx
  have h₁ : Kept fs fs₁ fs.entry fs.freeClust := h₁
  have hne1 : fs.entry c.toNat ≠ 1 := fun h1 => absurd h2 (by rw [h1]; decide)
  rw [FatFs.truncate, hg]
  dsimp only
  rw [if_neg hne1, if_neg (hstart.ne_error h.table hcl.2), h₁.nFatent_eq]
  cases r with
  | nil =>
      have := hend rfl
      rw [if_neg (by rw [BitVec.lt_def]; omega)]
      exact ⟨fs₁, rfl, (h.same h₁).owns, ⟨_, _, h₁⟩, Or.inr hin, h₁.unmarked hm⟩
  | cons d r =>
      have hcd : fs.entry c.toNat = d := hnext d rfl
      have hd : fs.IsCluster d := ((files_iff.mp h.files).1.cluster d (by simp)).1
      obtain ⟨fs₂, hp, h₂, hcut⟩ := h.cut h₁
      have hin₁ := putFat_inFat 0x0FFFFFFF (h₁.table h.table) (h₁.copies h.reliable).1
        (h₁.isCluster.mpr hcl)
      rw [hp] at hin₁
      have hmask : FatTable.mask fs.fsType ≠ 1 := by
        cases fs.fsType <;> decide
      have hm₂ : Unmarked fs₂ := h₂.unmarked fun e he => by
        by_cases hec : e.toNat = c.toNat
        · rw [hec, Function.update_self]
          exact hmask
        · rw [Function.update_of_ne hec]
          exact hm e he
      rw [hcd, if_pos (BitVec.lt_def.mpr hd.2), hp]
      obtain ⟨fs', hp', howns, ⟨E, free, hk⟩, hst, hm'⟩ := hcut.owns.remove_grown hm₂
      refine ⟨fs', hp', howns, ⟨_, _, h₂.trans hk⟩, ?_, hm'⟩
      exact Stays.trans (Or.inr (h₁.sameLayout.inFat.mp hin₁)) h₂.sameLayout hst

/-- The file up to the position. -/
lemma upTo_cases (hg : Geometry fs) (fp : Fil) (l : List DWord) :
    fp.fptr.toNat = 0 ∧ fs.upTo fp l = [] ∨
      0 < fp.fptr.toNat ∧ fs.upTo fp l = l.take ((fp.fptr.toNat - 1) / fs.clusterBytes + 1) := by
  have hcb := hg.clusterBytes_pos
  rw [upTo]
  rcases Nat.eq_zero_or_pos fp.fptr.toNat with h0 | hpos
  · refine Or.inl ⟨h0, ?_⟩
    rw [h0, Nat.zero_add, Nat.div_eq_of_lt (by omega), List.take_zero]
  · refine Or.inr ⟨hpos, ?_⟩
    rw [show fp.fptr.toNat + fs.clusterBytes - 1 = fp.fptr.toNat - 1 + fs.clusterBytes by omega,
      Nat.add_div_right _ hcb]

/-- **`f_truncate`** of a file that does not end at the position. -/
lemma fTruncate_spec (hv : Volume fs A l B) (ho : IsOpen fs fp l) (hw : fp.faWrite = true)
    (hlt : fp.fptr < fp.fsize) : ∃ fs', fs.fTruncate fp = some (fs', { fp with
        fsize := fp.fptr, faWritten := true, orgClust := (fs.upTo fp l).headD 0 }, .ok) ∧
      Grown fs fs' (A ++ fs.upTo fp l :: B) := by
  have hne : l ≠ [] := fun hl => by
    have hsize := ho.buffer.size
    rw [hl, capacity, List.length_nil, Nat.zero_mul] at hsize
    have := BitVec.lt_def.mp hlt
    omega
  have howns := hv.owns
  rw [chains_cons hne] at howns
  rw [fTruncate, if_neg (by simp [ho.good]), if_neg (by simp [hw]), if_pos hlt]
  dsimp only
  rcases upTo_cases hv.geometry fp l with ⟨h0, hup⟩ | ⟨hpos, hup⟩
  · -- the whole chain
    obtain ⟨c, r, rfl⟩ := List.exists_cons_of_ne_nil hne
    have horg : fp.orgClust = c := ho.buffer.org
    obtain ⟨fs', hp, howns', hk, hst, hm⟩ := howns.remove_grown hv.unmarked
    rw [if_pos (BitVec.eq_of_toNat_eq h0), horg, hp, hup]
    exact ⟨fs', rfl, by rwa [chains_nil], hk, hst, hm⟩
  · -- what is behind the current cluster
    obtain ⟨u, r, rfl, hlen⟩ := exists_split (ho.placed.curr hpos)
    obtain ⟨fs', hp, howns', hk, hst, hm⟩ := howns.truncate_grown hv.unmarked
    have hup : fs.upTo fp (u ++ fp.currClust :: r) = u ++ [fp.currClust] := by
      rw [hup, ← hlen, List.take_append, List.take_of_length_le (Nat.le_succ _),
        Nat.add_sub_cancel_left]
      rfl
    have horg : fp.orgClust = (u ++ [fp.currClust]).headD 0 := by
      rw [ho.buffer.org]
      cases u <;> rfl
    rw [if_neg fun h0 => by rw [h0] at hpos; exact absurd hpos (by decide), hp, hup]
    refine ⟨fs', ?_, by rwa [chains_cons (by simp)], hk, hst, hm⟩
    rw [← horg]
    rfl

/-- **The volume, when the chain has become shorter.** -/
lemma Volume.shrunk (hv : Volume fs A l B) (hpre : l' <+: l) (hg : Grown fs fs' (A ++ l' :: B)) :
    Volume fs' A l' B ∧ Local fs l' fs' ∧ ∀ i < fs.capacity l',
      fs'.drive.sectors (fs.sectorOf l' i) = fs.drive.sectors (fs.sectorOf l' i) := by
  obtain ⟨t, rfl⟩ := hpre
  have hloc := hg.confined hv.owns.reliable l'
  have hlay := hloc.layout
  have hin : ∀ i < fs.capacity l', i < fs.capacity (l' ++ t) := fun i hi => by
    rw [capacity_append]
    omega
  have hsame : ∀ i < fs.capacity l', fs.sectorOf (l' ++ t) i = fs.sectorOf l' i := fun i hi =>
    sectorOf_append hi
  have hwin : ∀ i < fs.capacity l', fs.sectorOf l' i ≠ fs'.winsect := fun i hi he => by
    rw [← hsame i hi] at he
    rcases hg.stays with heq | hfat
    · exact hv.window i (hin i hi) (he.trans heq)
    · exact (hv.sector (hin i hi)).2.2.2 (he ▸ hfat)
  refine ⟨⟨hlay.geometry hv.geometry, hg.owns, hg.unmarked, fun i hi => ?_⟩, hloc, fun i hi => ?_⟩
  · rw [hlay.sectorOf]
    exact hwin i (by rwa [hlay.capacity] at hi)
  · obtain ⟨-, h0, hc, hf⟩ := hv.sector (hin i hi)
    have hsee := hg.view_eq h0 hc hf
    rw [hv.view_sector (hin i hi), hsame i hi, view, if_neg (hwin i hi)] at hsee
    exact hsee

/-- The position is at the end of what is left. -/
lemma IsOpen.pos_le_upTo (hg : Geometry fs) (ho : IsOpen fs fp l) :
    fp.fptr.toNat ≤ fs.capacity (fs.upTo fp l) := by
  have hcb := hg.clusterBytes_pos
  rcases upTo_cases hg fp l with ⟨h0, -⟩ | ⟨hpos, hup⟩
  · omega
  · have hlt := (List.getElem?_eq_some_iff.mp (ho.placed.curr hpos)).1
    have hdm := Nat.div_add_mod (fp.fptr.toNat - 1) fs.clusterBytes
    have hmod := Nat.mod_lt (fp.fptr.toNat - 1) hcb
    rw [hup, capacity, List.length_take, Nat.min_eq_left hlt, Nat.succ_mul, Nat.mul_comm]
    omega

/-- **The object is in order** exactly if the buffer holds a sector of what is left. -/
lemma IsOpen.truncated_iff (hg : Geometry fs) (ho : IsOpen fs fp l) (hlay : SameLayout fs fs')
    (hsec : ∀ i < fs.capacity (fs.upTo fp l), fs'.drive.sectors (fs.sectorOf (fs.upTo fp l) i) =
      fs.drive.sectors (fs.sectorOf (fs.upTo fp l) i)) :
    IsOpen fs' { fp with
      fsize := fp.fptr, faWritten := true, orgClust := (fs.upTo fp l).headD 0 } (fs.upTo fp l) ↔
      (fp.dsect ≠ 0 → ∃ i < fs.capacity (fs.upTo fp l),
        fp.dsect = fs.sectorOf (fs.upTo fp l) i) := by
  have hpos := ho.pos_le_upTo hg
  constructor
  · intro h h0
    obtain ⟨i, hi, he⟩ := h.buffer.held h0
    rw [hlay.capacity] at hi
    rw [hlay.sectorOf] at he
    exact ⟨i, hi, he⟩
  · intro h
    refine ⟨⟨rfl, ?_, fun h0 => ?_, fun hd h0 => ?_, ho.buffer.dirty⟩, ⟨?_, fun h0 => ?_,
      fun h0 => ?_⟩, le_rfl, ho.good⟩
    · rw [hlay.capacity]
      exact hpos
    · obtain ⟨i, hi, he⟩ := h h0
      exact ⟨i, by rwa [hlay.capacity], by rw [hlay.sectorOf]; exact he⟩
    · obtain ⟨i, hi, he⟩ := h h0
      show fp.buf = fs'.drive.sectors fp.dsect
      rw [he, hsec i hi, ← he]
      exact ho.buffer.clean hd h0
    · rw [hlay.capacity]
      exact hpos
    · have h0 : 0 < fp.fptr.toNat := h0
      have hup := (upTo_cases hg fp l).resolve_left fun h => absurd h.1 h0.ne'
      rw [hlay.clusterBytes, hup.2, List.getElem?_take_of_lt (Nat.lt_succ_self _)]
      exact ho.placed.curr h0
    · have h0 : fp.fptr.toNat % 512 ≠ 0 := h0
      have hcap : fs.capacity (fs.upTo fp l) % 512 = 0 := by
        rw [capacity, clusterBytes, Nat.mul_left_comm, Nat.mul_mod_right]
      rw [hlay.sectorOf]
      refine (ho.placed.inside h0).trans ?_
      obtain ⟨t, ht⟩ : fs.upTo fp l <+: l := List.take_prefix ..
      have hlt : fp.fptr.toNat < fs.capacity (fs.upTo fp l) := by omega
      rw [← sectorOf_append (r := t) hlt, ht]

/-- The bytes up to the position are left. -/
lemma IsOpen.bytesIn_truncated (hg : Geometry fs) (ho : IsOpen fs fp l) (hlay : SameLayout fs fs')
    (hsec : ∀ i < fs.capacity (fs.upTo fp l), fs'.drive.sectors (fs.sectorOf (fs.upTo fp l) i) =
      fs.drive.sectors (fs.sectorOf (fs.upTo fp l) i)) :
    bytesIn fs' { fp with
      fsize := fp.fptr, faWritten := true, orgClust := (fs.upTo fp l).headD 0 } (fs.upTo fp l) =
      (bytesIn fs fp l).take fp.fptr.toNat := by
  have hpos := ho.pos_le_upTo hg
  have hin := ho.within
  refine List.ext_getElem (by simp [bytesIn]; omega) fun i h1 h2 => ?_
  have hi : i < fp.fptr.toNat := by simpa [bytesIn] using h1
  obtain ⟨t, ht⟩ : fs.upTo fp l <+: l := List.take_prefix ..
  have hsame : fs.sectorOf l i = fs.sectorOf (fs.upTo fp l) i := by
    rw [← sectorOf_append (r := t) (show i < fs.capacity (fs.upTo fp l) by omega), ht]
  rw [List.getElem_take, getElem_bytesIn, getElem_bytesIn, byteAt, byteAt, hlay.sectorOf,
    hsec i (by omega), hsame]

end Shrink

/-! ### The session -/

namespace Session

section Truncate

variable {s : Session} {others : List (List DWord)} {fp : Fil} {i : ℕ}

/-- **`f_truncate`** of a file that ends at the position does nothing. -/
lemma truncate_end {P Q : List Fil} (ho : IsOpen s.fs fp (s.fs.clusters fp))
    (hobj : s.objects = P ++ fp :: Q) (hw : fp.faWrite = true) (hend : ¬ fp.fptr < fp.fsize) :
    s.truncate P.length = some s ∧ s.files = s.files.set P.length
      { s.fs.file fp with bytes := (s.fs.file fp).bytes.take fp.fptr.toNat } := by
  have hget : s.objects[P.length]? = some fp := by simp [hobj]
  have hset : s.objects.set P.length fp = s.objects := by
    rw [hobj, List.set_append_right _ _ le_rfl, Nat.sub_self, List.set_cons_zero]
  have hall : (s.fs.file fp).bytes.take fp.fptr.toNat = (s.fs.file fp).bytes := by
    have hge := mt BitVec.lt_def.mpr hend
    refine List.take_of_length_le ?_
    rw [file, fileIn, length_bytesIn]
    omega
  constructor
  · rw [truncate, hget, Option.bind_eq_bind, Option.bind_some, fTruncate,
      if_neg (by simp [ho.good]), if_neg (by simp [hw]), if_neg hend]
    change some { s with objects := s.objects.set P.length fp } = some s
    rw [hset]
  · rw [hall, files, hobj, List.map_append, List.map_cons, List.set_append_right _ _ (by simp),
      List.length_map, Nat.sub_self, List.set_cons_zero]

/-- **The end of a file is cut off** at the position, and everything else is left alone. The session
is in order again exactly if the buffer of the object holds no sector of what was cut off. -/
theorem truncate_sound_iff (h : s.Sound others) (hget : s.objects[i]? = some fp)
    (hw : fp.faWrite = true) : ∃ s', s.truncate i = some s' ∧
      s'.files = s.files.set i
        { s.fs.file fp with bytes := (s.fs.file fp).bytes.take fp.fptr.toNat } ∧
      Untouched s.fs s'.fs others ∧ (s'.Sound others ↔ ¬ s.fs.Cut fp) := by
  obtain ⟨P, Q, hobj, rfl⟩ := exists_split hget
  have ho : IsOpen s.fs fp (s.fs.clusters fp) := h.opened fp (by simp [hobj])
  have hset : ∀ x, s.objects.set P.length x = P ++ x :: Q := fun x => by
    rw [hobj, List.set_append_right _ _ le_rfl, Nat.sub_self, List.set_cons_zero]
  by_cases hlt : fp.fptr < fp.fsize
  swap
  · obtain ⟨hcall, hfiles⟩ := truncate_end ho hobj hw hlt
    exact ⟨s, hcall, hfiles, .refl s.fs others, ⟨fun _ hc => hlt hc.1, fun _ => h⟩⟩
  have hv := h.volume hobj
  obtain ⟨fs', hcall, hgrown⟩ := fTruncate_spec hv ho hw hlt
  have hpre : s.fs.upTo fp (s.fs.clusters fp) <+: s.fs.clusters fp := List.take_prefix ..
  obtain ⟨hvol, hloc, hsec⟩ := hv.shrunk hpre hgrown
  have hlay := hloc.layout
  have hiff := ho.truncated_iff hv.geometry hlay hsec
  have hbytes := ho.bytesIn_truncated hv.geometry hlay hsec
  revert hcall hiff hbytes
  generalize hfp : ({ fp with
    fsize := fp.fptr, faWritten := true,
    orgClust := (s.fs.upTo fp (s.fs.clusters fp)).headD 0 } : Fil) = fp'
  intro hcall hiff hbytes
  have hself : fs'.clusters fp' = s.fs.upTo fp (s.fs.clusters fp) :=
    hvol.clusters (by rw [← hfp])
  refine ⟨{ s with fs := fs', objects := P ++ fp' :: Q }, ?_, ?_,
    h.untouched hobj hloc hvol, ?_⟩
  · rw [truncate, hget, Option.bind_eq_bind, Option.bind_some, hcall, Option.bind_eq_bind,
      Option.bind_some]
    dsimp only
    rw [hset]
  · refine (h.files_set hobj hloc hvol).trans (congrArg _ ?_)
    rw [file, hself, fileIn, hbytes, ← hfp]
    rfl
  · constructor
    · intro h' hc
      have ho' : IsOpen fs' fp' (fs'.clusters fp') := h'.opened fp' (by simp)
      rw [hself] at ho'
      obtain ⟨j, hj, he⟩ := hiff.mp ho' hc.2.1
      exact hc.2.2 j hj he
    · intro hc
      refine h.served hobj hloc hvol (hiff.mpr fun h0 => ?_) s.answers
      by_contra hno
      exact hc ⟨hlt, h0, fun j hj he => hno ⟨j, hj, he⟩⟩

/-- The only byte of a file is still in the buffer when it is cut off. -/
theorem truncate_sound_iff_twoOpen : ∃ s₁ s₂, Run.exec Session.step twoOpen
      [(0, .write [7] 1), (0, .seek 0)] = some s₁ ∧ s₁.truncate 0 = some s₂ ∧
    (∃ f, s₂.files[0]? = some f ∧ f.bytes = []) ∧ ¬ s₂.Sound [] := by
  obtain ⟨s₀, h₀, hsound₀, -, -, hlen₀⟩ :=
    sound_twoOpen.step (c := (0, .write [7] 1)) (by decide) (Nat.le_refl 1)
  obtain ⟨s₁, h₁, hsound₁, -, -, hlen₁⟩ :=
    hsound₀.step (c := (0, .seek 0)) (by rw [hlen₀]; decide) trivial
  have hexec : Run.exec Session.step twoOpen [(0, .write [7] 1), (0, .seek 0)] = some s₁ := by
    rw [Run.exec, h₀, Option.bind_some, Run.exec, h₁]
    rfl
  have hi : 0 < s₁.objects.length := by
    rw [hlen₁, hlen₀]
    decide
  have hget : s₁.objects[0]? = some s₁.objects[0] := List.getElem?_eq_getElem hi
  have hcut : (s₁.objects[0]?.map fun fp => decide (fp.faWrite = true ∧ fp.fptr = 0 ∧
      s₁.fs.Cut fp)) = some true :=
    Run.eq_of_exec (f := fun s => s.objects[0]?.map fun fp => decide (fp.faWrite = true ∧
      fp.fptr = 0 ∧ s.fs.Cut fp)) hexec (by decide +kernel)
  rw [hget, Option.map_some, Option.some.injEq, decide_eq_true_iff] at hcut
  obtain ⟨hw, h0, hcut⟩ := hcut
  obtain ⟨s₂, h₂, hfiles, -, hiff⟩ := truncate_sound_iff hsound₁ hget hw
  have hfile : s₂.files[0]? = some { s₁.fs.file s₁.objects[0] with
      bytes := (s₁.fs.file s₁.objects[0]).bytes.take s₁.objects[0].fptr.toNat } := by
    rw [hfiles, List.getElem?_set_self (by rwa [files, List.length_map])]
  refine ⟨s₁, s₂, hexec, h₂, ⟨_, hfile, ?_⟩, fun h => hiff.mp h hcut⟩
  rw [h0]
  rfl

end Truncate

end Session

end FatFs

end ChinaOS
