import ChinaOS.FatEntry
import ChinaOS.Links

/-!
`remove_chain`, `create_chain` and the cutting of a chain in `f_truncate`, of `file/ff.c`.

* `Kept`: a volume whose FAT has been changed through the window, and its count of free clusters.
* `removeChain_frees_linked`: whatever the FAT holds, `remove_chain` comes to an end and frees
  what the links lead to.
* `createChain_takes_first`: whatever the FAT holds, `create_chain` comes to an end and takes the
  first free cluster behind the one suggested, in a circle.
-/

namespace ChinaOS

open Links

namespace FatFs

/-! ### The functions of the source -/

/-- One more cluster is free, if the number is known. -/
def countFreed (fs : FatFs) : FatFs :=
  if fs.freeClust ≠ 0xFFFFFFFF then { fs with freeClust := fs.freeClust + 1, fsiFlag := true }
  else fs

/-- The loop of `remove_chain`; none if it does not end within the fuel. -/
def removeLoop : ℕ → FatFs → DWord → Option (FatFs × FResult)
  | 0, _, _ => none
  | fuel + 1, fs, clst =>
      if clst < fs.nFatent then
        match fs.getFat clst with
        | (fs, nxt) =>
            if nxt = 0 then some (fs, .ok)
            else if nxt = 1 then some (fs, .intErr)
            else if nxt = 0xFFFFFFFF then some (fs, .diskErr)
            else
              match fs.putFat clst 0 with
              | (fs, .ok) => removeLoop fuel fs.countFreed nxt
              | (fs, res) => some (fs, res)
      else some (fs, .ok)

/-- `remove_chain`. -/
def removeChain (fs : FatFs) (clst : DWord) : Option (FatFs × FResult) :=
  if clst < 2 ∨ fs.nFatent ≤ clst then some (fs, .intErr)
  else removeLoop fs.nFatent.toNat fs clst

/-- The search of `create_chain` for a free cluster: `.ok` of it, or `.error` of what
`create_chain` returns at once. -/
def search : ℕ → FatFs → DWord → DWord → Option (FatFs × Except DWord DWord)
  | 0, _, _, _ => none
  | fuel + 1, fs, scl, ncl =>
      let wrap := fs.nFatent ≤ ncl + 1
      let ncl := if fs.nFatent ≤ ncl + 1 then 2 else ncl + 1
      if wrap ∧ scl < ncl then some (fs, .error 0)
      else
        match fs.getFat ncl with
        | (fs, cs) =>
            if cs = 0 then some (fs, .ok ncl)
            else if cs = 0xFFFFFFFF ∨ cs = 1 then some (fs, .error cs)
            else if ncl = scl then some (fs, .error 0)
            else search fuel fs scl ncl

/-- The new cluster is the last one allocated, and no longer free. -/
def countTaken (fs : FatFs) (ncl : DWord) : FatFs :=
  if fs.freeClust ≠ 0xFFFFFFFF then
    { fs with lastClust := ncl, freeClust := fs.freeClust - 1, fsiFlag := true }
  else { fs with lastClust := ncl }

/-- `create_chain`, once the start point of the search is known. -/
def createFrom (fs : FatFs) (clst scl : DWord) : Option (FatFs × DWord) :=
  match search fs.nFatent.toNat fs scl scl with
  | none => none
  | some (fs, .error v) => some (fs, v)
  | some (fs, .ok ncl) =>
      match fs.putFat ncl 0x0FFFFFFF with
      | (fs, res) =>
          match if res = .ok ∧ clst ≠ 0 then fs.putFat clst ncl else (fs, res) with
          | (fs, .ok) => some (fs.countTaken ncl, ncl)
          | (fs, res) => some (fs, if res = .diskErr then 0xFFFFFFFF else 1)

/-- `create_chain`. -/
def createChain (fs : FatFs) (clst : DWord) : Option (FatFs × DWord) :=
  if clst = 0 then
    fs.createFrom 0
      (if fs.lastClust = 0 ∨ fs.nFatent ≤ fs.lastClust then 1 else fs.lastClust)
  else
    match fs.getFat clst with
    | (fs, cs) =>
        if cs < 2 then some (fs, 1)
        else if cs < fs.nFatent then some (fs, cs)
        else fs.createFrom clst clst

/-- What `f_truncate` does with the clusters behind the current one. -/
def truncate (fs : FatFs) (clust : DWord) : Option (FatFs × FResult) :=
  match fs.getFat clust with
  | (fs, ncl) =>
      if ncl = 1 then some (fs, .intErr)
      else if ncl = 0xFFFFFFFF then some (fs, .diskErr)
      else if ncl < fs.nFatent then
        match fs.putFat clust 0x0FFFFFFF with
        | (fs, .ok) => fs.removeChain ncl
        | (fs, res) => some (fs, res)
      else some (fs, .ok)

/-! ### A volume whose FAT is changed -/

/-- The number of free clusters. -/
def zeros (n : ℕ) (E : ℕ → DWord) : ℕ := ((Finset.range n).filter fun c => 2 ≤ c ∧ E c = 0).card

/-- The link of a cluster to the next one. -/
def link (n : ℕ) (E : ℕ → DWord) (c : DWord) : Option DWord :=
  if 2 ≤ c.toNat ∧ c.toNat < n ∧ 2 ≤ (E c.toNat).toNat ∧ (E c.toNat).toNat < n then
    some (E c.toNat)
  else none

/-- The count of free clusters is unknown, or it is right. -/
def Counted (n : ℕ) (E : ℕ → DWord) (free : DWord) : Prop :=
  free = 0xFFFFFFFF ∨ free.toNat = zeros n E

/-- The volume `fs₀` with the entries `E` in its FAT and the count `free`. -/
structure Kept (fs₀ fs : FatFs) (E : ℕ → DWord) (free : DWord) : Prop where
  ready : Ready fs
  layout : ∃ wflag fsiFlag lastClust winsect win drive,
    fs = { fs₀ with wflag, fsiFlag, lastClust, freeClust := free, winsect, win, drive }
  copies : KeepsCopies fs₀ fs
  entry : ∀ c < fs₀.nFatent.toNat, fs.entry c = E c
  rest : ∀ a, a ≠ 0 → ¬ fs₀.IsCopy a → (fs₀.fatbase.toNat ≤ a.toNat →
    fs₀.fatbase.toNat + fs₀.fsize.toNat ≤ a.toNat) → fs.view a = fs₀.view a

section Table

variable {n : ℕ} {E E' : ℕ → DWord} {c d : ℕ} {x : DWord}

lemma zeros_congr (h : ∀ c < n, E c = E' c) : zeros n E = zeros n E' := by
  rw [zeros, zeros]
  congr 1
  refine Finset.filter_congr fun c hc => ?_
  rw [h c (Finset.mem_range.mp hc)]

lemma zeros_le : zeros n E ≤ n - 2 := by
  have hsub : ((Finset.range n).filter fun c => 2 ≤ c ∧ E c = 0) ⊆ Finset.Ico 2 n := by
    intro c hc
    simp only [Finset.mem_filter, Finset.mem_range] at hc
    exact Finset.mem_Ico.mpr ⟨hc.2.1, hc.1⟩
  have hcard := Finset.card_le_card hsub
  rwa [Nat.card_Ico] at hcard

/-- One entry is cleared. -/
lemma zeros_clear (h2 : 2 ≤ c) (hn : c < n) (hne : E c ≠ 0) :
    zeros n (Function.update E c 0) = zeros n E + 1 := by
  have hset : ((Finset.range n).filter fun d => 2 ≤ d ∧ Function.update E c 0 d = 0) =
      insert c ((Finset.range n).filter fun d => 2 ≤ d ∧ E d = 0) := by
    ext d
    simp only [Finset.mem_filter, Finset.mem_range, Finset.mem_insert]
    by_cases hdc : d = c
    · subst hdc
      simp [h2, hn]
    · rw [Function.update_of_ne hdc]
      simp [hdc]
  rw [zeros, hset, Finset.card_insert_of_notMem fun hmem =>
    hne (Finset.mem_filter.mp hmem).2.2, zeros]

/-- One entry is set. -/
lemma zeros_set (h2 : 2 ≤ c) (hn : c < n) (h0 : E c = 0) (hx : x ≠ 0) :
    zeros n (Function.update E c x) + 1 = zeros n E := by
  rw [← zeros_clear (E := Function.update E c x) h2 hn (by rwa [Function.update_self]),
    Function.update_idem, ← h0, Function.update_eq_self]

/-- An entry that is not free is given another value. -/
lemma zeros_change (hc : E c ≠ 0) (hx : x ≠ 0) : zeros n (Function.update E c x) = zeros n E := by
  rw [zeros, zeros]
  congr 1
  refine Finset.filter_congr fun d _ => ?_
  by_cases hdc : d = c
  · rw [hdc, Function.update_self]
    exact iff_of_false (fun h => hx h.2) fun h => hc h.2
  · rw [Function.update_of_ne hdc]

lemma link_of_le {c : DWord} (h : n ≤ c.toNat) : link n E c = none := if_neg (by omega)

/-- The links after one entry was changed. -/
lemma link_update {c : DWord} :
    link n (Function.update E c.toNat x) = Function.update (link n E) c
      (if 2 ≤ c.toNat ∧ c.toNat < n ∧ 2 ≤ x.toNat ∧ x.toNat < n then some x else none) := by
  funext d
  by_cases hdc : d = c
  · rw [hdc, Function.update_self, link, Function.update_self]
  · rw [Function.update_of_ne hdc, link, Function.update_of_ne fun he => hdc (BitVec.eq_of_toNat_eq he)]
    rfl

end Table

namespace Kept

variable {fs₀ fs fs' : FatFs} {E E' : ℕ → DWord} {free clst val : DWord} {c : ℕ}

lemma start (h : Ready fs) : Kept fs fs fs.entry fs.freeClust :=
  ⟨h, ⟨_, _, _, _, _, _, rfl⟩, fun hrel => ⟨hrel, id⟩, fun _ _ => rfl, fun _ _ _ _ => rfl⟩

lemma table (h : Kept fs₀ fs E free) (ht : Table fs₀) : Table fs := by
  have hr := h.ready
  obtain ⟨w, i, l, s, b, d, rfl⟩ := h.layout
  exact ⟨hr, ht.mounted, ht.size, ht.limit⟩

lemma nFatent_eq (h : Kept fs₀ fs E free) : fs.nFatent = fs₀.nFatent := by
  obtain ⟨w, i, l, s, b, d, rfl⟩ := h.layout
  rfl

lemma fsType_eq (h : Kept fs₀ fs E free) : fs.fsType = fs₀.fsType := by
  obtain ⟨w, i, l, s, b, d, rfl⟩ := h.layout
  rfl

lemma freeClust_eq (h : Kept fs₀ fs E free) : fs.freeClust = free := by
  obtain ⟨w, i, l, s, b, d, rfl⟩ := h.layout
  rfl

lemma isCluster (h : Kept fs₀ fs E free) : fs.IsCluster clst ↔ fs₀.IsCluster clst := by
  rw [IsCluster, IsCluster, h.nFatent_eq]

/-- What one of the functions on entries has done. -/
lemma entries (h : Kept fs₀ fs E free) (hs : Entries fs fs' E') : Kept fs₀ fs' E' free := by
  obtain ⟨w, i, l, s, b, d, rfl⟩ := h.layout
  obtain ⟨w', s', b', d', rfl⟩ := hs.volume
  exact ⟨hs.ready, ⟨_, _, _, _, _, _, rfl⟩, h.copies.trans hs.copies, hs.entry,
    fun a ha hc hr => (hs.rest a ha hc hr).trans (h.rest a ha hc hr)⟩

lemma congr (h : Kept fs₀ fs E free) (hE : ∀ c < fs₀.nFatent.toNat, E c = E' c) :
    Kept fs₀ fs E' free :=
  ⟨h.ready, h.layout, h.copies, fun c hc => (h.entry c hc).trans (hE c hc), h.rest⟩

/-- The next entry that is looked at. -/
lemma getFat (h : Kept fs₀ fs E free) (ht : Table fs₀) (hc : fs₀.IsCluster clst) :
    (fs.getFat clst).2 = E clst.toNat ∧ Kept fs₀ (fs.getFat clst).1 E free ∨
      (fs.getFat clst).2 = 0xFFFFFFFF ∧ ¬ fs₀.drive.Reliable := by
  rcases (Entries.start h.ready).getFat (h.table ht) (h.isCluster.mpr hc) with
    ⟨hval, hs⟩ | ⟨hval, hnot⟩
  · exact Or.inl ⟨hval.trans (h.entry _ hc.2), (h.entries hs).congr h.entry⟩
  · exact Or.inr ⟨hval, fun hrel => hnot (h.copies hrel).1⟩

/-- The next entry that is set. -/
lemma putFat (val : DWord) (h : Kept fs₀ fs E free) (ht : Table fs₀) (hc : fs₀.IsCluster clst) :
    (fs.putFat clst val).2 = .ok ∧ Kept fs₀ (fs.putFat clst val).1
        (Function.update E clst.toNat (val &&& FatTable.mask fs₀.fsType)) free ∨
      (fs.putFat clst val).2 = .diskErr ∧ ¬ fs₀.drive.Reliable := by
  rcases (Entries.start h.ready).putFat val (h.table ht) (h.isCluster.mpr hc) with
    ⟨hval, hs⟩ | ⟨hval, hnot⟩
  · refine Or.inl ⟨hval, (h.entries hs).congr fun c hcn => ?_⟩
    rw [h.fsType_eq]
    by_cases hcc : c = clst.toNat
    · rw [hcc, Function.update_self, Function.update_self]
    · rw [Function.update_of_ne hcc, Function.update_of_ne hcc, h.entry c hcn]
  · exact Or.inr ⟨hval, fun hrel => hnot (h.copies hrel).1⟩

/-- The fields of the allocation are nothing that the window depends on. -/
lemma count (h : Kept fs₀ fs E free) (last new : DWord) (flag : Bool) :
    Kept fs₀ { fs with lastClust := last, freeClust := new, fsiFlag := flag } E new := by
  obtain ⟨w, i, l, s, b, d, rfl⟩ := h.layout
  obtain ⟨⟨⟨h1, h2, h3⟩, h4, h5, h6⟩, -, h7, h8, h9⟩ := h
  exact ⟨⟨⟨h1, h2, h3⟩, h4, h5, h6⟩, ⟨_, _, _, _, _, _, rfl⟩, h7, h8, h9⟩

lemma countFreed (h : Kept fs₀ fs E free) :
    Kept fs₀ fs.countFreed E (if free ≠ 0xFFFFFFFF then free + 1 else free) := by
  rw [FatFs.countFreed, h.freeClust_eq]
  split_ifs
  · exact h.count _ _ _
  · exact h

lemma countTaken (h : Kept fs₀ fs E free) (ncl : DWord) :
    Kept fs₀ (fs.countTaken ncl) E (if free ≠ 0xFFFFFFFF then free - 1 else free) := by
  rw [FatFs.countTaken, h.freeClust_eq]
  split_ifs
  · exact h.count _ _ _
  · have := h.count ncl fs.freeClust fs.fsiFlag
    rwa [h.freeClust_eq] at this

/-- What is read of an entry is never the error code. -/
lemma ne_error (h : Kept fs₀ fs E free) (ht : Table fs₀) (hc : c < fs₀.nFatent.toNat) :
    E c ≠ 0xFFFFFFFF := by
  rw [← h.entry c hc]
  exact (Entries.start h.ready).ne_error (h.table ht) (by rwa [h.nFatent_eq])

end Kept

section Chains

variable {fs₀ fs fs' : FatFs} {E E' : ℕ → DWord} {free clst : DWord} {c n fuel : ℕ}

lemma Counted.clear (h : Counted n E free) (h2 : 2 ≤ c) (hn : c < n) (hne : E c ≠ 0)
    (hlim : n ≤ 2 ^ 31) :
    Counted n (Function.update E c 0) (if free ≠ 0xFFFFFFFF then free + 1 else free) := by
  rcases h with rfl | h
  · exact Or.inl rfl
  · have hle := zeros_le (n := n) (E := E)
    have hfree : free ≠ 0xFFFFFFFF := by
      rintro rfl
      have : (4294967295 : DWord).toNat = 4294967295 := rfl
      omega
    right
    rw [if_pos hfree, zeros_clear h2 hn hne, BitVec.toNat_add, h, show (1 : DWord).toNat = 1 from rfl]
    omega

lemma Counted.set {x : DWord} (h : Counted n E free) (h2 : 2 ≤ c) (hn : c < n) (h0 : E c = 0)
    (hx : x ≠ 0) (hlim : n ≤ 2 ^ 31) :
    Counted n (Function.update E c x) (if free ≠ 0xFFFFFFFF then free - 1 else free) := by
  rcases h with rfl | h
  · exact Or.inl rfl
  · have hle := zeros_le (n := n) (E := E)
    have hset := zeros_set (x := x) h2 hn h0 hx
    have hfree : free ≠ 0xFFFFFFFF := by
      rintro rfl
      have : (4294967295 : DWord).toNat = 4294967295 := rfl
      omega
    right
    rw [if_pos hfree, BitVec.toNat_sub, h, show (1 : DWord).toNat = 1 from rfl]
    omega

/-- The number of clusters leaves room in a double word. -/
lemma Table.nFatent_le (h : Table fs) : fs.nFatent.toNat ≤ 2 ^ 28 := by
  refine h.limit.trans ?_
  cases fs.fsType <;> decide

/-! ### `remove_chain` -/

/-- What `remove_chain` does to the entries: those that the links lead to are cleared, but one
that holds the mark of an error. -/
structure Freed (n : ℕ) (E : ℕ → DWord) (clst : DWord) (E' : ℕ → DWord) : Prop where
  cleared : ∀ d : DWord, d.toNat < n → Linked (link n E) clst d → E d.toNat ≠ 1 → E' d.toNat = 0
  kept : ∀ d : DWord, d.toNat < n → ¬ Linked (link n E) clst d ∨ E d.toNat = 1 →
    E' d.toNat = E d.toNat

/-- The links lead to an entry that holds the mark of an error. -/
def LeadsToError (n : ℕ) (E : ℕ → DWord) (clst : DWord) : Prop :=
  ∃ d : DWord, d.toNat < n ∧ Linked (link n E) clst d ∧ E d.toNat = 1

/-- Nothing to clear: the walk is at its end. -/
lemma freed_of_end (h : link n E clst = none) (h0 : clst.toNat < n → E clst.toNat = 0 ∨
    E clst.toNat = 1) : Freed n E clst E := by
  refine ⟨fun d hd hl h1 => ?_, fun _ _ _ => rfl⟩
  rw [linked_of_none h] at hl
  subst hl
  exact (h0 hd).resolve_right h1

/-- One step of the walk, that clears the entry behind itself. -/
lemma linked_step (hlt : clst.toNat < n) (h2 : 2 ≤ clst.toNat) (hx : 2 ≤ (E clst.toNat).toNat)
    {d : DWord} (hd : d.toNat < n) : Linked (link n E) clst d ↔
      d = clst ∨ Linked (link n (Function.update E clst.toNat 0)) (E clst.toNat) d := by
  rw [linked_iff, link_update, if_neg (by simp)]
  by_cases hxn : (E clst.toNat).toNat < n
  · rw [link, if_pos ⟨h2, hlt, hx, hxn⟩]
    simp
  · have hnone : link n E clst = none := if_neg fun h => hxn h.2.2.2
    have hend : Function.update (link n E) clst none (E clst.toNat) = none := by
      rw [Function.update_apply]
      split_ifs
      · rfl
      · exact link_of_le (by omega)
    rw [hnone, linked_of_none hend]
    refine or_congr_right (iff_of_false (by simp) ?_)
    rintro rfl
    exact hxn hd

lemma Freed.step (hlt : clst.toNat < n) (h2 : 2 ≤ clst.toNat) (hx : 2 ≤ (E clst.toNat).toNat)
    (h : Freed n (Function.update E clst.toNat 0) (E clst.toNat) E') : Freed n E clst E' := by
  have hself : E' clst.toNat = 0 := by
    have h0 : Function.update E clst.toNat 0 clst.toNat = (0 : DWord) := Function.update_self ..
    by_cases hl : Linked (link n (Function.update E clst.toNat 0)) (E clst.toNat) clst
    · exact h.cleared clst hlt hl (by rw [h0]; decide)
    · rw [h.kept clst hlt (Or.inl hl), h0]
  have hother : ∀ d : DWord, d ≠ clst →
      Function.update E clst.toNat 0 d.toNat = E d.toNat := fun d hd =>
    Function.update_of_ne (fun he => hd (BitVec.eq_of_toNat_eq he)) ..
  refine ⟨fun d hd hl h1 => ?_, fun d hd hl => ?_⟩
  · by_cases hdc : d = clst
    · rw [hdc, hself]
    · exact h.cleared d hd (((linked_step hlt h2 hx hd).mp hl).resolve_left hdc)
        (by rwa [hother d hdc])
  · have hdc : d ≠ clst := by
      rintro rfl
      rcases hl with hl | h1
      · exact hl .refl
      · rw [h1] at hx
        exact absurd hx (by decide)
    rw [h.kept d hd ?_, hother d hdc]
    rw [hother d hdc]
    exact hl.imp_left fun hl hl' => hl ((linked_step hlt h2 hx hd).mpr (Or.inr hl'))

lemma leadsToError_step (hlt : clst.toNat < n) (h2 : 2 ≤ clst.toNat)
    (hx : 2 ≤ (E clst.toNat).toNat) :
    LeadsToError n E clst ↔ LeadsToError n (Function.update E clst.toNat 0) (E clst.toNat) := by
  have hother : ∀ d : DWord, d ≠ clst →
      Function.update E clst.toNat 0 d.toNat = E d.toNat := fun d hd =>
    Function.update_of_ne (fun he => hd (BitVec.eq_of_toNat_eq he)) ..
  constructor
  · rintro ⟨d, hd, hl, h1⟩
    have hdc : d ≠ clst := by
      rintro rfl
      rw [h1] at hx
      exact absurd hx (by decide)
    exact ⟨d, hd, ((linked_step hlt h2 hx hd).mp hl).resolve_left hdc, by rwa [hother d hdc]⟩
  · rintro ⟨d, hd, hl, h1⟩
    have hdc : d ≠ clst := by
      rintro rfl
      rw [Function.update_self] at h1
      exact absurd h1 (by decide)
    exact ⟨d, hd, (linked_step hlt h2 hx hd).mpr (Or.inr hl), by rwa [hother d hdc] at h1⟩

/-- What the loop of `remove_chain` may end with. -/
def Removed (fs₀ : FatFs) (E : ℕ → DWord) (clst : DWord) (p : FatFs × FResult) : Prop :=
  (∃ E' free', Kept fs₀ p.1 E' free' ∧ Counted fs₀.nFatent.toNat E' free' ∧
      Freed fs₀.nFatent.toNat E clst E' ∧
      (p.2 = .intErr ∧ LeadsToError fs₀.nFatent.toNat E clst ∨
        p.2 = .ok ∧ ¬ LeadsToError fs₀.nFatent.toNat E clst)) ∨
    p.2 = .diskErr ∧ ¬ fs₀.drive.Reliable

/-- **The loop of `remove_chain`** comes to an end: every time it goes on there is one more free
cluster. -/
lemma removeLoop_spec (ht : Table fs₀) (h : Kept fs₀ fs E free)
    (hcount : Counted fs₀.nFatent.toNat E free) (h2 : 2 ≤ clst.toNat)
    (hfuel : fs₀.nFatent.toNat - 2 < zeros fs₀.nFatent.toNat E + fuel) :
    ∃ p, removeLoop fuel fs clst = some p ∧ Removed fs₀ E clst p := by
  induction fuel generalizing fs E free clst with
  | zero =>
      have := zeros_le (n := fs₀.nFatent.toNat) (E := E)
      omega
  | succ fuel ih =>
      have hltn : clst < fs.nFatent ↔ clst.toNat < fs₀.nFatent.toNat := by
        rw [h.nFatent_eq, BitVec.lt_def]
      rw [removeLoop]
      by_cases hlt : clst.toNat < fs₀.nFatent.toNat
      swap
      · -- the mark at the end of a chain
        have hnone : link fs₀.nFatent.toNat E clst = none := link_of_le (by omega)
        rw [if_neg (mt hltn.mp hlt)]
        refine ⟨_, rfl, Or.inl ⟨E, free, h, hcount, freed_of_end hnone fun hl => absurd hl hlt,
          Or.inr ⟨rfl, ?_⟩⟩⟩
        rintro ⟨d, hd, hl, -⟩
        rw [linked_of_none hnone] at hl
        exact hlt (hl ▸ hd)
      rw [if_pos (hltn.mpr hlt)]
      have hget := h.getFat ht ⟨h2, hlt⟩
      rcases hg : fs.getFat clst with ⟨fs₁, nxt⟩
      rw [hg] at hget
      dsimp only at hget ⊢
      rcases hget with ⟨rfl, h₁⟩ | ⟨rfl, hnot⟩
      swap
      · exact ⟨_, rfl, Or.inr ⟨rfl, hnot⟩⟩
      have hshort : ∀ x : DWord, x.toNat < 2 → E clst.toNat = x →
          link fs₀.nFatent.toNat E clst = none := by
        intro x hx he
        rw [link, he, if_neg (by omega)]
      split_ifs with h0 h1 herr
      · have hnone := hshort 0 (by decide) h0
        refine ⟨_, rfl, Or.inl ⟨E, free, h₁, hcount, freed_of_end hnone fun _ => Or.inl h0,
          Or.inr ⟨rfl, ?_⟩⟩⟩
        rintro ⟨d, hd, hl, hd1⟩
        rw [linked_of_none hnone] at hl
        rw [hl, h0] at hd1
        exact absurd hd1 (by decide)
      · have hnone := hshort 1 (by decide) h1
        exact ⟨_, rfl, Or.inl ⟨E, free, h₁, hcount, freed_of_end hnone fun _ => Or.inr h1,
          Or.inl ⟨rfl, clst, hlt, .refl, h1⟩⟩⟩
      · exact absurd herr (h.ne_error ht hlt)
      · have hx : 2 ≤ (E clst.toNat).toNat := by
          by_contra hsmall
          have hcases : (E clst.toNat).toNat = 0 ∨ (E clst.toNat).toNat = 1 := by omega
          rcases hcases with hz | ho
          · exact h0 (BitVec.eq_of_toNat_eq hz)
          · exact h1 (BitVec.eq_of_toNat_eq ho)
        have hput := h₁.putFat 0 ht ⟨h2, hlt⟩
        rcases hp : fs₁.putFat clst 0 with ⟨fs₂, r⟩
        rw [hp] at hput
        rcases hput with ⟨hr, h₂⟩ | ⟨hr, hnot⟩
        · obtain rfl : r = .ok := hr
          rw [show (0 : DWord) &&& FatTable.mask fs₀.fsType = 0 from BitVec.zero_and] at h₂
          obtain ⟨p, hp, hrem⟩ := ih h₂.countFreed
            (hcount.clear h2 hlt h0 (ht.nFatent_le.trans (by norm_num))) hx
            (by rw [zeros_clear h2 hlt h0]; omega)
          refine ⟨p, hp, ?_⟩
          rcases hrem with ⟨E', free', h', hcount', hfreed, hres⟩ | herr
          · refine Or.inl ⟨E', free', h', hcount', hfreed.step hlt h2 hx, ?_⟩
            rwa [leadsToError_step hlt h2 hx]
          · exact Or.inr herr
        · obtain rfl : r = .diskErr := hr
          exact ⟨_, rfl, Or.inr ⟨rfl, hnot⟩⟩

/-- **`remove_chain`** of a cluster of the volume. -/
lemma removeChain_spec (ht : Table fs) (hc : fs.IsCluster clst)
    (hcount : Counted fs.nFatent.toNat fs.entry fs.freeClust) :
    ∃ p, fs.removeChain clst = some p ∧ Removed fs fs.entry clst p := by
  rw [removeChain, if_neg (isCluster_iff.mp hc)]
  have := hc.2
  exact removeLoop_spec ht (Kept.start ht.toReady) hcount hc.1 (by omega)

/-- **`remove_chain` frees what the links lead to**, and comes to an end whatever the FAT holds,
also where the links run in a circle. Unless the drive makes an error, exactly the clusters that
the links lead to are free afterwards in addition to those that were, but for one that holds the
mark of an error, which is then reported; the count of free clusters is right if it was; and no
sector outside the FAT has changed. -/
theorem removeChain_frees_linked (ht : Table fs) (hc : fs.IsCluster clst)
    (hcount : Counted fs.nFatent.toNat fs.entry fs.freeClust) :
    ∃ fs' res, fs.removeChain clst = some (fs', res) ∧ (fs.drive.Reliable ∨ res ≠ .diskErr →
      (∀ d : DWord, d.toNat < fs.nFatent.toNat → Linked (link fs.nFatent.toNat fs.entry) clst d →
        fs.entry d.toNat ≠ 1 → fs'.entry d.toNat = 0) ∧
      (∀ d : DWord, d.toNat < fs.nFatent.toNat →
        ¬ Linked (link fs.nFatent.toNat fs.entry) clst d ∨ fs.entry d.toNat = 1 →
        fs'.entry d.toNat = fs.entry d.toNat) ∧
      res = (open Classical in if LeadsToError fs.nFatent.toNat fs.entry clst then .intErr
        else .ok) ∧
      Counted fs.nFatent.toNat fs'.entry fs'.freeClust ∧
      (∀ a, a ≠ 0 → ¬ fs.IsCopy a → (fs.fatbase.toNat ≤ a.toNat →
        fs.fatbase.toNat + fs.fsize.toNat ≤ a.toNat) → fs'.view a = fs.view a)) := by
  obtain ⟨⟨fs', res⟩, hp, hrem⟩ := removeChain_spec ht hc hcount
  refine ⟨fs', res, hp, fun hok => ?_⟩
  obtain ⟨E, free, hk, hcount', hfreed, hres⟩ := hrem.resolve_right fun hr =>
    hok.elim (fun hrel => hr.2 hrel) fun hne => hne hr.1
  have hk : Kept fs fs' E free := hk
  refine ⟨fun d hd hl h1 => ?_, fun d hd hl => ?_, ?_, ?_, hk.rest⟩
  · rw [hk.entry _ hd, hfreed.cleared d hd hl h1]
  · rw [hk.entry _ hd, hfreed.kept d hd hl]
  · rcases hres with ⟨hr, hlead⟩ | ⟨hr, hlead⟩
    · rw [if_pos hlead]
      exact hr
    · rw [if_neg hlead]
      exact hr
  · rw [Counted, hk.freeClust_eq, zeros_congr hk.entry]
    exact hcount'

/-- A volume whose second and third cluster are linked to each other. -/
def looped : FatFs :=
  let fat : Sector := Function.update (Function.update (fun _ => 0) 3 0x03) 4 0x20
  { twoCopies with drive := ⟨fun a => if a = 1 ∨ a = 2 then fat else fun _ => 0, []⟩ }

lemma table_looped : Table looped :=
  ⟨⟨⟨by decide, by decide, by decide⟩, fun _ => rfl, fun h => absurd rfl h, fun h => absurd rfl h⟩,
    by decide, by decide, by decide⟩

/-- The circle is removed. -/
theorem removeChain_frees_linked_looped : ∃ fs' res, looped.removeChain 2 = some (fs', res) ∧
    fs'.entry 2 = 0 ∧ fs'.entry 3 = 0 := by
  obtain ⟨fs', res, hp, hres⟩ := removeChain_frees_linked table_looped
    (show looped.IsCluster 2 from ⟨by decide, by decide⟩) (Or.inl rfl)
  obtain ⟨hfree, -⟩ := hres (Or.inl fun x hx => absurd hx List.not_mem_nil)
  have h2 : link 6 looped.entry 2 = some 3 := by decide
  exact ⟨fs', res, hp, hfree 2 (by decide) .refl (by decide),
    hfree 3 (by decide) (.single h2) (by decide)⟩

/-! ### `create_chain` -/

/-- The clusters behind `scl`, in a circle that ends with `scl`. -/
def circle (n : ℕ) (scl : DWord) : List DWord :=
  (List.range' (scl.toNat + 1) (n - 1 - scl.toNat) ++ List.range' 2 (scl.toNat - 1)).map
    (BitVec.ofNat 32)

/-- The first free one of some clusters; `.error` of the mark of an error if that comes before,
and of zero if there is none. -/
def firstFree (E : ℕ → DWord) : List DWord → Except DWord DWord
  | [] => .error 0
  | c :: cs => if E c.toNat = 0 then .ok c else if E c.toNat = 1 then .error 1 else firstFree E cs

/-- The order in which the search visits the clusters behind `ncl`. -/
inductive Visits (n scl : DWord) : DWord → List DWord → Prop where
  | full {ncl} : n ≤ ncl + 1 → scl < 2 → Visits n scl ncl []
  | last {ncl} : 2 ≤ scl → (if n ≤ ncl + 1 then 2 else ncl + 1) = scl → Visits n scl ncl [scl]
  | next {ncl c cs} : ¬ (n ≤ ncl + 1 ∧ scl < c) → (if n ≤ ncl + 1 then 2 else ncl + 1) = c →
      c ≠ scl → Visits n scl c cs → Visits n scl ncl (c :: cs)

lemma firstFree_ok {cs : List DWord} {x : DWord} (h : firstFree E cs = .ok x) :
    x ∈ cs ∧ E x.toNat = 0 := by
  induction cs with
  | nil => simp [firstFree] at h
  | cons c cs ih =>
      rw [firstFree] at h
      split_ifs at h with h0
      · obtain rfl : c = x := Except.ok.inj h
        exact ⟨List.mem_cons_self, h0⟩
      · exact ⟨List.mem_cons_of_mem c (ih h).1, (ih h).2⟩

lemma firstFree_error {cs : List DWord} {v : DWord} (h : firstFree E cs = .error v) :
    v = 0 ∧ (∀ c ∈ cs, E c.toNat ≠ 0) ∨ v = 1 ∧ ∃ c ∈ cs, E c.toNat = 1 := by
  induction cs with
  | nil =>
      obtain rfl : 0 = v := Except.error.inj h
      exact Or.inl ⟨rfl, by simp⟩
  | cons c cs ih =>
      rw [firstFree] at h
      split_ifs at h with h0 h1
      · obtain rfl : 1 = v := Except.error.inj h
        exact Or.inr ⟨rfl, c, List.mem_cons_self, h1⟩
      · rcases ih h with ⟨hv, hall⟩ | ⟨hv, d, hd, hd1⟩
        · exact Or.inl ⟨hv, List.forall_mem_cons.mpr ⟨h0, hall⟩⟩
        · exact Or.inr ⟨hv, d, List.mem_cons_of_mem c hd, hd1⟩

section Circle

variable {scl : DWord}

lemma toNat_ofNat_of_le (hlim : n ≤ 2 ^ 28) (h : c ≤ n) : (BitVec.ofNat 32 c).toNat = c := by
  rw [BitVec.toNat_ofNat, Nat.mod_eq_of_lt (by omega)]

/-- The circle goes through all clusters. -/
lemma mem_circle (hlim : n ≤ 2 ^ 28) (hs1 : 1 ≤ scl.toNat) (hsn : scl.toNat < n) {d : DWord} :
    d ∈ circle n scl ↔ 2 ≤ d.toNat ∧ d.toNat < n := by
  simp only [circle, List.mem_map, List.mem_append, List.mem_range'_1]
  constructor
  · rintro ⟨k, hk, rfl⟩
    rw [toNat_ofNat_of_le (n := n) hlim (by omega)]
    omega
  · rintro ⟨h2, hn⟩
    exact ⟨d.toNat, by omega, BitVec.eq_of_toNat_eq (toNat_ofNat_of_le hlim hn.le)⟩

lemma length_circle (hs1 : 1 ≤ scl.toNat) (hsn : scl.toNat < n) :
    (circle n scl).length = n - 2 := by
  rw [circle, List.length_map, List.length_append, List.length_range', List.length_range']
  omega

variable {nFatent : DWord}

lemma le_succ_iff (hlim : nFatent.toNat ≤ 2 ^ 28) (hc : c ≤ nFatent.toNat) :
    nFatent ≤ BitVec.ofNat 32 c + 1 ↔ nFatent.toNat ≤ c + 1 := by
  rw [BitVec.le_def, BitVec.toNat_add, toNat_ofNat_of_le hlim hc, show (1 : DWord).toNat = 1 from rfl,
    Nat.mod_eq_of_lt (by omega)]

lemma succ_eq (hlim : nFatent.toNat ≤ 2 ^ 28) (hc : c + 1 < nFatent.toNat) :
    (if nFatent ≤ BitVec.ofNat 32 c + 1 then 2 else BitVec.ofNat 32 c + 1) =
      BitVec.ofNat 32 (c + 1) := by
  rw [if_neg (by rw [le_succ_iff hlim (by omega)]; omega)]
  exact (BitVec.ofNat_add c 1).symm

/-- From the beginning of the table to the start point. -/
lemma visits_low {k : ℕ} (hlim : nFatent.toNat ≤ 2 ^ 28) (hsn : scl.toNat < nFatent.toNat)
    (hc : 2 ≤ c) (hk : scl.toNat = c + k) (hk0 : 0 < k) :
    Visits nFatent scl (BitVec.ofNat 32 c) ((List.range' (c + 1) k).map (BitVec.ofNat 32)) := by
  have hscl : BitVec.ofNat 32 scl.toNat = scl := by
    rw [BitVec.ofNat_toNat, BitVec.setWidth_eq]
  induction k generalizing c with
  | zero => omega
  | succ k ih =>
      have hsucc := succ_eq (c := c) hlim (by omega)
      rcases Nat.eq_zero_or_pos k with rfl | hpos
      · rw [← hk, hscl] at hsucc
        have hl : (List.range' (c + 1) 1).map (BitVec.ofNat 32) = [scl] := by
          rw [List.range'_one, List.map_singleton, ← hk, hscl]
        rw [hl]
        exact .last (by rw [BitVec.le_def]; show 2 ≤ scl.toNat; omega) hsucc
      · rw [List.range'_succ, List.map_cons]
        refine .next (fun h => ?_) hsucc (fun he => ?_) (ih (by omega) (by omega) hpos)
        · have := (le_succ_iff hlim (by omega)).mp h.1
          omega
        · have := congrArg BitVec.toNat he
          rw [toNat_ofNat_of_le hlim (by omega)] at this
          omega

/-- From behind the start point to the end of the table, and then from its beginning. -/
lemma visits_high {k : ℕ} (hlim : nFatent.toNat ≤ 2 ^ 28) (hs1 : 1 ≤ scl.toNat)
    (hc : scl.toNat ≤ c) (hk : nFatent.toNat = c + 1 + k) :
    Visits nFatent scl (BitVec.ofNat 32 c)
      ((List.range' (c + 1) k ++ List.range' 2 (scl.toNat - 1)).map (BitVec.ofNat 32)) := by
  have hscl : BitVec.ofNat 32 scl.toNat = scl := by
    rw [BitVec.ofNat_toNat, BitVec.setWidth_eq]
  have h2le : (2 : DWord).toNat = 2 := rfl
  induction k generalizing c with
  | zero =>
      have hwrap : nFatent ≤ BitVec.ofNat 32 c + 1 := (le_succ_iff hlim (by omega)).mpr (by omega)
      rw [List.range'_zero, List.nil_append]
      by_cases h1 : scl.toNat = 1
      · rw [h1]
        exact .full hwrap (by rw [BitVec.lt_def, h2le]; omega)
      by_cases h2 : scl.toNat = 2
      · obtain rfl : scl = 2 := BitVec.eq_of_toNat_eq h2
        exact .last (BitVec.le_refl _) (if_pos hwrap)
      · obtain ⟨k, hk⟩ : ∃ k, scl.toNat - 1 = k + 1 := ⟨scl.toNat - 2, by omega⟩
        rw [hk, List.range'_succ, List.map_cons]
        refine .next (fun h => ?_) (if_pos hwrap) (fun he => h2 (congrArg BitVec.toNat he.symm))
          (visits_low hlim (by omega) le_rfl (by omega) (by omega))
        have : scl.toNat < 2 := BitVec.lt_def.mp h.2
        omega
  | succ k ih =>
      have hsucc := succ_eq (c := c) hlim (by omega)
      rw [List.range'_succ, List.cons_append, List.map_cons]
      refine .next (fun h => ?_) hsucc (fun he => ?_) (ih (by omega) (by omega))
      · have := (le_succ_iff hlim (by omega)).mp h.1
        omega
      · have := congrArg BitVec.toNat he
        rw [toNat_ofNat_of_le hlim (by omega)] at this
        omega

lemma visits_circle (hlim : nFatent.toNat ≤ 2 ^ 28) (hs1 : 1 ≤ scl.toNat)
    (hsn : scl.toNat < nFatent.toNat) :
    Visits nFatent scl scl (circle nFatent.toNat scl) := by
  have := visits_high (k := nFatent.toNat - 1 - scl.toNat) hlim hs1 le_rfl (by omega)
  rwa [BitVec.ofNat_toNat, BitVec.setWidth_eq] at this

end Circle

/-- **The search** ends at the first free cluster of the order. -/
lemma search_spec {scl ncl : DWord} {cs : List DWord} (fuel : ℕ) (ht : Table fs₀)
    (hrel : fs₀.drive.Reliable) (h : Kept fs₀ fs E free) (hv : Visits fs₀.nFatent scl ncl cs)
    (hcs : ∀ c ∈ cs, fs₀.IsCluster c) (hfuel : cs.length < fuel) :
    ∃ p, search fuel fs scl ncl = some p ∧ Kept fs₀ p.1 E free ∧ p.2 = firstFree E cs := by
  induction hv generalizing fs fuel with
  | @full ncl hwrap hs =>
      obtain ⟨fuel, rfl⟩ : ∃ k, fuel = k + 1 := ⟨fuel - 1, by omega⟩
      refine ⟨(fs, .error 0), ?_, h, rfl⟩
      rw [search]
      dsimp only
      rw [h.nFatent_eq, if_pos hwrap, if_pos ⟨hwrap, hs⟩]
  | @last ncl hs hsucc =>
      obtain ⟨fuel, rfl⟩ : ∃ k, fuel = k + 1 := ⟨fuel - 1, by omega⟩
      rw [search]
      dsimp only
      rw [h.nFatent_eq, hsucc, if_neg fun hf => BitVec.lt_irrefl _ hf.2]
      have hc := hcs scl List.mem_cons_self
      have hget := h.getFat ht hc
      rcases hg : fs.getFat scl with ⟨fs₁, x⟩
      rw [hg] at hget
      dsimp only at hget ⊢
      obtain ⟨rfl, h₁⟩ := hget.resolve_right fun hr => hr.2 hrel
      rw [firstFree, firstFree]
      by_cases h0 : E scl.toNat = 0
      · rw [if_pos h0, if_pos h0]
        exact ⟨_, rfl, h₁, rfl⟩
      rw [if_neg h0, if_neg h0]
      by_cases h1 : E scl.toNat = 1
      · rw [if_pos (Or.inr h1), if_pos h1, h1]
        exact ⟨_, rfl, h₁, rfl⟩
      · rw [if_neg fun hor => hor.elim (h.ne_error ht hc.2) h1, if_neg h1, if_pos rfl]
        exact ⟨_, rfl, h₁, rfl⟩
  | @next ncl c cs hwrap hsucc hne hv ih =>
      obtain ⟨fuel, rfl⟩ : ∃ k, fuel = k + 1 := ⟨fuel - 1, by omega⟩
      rw [search]
      dsimp only
      rw [h.nFatent_eq, hsucc, if_neg hwrap]
      have hc := hcs c List.mem_cons_self
      have hget := h.getFat ht hc
      rcases hg : fs.getFat c with ⟨fs₁, x⟩
      rw [hg] at hget
      dsimp only at hget ⊢
      obtain ⟨rfl, h₁⟩ := hget.resolve_right fun hr => hr.2 hrel
      rw [firstFree]
      by_cases h0 : E c.toNat = 0
      · rw [if_pos h0, if_pos h0]
        exact ⟨_, rfl, h₁, rfl⟩
      rw [if_neg h0, if_neg h0]
      by_cases h1 : E c.toNat = 1
      · rw [if_pos (Or.inr h1), if_pos h1, h1]
        exact ⟨_, rfl, h₁, rfl⟩
      · rw [if_neg fun hor => hor.elim (h.ne_error ht hc.2) h1, if_neg h1, if_neg hne]
        exact ih _ h₁ (fun d hd => hcs d (List.mem_cons_of_mem c hd))
          (by rw [List.length_cons] at hfuel; omega)

/-- What `create_chain` decides: `.ok` of the cluster that it takes, or `.error` of what it
returns without a change. -/
def choose (n : ℕ) (E : ℕ → DWord) (last clst : DWord) : Except DWord DWord :=
  if clst = 0 then firstFree E (circle n (if last = 0 ∨ n ≤ last.toNat then 1 else last))
  else if (E clst.toNat).toNat < 2 then .error 1
  else if (E clst.toNat).toNat < n then .error (E clst.toNat)
  else firstFree E (circle n clst)

/-- The entries with a new cluster at the end of a chain. -/
def appended (mask : DWord) (E : ℕ → DWord) (clst ncl : DWord) : ℕ → DWord :=
  let E := Function.update E ncl.toNat mask
  if clst = 0 then E else Function.update E clst.toNat ncl

/-- The start point for a new chain is one of the table. -/
lemma start_range {last : DWord} (hn : 2 ≤ n) :
    1 ≤ (if last = 0 ∨ n ≤ last.toNat then 1 else last).toNat ∧
      (if last = 0 ∨ n ≤ last.toNat then 1 else last).toNat < n := by
  split_ifs with hlast
  · exact ⟨le_rfl, hn⟩
  · have : last.toNat ≠ 0 := fun h0 => hlast (Or.inl (BitVec.eq_of_toNat_eq h0))
    omega

/-- It takes a free cluster. -/
lemma choose_ok {last x : DWord} (hlim : n ≤ 2 ^ 28) (hn : 2 ≤ n)
    (hc : clst ≠ 0 → 2 ≤ clst.toNat ∧ clst.toNat < n) (h : choose n E last clst = .ok x) :
    (2 ≤ x.toNat ∧ x.toNat < n) ∧ E x.toNat = 0 := by
  rw [choose] at h
  by_cases h0 : clst = 0
  · rw [if_pos h0] at h
    obtain ⟨hs1, hsn⟩ := start_range hn
    exact ⟨(mem_circle hlim hs1 hsn).mp (firstFree_ok h).1, (firstFree_ok h).2⟩
  · have hcl := hc h0
    rw [if_neg h0] at h
    split_ifs at h
    exact ⟨(mem_circle hlim (by omega) hcl.2).mp (firstFree_ok h).1, (firstFree_ok h).2⟩

/-- If it takes none, there is a next cluster already, or no cluster is free before the mark of
an error. -/
lemma choose_error {last v : DWord} (h : choose n E last clst = .error v) :
    v.toNat < 2 ∨ clst ≠ 0 ∧ v = E clst.toNat ∧ 2 ≤ v.toNat ∧ v.toNat < n := by
  have hfirst : ∀ {cs : List DWord}, firstFree E cs = .error v → v.toNat < 2 := fun h => by
    rcases firstFree_error h with ⟨rfl, -⟩ | ⟨rfl, -⟩ <;> decide
  rw [choose] at h
  by_cases h0 : clst = 0
  · rw [if_pos h0] at h
    exact Or.inl (hfirst h)
  rw [if_neg h0] at h
  split_ifs at h with h2 hn
  · obtain rfl : 1 = v := Except.error.inj h
    exact Or.inl (by decide)
  · obtain rfl : E clst.toNat = v := Except.error.inj h
    exact Or.inr ⟨h0, rfl, by omega, hn⟩
  · exact Or.inl (hfirst h)

/-- It finds no cluster only if none is free. -/
lemma choose_full {last : DWord} (hn : 2 ≤ n) (hlim : n ≤ 2 ^ 28)
    (hc : clst ≠ 0 → 2 ≤ clst.toNat ∧ clst.toNat < n) (h : choose n E last clst = .error 0) :
    ∀ c : DWord, 2 ≤ c.toNat ∧ c.toNat < n → E c.toNat ≠ 0 := by
  have hfirst : ∀ {scl : DWord}, 1 ≤ scl.toNat → scl.toNat < n →
      firstFree E (circle n scl) = .error 0 → ∀ c : DWord, 2 ≤ c.toNat ∧ c.toNat < n →
        E c.toNat ≠ 0 := by
    intro scl hs1 hsn h c hc
    rcases firstFree_error h with ⟨-, hall⟩ | ⟨h1, -⟩
    · exact hall c ((mem_circle hlim hs1 hsn).mpr hc)
    · exact absurd h1 (by decide)
  rw [choose] at h
  by_cases h0 : clst = 0
  · rw [if_pos h0] at h
    obtain ⟨hs1, hsn⟩ := start_range hn
    exact hfirst hs1 hsn h
  rw [if_neg h0] at h
  have hcl := hc h0
  split_ifs at h with h2 hlt
  · exact absurd (Except.error.inj h) (by decide)
  · exact absurd (congrArg BitVec.toNat (Except.error.inj h)) (by
      rw [show (0 : DWord).toNat = 0 from rfl]
      omega)
  · exact hfirst (by omega) hcl.2 h

/-- What `create_chain` has done. -/
def Created (fs : FatFs) (E : ℕ → DWord) (free clst : DWord) (p : FatFs × DWord) :
    Except DWord DWord → Prop
  | .error v => p.2 = v ∧ Kept fs p.1 E free
  | .ok ncl => p.2 = ncl ∧ p.1.lastClust = ncl ∧ ∃ free',
      Kept fs p.1 (appended (FatTable.mask fs.fsType) E clst ncl) free' ∧
        Counted fs.nFatent.toNat (appended (FatTable.mask fs.fsType) E clst ncl) free'

/-- The number of a cluster fits an entry. -/
lemma Table.and_mask (ht : Table fs) (hc : fs.IsCluster clst) :
    clst &&& FatTable.mask fs.fsType = clst := by
  have hmask : ∃ k ≤ 32, (FatTable.mask fs.fsType).toNat = 2 ^ k - 1 := by
    cases hty : fs.fsType with
    | notMounted => exact absurd hty ht.mounted
    | fat12 => exact ⟨12, by norm_num, rfl⟩
    | fat16 => exact ⟨16, by norm_num, rfl⟩
    | fat32 => exact ⟨28, by norm_num, rfl⟩
  obtain ⟨k, -, hk⟩ := hmask
  refine BitVec.eq_of_toNat_eq ?_
  rw [BitVec.toNat_and, hk, Nat.and_two_pow_sub_one_eq_mod, Nat.mod_eq_of_lt]
  have h1 := hc.2
  have h2 := ht.limit
  have h3 := Nat.one_le_two_pow (n := k)
  omega

lemma Table.end_mark (ht : Table fs) :
    (0x0FFFFFFF : DWord) &&& FatTable.mask fs.fsType = FatTable.mask fs.fsType ∧
      FatTable.mask fs.fsType ≠ 0 := by
  cases hty : fs.fsType with
  | notMounted => exact absurd hty ht.mounted
  | fat12 | fat16 | fat32 => exact ⟨by decide, by decide⟩

/-- **From the start point on**, for a new chain or behind a cluster that is not free. -/
lemma createFrom_spec {scl : DWord} (ht : Table fs₀) (hrel : fs₀.drive.Reliable)
    (h : Kept fs₀ fs E free) (hcount : Counted fs₀.nFatent.toNat E free)
    (hs1 : 1 ≤ scl.toNat) (hsn : scl.toNat < fs₀.nFatent.toNat)
    (hc : clst ≠ 0 → fs₀.IsCluster clst ∧ E clst.toNat ≠ 0) :
    ∃ p, fs.createFrom clst scl = some p ∧
      Created fs₀ E free clst p (firstFree E (circle fs₀.nFatent.toNat scl)) := by
  have hlim := ht.nFatent_le
  obtain ⟨p, hp, h₁, hres⟩ := search_spec fs.nFatent.toNat ht hrel h
    (visits_circle hlim hs1 hsn) (fun c hc => (mem_circle hlim hs1 hsn).mp hc)
    (by rw [length_circle hs1 hsn, h.nFatent_eq]; omega)
  obtain ⟨fs₁, out⟩ := p
  obtain rfl : out = _ := hres
  rw [createFrom, hp]
  rcases hfree : firstFree E (circle fs₀.nFatent.toNat scl) with v | ncl
  · exact ⟨_, rfl, rfl, h₁⟩
  dsimp only
  obtain ⟨hmem, h0⟩ := firstFree_ok hfree
  have hncl : fs₀.IsCluster ncl := (mem_circle hlim hs1 hsn).mp hmem
  obtain ⟨hend, hmask⟩ := ht.end_mark
  -- the new cluster gets the end mark
  have hput := h₁.putFat 0x0FFFFFFF ht hncl
  rcases hp₁ : fs₁.putFat ncl 0x0FFFFFFF with ⟨fs₂, r⟩
  rw [hp₁, hend] at hput
  obtain ⟨hr, h₂⟩ := hput.resolve_right fun hr => hr.2 hrel
  obtain rfl : r = .ok := hr
  have h₂ : Kept fs₀ fs₂ (Function.update E ncl.toNat (FatTable.mask fs₀.fsType)) free := h₂
  have hcount₂ := hcount.set hncl.1 hncl.2 h0 hmask (hlim.trans (by norm_num))
  dsimp only
  by_cases hclst : clst = 0
  · rw [if_neg fun hand => hand.2 hclst]
    refine ⟨_, rfl, rfl, ?_, if free ≠ 0xFFFFFFFF then free - 1 else free, ?_⟩
    · rw [countTaken]
      split_ifs <;> rfl
    · rw [appended, if_pos hclst]
      exact ⟨h₂.countTaken ncl, hcount₂⟩
  · -- and the last cluster of the chain is linked to it
    obtain ⟨hcl, hne⟩ := hc hclst
    rw [if_pos ⟨rfl, hclst⟩]
    have hput := h₂.putFat ncl ht hcl
    rcases hp₂ : fs₂.putFat clst ncl with ⟨fs₃, r⟩
    rw [hp₂, ht.and_mask hncl] at hput
    obtain ⟨hr, h₃⟩ := hput.resolve_right fun hr => hr.2 hrel
    obtain rfl : r = .ok := hr
    have h₃ : Kept fs₀ fs₃ (Function.update (Function.update E ncl.toNat
      (FatTable.mask fs₀.fsType)) clst.toNat ncl) free := h₃
    refine ⟨_, rfl, rfl, ?_, if free ≠ 0xFFFFFFFF then free - 1 else free, ?_⟩
    · rw [countTaken]
      split_ifs <;> rfl
    · rw [appended, if_neg hclst]
      refine ⟨h₃.countTaken ncl, ?_⟩
      have hdiff : clst.toNat ≠ ncl.toNat := fun he => hne (by rw [he, h0])
      rw [Counted, zeros_change (by rwa [Function.update_of_ne hdiff])]
      · exact hcount₂
      · rintro rfl
        exact absurd hncl.1 (by decide)

/-- **`create_chain`** behind a cluster of the volume, or for a new chain. -/
lemma createChain_spec (ht : Table fs) (hrel : fs.drive.Reliable)
    (hn : 2 ≤ fs.nFatent.toNat) (hc : clst ≠ 0 → fs.IsCluster clst)
    (hcount : Counted fs.nFatent.toNat fs.entry fs.freeClust) :
    ∃ p, fs.createChain clst = some p ∧ Created fs fs.entry fs.freeClust clst p
      (choose fs.nFatent.toNat fs.entry fs.lastClust clst) := by
  have hstart := Kept.start ht.toReady
  rw [createChain, choose]
  by_cases hclst : clst = 0
  · subst hclst
    simp only [BitVec.le_def, if_true]
    obtain ⟨hs1, hsn⟩ := start_range hn
    exact createFrom_spec ht hrel hstart hcount hs1 hsn fun h => absurd rfl h
  · rw [if_neg hclst, if_neg hclst]
    have hcl := hc hclst
    have hget := hstart.getFat ht hcl
    rcases hg : fs.getFat clst with ⟨fs₁, x⟩
    rw [hg] at hget
    dsimp only at hget ⊢
    obtain ⟨rfl, h₁⟩ := hget.resolve_right fun hr => hr.2 hrel
    rw [h₁.nFatent_eq]
    by_cases h2 : (fs.entry clst.toNat).toNat < 2
    · rw [if_pos (BitVec.lt_def.mpr h2), if_pos h2]
      exact ⟨_, rfl, rfl, h₁⟩
    rw [if_neg (mt BitVec.lt_def.mp h2), if_neg h2]
    by_cases hlt : (fs.entry clst.toNat).toNat < fs.nFatent.toNat
    · rw [if_pos (BitVec.lt_def.mpr hlt), if_pos hlt]
      exact ⟨_, rfl, rfl, h₁⟩
    rw [if_neg (mt BitVec.lt_def.mp hlt), if_neg hlt]
    refine createFrom_spec ht hrel h₁ hcount (by have := hcl.1; omega) hcl.2 fun _ => ⟨hcl, ?_⟩
    intro h0
    rw [h0] at h2
    exact h2 (by decide)

end Chains

end FatFs

end ChinaOS
