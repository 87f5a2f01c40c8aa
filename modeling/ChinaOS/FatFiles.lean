import ChinaOS.FatChain

/-!
The clusters of files: `create_chain`, `remove_chain` and the cutting of a chain, in any order.

A caller of these functions keeps the first cluster of a file in a directory entry and the current
one in a file object. What it has been given is written down here as a list of clusters for each
file.

* `Files`: each list is a chain of the FAT, and no cluster is in two of them.
* `allocStep`: one call, and what the caller makes of the result.
* `owns_run`: any calls keep the files apart, the count of free clusters right, and all that
  belongs to somebody else as it is.
-/

namespace ChinaOS

open Links

namespace FatFs

/-- A file: a chain of clusters of the volume up to a mark of an end. -/
structure IsFile (n : ℕ) (E : ℕ → DWord) (l : List DWord) : Prop where
  chain : Chain (link n E) l
  cluster : ∀ c ∈ l, (2 ≤ c.toNat ∧ c.toNat < n) ∧ 2 ≤ (E c.toNat).toNat

/-- Files that have no cluster in common. -/
structure Files (n : ℕ) (E : ℕ → DWord) (files : List (List DWord)) : Prop where
  chains : ∀ l ∈ files, IsFile n E l
  disjoint : files.flatten.Nodup

section Table

variable {n : ℕ} {E E' : ℕ → DWord} {c d m : DWord} {l r : List DWord}
  {A B : List (List DWord)}

lemma link_congr (h : E' c.toNat = E c.toNat) : link n E' c = link n E c := by
  rw [link, link, h]

lemma IsFile.congr (h : IsFile n E l) (heq : ∀ c ∈ l, E' c.toNat = E c.toNat) : IsFile n E' l :=
  ⟨h.chain.congr fun c hc => link_congr (heq c hc), fun c hc => by
    rw [heq c hc]
    exact h.cluster c hc⟩

lemma Files.congr (h : Files n E A) (heq : ∀ c ∈ A.flatten, E' c.toNat = E c.toNat) :
    Files n E' A :=
  ⟨fun l hl => (h.chains l hl).congr fun c hc => heq c (List.mem_flatten.mpr ⟨l, hl, hc⟩),
    h.disjoint⟩

/-- One file and the others. -/
lemma files_iff : Files n E (A ++ l :: B) ↔
    IsFile n E l ∧ Files n E (A ++ B) ∧ ∀ c ∈ l, c ∉ (A ++ B).flatten := by
  have hperm : ((A ++ l :: B).flatten).Perm (l ++ (A ++ B).flatten) :=
    List.perm_middle.flatten
  constructor
  · intro h
    have hnodup := hperm.nodup_iff.mp h.disjoint
    refine ⟨h.chains l (by simp), ⟨fun l' hl' => h.chains l' ?_, hnodup.of_append_right⟩,
      fun c hc hc' => List.disjoint_of_nodup_append hnodup hc hc'⟩
    rw [List.mem_append] at hl' ⊢
    exact hl'.imp_right (List.mem_cons_of_mem l)
  · rintro ⟨hl, h, hdisj⟩
    refine ⟨fun l' hl' => ?_, hperm.nodup_iff.mpr ?_⟩
    · rcases List.mem_append.mp hl' with hA | hB
      · exact h.chains l' (List.mem_append_left _ hA)
      · rcases List.mem_cons.mp hB with rfl | hB
        · exact hl
        · exact h.chains l' (List.mem_append_right _ hB)
    · exact List.Nodup.append hl.chain.nodup h.disjoint fun c hc hc' => hdisj c hc hc'

/-- A free cluster is in no file. -/
lemma Files.free_notMem (h : Files n E A) (h0 : E c.toNat = 0) : c ∉ A.flatten := by
  intro hc
  obtain ⟨l, hl, hcl⟩ := List.mem_flatten.mp hc
  have := ((h.chains l hl).cluster c hcl).2
  rw [h0] at this
  exact absurd this (by decide)

/-- The link of a cluster whose entry is an end mark. -/
lemma link_of_end (h : n ≤ (E c.toNat).toNat) : link n E c = none := if_neg (by omega)

/-- **A new file.** -/
lemma Files.create (h : Files n E A) (hc : 2 ≤ c.toNat ∧ c.toNat < n) (h0 : E c.toNat = 0)
    (hm : n ≤ m.toNat) : Files n (Function.update E c.toNat m) (A ++ [[c]]) := by
  have hself : Function.update E c.toNat m c.toNat = m := Function.update_self ..
  have hfree := h.free_notMem h0
  refine files_iff.mpr ⟨⟨?_, fun d hd => ?_⟩, ?_, fun d hd => ?_⟩
  · rw [Chain.singleton_iff]
    exact link_of_end (by rwa [hself])
  · rw [List.mem_singleton.mp hd, hself]
    exact ⟨hc, by omega⟩
  · rw [List.append_nil]
    refine h.congr fun d hd => Function.update_of_ne (fun he => hfree ?_) ..
    rwa [← BitVec.eq_of_toNat_eq he]
  · rwa [List.mem_singleton.mp hd, List.append_nil]

/-- **A file is lengthened.** -/
lemma Files.append (h : Files n E (A ++ (l ++ [c]) :: B)) (hd : 2 ≤ d.toNat ∧ d.toNat < n)
    (h0 : E d.toNat = 0) (hm : n ≤ m.toNat) :
    Files n (Function.update (Function.update E d.toNat m) c.toNat d)
      (A ++ (l ++ [c, d]) :: B) := by
  obtain ⟨hl, hAB, hdisj⟩ := files_iff.mp h
  have hdl : d ∉ l ++ [c] := fun hmem => by
    have := (hl.cluster d hmem).2
    rw [h0] at this
    exact absurd this (by decide)
  have hcmem : c ∈ l ++ [c] := by simp
  have hcc := hl.cluster c hcmem
  have hdc : d.toNat ≠ c.toNat := fun he => hdl (BitVec.eq_of_toNat_eq he ▸ hcmem)
  have hother : ∀ e : DWord, e ≠ c → e ≠ d →
      Function.update (Function.update E d.toNat m) c.toNat d e.toNat = E e.toNat := by
    intro e hec hed
    rw [Function.update_of_ne fun he => hec (BitVec.eq_of_toNat_eq he),
      Function.update_of_ne fun he => hed (BitVec.eq_of_toNat_eq he)]
  refine files_iff.mpr ⟨⟨?_, fun e he => ?_⟩, hAB.congr fun e he => hother e ?_ ?_, fun e he => ?_⟩
  · rw [link_update, if_pos ⟨hcc.1.1, hcc.1.2, hd⟩, link_update, if_neg (by omega)]
    exact hl.chain.extend hdl
  · have hcases : e = c ∨ e = d ∨ e ∈ l ++ [c] := by
      simp only [List.mem_append, List.mem_cons, List.not_mem_nil, or_false] at he ⊢
      tauto
    by_cases hec : e = c
    · rw [hec, Function.update_self]
      exact ⟨hcc.1, hd.1⟩
    by_cases hed : e = d
    · rw [hed, Function.update_of_ne hdc, Function.update_self]
      exact ⟨hd, by omega⟩
    · rw [hother e hec hed]
      exact hl.cluster e ((hcases.resolve_left hec).resolve_left hed)
  · rintro rfl
    exact hdisj e hcmem he
  · rintro rfl
    exact hAB.free_notMem h0 he
  · have hcases : e = d ∨ e ∈ l ++ [c] := by
      simp only [List.mem_append, List.mem_cons, List.not_mem_nil, or_false] at he ⊢
      tauto
    rcases hcases with rfl | he
    · exact hAB.free_notMem h0
    · exact hdisj e he

/-- What is freed from the first cluster of a file on is this file. -/
lemma IsFile.freed (h : IsFile n E (c :: l)) (hf : Freed n E c E') :
    (∀ d ∈ c :: l, E' d.toNat = 0) ∧
      (∀ d : DWord, d.toNat < n → d ∉ c :: l → E' d.toNat = E d.toNat) ∧ ¬ LeadsToError n E c := by
  refine ⟨fun d hd => ?_, fun d hd hdl => hf.kept d hd (Or.inl ?_), ?_⟩
  · have hcl := h.cluster d hd
    refine hf.cleared d hcl.1.2 (h.chain.linked_iff_mem.mpr hd) fun h1 => ?_
    rw [h1] at hcl
    exact absurd hcl.2 (by decide)
  · rwa [h.chain.linked_iff_mem]
  · rintro ⟨d, -, hd, h1⟩
    have hcl := h.cluster d (h.chain.linked_iff_mem.mp hd)
    rw [h1] at hcl
    exact absurd hcl.2 (by decide)

/-- **A file is removed.** -/
lemma Files.remove (h : Files n E (A ++ (c :: l) :: B)) (hf : Freed n E c E') :
    Files n E' (A ++ B) := by
  obtain ⟨hl, hAB, hdisj⟩ := files_iff.mp h
  refine hAB.congr fun d hd => (hl.freed hf).2.1 d ?_ fun hdl => hdisj d hdl hd
  obtain ⟨l', hl', hdl'⟩ := List.mem_flatten.mp hd
  exact ((hAB.chains l' hl').cluster d hdl').1.2

/-- A file is cut in two. -/
lemma Files.cut (h : Files n E (A ++ (l ++ c :: d :: r) :: B)) (hm : n ≤ m.toNat) :
    Files n (Function.update E c.toNat m) (A ++ (d :: r) :: (l ++ [c]) :: B) := by
  obtain ⟨hl, hAB, hdisj⟩ := files_iff.mp h
  obtain ⟨hleft, hright⟩ := hl.chain.cut
  have hcmem : c ∈ l ++ c :: d :: r := by simp
  have hcc := hl.cluster c hcmem
  have hnodup := hl.chain.nodup
  rw [← List.singleton_append, ← List.append_assoc] at hnodup
  have hapart : ∀ e ∈ d :: r, e ∉ l ++ [c] := fun e he he' =>
    List.disjoint_of_nodup_append hnodup he' he
  have hother : ∀ e : DWord, e ≠ c → Function.update E c.toNat m e.toNat = E e.toNat :=
    fun e he => Function.update_of_ne (fun hec => he (BitVec.eq_of_toNat_eq hec)) ..
  have hsub₁ : ∀ e ∈ l ++ [c], e ∈ l ++ c :: d :: r := fun e he => by
    simp only [List.mem_append, List.mem_cons, List.not_mem_nil, or_false] at he ⊢
    tauto
  have hsub₂ : ∀ e ∈ d :: r, e ∈ l ++ c :: d :: r := fun e he =>
    List.mem_append_right _ (List.mem_cons_of_mem c he)
  have hrest : Files n (Function.update E c.toNat m) (A ++ B) := by
    refine hAB.congr fun e he => hother e ?_
    rintro rfl
    exact hdisj e hcmem he
  have hfile : IsFile n (Function.update E c.toNat m) (l ++ [c]) := by
    refine ⟨?_, fun e he => ?_⟩
    · rw [link_update, if_neg (by omega)]
      exact hleft
    · by_cases hec : e = c
      · rw [hec, Function.update_self]
        exact ⟨hcc.1, by omega⟩
      · rw [hother e hec]
        exact hl.cluster e (hsub₁ e he)
  have htwo : Files n (Function.update E c.toNat m) (A ++ (l ++ [c]) :: B) :=
    files_iff.mpr ⟨hfile, hrest, fun e he => hdisj e (hsub₁ e he)⟩
  refine files_iff.mpr ⟨⟨hright.congr fun e he => link_congr (hother e ?_), fun e he => ?_⟩, htwo,
    fun e he he' => ?_⟩
  · rintro rfl
    exact hapart e he (by simp)
  · rw [hother e fun hec => hapart e he (by simp [hec])]
    exact hl.cluster e (hsub₂ e he)
  · have hmem : e ∈ (l ++ [c]) ++ (A ++ B).flatten := (List.perm_middle.flatten).mem_iff.mp he'
    rcases List.mem_append.mp hmem with hmem | hmem
    · exact hapart e he hmem
    · exact hdisj e (hsub₂ e he) hmem

end Table

/-! ### Calls in any order -/

/-- **The volume and the files on it.** -/
structure Owns (fs : FatFs) (files : List (List DWord)) : Prop where
  table : Table fs
  reliable : fs.drive.Reliable
  clusters : 2 ≤ fs.nFatent.toNat
  files : Files fs.nFatent.toNat fs.entry files
  counted : Counted fs.nFatent.toNat fs.entry fs.freeClust

/-- A call: a first cluster, the cluster behind the `k`-th of a file, what is behind the `k`-th
cluster of a file is cut off, or a file is removed. -/
inductive AllocCall where
  | create
  | follow (i k : ℕ)
  | truncate (i k : ℕ)
  | remove (i : ℕ)

/-- The cluster of a file that is meant by the call is there. -/
def AllocCall.Names (files : List (List DWord)) : AllocCall → Prop
  | .create => True
  | .follow i k | .truncate i k => ∃ l, files[i]? = some l ∧ k < l.length
  | .remove i => i < files.length

/-- The call, and what the caller makes of the result: `create_chain` returns zero or one, or all
ones, if there is no new cluster. -/
def allocStep (p : FatFs × List (List DWord)) : AllocCall → Option (FatFs × List (List DWord))
  | .create => do
      let (fs, v) ← p.1.createChain 0
      some (fs, if v < 2 ∨ v = 0xFFFFFFFF then p.2 else p.2 ++ [[v]])
  | .follow i k => do
      let l ← p.2[i]?
      let c ← l[k]?
      let (fs, v) ← p.1.createChain c
      some (fs, if k + 1 = l.length ∧ ¬ (v < 2 ∨ v = 0xFFFFFFFF) then p.2.set i (l ++ [v])
        else p.2)
  | .truncate i k => do
      let l ← p.2[i]?
      let c ← l[k]?
      let (fs, res) ← p.1.truncate c
      if res = .ok then some (fs, p.2.set i (l.take (k + 1))) else none
  | .remove i => do
      let l ← p.2[i]?
      let c ← l.head?
      let (fs, res) ← p.1.removeChain c
      if res = .ok then some (fs, p.2.eraseIdx i) else none

/-- A cluster that is in use, but not in one of the files. -/
def Foreign (fs : FatFs) (files : List (List DWord)) (c : DWord) : Prop :=
  c.toNat < fs.nFatent.toNat ∧ fs.entry c.toNat ≠ 0 ∧ c ∉ files.flatten

/-- What a call does: it keeps the files apart and leaves everything else alone. -/
structure Apart (p p' : FatFs × List (List DWord)) : Prop where
  owns : Owns p'.1 p'.2
  kept : ∃ E free, Kept p.1 p'.1 E free
  foreign : ∀ c, Foreign p.1 p.2 c → Foreign p'.1 p'.2 c ∧ p'.1.entry c.toNat = p.1.entry c.toNat

section Calls

variable {fs fs' : FatFs} {files files' : List (List DWord)} {E : ℕ → DWord} {free c d : DWord}
  {l r : List DWord} {A B : List (List DWord)}

lemma Kept.trans {fs₀ : FatFs} {E' : ℕ → DWord} {free' : DWord} (h : Kept fs₀ fs E free)
    (h' : Kept fs fs' E' free') : Kept fs₀ fs' E' free' := by
  obtain ⟨w, i, l, s, b, d, rfl⟩ := h.layout
  obtain ⟨w', i', l', s', b', d', rfl⟩ := h'.layout
  exact ⟨h'.ready, ⟨_, _, _, _, _, _, rfl⟩, h.copies.trans h'.copies, h'.entry,
    fun a ha hc hr => (h'.rest a ha hc hr).trans (h.rest a ha hc hr)⟩

/-- From the entries of a table to those of the volume. -/
lemma Kept.owns (h : Owns fs files) (hk : Kept fs fs' E free)
    (hcount : Counted fs.nFatent.toNat E free) (hfiles : Files fs.nFatent.toNat E files') :
    Owns fs' files' := by
  have hz : zeros fs.nFatent.toNat fs'.entry = zeros fs.nFatent.toNat E := zeros_congr hk.entry
  refine ⟨hk.table h.table, (hk.copies h.reliable).1, ?_, ?_, ?_⟩
  · rw [hk.nFatent_eq]
    exact h.clusters
  · rw [hk.nFatent_eq]
    refine hfiles.congr fun c hc => hk.entry _ ?_
    obtain ⟨l, hl, hcl⟩ := List.mem_flatten.mp hc
    exact ((hfiles.chains l hl).cluster c hcl).1.2
  · rw [hk.nFatent_eq, hk.freeClust_eq, Counted, hz]
    exact hcount

/-- What a call has done, from what it has done to the entries. -/
lemma Kept.apart (h : Owns fs files) (hk : Kept fs fs' E free)
    (hcount : Counted fs.nFatent.toNat E free) (hfiles : Files fs.nFatent.toNat E files')
    (hforeign : ∀ c, Foreign fs files c → E c.toNat = fs.entry c.toNat ∧ c ∉ files'.flatten) :
    Apart (fs, files) (fs', files') := by
  refine ⟨hk.owns h hcount hfiles, ⟨E, free, hk⟩, fun c hc => ?_⟩
  obtain ⟨he, hn⟩ := hforeign c hc
  have hentry : fs'.entry c.toNat = fs.entry c.toNat := (hk.entry _ hc.1).trans he
  refine ⟨⟨?_, ?_, hn⟩, hentry⟩
  · show c.toNat < fs'.nFatent.toNat
    rw [hk.nFatent_eq]
    exact hc.1
  · show fs'.entry c.toNat ≠ 0
    rw [hentry]
    exact hc.2.1

/-- Nothing was changed. -/
lemma Owns.same (h : Owns fs files) (hk : Kept fs fs' fs.entry fs.freeClust) :
    Apart (fs, files) (fs', files) :=
  hk.apart h h.counted h.files fun _ hc => ⟨rfl, hc.2.2⟩

/-- A cluster of a file is not free, and is linked to the next one. -/
lemma Owns.next (h : Owns fs (A ++ (l ++ c :: r) :: B)) : fs.IsCluster c ∧
    2 ≤ (fs.entry c.toNat).toNat ∧ (r = [] → fs.nFatent.toNat ≤ (fs.entry c.toNat).toNat) ∧
      ∀ d ∈ r.head?, fs.entry c.toNat = d := by
  have hl := (files_iff.mp h.files).1
  have hc := hl.cluster c (by simp)
  refine ⟨hc.1, hc.2, ?_, ?_⟩
  · rintro rfl
    have hnone := hl.chain.last c (by simp)
    rw [link, ite_eq_right_iff] at hnone
    by_contra hlt
    exact absurd (hnone ⟨hc.1.1, hc.1.2, hc.2, by omega⟩) (by simp)
  · intro d hd
    obtain ⟨r, rfl⟩ : ∃ r', r = d :: r' := by
      cases r with
      | nil => simp at hd
      | cons e r => exact ⟨r, by rw [Option.mem_some_iff.mp hd]⟩
    have hlink := (Chain.cons_cons_iff.mp hl.chain.of_append).1
    rw [link] at hlink
    split_ifs at hlink
    exact Option.some.inj hlink

lemma Apart.trans {p p₁ p' : FatFs × List (List DWord)} (h : Apart p p₁) (h' : Apart p₁ p') :
    Apart p p' := by
  obtain ⟨E, free, hk⟩ := h.kept
  obtain ⟨E', free', hk'⟩ := h'.kept
  refine ⟨h'.owns, ⟨E', free', hk.trans hk'⟩, fun c hc => ?_⟩
  obtain ⟨hc₁, he₁⟩ := h.foreign c hc
  obtain ⟨hc', he'⟩ := h'.foreign c hc₁
  exact ⟨hc', he'.trans he₁⟩

/-- A cluster that is in use is not a free one. -/
lemma Foreign.ne (hc : Foreign fs files c) (h0 : fs.entry d.toNat = 0) : c.toNat ≠ d.toNat :=
  fun he => hc.2.1 (by rw [he, h0])

/-- The number of a cluster is not one of the values that say there is none. -/
lemma Owns.isCluster_ne (h : Owns fs files) (hc : fs.IsCluster c) :
    ¬ (c < 2 ∨ c = 0xFFFFFFFF) := by
  have hlim := h.table.nFatent_le
  rintro (h2 | rfl)
  · have : c.toNat < 2 := BitVec.lt_def.mp h2
    have := hc.1
    omega
  · have := hc.2
    have hall : (4294967295 : DWord).toNat = 4294967295 := rfl
    omega

/-- **A first cluster.** -/
lemma Owns.create (h : Owns fs files) :
    ∃ p', allocStep (fs, files) .create = some p' ∧ Apart (fs, files) p' := by
  have h00 : (0 : DWord) ≠ 0 → fs.IsCluster 0 := fun h0 => absurd rfl h0
  obtain ⟨⟨fs', v⟩, hp, hres⟩ := createChain_spec h.table h.reliable h.clusters h00 h.counted
  refine ⟨_, by rw [allocStep, hp]; rfl, ?_⟩
  rcases hch : choose fs.nFatent.toNat fs.entry fs.lastClust 0 with x | x
  · rw [hch] at hres
    obtain ⟨hv, hk⟩ := hres
    obtain rfl : v = x := hv
    have hv2 : v < 2 := BitVec.lt_def.mpr ((choose_error hch).resolve_right fun hr => hr.1 rfl)
    rw [if_pos (Or.inl hv2)]
    exact h.same hk
  · rw [hch] at hres
    obtain ⟨hv, -, free', hk, hcount⟩ := hres
    obtain rfl : v = x := hv
    rw [appended, if_pos rfl] at hk hcount
    obtain ⟨hcl, h0⟩ := choose_ok h.table.nFatent_le h.clusters h00 hch
    rw [if_neg (h.isCluster_ne hcl)]
    refine Kept.apart h hk hcount (h.files.create hcl h0 h.table.limit) fun c hc => ?_
    refine ⟨Function.update_of_ne (hc.ne h0) .., ?_⟩
    rw [List.flatten_append, List.mem_append]
    rintro (hc' | hc')
    · exact hc.2.2 hc'
    · exact hc.ne h0 (congrArg BitVec.toNat (by simpa using hc'))

/-- **The next cluster** of one that is not the last. -/
lemma Owns.follow (h : Owns fs (A ++ (l ++ c :: d :: r) :: B)) : ∃ fs',
    fs.createChain c = some (fs', d) ∧
      Apart (fs, A ++ (l ++ c :: d :: r) :: B) (fs', A ++ (l ++ c :: d :: r) :: B) := by
  obtain ⟨hcl, h2, -, hnext⟩ := h.next
  have hcd : fs.entry c.toNat = d := hnext d rfl
  have hd : fs.IsCluster d := ((files_iff.mp h.files).1.cluster d (by simp)).1
  have hc0 : c ≠ 0 := fun h0 => absurd hcl.1 (by rw [h0]; decide)
  obtain ⟨⟨fs', v⟩, hp, hres⟩ :=
    createChain_spec h.table h.reliable h.clusters (fun _ => hcl) h.counted
  rw [choose, if_neg hc0, if_neg (by omega), if_pos (by rw [hcd]; exact hd.2), hcd] at hres
  obtain ⟨hv, hk⟩ := hres
  obtain rfl : v = d := hv
  exact ⟨fs', hp, h.same hk⟩

/-- **A cluster behind the last one**, if there is a free one. -/
lemma Owns.stretch (h : Owns fs (A ++ (l ++ [c]) :: B)) : ∃ fs' v,
    fs.createChain c = some (fs', v) ∧
      ((v < 2 ∨ v = 0xFFFFFFFF) ∧ Apart (fs, A ++ (l ++ [c]) :: B) (fs', A ++ (l ++ [c]) :: B) ∨
        ¬ (v < 2 ∨ v = 0xFFFFFFFF) ∧
          Apart (fs, A ++ (l ++ [c]) :: B) (fs', A ++ (l ++ [c, v]) :: B)) := by
  obtain ⟨hcl, h2, hend, -⟩ := h.next
  have hend := hend rfl
  have hc0 : c ≠ 0 := fun h0 => absurd hcl.1 (by rw [h0]; decide)
  obtain ⟨⟨fs', v⟩, hp, hres⟩ :=
    createChain_spec h.table h.reliable h.clusters (fun _ => hcl) h.counted
  refine ⟨fs', v, hp, ?_⟩
  rcases hch : choose fs.nFatent.toNat fs.entry fs.lastClust c with x | x
  · rw [hch] at hres
    obtain ⟨hv, hk⟩ := hres
    obtain rfl : v = x := hv
    refine Or.inl ⟨Or.inl (BitVec.lt_def.mpr ((choose_error hch).resolve_right fun hr => ?_)),
      h.same hk⟩
    have := hr.2.2.2
    rw [hr.2.1] at this
    omega
  · rw [hch] at hres
    obtain ⟨hv, -, free', hk, hcount⟩ := hres
    obtain rfl : v = x := hv
    rw [appended, if_neg hc0] at hk hcount
    obtain ⟨hvcl, h0⟩ := choose_ok h.table.nFatent_le h.clusters (fun _ => hcl) hch
    refine Or.inr ⟨h.isCluster_ne hvcl,
      Kept.apart h hk hcount (h.files.append hvcl h0 h.table.limit) fun e he => ?_⟩
    have hmem : ∀ {e : DWord}, e ∈ (A ++ (l ++ [c, v]) :: B).flatten ↔
        e = v ∨ e ∈ (A ++ (l ++ [c]) :: B).flatten := by
      intro e
      simp only [List.flatten_append, List.flatten_cons, List.mem_append, List.mem_cons,
        List.not_mem_nil, or_false]
      tauto
    have hec : e.toNat ≠ c.toNat := fun hec => he.2.2 (by
      rw [BitVec.eq_of_toNat_eq hec]
      simp)
    refine ⟨?_, fun hmem' => ?_⟩
    · rw [Function.update_of_ne hec, Function.update_of_ne (he.ne h0)]
    · rcases hmem.mp hmem' with rfl | hmem'
      · exact he.ne h0 rfl
      · exact he.2.2 hmem'

/-- **A file is removed.** -/
lemma Owns.remove (h : Owns fs (A ++ (c :: l) :: B)) : ∃ fs',
    fs.removeChain c = some (fs', .ok) ∧ Apart (fs, A ++ (c :: l) :: B) (fs', A ++ B) := by
  have hl := (files_iff.mp h.files).1
  have hcl : fs.IsCluster c := (hl.cluster c List.mem_cons_self).1
  obtain ⟨⟨fs', res⟩, hp, hres⟩ := removeChain_spec h.table hcl h.counted
  obtain ⟨E', free', hk, hcount, hfreed, hres⟩ := hres.resolve_right fun hr => hr.2 h.reliable
  obtain ⟨-, hother, hnot⟩ := hl.freed hfreed
  obtain ⟨rfl, -⟩ : res = .ok ∧ _ := hres.resolve_left fun hr => hnot hr.2
  refine ⟨fs', hp, Kept.apart h hk hcount (h.files.remove hfreed) fun e he => ?_⟩
  have hmem : e ∉ c :: l ∧ e ∉ (A ++ B).flatten := by
    have := he.2.2
    simp only [List.flatten_append, List.flatten_cons, List.mem_append] at this ⊢
    tauto
  exact ⟨hother e he.1 hmem.1, hmem.2⟩

/-- The mark of an end is set within a file. -/
lemma Owns.cut {fs₁ : FatFs} (h : Owns fs (A ++ (l ++ c :: d :: r) :: B))
    (h₁ : Kept fs fs₁ fs.entry fs.freeClust) : ∃ fs₂, fs₁.putFat c 0x0FFFFFFF = (fs₂, .ok) ∧
      Kept fs fs₂ (Function.update fs.entry c.toNat (FatTable.mask fs.fsType)) fs.freeClust ∧
      Apart (fs, A ++ (l ++ c :: d :: r) :: B) (fs₂, A ++ (d :: r) :: (l ++ [c]) :: B) := by
  obtain ⟨hcl, h2, -, -⟩ := h.next
  obtain ⟨hmark, hmask⟩ := h.table.end_mark
  have hput := h₁.putFat 0x0FFFFFFF h.table hcl
  rcases hp : fs₁.putFat c 0x0FFFFFFF with ⟨fs₂, res⟩
  rw [hp, hmark] at hput
  obtain ⟨hr, h₂⟩ := hput.resolve_right fun hr => hr.2 h.reliable
  obtain rfl : res = .ok := hr
  have hcount : Counted fs.nFatent.toNat
      (Function.update fs.entry c.toNat (FatTable.mask fs.fsType)) fs.freeClust := by
    rw [Counted, zeros_change (fun h0 => absurd h2 (by rw [h0]; decide)) hmask]
    exact h.counted
  refine ⟨fs₂, rfl, h₂, Kept.apart h h₂ hcount (h.files.cut h.table.limit) fun e he => ?_⟩
  have hmem : e ∉ (A ++ (d :: r) :: (l ++ [c]) :: B).flatten ∧ e ≠ c := by
    have := he.2.2
    simp only [List.flatten_append, List.flatten_cons, List.mem_append, List.mem_cons,
      List.not_mem_nil, or_false] at this ⊢
    tauto
  exact ⟨Function.update_of_ne (fun hec => hmem.2 (BitVec.eq_of_toNat_eq hec)) .., hmem.1⟩

/-- **The end of a file is cut off**: the mark of an end is set, and what is behind is removed. -/
lemma Owns.truncate (h : Owns fs (A ++ (l ++ c :: r) :: B)) : ∃ fs',
    fs.truncate c = some (fs', .ok) ∧
      Apart (fs, A ++ (l ++ c :: r) :: B) (fs', A ++ (l ++ [c]) :: B) := by
  obtain ⟨hcl, h2, hend, hnext⟩ := h.next
  have hstart := Kept.start h.table.toReady
  have hget := hstart.getFat h.table hcl
  rcases hg : fs.getFat c with ⟨fs₁, x⟩
  rw [hg] at hget
  obtain ⟨hx, h₁⟩ := hget.resolve_right fun hr => hr.2 h.reliable
  obtain rfl : x = fs.entry c.toNat := hx
  have h₁ : Kept fs fs₁ fs.entry fs.freeClust := h₁
  have hne1 : fs.entry c.toNat ≠ 1 := fun h1 => absurd h2 (by rw [h1]; decide)
  rw [FatFs.truncate, hg]
  dsimp only
  rw [if_neg hne1, if_neg (hstart.ne_error h.table hcl.2), h₁.nFatent_eq]
  cases r with
  | nil =>
      have := hend rfl
      rw [if_neg (by rw [BitVec.lt_def]; omega)]
      exact ⟨fs₁, rfl, h.same h₁⟩
  | cons d r =>
      have hcd : fs.entry c.toNat = d := hnext d rfl
      have hd : fs.IsCluster d := ((files_iff.mp h.files).1.cluster d (by simp)).1
      rw [hcd, if_pos (BitVec.lt_def.mpr hd.2)]
      obtain ⟨fs₂, hp, -, hcut⟩ := h.cut h₁
      rw [hp]
      obtain ⟨fs', hp', hrem⟩ := Owns.remove hcut.owns
      exact ⟨fs', hp', hcut.trans hrem⟩

/-- The element with a number, and those around it. -/
lemma exists_split {α : Type*} {xs : List α} {i : ℕ} {x : α} (h : xs[i]? = some x) :
    ∃ A B, xs = A ++ x :: B ∧ A.length = i := by
  obtain ⟨hlt, rfl⟩ := List.getElem?_eq_some_iff.mp h
  refine ⟨xs.take i, xs.drop (i + 1), ?_, List.length_take_of_le hlt.le⟩
  rw [List.getElem_cons_drop, List.take_append_drop]

/-- **One call** for a file that is there. -/
lemma Owns.step {x : AllocCall} (h : Owns fs files) (hx : x.Names files) :
    ∃ p', allocStep (fs, files) x = some p' ∧ Apart (fs, files) p' := by
  cases x with
  | create => exact h.create
  | follow i k =>
      obtain ⟨l, hi, hk⟩ := hx
      obtain ⟨A, B, rfl, rfl⟩ := exists_split hi
      obtain ⟨c, hc⟩ : ∃ c, l[k]? = some c := ⟨_, List.getElem?_eq_getElem hk⟩
      obtain ⟨u, r, rfl, rfl⟩ := exists_split hc
      simp only [allocStep, hi, hc, Option.bind_eq_bind, Option.bind_some]
      cases r with
      | nil =>
          obtain ⟨fs', v, hp, hres⟩ := h.stretch
          rw [hp]
          refine ⟨_, rfl, ?_⟩
          rcases hres with ⟨hv, hap⟩ | ⟨hv, hap⟩
          · rw [if_neg fun hand => hand.2 hv]
            exact hap
          · rw [if_pos ⟨by simp, hv⟩]
            simpa using hap
      | cons d r =>
          obtain ⟨fs', hp, hap⟩ := h.follow
          rw [hp]
          refine ⟨_, rfl, ?_⟩
          rw [if_neg fun hand => absurd hand.1 (by simp)]
          exact hap
  | truncate i k =>
      obtain ⟨l, hi, hk⟩ := hx
      obtain ⟨A, B, rfl, rfl⟩ := exists_split hi
      obtain ⟨c, hc⟩ : ∃ c, l[k]? = some c := ⟨_, List.getElem?_eq_getElem hk⟩
      obtain ⟨u, r, rfl, rfl⟩ := exists_split hc
      simp only [allocStep, hi, hc, Option.bind_eq_bind, Option.bind_some]
      obtain ⟨fs', hp, hap⟩ := h.truncate
      rw [hp]
      refine ⟨_, rfl, ?_⟩
      have htake : (u ++ c :: r).take (u.length + 1) = u ++ [c] := by
        rw [List.take_append, List.take_of_length_le (by omega)]
        simp
      simpa [htake] using hap
  | remove i =>
      obtain ⟨l, hi⟩ : ∃ l, files[i]? = some l := ⟨_, List.getElem?_eq_getElem hx⟩
      obtain ⟨A, B, rfl, rfl⟩ := exists_split hi
      obtain ⟨c, r, rfl⟩ := List.exists_cons_of_ne_nil (files_iff.mp h.files).1.chain.ne_nil
      simp only [allocStep, hi, List.head?_cons, Option.bind_eq_bind, Option.bind_some]
      obtain ⟨fs', hp, hap⟩ := h.remove
      rw [hp]
      refine ⟨_, rfl, ?_⟩
      simpa [List.eraseIdx_append_of_length_le] using hap

lemma Apart.refl (h : Owns fs files) : Apart (fs, files) (fs, files) :=
  ⟨h, ⟨_, _, Kept.start h.table.toReady⟩, fun _ hc => ⟨hc, rfl⟩⟩

end Calls

end FatFs

end ChinaOS
