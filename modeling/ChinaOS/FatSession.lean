import ChinaOS.FatRead
import ChinaOS.FatWrite
import ChinaOS.FatSeek

/-!
A program that reads, writes and moves about in several open files.

* `clusters`: the clusters of a file, as the FAT links them from the first one on.
* `File`, `File.Step`: a file as a program sees it, bytes and a position, and what a call may
  answer and make of it.
* `Session.step`: a call for one of the open files.
* `session_refines`: any calls for the open files in any order succeed, answer as the files demand,
  and change nothing but the one file that each is for.
-/

namespace ChinaOS

namespace FatFs

/-! ### The files -/

/-- The clusters from `c` on, as far as the FAT links them. -/
def follow (fs : FatFs) : ℕ → DWord → List DWord
  | 0, _ => []
  | fuel + 1, c =>
      if 2 ≤ c.toNat ∧ c.toNat < fs.nFatent.toNat then c :: fs.follow fuel (fs.entry c.toNat)
      else []

/-- The clusters of a file. -/
def clusters (fs : FatFs) (fp : Fil) : List DWord := fs.follow fs.nFatent.toNat fp.orgClust

/-- A file, as a program sees it: its bytes, the position in it, and what may be done. -/
structure File where
  bytes : List Byte
  pos : ℕ
  mayRead : Bool
  mayWrite : Bool

/-- The bytes of a file with the clusters `l`. -/
def bytesIn (fs : FatFs) (fp : Fil) (l : List DWord) : List Byte :=
  (List.range fp.fsize.toNat).map (byteAt fs fp l)

/-- The file behind an object, with the clusters `l`. -/
def fileIn (fs : FatFs) (fp : Fil) (l : List DWord) : File where
  bytes := bytesIn fs fp l
  pos := fp.fptr.toNat
  mayRead := fp.faRead
  mayWrite := fp.faWrite

/-- The file behind an object. -/
def file (fs : FatFs) (fp : Fil) : File := fs.fileIn fp (fs.clusters fp)

/-- What is asked for. -/
inductive Request where
  | read (btr : DWord)
  | write (buff : List Byte) (btw : DWord)
  | seek (ofs : DWord)

/-- What is returned. -/
inductive Answer where
  | read (bytes : List Byte) (res : FResult)
  | written (bw : DWord) (res : FResult)
  | sought (res : FResult)
  deriving DecidableEq

/-- What a call may answer, and make of its file. Fewer bytes are written than are asked for, and
the end of a file is not moved as far, only if the size could reach 4 GB or the volume is `full`;
the bytes between the old end and a new one are arbitrary. -/
inductive File.Step (full : Prop) (f : File) : Request → Answer → File → Prop
  | read {btr : DWord} (h : f.mayRead = true) : Step full f (.read btr)
      (.read ((f.bytes.drop f.pos).take btr.toNat) .ok)
      { f with pos := min (f.pos + btr.toNat) f.bytes.length }
  | readDenied {btr : DWord} (h : f.mayRead = false) :
      Step full f (.read btr) (.read [] .denied) f
  | write {buff : List Byte} {btw : DWord} {n : ℕ} (h : f.mayWrite = true) (hle : n ≤ btw.toNat)
      (hall : n < btw.toNat → 2 ^ 32 ≤ f.bytes.length + btw.toNat ∧ n = 0 ∨ full) :
      Step full f (.write buff btw) (.written (BitVec.ofNat 32 n) .ok)
        { f with
          bytes := f.bytes.take f.pos ++ buff.take n ++ f.bytes.drop (f.pos + n)
          pos := f.pos + n }
  | writeDenied {buff : List Byte} {btw : DWord} (h : f.mayWrite = false) :
      Step full f (.write buff btw) (.written 0 .denied) f
  | seek {ofs : DWord} {pos : ℕ} {more : List Byte} (hle : pos ≤ ofs.toNat)
      (hread : f.mayWrite = false → pos = min ofs.toNat f.bytes.length)
      (hall : f.mayWrite = true → pos < ofs.toNat → f.bytes.length ≤ pos ∧ full)
      (hmore : more.length = pos - f.bytes.length) :
      Step full f (.seek ofs) (.sought .ok) { f with bytes := f.bytes ++ more, pos }

/-! ### The calls -/

/-- A call for a file object. -/
def request (fs : FatFs) (fp : Fil) : Request → Option (FatFs × Fil × Answer)
  | .read btr => (fs.fRead fp btr).map fun (fs, fp, bytes, res) => (fs, fp, .read bytes res)
  | .write buff btw => (fs.fWrite fp buff btw).map fun (fs, fp, bw, res) =>
      (fs, fp, .written bw res)
  | .seek ofs => (fs.fLseek fp ofs).map fun (fs, fp, res) => (fs, fp, .sought res)

/-- The volume, the objects of the open files, and what has been returned. -/
structure Session where
  fs : FatFs
  objects : List Fil
  answers : List Answer

/-- A call for the `i`-th open file. -/
def Session.step (s : Session) (c : ℕ × Request) : Option Session := do
  let fp ← s.objects[c.1]?
  let (fs, fp, answer) ← s.fs.request fp c.2
  some ⟨fs, s.objects.set c.1 fp, s.answers ++ [answer]⟩

/-- The open files. -/
def Session.files (s : Session) : List File := s.objects.map s.fs.file

/-- There are as many bytes to write as is said. -/
def Request.Proper : Request → Prop
  | .write buff btw => btw.toNat ≤ buff.length
  | _ => True

/-- An object that is open. -/
structure IsOpen (fs : FatFs) (fp : Fil) (l : List DWord) : Prop where
  buffer : Buffer fs fp l
  placed : Placed fs fp l
  within : fp.fptr.toNat ≤ fp.fsize.toNat
  good : fp.faError = false

/-- The volume, on which there are the files that are open and the chains `others`. -/
structure Session.Sound (s : Session) (others : List (List DWord)) : Prop where
  geometry : Geometry s.fs
  owns : Owns s.fs (chains (s.objects.map s.fs.clusters ++ others))
  unmarked : Unmarked s.fs
  window : ∀ l ∈ s.objects.map s.fs.clusters ++ others, ∀ i < s.fs.capacity l,
    s.fs.sectorOf l i ≠ s.fs.winsect
  opened : ∀ fp ∈ s.objects, IsOpen s.fs fp (s.fs.clusters fp)

/-- A call has been answered as its file demands, and the others are as they were. -/
def Session.Answered (s : Session) (c : ℕ × Request) (s' : Session) : Prop :=
  ∃ f a f', s.files[c.1]? = some f ∧ File.Step (Full s'.fs) f c.2 a f' ∧
    s'.files = s.files.set c.1 f' ∧ s'.answers = s.answers ++ [a]

section Follow

variable {fs fs' : FatFs} {fp fp' : Fil} {A B : List (List DWord)} {l l' m : List DWord} {i : ℕ}

lemma follow_chain {fuel : ℕ} (hlen : l.length ≤ fuel) (hin : fs.InVolume l)
    (hlinks : l.IsChain fun c d => link fs.nFatent.toNat fs.entry c = some d)
    (hlast : ∀ c ∈ l.getLast?, link fs.nFatent.toNat fs.entry c = none ∧
      2 ≤ (fs.entry c.toNat).toNat) (hne : l ≠ []) : fs.follow fuel (l.headD 0) = l := by
  induction l generalizing fuel with
  | nil => exact absurd rfl hne
  | cons c r ih =>
      obtain ⟨fuel, rfl⟩ : ∃ k, fuel = k + 1 := ⟨fuel - 1, by rw [List.length_cons] at hlen; omega⟩
      have hc : 2 ≤ c.toNat ∧ c.toNat < fs.nFatent.toNat := hin c List.mem_cons_self
      rw [List.headD_cons, follow, if_pos hc]
      congr 1
      cases r with
      | nil =>
          obtain ⟨hnone, h2⟩ := hlast c rfl
          have hend : ¬ (fs.entry c.toNat).toNat < fs.nFatent.toNat := fun hlt => by
            rw [link, if_pos ⟨hc.1, hc.2, h2, hlt⟩] at hnone
            exact Option.some_ne_none _ hnone
          cases fuel with
          | zero => rfl
          | succ fuel => rw [follow, if_neg fun h => hend h.2]
      | cons d r =>
          obtain ⟨hcd, hlinks⟩ := List.isChain_cons_cons.mp hlinks
          have hd : fs.entry c.toNat = d := by
            rw [link] at hcd
            split_ifs at hcd
            exact Option.some.inj hcd
          rw [hd]
          exact ih (by rw [List.length_cons] at hlen; omega)
            (fun x hx => hin x (List.mem_cons_of_mem c hx)) hlinks
            (fun x hx => hlast x (by rwa [List.getLast?_cons_cons])) (List.cons_ne_nil d r)

/-- A file has no more clusters than there are. -/
lemma length_le_of_inVolume (hin : fs.InVolume l) (hnodup : l.Nodup) :
    l.length ≤ fs.nFatent.toNat := by
  have hmap : (l.map BitVec.toNat).Nodup :=
    hnodup.map fun x y h => BitVec.eq_of_toNat_eq h
  have hsub : l.map BitVec.toNat ⊆ List.range fs.nFatent.toNat := fun x hx => by
    obtain ⟨c, hc, rfl⟩ := List.mem_map.mp hx
    exact List.mem_range.mpr (hin c hc).2
  simpa using (hmap.subperm hsub).length_le

/-- **The clusters are those that the FAT links.** -/
lemma Volume.clusters (hv : Volume fs A l B) (horg : fp.orgClust = l.headD 0) :
    fs.clusters fp = l := by
  rw [FatFs.clusters, horg]
  by_cases hl : l = []
  · subst hl
    cases fs.nFatent.toNat with
    | zero => rfl
    | succ n => exact if_neg (by simp)
  · have howns := hv.owns
    rw [chains_cons hl] at howns
    have hfile := (files_iff.mp howns.files).1
    refine follow_chain (length_le_of_inVolume hv.owns.inVolume hv.owns.nodup) hv.owns.inVolume
      hfile.chain.links (fun c hc => ⟨hfile.chain.last c hc, ?_⟩) hl
    exact (hfile.cluster c (List.mem_of_getLast? hc)).2

end Follow

/-! ### A call and its file -/

section Requests

variable {fs fs' : FatFs} {fp fp' : Fil} {A B : List (List DWord)} {l l' : List DWord} {n : ℕ}

@[simp] lemma length_bytesIn : (bytesIn fs fp l).length = fp.fsize.toNat := by simp [bytesIn]

lemma getElem_bytesIn {i : ℕ} (hi : i < (bytesIn fs fp l).length) :
    (bytesIn fs fp l)[i] = byteAt fs fp l i := by simp [bytesIn]

lemma fileIn_eq {bytes : List Byte} {pos : ℕ} (hbytes : bytesIn fs fp l = bytes)
    (hpos : fp.fptr.toNat = pos) : fs.fileIn fp l = ⟨bytes, pos, fp.faRead, fp.faWrite⟩ := by
  rw [fileIn, hbytes, hpos]

/-- What is read is a piece of the file. -/
lemma content_eq (n : ℕ) : content fs fp l (min n (fp.fsize.toNat - fp.fptr.toNat)) =
    ((bytesIn fs fp l).drop fp.fptr.toNat).take n := by
  refine List.ext_getElem (by simp [content]) fun i h1 h2 => ?_
  rw [List.getElem_take, List.getElem_drop, getElem_bytesIn]
  simp [content]

/-- The bytes of the file that a call has left alone. -/
lemma Served.bytesIn_eq (h : Served fs fp A l B ∅ fs' fp' l') (hb : Buffer fs fp l)
    (hsize : fp'.fsize = fp.fsize) : bytesIn fs' fp' l' = bytesIn fs fp l := by
  rw [bytesIn, bytesIn, hsize]
  refine List.map_congr_left fun i hi => ?_
  exact h.bytes i ((List.mem_range.mp hi).trans_le hb.size) (Set.notMem_empty i)

/-- The file with a piece that was written over it. -/
lemma Served.bytesIn_written {buff : List Byte}
    (h : Served fs fp A l B (written fp.fptr.toNat n fp.fsize.toNat) fs' fp' l')
    (hb : Buffer fs fp l) (hin : fp.fptr.toNat ≤ fp.fsize.toNat) (hbuff : n ≤ buff.length)
    (hsize : fp'.fsize.toNat = max fp.fsize.toNat (fp.fptr.toNat + n))
    (hnew : ∀ j < n, byteAt fs' fp' l' (fp.fptr.toNat + j) = buff.getD j 0) :
    bytesIn fs' fp' l' = (bytesIn fs fp l).take fp.fptr.toNat ++ buff.take n ++
      (bytesIn fs fp l).drop (fp.fptr.toNat + n) := by
  have hold := hb.size
  refine List.ext_getElem (by simp; omega) fun i h1 h2 => ?_
  rw [length_bytesIn] at h1
  rw [getElem_bytesIn]
  rcases Nat.lt_or_ge i fp.fptr.toNat with hi | hi
  · -- before the piece
    rw [List.getElem_append_left (by simp; omega), List.getElem_append_left (by simp; omega),
      List.getElem_take, getElem_bytesIn]
    exact h.bytes i (by omega) fun hm => absurd hm.1 (by omega)
  rcases Nat.lt_or_ge i (fp.fptr.toNat + n) with hn | hn
  · -- within it
    have := hnew (i - fp.fptr.toNat) (by omega)
    rw [Nat.add_sub_cancel' hi] at this
    rw [this, List.getElem_append_left (by simp; omega), List.getElem_append_right (by simp; omega),
      List.getElem_take, List.getD_eq_getElem _ _ (by omega)]
    congr 1
    simp
    omega
  · -- behind it
    have hlen : ((bytesIn fs fp l).take fp.fptr.toNat ++ buff.take n).length =
        fp.fptr.toNat + n := by
      simp
      omega
    rw [List.getElem_append_right (by omega), List.getElem_drop, getElem_bytesIn]
    simp only [hlen, Nat.add_sub_cancel' hn]
    exact h.bytes i (by omega) fun hm => by rcases hm.2 with hm | hm <;> omega

/-- The file with something behind it. -/
lemma Served.bytesIn_append (h : Served fs fp A l B ∅ fs' fp' l') (hb : Buffer fs fp l)
    (hsize : fp'.fsize.toNat = fp.fsize.toNat + n) : bytesIn fs' fp' l' = bytesIn fs fp l ++
      (List.range n).map fun j => byteAt fs' fp' l' (fp.fsize.toNat + j) := by
  rw [bytesIn, hsize, List.range_add, List.map_append, List.map_map, bytesIn]
  congr 1
  refine List.map_congr_left fun i hi => ?_
  exact h.bytes i ((List.mem_range.mp hi).trans_le hb.size) (Set.notMem_empty i)

/-- **A call for a file** answers as the file demands. -/
lemma request_spec (hv : Volume fs A l B) (ho : IsOpen fs fp l) {r : Request} (hr : r.Proper) :
    ∃ fs' fp' a l' W, fs.request fp r = some (fs', fp', a) ∧ Served fs fp A l B W fs' fp' l' ∧
      IsOpen fs' fp' l' ∧ File.Step (Full fs') (fs.fileIn fp l) r a (fs'.fileIn fp' l') := by
  obtain ⟨hb, hp, hin, hgood⟩ := ho
  cases r with
  | read btr =>
      by_cases hmode : fp.faRead = true
      · obtain ⟨fs', fp', hcall, hs, hp', hpos, d, f, c, s, b, rfl⟩ :=
          fRead_spec hv hb hp hin hgood hmode
        have hpos : f.toNat = fp.fptr.toNat + min btr.toNat (fp.fsize.toNat - fp.fptr.toNat) := hpos
        refine ⟨fs', _, _, l, ∅, by rw [request, hcall]; rfl, hs, ⟨hs.buffer, hp', ?_, hgood⟩, ?_⟩
        · show f.toNat ≤ fp.fsize.toNat
          omega
        · have hend : f.toNat = min (fp.fptr.toNat + btr.toNat) (bytesIn fs fp l).length := by
            rw [length_bytesIn]
            omega
          rw [fileIn_eq (hs.bytesIn_eq hb rfl) hend, content_eq]
          exact .read hmode
      · have hmode : fp.faRead = false := Bool.eq_false_of_not_eq_true hmode
        exact ⟨fs, fp, _, l, ∅, by
          rw [request, fRead, if_neg (by simp [hgood]), if_pos (by simp [hmode])]; rfl,
          .refl hv hb, ⟨hb, hp, hin, hgood⟩, .readDenied hmode⟩
  | write buff btw =>
      by_cases hmode : fp.faWrite = true
      · obtain ⟨fs', fp', l', n, hcall, hs, hp', hpos, hsize, hnew, hle, hall, d, w, f, z, o, c, s,
          b, rfl⟩ := fWrite_spec buff btw hv hb hp hin hgood hmode
        have hr : btw.toNat ≤ buff.length := hr
        have hpos : f.toNat = fp.fptr.toNat + n := hpos
        have hsz : z.toNat = max fp.fsize.toNat (fp.fptr.toNat + n) := hsize
        refine ⟨fs', _, _, l', _, by rw [request, hcall]; rfl, hs, ⟨hs.buffer, hp', ?_, hgood⟩, ?_⟩
        · show f.toNat ≤ z.toNat
          omega
        · rw [fileIn_eq (hs.bytesIn_written hb hin (hle.trans hr) hsize hnew) hpos]
          exact .write hmode hle (by simpa [fileIn] using hall)
      · have hmode : fp.faWrite = false := Bool.eq_false_of_not_eq_true hmode
        exact ⟨fs, fp, _, l, ∅, by
          rw [request, fWrite, if_neg (by simp [hgood]), if_pos (by simp [hmode])]; rfl,
          .refl hv hb, ⟨hb, hp, hin, hgood⟩, .writeDenied hmode⟩
  | seek ofs =>
      obtain ⟨fs', fp', l', hcall, hs, hp', hsize, hread, hle, hall, d, w, f, z, o, c, s, b, rfl⟩ :=
        fLseek_spec hv hb hp hgood
      have hsz : z.toNat = max fp.fsize.toNat f.toNat := hsize
      refine ⟨fs', _, _, l', ∅, by rw [request, hcall]; rfl, hs, ⟨hs.buffer, hp', ?_, hgood⟩, ?_⟩
      · show f.toNat ≤ z.toNat
        omega
      · have hbytes := hs.bytesIn_append (n := f.toNat - fp.fsize.toNat) hb (by
          show z.toNat = _
          omega)
        rw [fileIn, fileIn, hbytes]
        exact .seek hle (by rwa [length_bytesIn]) (by rwa [length_bytesIn]) (by simp)

end Requests

/-! ### The other files -/

/-- The chains `others` hold what they held, and the volume is laid out as it was. -/
structure Untouched (fs fs' : FatFs) (others : List (List DWord)) : Prop where
  layout : SameLayout fs fs'
  sectors : ∀ l ∈ others, ∀ i < fs.capacity l,
    fs'.drive.sectors (fs.sectorOf l i) = fs.drive.sectors (fs.sectorOf l i)
  copies : Mirrored fs → Mirrored fs'

section Others

variable {fs fs' fs'' : FatFs} {fp : Fil} {A B others : List (List DWord)} {l l' m : List DWord}

lemma Untouched.refl (fs : FatFs) (others : List (List DWord)) : Untouched fs fs others :=
  ⟨.refl fs, fun _ _ _ _ => rfl, id⟩

lemma Untouched.trans (h : Untouched fs fs' others) (h' : Untouched fs' fs'' others) :
    Untouched fs fs'' others := by
  refine ⟨h.layout.trans h'.layout, fun l hl i hi => ?_, fun hm => h'.copies (h.copies hm)⟩
  have hsec := h'.sectors l hl i (by rwa [h.layout.capacity])
  rw [h.layout.sectorOf] at hsec
  exact hsec.trans (h.sectors l hl i hi)

/-- **A call for one file leaves the others alone.** -/
lemma Volume.other (hv : Volume fs A l B) (hloc : Local fs l' fs') (hv' : Volume fs' A l' B)
    (hm : m ∈ A ++ B) (hwin : ∀ i < fs.capacity m, fs.sectorOf m i ≠ fs.winsect) :
    (∃ A' B', Volume fs' A' m B') ∧ ∀ i < fs.capacity m,
      fs'.drive.sectors (fs.sectorOf m i) = fs.drive.sectors (fs.sectorOf m i) := by
  have hlay := hloc.layout
  have hsplit : ∀ r : List DWord, ∃ A' B', A ++ r :: B = A' ++ m :: B' := fun r => by
    refine List.append_of_mem ?_
    rw [List.mem_append] at hm ⊢
    exact hm.imp_right (List.mem_cons_of_mem r)
  obtain ⟨A₁, B₁, h₁⟩ := hsplit l
  obtain ⟨A₂, B₂, h₂⟩ := hsplit l'
  have hvm : Volume fs A₁ m B₁ := ⟨hv.geometry, h₁ ▸ hv.owns, hv.unmarked, hwin⟩
  have howns : Owns fs' (chains (A₂ ++ m :: B₂)) := h₂ ▸ hv'.owns
  have hdisj : ∀ c ∈ m, c ∉ l' := fun c hc hc' => by
    have hfiles := hv'.owns.files
    rw [chains_cons (List.ne_nil_of_mem hc')] at hfiles
    refine (files_iff.mp hfiles).2.2 c hc' (List.mem_flatten.mpr ⟨m, ?_, hc⟩)
    rw [← chains_append]
    exact List.mem_filter.mpr ⟨hm, by simpa using List.ne_nil_of_mem hc⟩
  have hne : ∀ i < fs.capacity m, ∀ j < fs.capacity l', fs.sectorOf m i ≠ fs.sectorOf l' j := by
    intro i hi j hj
    rw [← hlay.sectorOf, ← hlay.sectorOf]
    exact hv'.geometry.sectorOf_ne howns.inVolume hv'.owns.inVolume hdisj
      (by rwa [hlay.capacity]) (by rwa [hlay.capacity])
  have hstays : ∀ i < fs.capacity m, fs.sectorOf m i ≠ fs'.winsect := by
    intro i hi he
    rcases hloc.stays with heq | hin
    · exact hwin i hi (he.trans heq)
    · exact (hvm.sector hi).2.2.2 (he ▸ hin)
  refine ⟨⟨A₂, B₂, hv'.geometry, howns, hv'.unmarked, fun i hi => ?_⟩, fun i hi => ?_⟩
  · rw [hlay.sectorOf]
    exact hstays i (by rwa [hlay.capacity] at hi)
  · obtain ⟨-, h0, hc, hf⟩ := hvm.sector hi
    have hview := hloc.rest _ h0 hc hf (hne i hi)
    rw [hvm.view_sector hi, view, if_neg (hstays i hi)] at hview
    exact hview

/-- An object whose file is left alone. -/
lemma IsOpen.other (h : IsOpen fs fp m) (hlay : SameLayout fs fs')
    (hsec : ∀ i < fs.capacity m, fs'.drive.sectors (fs.sectorOf m i) =
      fs.drive.sectors (fs.sectorOf m i)) :
    IsOpen fs' fp m ∧ bytesIn fs' fp m = bytesIn fs fp m := by
  obtain ⟨hb, hbytes⟩ := h.buffer.congr hlay List.prefix_rfl h.buffer.org hsec rfl
  refine ⟨⟨hb, ⟨?_, ?_, ?_⟩, h.within, h.good⟩, List.map_congr_left fun i hi => ?_⟩
  · rw [hlay.capacity]
    exact h.placed.pos
  · rw [hlay.clusterBytes]
    exact h.placed.curr
  · rw [hlay.sectorOf]
    exact h.placed.inside
  · exact hbytes i ((List.mem_range.mp hi).trans_le h.buffer.size)

end Others

/-! ### The session -/

namespace Session

section Session

variable {s s' : Session} {others : List (List DWord)} {c : ℕ × Request} {P Q : List Fil}
  {fp fp' fq : Fil} {fs' : FatFs} {l l' : List DWord}

/-- The volume, for one of the open files. -/
lemma Sound.volume (h : s.Sound others) (hobj : s.objects = P ++ fp :: Q) :
    Volume s.fs (P.map s.fs.clusters) (s.fs.clusters fp) (Q.map s.fs.clusters ++ others) := by
  refine ⟨h.geometry, by simpa [hobj] using h.owns, h.unmarked, h.window _ ?_⟩
  simp [hobj]

section Confined

variable (h : s.Sound others) (hobj : s.objects = P ++ fp :: Q) (hloc : Local s.fs l' fs')
  (hvol : Volume fs' (P.map s.fs.clusters) l' (Q.map s.fs.clusters ++ others))

include h hobj hloc hvol

/-- The clusters of another file. -/
lemma Sound.chain (hl : l ∈ P.map s.fs.clusters ++ (Q.map s.fs.clusters ++ others)) :
    (∃ A B, Volume fs' A l B) ∧ ∀ i < s.fs.capacity l,
      fs'.drive.sectors (s.fs.sectorOf l i) = s.fs.drive.sectors (s.fs.sectorOf l i) := by
  refine (h.volume hobj).other hloc hvol hl (h.window l ?_)
  rw [hobj, List.map_append, List.map_cons, List.append_assoc, List.cons_append]
  rw [List.mem_append] at hl ⊢
  exact hl.imp_right (List.mem_cons_of_mem _)

/-- Another file that is open. -/
lemma Sound.other (hq : fq ∈ P ++ Q) : fs'.clusters fq = s.fs.clusters fq ∧
    IsOpen fs' fq (s.fs.clusters fq) ∧ fs'.file fq = s.fs.file fq := by
  have ho : IsOpen s.fs fq (s.fs.clusters fq) := by
    refine h.opened fq ?_
    rw [hobj]
    rw [List.mem_append] at hq ⊢
    exact hq.imp_right (List.mem_cons_of_mem fp)
  obtain ⟨⟨A, B, hvol'⟩, hsec⟩ := h.chain hobj hloc hvol (l := s.fs.clusters fq) (by
    rw [← List.append_assoc, ← List.map_append]
    exact List.mem_append_left _ (List.mem_map_of_mem hq))
  have heq := hvol'.clusters ho.buffer.org
  obtain ⟨ho', hbytes⟩ := ho.other hloc.layout hsec
  exact ⟨heq, ho', by rw [file, file, heq, fileIn, fileIn, hbytes]⟩

/-- **The invariant is kept** by a call for one of the files. -/
lemma Sound.served (ho : IsOpen fs' fp' l') (answers : List Answer) :
    (⟨fs', P ++ fp' :: Q, answers⟩ : Session).Sound others := by
  have hself : fs'.clusters fp' = l' := hvol.clusters ho.buffer.org
  have hmap : (P ++ fp' :: Q).map fs'.clusters ++ others =
      P.map s.fs.clusters ++ l' :: (Q.map s.fs.clusters ++ others) := by
    have hP : P.map fs'.clusters = P.map s.fs.clusters := List.map_congr_left fun fq hq =>
      (h.other hobj hloc hvol (List.mem_append_left Q hq)).1
    have hQ : Q.map fs'.clusters = Q.map s.fs.clusters := List.map_congr_left fun fq hq =>
      (h.other hobj hloc hvol (List.mem_append_right P hq)).1
    rw [List.map_append, List.map_cons, hP, hQ, hself, List.append_assoc, List.cons_append]
  refine ⟨hvol.geometry, ?_, hvol.unmarked, ?_, fun fq hq => ?_⟩
  · rw [hmap]
    exact hvol.owns
  · rw [hmap]
    intro l hl
    rw [List.mem_append, List.mem_cons] at hl
    by_cases hll : l = l'
    · exact hll ▸ hvol.window
    · obtain ⟨⟨A, B, hvol'⟩, -⟩ := h.chain hobj hloc hvol (l := l) (by
        rw [List.mem_append]
        exact hl.imp_right fun h => h.resolve_left hll)
      exact hvol'.window
  · rw [List.mem_append, List.mem_cons] at hq
    by_cases hqq : fq = fp'
    · rw [hqq]
      exact hself.symm ▸ ho
    · have hq : fq ∈ P ++ Q := by
        rw [List.mem_append]
        exact hq.imp_right fun h => h.resolve_left hqq
      obtain ⟨heq, ho, -⟩ := h.other hobj hloc hvol hq
      exact heq.symm ▸ ho

/-- One of the files has become another. -/
lemma Sound.files_set :
    (P ++ fp' :: Q).map fs'.file = s.files.set P.length (fs'.file fp') := by
  have hfile : ∀ R ⊆ P ++ Q, R.map fs'.file = R.map s.fs.file := fun R hR =>
    List.map_congr_left fun fq hq => (h.other hobj hloc hvol (hR hq)).2.2
  rw [files, hobj, List.map_append, List.map_cons, List.map_append, List.map_cons,
    hfile P (List.subset_append_left P Q), hfile Q (List.subset_append_right P Q),
    List.set_append_right _ _ (by rw [List.length_map]), List.length_map, Nat.sub_self,
    List.set_cons_zero]

lemma Sound.untouched : Untouched s.fs fs' others :=
  ⟨hloc.layout, fun _ hl =>
    (h.chain hobj hloc hvol (List.mem_append_right _ (List.mem_append_right _ hl))).2, hloc.copies⟩

end Confined

/-- **One call** is answered, and leaves everything else alone. -/
theorem Sound.step (h : s.Sound others) (hi : c.1 < s.objects.length) (hr : c.2.Proper) :
    ∃ s', s.step c = some s' ∧ s'.Sound others ∧ s.Answered c s' ∧ Untouched s.fs s'.fs others ∧
      s'.objects.length = s.objects.length := by
  obtain ⟨P, fp, Q, hobj, hlen⟩ : ∃ P fp Q, s.objects = P ++ fp :: Q ∧ P.length = c.1 :=
    ⟨s.objects.take c.1, s.objects[c.1], s.objects.drop (c.1 + 1), by
      rw [List.getElem_cons_drop, List.take_append_drop], by simp; omega⟩
  have hget : s.objects[c.1]? = some fp := by
    rw [hobj, ← hlen, List.getElem?_append_right le_rfl, Nat.sub_self]
    rfl
  have hset : ∀ x, s.objects.set c.1 x = P ++ x :: Q := fun x => by
    rw [hobj, ← hlen, List.set_append_right _ _ le_rfl, Nat.sub_self, List.set_cons_zero]
  obtain ⟨fs', fp', a, l', W, hcall, hs, ho', hstep⟩ :=
    request_spec (h.volume hobj) (h.opened fp (by simp [hobj])) hr
  refine ⟨⟨fs', P ++ fp' :: Q, s.answers ++ [a]⟩, ?_, h.served hobj hs.confined hs.volume ho' _,
    ⟨s.fs.file fp, a, fs'.file fp', ?_, ?_, ?_, rfl⟩, h.untouched hobj hs.confined hs.volume, ?_⟩
  · rw [Session.step, hget, Option.bind_eq_bind, Option.bind_some, hcall, Option.bind_eq_bind,
      Option.bind_some]
    dsimp only
    rw [hset]
  · rw [files, List.getElem?_map, hget]
    rfl
  · rw [file, file, hs.volume.clusters hs.buffer.org]
    exact hstep
  · rw [← hlen]
    exact h.files_set hobj hs.confined hs.volume
  · rw [← hset fp', List.length_set]

/-- **The files of a session.** Any calls for the open files, in any order, succeed and are answered
as the files demand: bytes are read as they are at the position, written bytes replace them, and
each call concerns one file only. No other chain on the volume changes its bytes, and the copies of
the FAT stay equal. -/
theorem session_refines (h : s.Sound others) {calls : List (ℕ × Request)}
    (hcalls : ∀ c ∈ calls, c.1 < s.objects.length ∧ c.2.Proper) :
    (∃ s', Run.exec Session.step s calls = some s' ∧ s'.Sound others ∧
      Untouched s.fs s'.fs others) ∧ Run.Along Session.step Answered s calls := by
  induction calls generalizing s with
  | nil => exact ⟨⟨s, rfl, h, .refl s.fs others⟩, trivial⟩
  | cons c calls ih =>
      obtain ⟨hi, hr⟩ := hcalls c List.mem_cons_self
      obtain ⟨s₁, hs₁, h₁, ha, hu, hlen⟩ := h.step hi hr
      obtain ⟨⟨s', hs', h', hu'⟩, halong⟩ := ih h₁ fun d hd => by
        rw [hlen]
        exact hcalls d (List.mem_cons_of_mem c hd)
      exact ⟨⟨s', by rw [Run.exec, hs₁, Option.bind_some, hs'], h', hu.trans hu'⟩,
        .cons hs₁ ha halong⟩

/-- Two empty files, which may be read and written. -/
def twoOpen : Session :=
  let fp : Fil := ⟨true, true, false, false, false, 0, 0, 0, 0, 0, fun _ => 0⟩
  ⟨twoCopies, [fp, fp], []⟩

lemma sound_twoOpen : twoOpen.Sound [] where
  geometry := ⟨⟨0, by decide, by decide⟩, by decide, by decide⟩
  owns := by
    have h0 : chains (twoOpen.objects.map twoOpen.fs.clusters ++ []) = [] := rfl
    rw [h0]
    exact ⟨⟨ready_twoCopies, by decide, by decide, by decide⟩,
      fun x hx => absurd hx List.not_mem_nil, by decide, ⟨by simp, by simp⟩, Or.inl rfl⟩
  unmarked := fun c hc => by
    have h : ∀ k < 6, twoCopies.entry k ≠ 1 := by decide
    exact h _ hc.2
  window := by decide
  opened := by
    intro fp hfp
    obtain rfl : fp = ⟨true, true, false, false, false, 0, 0, 0, 0, 0, fun _ => 0⟩ := by
      simpa [twoOpen] using hfp
    exact ⟨⟨rfl, le_rfl, fun h => absurd rfl h, fun _ h => absurd rfl h, fun h => by simp at h⟩,
      ⟨le_rfl, fun h => absurd h (by decide), fun h => absurd rfl h⟩, le_rfl, rfl⟩

/-- Three bytes are written to one of them, one to the other, and the first file is read from its
second byte on. -/
theorem session_refines_twoOpen : ∃ s', Run.exec Session.step twoOpen
      [(0, .write [1, 2, 3] 3), (1, .write [4] 1), (0, .seek 1), (0, .read 9)] = some s' ∧
    s'.answers = [.written 3 .ok, .written 1 .ok, .sought .ok, .read [2, 3] .ok] ∧
    Mirrored s'.fs := by
  have hcalls : ∀ c ∈ ([(0, .write [1, 2, 3] 3), (1, .write [4] 1), (0, .seek 1), (0, .read 9)] :
      List (ℕ × Request)), c.1 < twoOpen.objects.length ∧ c.2.Proper := by
    simp [twoOpen, Request.Proper]
  obtain ⟨⟨s', hs', -, hu⟩, -⟩ := session_refines sound_twoOpen hcalls
  refine ⟨s', hs', Run.eq_of_exec (f := answers) hs' ?_, hu.copies fun _ _ _ _ _ _ _ => rfl⟩
  decide +kernel

end Session

end Session

end FatFs

end ChinaOS
