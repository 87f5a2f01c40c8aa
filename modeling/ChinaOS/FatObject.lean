import ChinaOS.FatData

/-!
File objects: `f_read`, `f_write` and `f_lseek` of `file/ff.c`.

A file object keeps a position in the chain of clusters of its file, and one sector of it in a
buffer of its own, which is written back when another sector is needed. Whole sectors go past the
buffer. The checks of `validate` are left out.

* `fRead`, `fWrite`, `fLseek`: the functions of the source.
* `byteAt`: a byte of the file, wherever it is.
* `Volume`, `Buffer`, `Placed`: the invariants of the volume, of the buffer and of the position.
* `Local`, `Served`: what a call for a file may have done to the volume and to the file.
-/

namespace ChinaOS

/-- `FIL`, with the bits of `flag` one by one. -/
structure Fil where
  faRead : Bool
  faWrite : Bool
  faWritten : Bool
  faDirty : Bool
  faError : Bool
  fptr : DWord
  fsize : DWord
  orgClust : DWord
  currClust : DWord
  dsect : DWord
  buf : Sector

namespace FatFs

/-! ### What the three functions share -/

/-- The sector offset in the cluster. -/
def csect (fs : FatFs) (fp : Fil) : Byte :=
  (fp.fptr / 512 &&& (fs.csize.setWidth 32 - 1)).setWidth 8

/-- The sectors that are transferred at once, clipped at the cluster boundary. -/
def clip (fs : FatFs) (csect : Byte) (cc : DWord) : DWord :=
  if fs.csize.setWidth 32 < csect.setWidth 32 + cc then
    fs.csize.setWidth 32 - csect.setWidth 32
  else cc

/-- Write the sector buffer back if it is dirty. -/
def flushBuf (fs : FatFs) (fp : Fil) : FatFs × Fil × FResult :=
  if fp.faDirty then
    match fs.drive.diskWrite fp.dsect fp.buf with
    | (drive, true) => ({ fs with drive }, { fp with faDirty := false }, .ok)
    | (drive, false) => ({ fs with drive }, fp, .diskErr)
  else (fs, fp, .ok)

/-- Fill the sector buffer. -/
def fillBuf (fs : FatFs) (fp : Fil) (sect : DWord) : FatFs × Fil × FResult :=
  match fs.drive.diskRead sect with
  | (drive, buf, true) => ({ fs with drive }, { fp with buf, dsect := sect }, .ok)
  | (drive, buf, false) => ({ fs with drive }, { fp with buf }, .diskErr)

/-- The current sector, from the current cluster on. -/
def sect (fs : FatFs) (fp : Fil) : Except FResult DWord :=
  if fs.clust2sect fp.currClust = 0 then .error .intErr
  else .ok (fs.clust2sect fp.currClust + (fs.csect fp).setWidth 32)

/-- The bytes from the position to the end of its sector, but no more than are left to do. -/
def inSector (fp : Fil) (n : DWord) : DWord :=
  if n < 512 - fp.fptr % 512 then n else 512 - fp.fptr % 512

/-! ### `f_read` -/

/-- The cluster of a read on a cluster boundary. -/
def readCluster (fs : FatFs) (fp : Fil) : FatFs × Fil × FResult :=
  match if fp.fptr = 0 then (fs, fp.orgClust) else fs.getFat fp.currClust with
  | (fs, clst) =>
      if clst ≤ 1 then (fs, fp, .intErr)
      else if clst = 0xFFFFFFFF then (fs, fp, .diskErr)
      else (fs, { fp with currClust := clst }, .ok)

/-- The bytes of whole sectors. -/
def bytesOf (buffers : List Sector) : List Byte :=
  buffers.flatMap fun buffer => (List.range 512).map buffer

/-- Whole sectors are read past the buffer; one of them is replaced by the buffer if that is
dirty. -/
def readDirect (fs : FatFs) (fp : Fil) (sect cc : DWord) :
    FatFs × Fil × Except FResult (List Byte × DWord) :=
  match Drive.diskReads (cc.setWidth 8).toNat fs.drive sect with
  | (drive, _, false) => ({ fs with drive }, fp, .error .diskErr)
  | (drive, buffers, true) =>
      let buffers := if fp.faDirty ∧ fp.dsect - sect < cc then
        buffers.set (fp.dsect - sect).toNat fp.buf else buffers
      ({ fs with drive }, fp, .ok (bytesOf buffers, 512 * cc))

/-- The buffer gets the current sector. -/
def readBuf (fs : FatFs) (fp : Fil) (sect : DWord) : FatFs × Fil × FResult :=
  match fs.flushBuf fp with
  | (fs, fp, .ok) => if fp.dsect ≠ sect then fs.fillBuf fp sect else (fs, fp, .ok)
  | r => r

/-- Bytes from the buffer. -/
def copyOut (fp : Fil) (btr : DWord) : List Byte × DWord :=
  ((List.range (inSector fp btr).toNat).map fun k => fp.buf ((fp.fptr % 512).toNat + k),
    inSector fp btr)

/-- One turn of the loop of `f_read`: the bytes that are transferred, and their number. -/
def readTurn (fs : FatFs) (fp : Fil) (btr : DWord) :
    FatFs × Fil × Except FResult (List Byte × DWord) :=
  if fp.fptr % 512 = 0 then
    match if fs.csect fp = 0 then fs.readCluster fp else (fs, fp, .ok) with
    | (fs, fp, .ok) =>
        match fs.sect fp with
        | .ok sect =>
            if btr / 512 ≠ 0 then fs.readDirect fp sect (fs.clip (fs.csect fp) (btr / 512))
            else
              match fs.readBuf fp sect with
              | (fs, fp, .ok) => (fs, fp, .ok (copyOut fp btr))
              | (fs, fp, res) => (fs, fp, .error res)
        | .error res => (fs, fp, .error res)
    | (fs, fp, res) => (fs, fp, .error res)
  else (fs, fp, .ok (copyOut fp btr))

/-- The loop of `f_read`; none if it does not end within the fuel. -/
def readLoop : ℕ → FatFs → Fil → DWord → List Byte → Option (FatFs × Fil × List Byte × FResult)
  | 0, _, _, _, _ => none
  | fuel + 1, fs, fp, btr, rbuff =>
      if btr = 0 then some (fs, fp, rbuff, .ok)
      else
        match fs.readTurn fp btr with
        | (fs, fp, .error res) => some (fs, { fp with faError := true }, rbuff, res)
        | (fs, fp, .ok (bytes, rcnt)) =>
            readLoop fuel fs { fp with fptr := fp.fptr + rcnt } (btr - rcnt) (rbuff ++ bytes)

/-- `f_read`: the bytes that have been read. -/
def fRead (fs : FatFs) (fp : Fil) (btr : DWord) : Option (FatFs × Fil × List Byte × FResult) :=
  if fp.faError then some (fs, fp, [], .intErr)
  else if ¬ fp.faRead then some (fs, fp, [], .denied)
  else
    let remain := fp.fsize - fp.fptr
    let btr := if remain < btr then remain else btr
    readLoop (btr.toNat + 1) fs fp btr []

/-! ### `f_write` -/

/-- The cluster of a write on a cluster boundary; `false` if the disk is full. -/
def writeCluster (fs : FatFs) (fp : Fil) : Option (FatFs × Fil × Except FResult Bool) :=
  match
    if fp.fptr = 0 then
      if fp.orgClust = 0 then
        (fs.createChain 0).map fun (fs, clst) => (fs, { fp with orgClust := clst }, clst)
      else some (fs, fp, fp.orgClust)
    else (fs.createChain fp.currClust).map fun (fs, clst) => (fs, fp, clst) with
  | none => none
  | some (fs, fp, clst) =>
      if clst = 0 then some (fs, fp, .ok false)
      else if clst = 1 then some (fs, fp, .error .intErr)
      else if clst = 0xFFFFFFFF then some (fs, fp, .error .diskErr)
      else some (fs, { fp with currClust := clst }, .ok true)

/-- A sector of the data to be written. -/
def sectorAt (wbuff : List Byte) (k : ℕ) : Sector := fun j => wbuff.getD (512 * k + j) 0

/-- Whole sectors are written past the buffer, which is refilled if it holds one of them. -/
def writeDirect (fs : FatFs) (fp : Fil) (sect cc : DWord) (wbuff : List Byte) :
    FatFs × Fil × Except FResult (Option DWord) :=
  match Drive.diskWrites ((List.range (cc.setWidth 8).toNat).map (sectorAt wbuff)) fs.drive sect with
  | (drive, false) => ({ fs with drive }, fp, .error .diskErr)
  | (drive, true) =>
      let fp := if fp.dsect - sect < cc then
        { fp with buf := sectorAt wbuff (fp.dsect - sect).toNat, faDirty := false } else fp
      ({ fs with drive }, fp, .ok (some (512 * cc)))

/-- The buffer gets the current sector, unless the file ends before it. -/
def writeBuf (fs : FatFs) (fp : Fil) (sect : DWord) : FatFs × Fil × FResult :=
  if fp.dsect ≠ sect then
    if fp.fptr < fp.fsize then fs.fillBuf fp sect else (fs, { fp with dsect := sect }, .ok)
  else (fs, fp, .ok)

/-- Bytes to the buffer. -/
def copyIn (fp : Fil) (wbuff : List Byte) (btw : DWord) : Fil :=
  { fp with
    buf := fun j =>
      if (fp.fptr % 512).toNat ≤ j ∧ j < (fp.fptr % 512).toNat + (inSector fp btw).toNat then
        wbuff.getD (j - (fp.fptr % 512).toNat) 0
      else fp.buf j
    faDirty := true }

/-- One turn of the loop of `f_write`: the number of the bytes that are transferred, or none if the
disk is full. -/
def writeTurn (fs : FatFs) (fp : Fil) (wbuff : List Byte) (btw : DWord) :
    Option (FatFs × Fil × Except FResult (Option DWord)) :=
  if fp.fptr % 512 = 0 then
    match if fs.csect fp = 0 then fs.writeCluster fp else some (fs, fp, .ok true) with
    | none => none
    | some (fs, fp, .error res) => some (fs, fp, .error res)
    | some (fs, fp, .ok false) => some (fs, fp, .ok none)
    | some (fs, fp, .ok true) =>
        match fs.flushBuf fp with
        | (fs, fp, .ok) =>
            match fs.sect fp with
            | .ok sect =>
                if btw / 512 ≠ 0 then
                  some (fs.writeDirect fp sect (fs.clip (fs.csect fp) (btw / 512)) wbuff)
                else
                  match fs.writeBuf fp sect with
                  | (fs, fp, .ok) => some (fs, copyIn fp wbuff btw, .ok (some (inSector fp btw)))
                  | (fs, fp, res) => some (fs, fp, .error res)
            | .error res => some (fs, fp, .error res)
        | (fs, fp, res) => some (fs, fp, .error res)
  else some (fs, copyIn fp wbuff btw, .ok (some (inSector fp btw)))

/-- The loop of `f_write`, with the number of bytes written; none if it does not end within the
fuel. -/
def writeLoop : ℕ → FatFs → Fil → List Byte → DWord → DWord →
    Option (FatFs × Fil × DWord × FResult)
  | 0, _, _, _, _, _ => none
  | fuel + 1, fs, fp, wbuff, btw, bw =>
      if btw = 0 then some (fs, fp, bw, .ok)
      else
        match fs.writeTurn fp wbuff btw with
        | none => none
        | some (fs, fp, .error res) => some (fs, { fp with faError := true }, bw, res)
        | some (fs, fp, .ok none) => some (fs, fp, bw, .ok)
        | some (fs, fp, .ok (some wcnt)) =>
            writeLoop fuel fs { fp with fptr := fp.fptr + wcnt } (wbuff.drop wcnt.toNat)
              (btw - wcnt) (bw + wcnt)

/-- `f_write`: the number of bytes that have been written. -/
def fWrite (fs : FatFs) (fp : Fil) (buff : List Byte) (btw : DWord) :
    Option (FatFs × Fil × DWord × FResult) :=
  if fp.faError then some (fs, fp, 0, .intErr)
  else if ¬ fp.faWrite then some (fs, fp, 0, .denied)
  else
    let btw := if fp.fsize + btw < fp.fsize then 0 else btw
    match writeLoop (btw.toNat + 1) fs fp buff btw 0 with
    | some (fs, fp, bw, .ok) =>
        some (fs, { fp with
          fsize := if fp.fsize < fp.fptr then fp.fptr else fp.fsize
          faWritten := true }, bw, .ok)
    | r => r

/-! ### `f_lseek` -/

/-- The size of a cluster in bytes. -/
def bcs (fs : FatFs) : DWord := fs.csize.setWidth 32 * 512

/-- Where the cluster chain is followed from, and how far. -/
def seekStart (fs : FatFs) (fp : Fil) (ifptr ofs : DWord) :
    Option (FatFs × Fil × Except FResult (DWord × DWord)) :=
  if 0 < ifptr ∧ (ifptr - 1) / fs.bcs ≤ (ofs - 1) / fs.bcs then
    let fptr := (ifptr - 1) &&& ~~~(fs.bcs - 1)
    some (fs, { fp with fptr }, .ok (fp.currClust, ofs - fptr))
  else if fp.orgClust = 0 then
    match fs.createChain 0 with
    | none => none
    | some (fs, clst) =>
        if clst = 1 then some (fs, fp, .error .intErr)
        else if clst = 0xFFFFFFFF then some (fs, fp, .error .diskErr)
        else some (fs, { fp with orgClust := clst, currClust := clst }, .ok (clst, ofs))
  else some (fs, { fp with currClust := fp.orgClust }, .ok (fp.orgClust, ofs))

/-- The cluster following loop; none if it does not end within the fuel. -/
def followLoop : ℕ → FatFs → Fil → DWord → DWord →
    Option (FatFs × Fil × Except FResult (DWord × DWord))
  | 0, _, _, _, _ => none
  | fuel + 1, fs, fp, clst, ofs =>
      if fs.bcs < ofs then
        match if fp.faWrite then fs.createChain clst else some (fs.getFat clst) with
        | none => none
        | some (fs, clst) =>
            -- when the disk gets full, the file size is clipped
            if fp.faWrite ∧ clst = 0 then some (fs, fp, .ok (clst, fs.bcs))
            else if clst = 0xFFFFFFFF then some (fs, fp, .error .diskErr)
            else if clst ≤ 1 ∨ fs.nFatent ≤ clst then some (fs, fp, .error .intErr)
            else
              followLoop fuel fs { fp with currClust := clst, fptr := fp.fptr + fs.bcs } clst
                (ofs - fs.bcs)
      else some (fs, fp, .ok (clst, ofs))

/-- The position is moved, from the old one `ifptr`; what is returned is the sector that the buffer
has to hold, if the position is within one. -/
def seekTo (fs : FatFs) (fp : Fil) (ifptr ofs : DWord) :
    Option (FatFs × Fil × Except FResult DWord) :=
  if ofs = 0 then some (fs, fp, .ok 0)
  else
    match fs.seekStart fp ifptr ofs with
    | none => none
    | some (fs, fp, .error res) => some (fs, fp, .error res)
    | some (fs, fp, .ok (clst, ofs)) =>
        if clst = 0 then some (fs, fp, .ok 0)
        else
          match fs.followLoop (ofs.toNat + 1) fp clst ofs with
          | none => none
          | some (fs, fp, .error res) => some (fs, fp, .error res)
          | some (fs, fp, .ok (clst, ofs)) =>
              let fp := { fp with fptr := fp.fptr + ofs }
              if ofs % 512 = 0 then some (fs, fp, .ok 0)
              else if fs.clust2sect clst = 0 then some (fs, fp, .error .intErr)
              else some (fs, fp, .ok (fs.clust2sect clst + ofs / 512))

/-- The buffer gets the sector of the position, if the position is within one. -/
def seekBuf (fs : FatFs) (fp : Fil) (nsect : DWord) : FatFs × Fil × FResult :=
  if fp.fptr % 512 ≠ 0 ∧ nsect ≠ fp.dsect then
    match fs.flushBuf fp with
    | (fs, fp, .ok) => fs.fillBuf fp nsect
    | r => r
  else (fs, fp, .ok)

/-- `f_lseek`. -/
def fLseek (fs : FatFs) (fp : Fil) (ofs : DWord) : Option (FatFs × Fil × FResult) :=
  if fp.faError then some (fs, fp, .intErr)
  else
    let ofs := if fp.fsize < ofs ∧ ¬ fp.faWrite then fp.fsize else ofs
    match fs.seekTo { fp with fptr := 0 } fp.fptr ofs with
    | none => none
    | some (fs, fp, .error res) => some (fs, { fp with faError := true }, res)
    | some (fs, fp, .ok nsect) =>
        match fs.seekBuf fp nsect with
        | (fs, fp, .ok) =>
            some (fs, if fp.fsize < fp.fptr then { fp with fsize := fp.fptr, faWritten := true }
              else fp, .ok)
        | (fs, fp, res) => some (fs, { fp with faError := true }, res)

/-! ### The file behind the object -/

/-- A byte of the file: it is in the buffer if that is dirty and holds its sector, or else on the
drive. -/
def byteAt (fs : FatFs) (fp : Fil) (l : List DWord) (i : ℕ) : Byte :=
  (if fp.faDirty ∧ fs.sectorOf l i = fp.dsect then fp.buf else fs.drive.sectors (fs.sectorOf l i))
    (i % 512)

/-- The volume, as far as it concerns a file with the clusters `l` among other files: the window
is not at its sectors. -/
structure Volume (fs : FatFs) (A : List (List DWord)) (l : List DWord) (B : List (List DWord)) :
    Prop where
  geometry : Geometry fs
  owns : Owns fs (chains (A ++ l :: B))
  unmarked : Unmarked fs
  window : ∀ i < fs.capacity l, fs.sectorOf l i ≠ fs.winsect

/-- The buffer holds a sector of the file, which differs from the drive's only if it is dirty. -/
structure Buffer (fs : FatFs) (fp : Fil) (l : List DWord) : Prop where
  org : fp.orgClust = l.headD 0
  size : fp.fsize.toNat ≤ fs.capacity l
  held : fp.dsect ≠ 0 → ∃ i < fs.capacity l, fp.dsect = fs.sectorOf l i
  clean : fp.faDirty = false → fp.dsect ≠ 0 → fp.buf = fs.drive.sectors fp.dsect
  dirty : fp.faDirty = true → fp.dsect ≠ 0

/-- The position: the current cluster is the one before it or around it, and the buffer holds its
sector if it is within one. -/
structure Placed (fs : FatFs) (fp : Fil) (l : List DWord) : Prop where
  pos : fp.fptr.toNat ≤ fs.capacity l
  curr : 0 < fp.fptr.toNat → l[(fp.fptr.toNat - 1) / fs.clusterBytes]? = some fp.currClust
  inside : fp.fptr.toNat % 512 ≠ 0 → fp.dsect = fs.sectorOf l fp.fptr.toNat

/-- What a call for a file, whose clusters are `l` in the end, may have done to the volume. -/
structure Local (fs : FatFs) (l : List DWord) (fs' : FatFs) : Prop where
  layout : SameLayout fs fs'
  stays : Stays fs fs'
  rest : ∀ a, a ≠ 0 → ¬ fs.IsCopy a → ¬ fs.InFat a → (∀ i < fs.capacity l, a ≠ fs.sectorOf l i) →
    fs'.view a = fs.view a
  copies : Mirrored fs → Mirrored fs'

/-- What a call for a file may have done to it: it has changed no bytes but those in `W`, and the
file may have got clusters behind those that it had. -/
structure Served (fs : FatFs) (fp : Fil) (A : List (List DWord)) (l : List DWord)
    (B : List (List DWord)) (W : Set ℕ) (fs' : FatFs) (fp' : Fil) (l' : List DWord) : Prop where
  longer : l <+: l'
  volume : Volume fs' A l' B
  confined : Local fs l' fs'
  buffer : Buffer fs' fp' l'
  bytes : ∀ i < fs.capacity l, i ∉ W → byteAt fs' fp' l' i = byteAt fs fp l i

section Objects

variable {fs fs' : FatFs} {fp fp' : Fil} {A B : List (List DWord)} {l l' : List DWord} {i : ℕ}
  {drive : Drive}

lemma Local.refl (fs : FatFs) (l : List DWord) : Local fs l fs :=
  ⟨.refl fs, Or.inl rfl, fun _ _ _ _ _ => rfl, id⟩

lemma capacity_append (fs : FatFs) (l r : List DWord) :
    fs.capacity (l ++ r) = fs.capacity l + fs.capacity r := by
  rw [capacity, List.length_append, Nat.add_mul, capacity, capacity]

lemma Local.trans {fs'' : FatFs} (h : Local fs l fs') (hpre : l <+: l') (h' : Local fs' l' fs'') :
    Local fs l' fs'' := by
  obtain ⟨r, rfl⟩ := hpre
  refine ⟨h.layout.trans h'.layout, ?_, fun a h0 hc hf ha => ?_, fun hm => h'.copies (h.copies hm)⟩
  · rcases h'.stays with heq | hin
    · rw [Stays, heq]
      exact h.stays
    · exact Or.inr (h.layout.inFat.mp hin)
  · rw [h'.rest a h0 (mt h.layout.isCopy.mp hc) (mt h.layout.inFat.mp hf) fun i hi => ?_,
      h.rest a h0 hc hf fun i hi => ?_]
    · have := ha i (by rw [capacity_append]; omega)
      rwa [sectorOf_append hi] at this
    · rw [h.layout.sectorOf]
      exact ha i (by rwa [h.layout.capacity] at hi)

/-- The sectors of a file are data sectors. -/
lemma Volume.sector (h : Volume fs A l B) (hi : i < fs.capacity l) :
    fs.database.toNat ≤ (fs.sectorOf l i).toNat ∧ fs.sectorOf l i ≠ 0 ∧
      ¬ fs.IsCopy (fs.sectorOf l i) ∧ ¬ fs.InFat (fs.sectorOf l i) := by
  have hle := h.geometry.le_sectorOf h.owns.inVolume hi
  have hb := h.geometry.behind
  have hend := h.owns.table.toArea.toNat_end.2
  have hpos := h.owns.table.base_pos
  refine ⟨hle, fun h0 => ?_, fun hc => ?_, fun hin => ?_⟩
  · rw [h0] at hle
    have : (0 : DWord).toNat = 0 := rfl
    omega
  · have := hc.2
    omega
  · have := hin.2
    omega

/-- They are seen as they are on the drive. -/
lemma Volume.view_sector (h : Volume fs A l B) (hi : i < fs.capacity l) :
    fs.view (fs.sectorOf l i) = fs.drive.sectors (fs.sectorOf l i) :=
  if_neg (h.window i hi)

/-- **Sectors of the file are written.** -/
lemma Volume.store (h : Volume fs A l B) (hrel : drive.Reliable)
    (hsec : ∀ a, (∀ i < fs.capacity l, a ≠ fs.sectorOf l i) →
      drive.sectors a = fs.drive.sectors a) :
    Volume { fs with drive } A l B ∧ Local fs l { fs with drive } := by
  have hlow : ∀ a : DWord, a.toNat < fs.database.toNat →
      drive.sectors a = fs.drive.sectors a := fun a ha => hsec a fun i hi he => by
    have := (h.sector hi).1
    rw [← he] at this
    omega
  obtain ⟨howns, hentry, hmir⟩ := h.owns.store h.geometry hrel hlow
    (hsec _ fun i hi he => h.window i hi he.symm)
  refine ⟨⟨⟨h.geometry.csize, h.geometry.behind, h.geometry.room⟩, howns, fun c hc => ?_,
    h.window⟩, ⟨⟨_, _, _, _, _, _, _, rfl⟩, Or.inl rfl, fun a _ _ _ ha => ?_, hmir⟩⟩
  · rw [hentry _ hc.2]
    exact h.unmarked c hc
  · show (if a = fs.winsect then fs.win else drive.sectors a) =
      if a = fs.winsect then fs.win else fs.drive.sectors a
    rw [hsec a ha]

/-- Nothing is seen outside the FAT of what is done to it. -/
lemma Grown.view_eq {files : List (List DWord)} {a : DWord} (hg : Grown fs fs' files) (h0 : a ≠ 0)
    (hc : ¬ fs.IsCopy a) (hf : ¬ fs.InFat a) : fs'.view a = fs.view a := by
  obtain ⟨E, free, hk⟩ := hg.kept
  exact hk.rest a h0 hc fun h1 => by
    by_contra h2
    exact hf ⟨h1, by omega⟩

lemma Grown.confined {files : List (List DWord)} (hg : Grown fs fs' files)
    (hrel : fs.drive.Reliable) (l : List DWord) : Local fs l fs' := by
  obtain ⟨E, free, hk⟩ := hg.kept
  exact ⟨hk.sameLayout, hg.stays, fun a h0 hc hf _ => hg.view_eq h0 hc hf, (hk.copies hrel).2⟩

/-- **The FAT is used**, and the file may have got longer. -/
lemma Volume.grown (h : Volume fs A l B) (hpre : l <+: l') (hg : Grown fs fs' (A ++ l' :: B))
    (hwin : l' = l ∨ fs.InFat fs'.winsect) : Volume fs' A l' B ∧ Local fs l' fs' ∧
      ∀ i < fs.capacity l, fs'.drive.sectors (fs.sectorOf l i) =
        fs.drive.sectors (fs.sectorOf l i) := by
  have hloc := hg.confined h.owns.reliable l'
  have hlay := hloc.layout
  have hgeo := hlay.geometry h.geometry
  have hwin' : ∀ i < fs'.capacity l', fs'.sectorOf l' i ≠ fs'.winsect := by
    intro i hi he
    have hle := hgeo.le_sectorOf hg.owns.inVolume hi
    have hnot : ¬ fs.InFat fs'.winsect := fun hin => by
      rw [he] at hle
      have h1 := (hlay.inFat.mpr hin).2
      have h2 := hgeo.behind
      have h3 := hg.owns.table.toArea.toNat_end.2
      omega
    obtain rfl := hwin.resolve_right hnot
    rw [hg.stays.resolve_right hnot, hlay.sectorOf] at he
    rw [hlay.capacity] at hi
    exact h.window i hi he
  have hvol : Volume fs' A l' B := ⟨hgeo, hg.owns, hg.unmarked, hwin'⟩
  refine ⟨hvol, hloc, fun i hi => ?_⟩
  obtain ⟨r, rfl⟩ := hpre
  have hi' : i < fs'.capacity (l ++ r) := by
    rw [hlay.capacity, capacity_append]
    omega
  have hsame : fs'.sectorOf (l ++ r) i = fs.sectorOf l i := by
    rw [hlay.sectorOf, sectorOf_append hi]
  obtain ⟨-, h0, hc, hf⟩ := h.sector hi
  rw [← h.view_sector hi, ← hg.view_eq h0 hc hf, ← hsame, hvol.view_sector hi']

/-! ### The buffer and the position -/

/-- A buffer under a volume whose sectors of the file are the same. -/
lemma Buffer.congr (h : Buffer fs fp l) (hlay : SameLayout fs fs') (hpre : l <+: l')
    (horg : fp'.orgClust = l'.headD 0)
    (hsec : ∀ i < fs.capacity l, fs'.drive.sectors (fs.sectorOf l i) =
      fs.drive.sectors (fs.sectorOf l i))
    (hfp : fp' = { fp with orgClust := fp'.orgClust }) :
    Buffer fs' fp' l' ∧ ∀ i < fs.capacity l, byteAt fs' fp' l' i = byteAt fs fp l i := by
  obtain ⟨r, rfl⟩ := hpre
  have hcap : fs'.capacity (l ++ r) = fs.capacity l + fs.capacity r := by
    rw [hlay.capacity, capacity_append]
  have hsame : ∀ i < fs.capacity l, fs'.sectorOf (l ++ r) i = fs.sectorOf l i := fun i hi => by
    rw [hlay.sectorOf, sectorOf_append hi]
  rw [hfp] at horg ⊢
  refine ⟨⟨horg, ?_, fun h0 => ?_, fun hd h0 => ?_, h.dirty⟩, fun i hi => ?_⟩
  · rw [hcap]
    exact h.size.trans (Nat.le_add_right ..)
  · obtain ⟨i, hi, he⟩ := h.held h0
    exact ⟨i, by omega, he.trans (hsame i hi).symm⟩
  · obtain ⟨i, hi, he⟩ := h.held h0
    refine (h.clean hd h0).trans ?_
    show fs.drive.sectors fp.dsect = fs'.drive.sectors fp.dsect
    rw [he, hsec i hi]
  · rw [byteAt, byteAt, hsame i hi, hsec i hi]

/-- What is read of the sector that the buffer holds. -/
lemma Buffer.byteAt_held (h : Buffer fs fp l) (h0 : fp.dsect ≠ 0)
    (hi : fs.sectorOf l i = fp.dsect) : byteAt fs fp l i = fp.buf (i % 512) := by
  rw [byteAt]
  split_ifs with hd
  · rfl
  · rw [hi, h.clean (Bool.eq_false_of_not_eq_true fun ht => hd ⟨ht, hi⟩) h0]

lemma Served.refl (hv : Volume fs A l B) (hb : Buffer fs fp l) :
    Served fs fp A l B ∅ fs fp l :=
  ⟨List.prefix_rfl, hv, .refl fs l, hb, fun _ _ _ => rfl⟩

/-- One thing after the other. -/
lemma Served.trans {W W' : Set ℕ} {fs'' : FatFs} {fp'' : Fil} {l'' : List DWord}
    (h : Served fs fp A l B W fs' fp' l') (h' : Served fs' fp' A l' B W' fs'' fp'' l'') :
    Served fs fp A l B (W ∪ W') fs'' fp'' l'' := by
  refine ⟨h.longer.trans h'.longer, h'.volume, h.confined.trans h'.longer h'.confined, h'.buffer,
    fun i hi hW => ?_⟩
  have hi' : i < fs'.capacity l' := by
    obtain ⟨r, rfl⟩ := h.longer
    rw [h.confined.layout.capacity, capacity_append]
    omega
  rw [h'.bytes i hi' fun hm => hW (Or.inr hm), h.bytes i hi fun hm => hW (Or.inl hm)]

lemma Served.mono {W W' : Set ℕ} (h : Served fs fp A l B W fs' fp' l') (hW : W ⊆ W') :
    Served fs fp A l B W' fs' fp' l' :=
  ⟨h.longer, h.volume, h.confined, h.buffer, fun i hi hm => h.bytes i hi fun hi => hm (hW hi)⟩

/-- The position and the current cluster are nothing that the bytes depend on, nor are the mode
and the flags but for the dirty one. -/
lemma Served.move {W : Set ℕ} (h : Served fs fp A l B W fs' fp' l') (currClust fptr : DWord) :
    Served fs fp A l B W fs' { fp' with currClust, fptr } l' :=
  ⟨h.longer, h.volume, h.confined, ⟨h.buffer.org, h.buffer.size, h.buffer.held, h.buffer.clean,
    h.buffer.dirty⟩, h.bytes⟩

/-- **The FAT is used** for a file, and the file may have got longer. -/
lemma Volume.served (hv : Volume fs A l B) (hb : Buffer fs fp l) (hpre : l <+: l')
    (hg : Grown fs fs' (A ++ l' :: B)) (hwin : l' = l ∨ fs.InFat fs'.winsect)
    (horg : fp'.orgClust = l'.headD 0) (hfp : fp' = { fp with orgClust := fp'.orgClust }) :
    Served fs fp A l B ∅ fs' fp' l' := by
  obtain ⟨hv', hloc, hsec⟩ := hv.grown hpre hg hwin
  obtain ⟨hb', hbytes⟩ := hb.congr hloc.layout hpre horg hsec hfp
  exact ⟨hpre, hv', hloc, hb', fun i hi _ => hbytes i hi⟩

/-- **The buffer is written back.** -/
lemma flushBuf_spec (hv : Volume fs A l B) (hb : Buffer fs fp l) : ∃ fs',
    fs.flushBuf fp = (fs', { fp with faDirty := false }, .ok) ∧
      Served fs fp A l B ∅ fs' { fp with faDirty := false } l := by
  by_cases hd : fp.faDirty = true
  · obtain ⟨drive, hw, hrel, hsec⟩ :=
      hv.owns.reliable.diskWrite_eq fp.dsect fp.buf
    obtain ⟨j, hj, hje⟩ := hb.held (hb.dirty hd)
    obtain ⟨hv', hloc⟩ := hv.store hrel fun a ha => by
      rw [hsec, Function.update_of_ne]
      rw [hje]
      exact ha j hj
    refine ⟨_, ?_, List.prefix_rfl, hv', hloc,
      ⟨hb.org, hb.size, hb.held, fun _ h0 => ?_, by simp⟩, fun i hi _ => ?_⟩
    · rw [flushBuf, if_pos hd, hw]
    · show fp.buf = drive.sectors fp.dsect
      rw [hsec, Function.update_self]
    · show (if _ then fp.buf else drive.sectors (fs.sectorOf l i)) (i % 512) = _
      rw [if_neg fun hand => absurd hand.1 (by simp), hsec, byteAt]
      by_cases he : fs.sectorOf l i = fp.dsect
      · rw [if_pos ⟨hd, he⟩, he, Function.update_self]
      · rw [if_neg fun hand => he hand.2, Function.update_of_ne he]
  · have hd : fp.faDirty = false := Bool.eq_false_of_not_eq_true hd
    have hfp : { fp with faDirty := false } = fp := by rw [← hd]
    rw [hfp]
    exact ⟨fs, by rw [flushBuf, if_neg (by simp [hd])], .refl hv hb⟩

/-- **The buffer is filled** with a sector of the file. -/
lemma fillBuf_spec (hv : Volume fs A l B) (hb : Buffer fs fp l) (hd : fp.faDirty = false)
    {j : ℕ} (hj : j < fs.capacity l) : ∃ fs' buf,
    fs.fillBuf fp (fs.sectorOf l j) = (fs', { fp with buf, dsect := fs.sectorOf l j }, .ok) ∧
      Served fs fp A l B ∅ fs' { fp with buf, dsect := fs.sectorOf l j } l := by
  obtain ⟨drive, hr, hrel, hsec⟩ := hv.owns.reliable.diskRead_eq (fs.sectorOf l j)
  obtain ⟨hv', hloc⟩ := hv.store hrel fun a _ => by rw [hsec]
  refine ⟨_, _, by rw [fillBuf, hr], List.prefix_rfl, hv', hloc,
    ⟨hb.org, hb.size, fun _ => ⟨j, hj, rfl⟩, fun _ _ => ?_, fun ht => ?_⟩, fun i hi _ => ?_⟩
  · show fs.drive.sectors _ = drive.sectors _
    rw [hsec]
  · exact absurd (hd.symm.trans ht) (by simp)
  · show (if _ then _ else drive.sectors (fs.sectorOf l i)) (i % 512) = _
    rw [if_neg fun hand => absurd (hd.symm.trans hand.1) (by simp), hsec, byteAt,
      if_neg fun hand => absurd (hd.symm.trans hand.1) (by simp)]

/-! ### The numbers that are computed from the position -/

variable (fp) in
lemma toNat_csect (hg : Geometry fs) :
    (fs.csect fp).toNat = fp.fptr.toNat / 512 % fs.csize.toNat := by
  obtain ⟨k, hk, hc⟩ := hg.csize
  have hpow : 2 ^ k ≤ 2 ^ 7 := Nat.pow_le_pow_right (by norm_num) hk
  have hone := Nat.one_le_two_pow (n := k)
  have hw : (fs.csize.setWidth 32 : DWord).toNat = 2 ^ k := by
    rw [BitVec.toNat_setWidth, hc, Nat.mod_eq_of_lt (by omega)]
  have hmask : (fs.csize.setWidth 32 - 1 : DWord).toNat = 2 ^ k - 1 := by
    rw [BitVec.toNat_sub_of_le (BitVec.le_def.mpr (by
      rw [hw]
      exact hone)), hw]
    rfl
  have hlt := Nat.mod_lt (fp.fptr.toNat / 512) hone
  rw [csect, BitVec.toNat_setWidth, BitVec.toNat_and, hmask, Nat.and_two_pow_sub_one_eq_mod,
    BitVec.toNat_udiv, hc, show (512 : DWord).toNat = 512 from rfl]
  exact Nat.mod_eq_of_lt (by omega)

variable (fp) in
lemma toNat_inSector (n : DWord) :
    (inSector fp n).toNat = min n.toNat (512 - fp.fptr.toNat % 512) := by
  have hmod : (fp.fptr % 512).toNat = fp.fptr.toNat % 512 := toNat_mod_sector _
  have hsub : (512 - fp.fptr % 512 : DWord).toNat = 512 - fp.fptr.toNat % 512 := by
    rw [BitVec.toNat_sub_of_le (BitVec.le_def.mpr (by
      rw [hmod, show (512 : DWord).toNat = 512 from rfl]
      omega)), hmod]
    rfl
  rw [inSector]
  by_cases h : n < 512 - fp.fptr % 512
  · rw [if_pos h]
    have := BitVec.lt_def.mp h
    omega
  · rw [if_neg h]
    have := mt BitVec.lt_def.mpr h
    omega

variable (fp) in
/-- The sectors up to the end of the cluster, but no more than are left to do. -/
lemma toNat_clip (hg : Geometry fs) (cc : DWord) (hcc : cc.toNat < 2 ^ 31) :
    (fs.clip (fs.csect fp) cc).toNat =
      min cc.toNat (fs.csize.toNat - fp.fptr.toNat / 512 % fs.csize.toNat) := by
  have hpos := hg.csize_pos
  have hc := toNat_csect fp hg
  have hlt := Nat.mod_lt (fp.fptr.toNat / 512) hpos.1
  have hw : ∀ x : Byte, (x.setWidth 32 : DWord).toNat = x.toNat := fun x => by
    rw [BitVec.toNat_setWidth, Nat.mod_eq_of_lt (by have := x.isLt; omega)]
  have hadd : ((fs.csect fp).setWidth 32 + cc : DWord).toNat = (fs.csect fp).toNat + cc.toNat := by
    rw [BitVec.toNat_add, hw, Nat.mod_eq_of_lt (by omega)]
  rw [clip]
  by_cases h : fs.csize.setWidth 32 < (fs.csect fp).setWidth 32 + cc
  · rw [if_pos h, BitVec.toNat_sub_of_le (BitVec.le_def.mpr (by rw [hw, hw]; omega)), hw, hw]
    have := BitVec.lt_def.mp h
    rw [hw, hadd] at this
    omega
  · rw [if_neg h]
    have := mt BitVec.lt_def.mpr h
    rw [hw, hadd] at this
    omega

/-- **The current sector** is that of the position, once the current cluster is. -/
lemma sect_spec (hv : Volume fs A l B)
    (hcur : l[fp.fptr.toNat / fs.clusterBytes]? = some fp.currClust) :
    fs.sect fp = .ok (fs.sectorOf l fp.fptr.toNat) := by
  have hcl : fs.IsCluster fp.currClust := hv.owns.inVolume _ (List.mem_of_getElem? hcur)
  have hfirst := hv.geometry.toNat_clust2sect hcl
  have hpos := hv.owns.table.base_pos
  have hbehind := hv.geometry.behind
  rw [sect, if_neg fun h0 => ?_]
  · rw [sectorOf, dataSector, List.getD_eq_getElem?_getD, hcur, Option.getD_some,
      (div_clusterBytes fs _).2, ← toNat_csect fp hv.geometry, BitVec.ofNat_toNat]
  · rw [h0, show (0 : DWord).toNat = 0 from rfl] at hfirst
    omega

/-- The number of a cluster is none of those that say there is none. -/
lemma Volume.cluster_ne {c : DWord} (hv : Volume fs A l B) (hc : c ∈ l) :
    ¬ c ≤ 1 ∧ c ≠ 0 ∧ c ≠ 1 ∧ c ≠ 0xFFFFFFFF := by
  have hcl := hv.owns.inVolume c hc
  have hne := hv.owns.isCluster_ne hcl
  refine ⟨fun h1 => ?_, fun h0 => ?_, fun h1 => ?_, fun hall => hne (Or.inr hall)⟩
  · have := BitVec.le_def.mp h1
    have := hcl.1
    rw [show (1 : DWord).toNat = 1 from rfl] at *
    omega
  · exact absurd hcl.1 (by rw [h0]; decide)
  · exact absurd hcl.1 (by rw [h1]; decide)

/-- The number of the cluster of a byte. -/
lemma lt_of_capacity (hi : i < fs.capacity l) :
    i / fs.clusterBytes < l.length := Nat.div_lt_of_lt_mul (by rwa [Nat.mul_comm])

/-- The position is on a cluster boundary, or in the current cluster. -/
lemma Placed.cluster (h : Placed fs fp l) (hmid : fp.fptr.toNat % fs.clusterBytes ≠ 0) :
    l[fp.fptr.toNat / fs.clusterBytes]? = some fp.currClust := by
  have hpos : 0 < fp.fptr.toNat := Nat.pos_of_ne_zero fun h0 => hmid (by rw [h0, Nat.zero_mod])
  have hcurr := h.curr hpos
  obtain ⟨m, hm⟩ : ∃ m, fp.fptr.toNat = m + 1 := ⟨_, (Nat.succ_pred_eq_of_pos hpos).symm⟩
  rw [hm, Nat.add_sub_cancel] at hcurr
  rwa [hm, Nat.succ_div, if_neg (by rw [Nat.dvd_iff_mod_eq_zero, ← hm]; exact hmid)]

/-- On a cluster boundary the current cluster is the one before it. -/
lemma Placed.before (h : Placed fs fp l) (hpos : 0 < fp.fptr.toNat)
    (hbound : fp.fptr.toNat % fs.clusterBytes = 0) :
    ∃ k, fp.fptr.toNat / fs.clusterBytes = k + 1 ∧ l[k]? = some fp.currClust := by
  have hcurr := h.curr hpos
  obtain ⟨m, hm⟩ : ∃ m, fp.fptr.toNat = m + 1 := ⟨_, (Nat.succ_pred_eq_of_pos hpos).symm⟩
  rw [hm, Nat.add_sub_cancel] at hcurr
  refine ⟨m / fs.clusterBytes, ?_, hcurr⟩
  rw [hm, Nat.succ_div, if_pos (by rw [Nat.dvd_iff_mod_eq_zero, ← hm]; exact hbound)]

/-- The position within its cluster and within its sector. -/
lemma Geometry.boundary (hg : Geometry fs) (h512 : fp.fptr.toNat % 512 = 0) :
    fs.csect fp = 0 ↔ fp.fptr.toNat % fs.clusterBytes = 0 := by
  have hdiv := Nat.div_add_mod (fp.fptr.toNat % fs.clusterBytes) 512
  have hmod := mod_clusterBytes fs fp.fptr.toNat
  rw [(div_clusterBytes fs _).2, hmod, h512, ← toNat_csect fp hg] at hdiv
  rw [← hdiv, ← BitVec.toNat_inj, show (0 : Byte).toNat = 0 from rfl]
  omega

lemma mod_sector_iff : fp.fptr % 512 = 0 ↔ fp.fptr.toNat % 512 = 0 := by
  rw [← BitVec.toNat_inj, toNat_mod_sector]
  rfl

/-- Up to the end of a sector is not behind the end of its cluster. -/
lemma Geometry.fits (hg : Geometry fs) {n : ℕ} (h : i % 512 + n ≤ 512) :
    i % fs.clusterBytes + n ≤ fs.clusterBytes := by
  have hmod := mod_clusterBytes fs i
  have hlt := Nat.mod_lt i hg.clusterBytes_pos
  have hcb : fs.clusterBytes = 512 * fs.csize.toNat := rfl
  omega

/-- Nor are whole sectors, as many as there are behind the first one. -/
lemma fits_sectors {n : ℕ} (h512 : i % 512 = 0)
    (h : i / 512 % fs.csize.toNat + n ≤ fs.csize.toNat) :
    i % fs.clusterBytes + 512 * n ≤ fs.clusterBytes := by
  have h1 := (div_clusterBytes fs i).2
  have h2 := mod_clusterBytes fs i
  have h3 : fs.clusterBytes = 512 * fs.csize.toNat := rfl
  omega

/-- A chain has room for the whole cluster of a byte. -/
lemma add_le_capacity {n : ℕ} (hi : i < fs.capacity l)
    (h : i % fs.clusterBytes + n ≤ fs.clusterBytes) : i + n ≤ fs.capacity l := by
  have hlt : i / fs.clusterBytes < l.length := Nat.div_lt_of_lt_mul (by rwa [Nat.mul_comm])
  have hmul : (i / fs.clusterBytes + 1) * fs.clusterBytes ≤ l.length * fs.clusterBytes :=
    Nat.mul_le_mul_right _ hlt
  have hdm := Nat.div_add_mod i fs.clusterBytes
  rw [Nat.succ_mul, Nat.mul_comm] at hmul
  rw [capacity]
  omega

variable (fp) in
/-- **The position is moved on** within the current cluster. -/
lemma Placed.advance {n : DWord} (hcur : l[fp.fptr.toNat / fs.clusterBytes]? = some fp.currClust)
    (hn : 0 < n.toNat) (hle : fp.fptr.toNat % fs.clusterBytes + n.toNat ≤ fs.clusterBytes)
    (hover : fp.fptr.toNat + n.toNat < 2 ^ 32)
    (hin : (fp.fptr.toNat + n.toNat) % 512 ≠ 0 →
      fp.dsect = fs.sectorOf l (fp.fptr.toNat + n.toNat)) :
    Placed fs { fp with fptr := fp.fptr + n } l := by
  have hadd : (fp.fptr + n).toNat = fp.fptr.toNat + n.toNat := by
    rw [BitVec.toNat_add, Nat.mod_eq_of_lt hover]
  have hlt : fp.fptr.toNat / fs.clusterBytes < l.length :=
    (List.getElem?_eq_some_iff.mp hcur).1
  have hdm := Nat.div_add_mod fp.fptr.toNat fs.clusterBytes
  refine ⟨?_, fun _ => ?_, fun h => ?_⟩
  · show (fp.fptr + n).toNat ≤ l.length * fs.clusterBytes
    have : (fp.fptr.toNat / fs.clusterBytes + 1) * fs.clusterBytes ≤ l.length * fs.clusterBytes :=
      Nat.mul_le_mul_right _ hlt
    rw [Nat.succ_mul, Nat.mul_comm] at this
    omega
  · show l[((fp.fptr + n).toNat - 1) / fs.clusterBytes]? = _
    rw [hadd, ← hcur]
    congr 1
    refine Nat.div_eq_of_lt_le ?_ ?_
    · rw [Nat.mul_comm]
      omega
    · rw [Nat.succ_mul, Nat.mul_comm]
      omega
  · have h : (fp.fptr + n).toNat % 512 ≠ 0 := h
    show fp.dsect = fs.sectorOf l (fp.fptr + n).toNat
    rw [hadd] at h ⊢
    exact hin h

end Objects

end FatFs

end ChinaOS
