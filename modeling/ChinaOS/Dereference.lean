import ChinaOS.Session
import ChinaOS.Visits

/-!
Where the fields lie that `malloc` and `free` read and write.

* `Belongs`: a field of a chunk, of the header at the end of a bank, of a list head, or a tree
  slot. `Real`: it is one in the heap. `Dereferences`: a call accesses only such fields, and none
  through `NULL`.
* `HeapInv.within_malloc_of`, `HeapInv.within_free`: the accesses of the calls.
  `HeapInv.malloc_through_null`: a chunk that `malloc` does not cut is followed by an access
  through `NULL`.
* `dereferences_iff`: the law holds for each `free`, and for a `malloc` exactly if no free chunk
  fits with less than 16 bytes to spare.
-/

namespace ChinaOS

namespace Heap

open Records Tiling Traced

/-- The field lies in one of the chunks, where a link is one of a free chunk, in a header at the
end of a bank, in a list head, or it is a tree slot. -/
def Belongs (chunk : ℕ → Piece → Prop) (last : ℕ → Prop) (x : Access) : Prop :=
  (∃ t, chunk x.pointer t ∧ x.field ≠ .slot ∧ x.field.offset + 4 ≤ t.size ∧
    (8 ≤ x.field.offset → t.used = false)) ∨
  (last x.pointer ∧ (x.field = .prevInfo ∨ x.field = .thisInfo)) ∨
  (∃ i < 32, x.pointer = getSameChunkGroup i ∧ (x.field = .freeNext ∨ x.field = .freePrev)) ∨
  ∃ i < 32, x.pointer = treeSlot i ∧ x.field = .slot

/-- The field is one of the heap. -/
def Real (banks : List Bank) (h : Heap) : Access → Prop :=
  Belongs (h.ChunkAt banks) fun p => ∃ b ∈ banks, p = (interval b).2

/-- The call returns, and each field that it reads or writes is one of the heap before it or of
the heap behind it, and is not accessed through `NULL`. -/
def Dereferences {α : Type} (banks : List Bank) (h : Heap) (call : Logged α) : Prop :=
  ∃ a h' log, call h = some (a, h', log) ∧
    ∀ x ∈ log, x.pointer ≠ null ∧ (Real banks h x ∨ Real banks h' x)

/-- The field is one of the heap with the chunks `c`. -/
def Allowed (B : Set (ℕ × ℕ)) (c : ℕ → Option Piece) : Access → Prop :=
  Belongs (fun a t => c a = some t) fun p => ∃ b ∈ B, p = b.2

/-- There is a header at `p`. -/
def Headed (B : Set (ℕ × ℕ)) (c : ℕ → Option Piece) (p : ℕ) : Prop :=
  (c p).isSome ∨ ∃ b ∈ B, p = b.2

section Dereference

variable {α : Type} {B : Set (ℕ × ℕ)} {banks : List Bank} {h h' h₀ : Heap}
  {c c' : ℕ → Option Piece} {F : ℕ → Option ℕ} {V : Access → Prop} {a n k p x : ℕ} {f : Field}
  {t : Piece}

/-! ### The fields of a heap -/

lemma HeapInv.real_iff (hi : HeapInv (bankSet banks) h c) {x : Access} :
    Real banks h x ↔ Allowed (bankSet banks) c x := by
  refine or_congr (exists_congr fun t => and_congr_left' hi.chunkAt_iff)
    (or_congr (and_congr_left' ?_) Iff.rfl)
  constructor
  · rintro ⟨b, hb, hp⟩
    exact ⟨_, ⟨b, hb, rfl⟩, hp⟩
  · rintro ⟨-, ⟨b, hb, rfl⟩, hp⟩
    exact ⟨b, hb, hp⟩

/-- No field of a heap lies at `NULL`. -/
lemma Allowed.ne_null (hl : Layout B c) {x : Access} (hx : Allowed B c x) : x.pointer ≠ null := by
  rcases hx with ⟨t, ht, -⟩ | ⟨⟨b, hb, hp⟩, -⟩ | ⟨i, -, hp, -⟩ | ⟨i, -, hp, -⟩
  · exact (hl.pos ht).ne'
  · have := hl.tiling.nonempty b hb
    rw [hp, null]
    omega
  · rw [hp, getSameChunkGroup, mallocor, null]
    omega
  · rw [hp, treeSlot, mallocor, null]
    omega

/-- The words of a header. -/
lemma allowed_header (hl : Layout B c) (hp : Headed B c p) (hf : f = .prevInfo ∨ f = .thisInfo) :
    Allowed B c ⟨p, f⟩ := by
  rcases hp with hp | hp
  · obtain ⟨t, ht⟩ := Option.isSome_iff_exists.mp hp
    have hsize := (hl.size p t ht).1
    have hoffset : f ≠ .slot ∧ f.offset ≤ 4 := by
      rcases hf with rfl | rfl
      · exact ⟨by simp, by decide⟩
      · exact ⟨by simp, by decide⟩
    exact Or.inl ⟨t, ht, hoffset.1, by dsimp only; omega, fun h => by dsimp only at h; omega⟩
  · exact Or.inr (Or.inl ⟨hp, hf⟩)

lemma headed_of_some (hc : c a = some t) : Headed B c a := Or.inl (by rw [hc]; rfl)

/-- Behind a chunk there is a header. -/
lemma headed_next (hl : Layout B c) (hc : c a = some t) : Headed B c (a + t.size) := by
  obtain ⟨b, hb, -, -, hend | ⟨t', ht', -⟩⟩ := hl.tiling.next_cases hc
  · exact Or.inr ⟨b, hb, hend⟩
  · exact headed_of_some ht'

/-- A chunk that changes its mark keeps the headers. -/
lemma headed_mark (hx : c x = some t) {t' : Piece}
    (hp : Headed B (Function.update c x (some t')) p) : Headed B c p := by
  refine hp.imp_left fun hp => ?_
  by_cases hpx : p = x
  · rw [hpx, hx]
    rfl
  · rwa [Function.update_of_ne hpx] at hp

/-- A merge makes no new headers. -/
lemma Absorbed.headed {a' : ℕ} (habs : Absorbed c a c' a') (hp : Headed B c' p) :
    Headed B c p := by
  refine hp.imp_left fun hp => ?_
  by_cases hpa : p = a'
  · rw [hpa]
    exact habs.1
  · obtain ⟨t, ht⟩ := Option.isSome_iff_exists.mp hp
    rw [(habs.2 p t hpa ht).2]
    rfl

/-- **What the functions on the bins access** are fields of the heap. -/
lemma allowed_of_permits (hl : Layout B c) (hF : ∀ a n, F a = some n → c a = some ⟨n, false⟩)
    {x : Access} (hx : Permits F x) : Allowed B c x := by
  have hchunk : ∀ {p n f}, F p = some n → f ≠ .slot → f.offset + 4 ≤ n → Allowed B c ⟨p, f⟩ :=
    fun hn hf ho => Or.inl ⟨_, hF _ _ hn, hf, ho, fun _ => rfl⟩
  have hlarge : ∀ {p f}, LargeNode F p → f ≠ .slot → f.offset ≤ 28 → Allowed B c ⟨p, f⟩ :=
    fun ⟨n, hn, hlt⟩ hf ho => hchunk hn hf (by omega)
  have hlist : ∀ {p f}, f = .freeNext ∨ f = .freePrev → SmallNode F p ∨ LargeNode F p →
      Allowed B c ⟨p, f⟩ := by
    rintro p f hf ((⟨n, hn, -⟩ | ⟨i, hi, rfl⟩) | hp)
    · have hsize : 16 ≤ n := (hl.size _ _ (hF _ _ hn)).1
      rcases hf with rfl | rfl
      · exact hchunk hn (by simp) (by simp only [Field.offset]; omega)
      · exact hchunk hn (by simp) (by simp only [Field.offset]; omega)
    · exact Or.inr (Or.inr (Or.inl ⟨i, hi, rfl, hf⟩))
    · rcases hf with rfl | rfl
      · exact hlarge hp (by simp) (by decide)
      · exact hlarge hp (by simp) (by decide)
  obtain ⟨p, f⟩ := x
  rcases hx with hx | ⟨rfl, hp⟩
  · cases f with
    | prevInfo => exact hx.elim
    | thisInfo => exact hx.elim
    | freeNext => exact hlist (Or.inl rfl) hx
    | freePrev => exact hlist (Or.inr rfl) hx
    | child k =>
        obtain ⟨hk, hp⟩ := hx
        exact hlarge hp (by simp) (by simp only [Field.offset]; omega)
    | parent => exact hlarge hx (by simp) (by decide)
    | index => exact hlarge hx (by simp) (by decide)
    | slot => exact Or.inr (Or.inr (Or.inr (by obtain ⟨i, hi, hp⟩ := hx; exact ⟨i, hi, hp, rfl⟩)))
  · exact hlarge hp (by simp) (by decide)

/-! ### `malloc` -/

/-- The chunk goes into the bins. -/
lemma Taken.within_checkin (ht : Taken B h c x n) :
    Within (Allowed B c) (Logged.checkinFreeChunk x n) (fun _ _ => True) h := by
  have hfree : freeOf c x = some n := freeOf_eq_some.mpr ht.chunk
  have hback : Function.update (Function.update (freeOf c) x none) x (some n) = freeOf c := by
    rw [Function.update_idem, ← hfree, Function.update_eq_self]
  have hchunks : Chunks (Function.update (Function.update (freeOf c) x none) x (some n)) := by
    rw [hback]
    exact ht.layout.chunks
  have hwithin := Logged.within_checkinFreeChunk ht.bins (Function.update_self ..) hchunks
  rw [hback] at hwithin
  exact hwithin.mono (fun _ => allowed_of_permits ht.layout fun _ _ => freeOf_eq_some.mp)
    fun _ _ h => h

/-- **A chunk is cut in two**, and the rest goes into the bins. -/
lemma Taken.within_takeChunk (ht : Taken B h c x n) {R : Int32U} (hR : 16 ≤ R.toNat)
    (hfit : R.toNat + 24 ≤ n) (hR4 : R.toNat % 4 = 0) :
    Within (fun y => Allowed B c y ∨ Allowed B (allocated c x n (R.toNat + 8)) y)
      (Logged.takeChunk x R) (fun _ _ => True) h := by
  have hl := ht.layout
  have hx : x ≠ null := (hl.pos ht.chunk).ne'
  have hle : x + n + 8 ≤ 2 ^ 32 := hl.le ht.chunk
  have hinfo : h.thisInfo x = n := ht.tags.this x _ ht.chunk
  have hk : wadd R.toNat chunkHead = R.toNat + 8 := wadd_of_lt (by rw [chunkHead]; omega)
  have hrest : wsub n (R.toNat + 8) = n - (R.toNat + 8) := wsub_of_le (by omega) (by omega)
  have hlarge : ¬ n - (R.toNat + 8) < minChunkSize := by
    rw [minChunkSize]
    omega
  have hcut := ht.cut (k := R.toNat + 8) (by omega) (by omega) (by omega)
  have hself : Headed B c x := headed_of_some ht.chunk
  have hnext : Headed B c (x + n) := headed_next hl ht.chunk
  have hnew := headed_of_some (B := B) hcut.chunk
  have hsplit := ht.splite_cut (k := R.toNat + 8) (by omega) (by omega) hlarge
  rw [Logged.takeChunk, if_pos hx, hk, allocated, if_neg hlarge]
  refine Within.bind_erase (Q := fun _ _ => True) ?_
    ((Logged.erase_spliteFreeChunk ..).trans (congrArg some hsplit)) ?_
  · rw [Logged.spliteFreeChunk]
    refine Logged.within_load (Or.inl (allowed_header hl hself (Or.inr rfl))) ?_
    rw [show h.get x .thisInfo = n from hinfo, hrest]
    refine within_ite (fun hsmall => absurd hsmall hlarge) fun _ => ?_
    refine Logged.within_store (Or.inr (allowed_header hcut.layout hnew (Or.inl rfl))) ?_
    refine Logged.within_store (Or.inl (allowed_header hl hself (Or.inr rfl))) ?_
    refine Logged.within_store (Or.inl (allowed_header hl hnext (Or.inl rfl))) ?_
    refine Logged.within_store (Or.inr (allowed_header hcut.layout hnew (Or.inr rfl))) ?_
    exact within_pure trivial
  · refine Logged.within_load (Or.inr (allowed_header hcut.layout hnew (Or.inr rfl))) ?_
    have hsize : (h.cutInfo x n (R.toNat + 8)).get (x + (R.toNat + 8)) .thisInfo =
        n - (R.toNat + 8) := hcut.tags.this _ _ hcut.chunk
    rw [hsize]
    exact hcut.within_checkin.mono (fun _ => Or.inr) fun _ _ h => h

section Malloc

variable {Size R : Int32U}

/-- The lock is taken without an access. -/
lemma HeapInv.erase_lockWait (hi : HeapInv B h c) :
    (change lockWait : Logged Unit).erase h = some ({ h with lock := 0 }, ()) := by
  rw [erase_change, hi.lockWait_eq]
  rfl

/-- The accesses of `malloc` before it takes the chunk that it found. -/
lemma HeapInv.within_malloc_of (hi : HeapInv B h c)
    (hcheck : ({ h with lock := 0 } : Heap).checkoutChunk (alignUpside (Size + 16#32) 4) =
      some (h', x, R))
    (htake : Within V (Logged.takeChunk x R) (fun _ _ => True) h')
    (hV : ∀ y, Allowed B c y → V y) : Within V (Logged.malloc Size) (fun _ _ => True) h := by
  have hl := hi.layout
  refine Within.bind_erase (Q := fun _ _ => True) (within_change fun _ _ => trivial)
    hi.erase_lockWait ?_
  refine Within.bind_erase (Q := fun _ _ => True) ?_
    ((Logged.erase_checkoutChunk _).trans hcheck) ?_
  · refine (Logged.within_checkoutChunk hi.locked_bins hl.chunks _).mono (fun y hy => ?_)
      fun _ _ h => h
    exact hV y (allowed_of_permits hl (fun _ _ => freeOf_eq_some.mp) hy)
  · exact htake.bind fun _ _ _ => Logged.within_modify (within_pure trivial)

/-- **A chunk that is not cut.** The rest of it, `NULL`, is read like a chunk. -/
lemma HeapInv.malloc_through_null (hi : HeapInv B h c)
    (hcheck : ({ h with lock := 0 } : Heap).checkoutChunk (alignUpside (Size + 16#32) 4) =
      some (h', x, R)) (ht : Taken B h' c x n) (hfit : R.toNat + 8 ≤ n) (hR : n < R.toNat + 24)
    {Q : ℕ → Heap → Prop} (ho : Only V (Logged.malloc Size) Q h) : V ⟨null, .thisInfo⟩ := by
  have hl := ht.layout
  have hx : x ≠ null := (hl.pos ht.chunk).ne'
  have hle : x + n + 8 ≤ 2 ^ 32 := hl.le ht.chunk
  have hk : wadd R.toNat chunkHead = R.toNat + 8 := wadd_of_lt (by rw [chunkHead]; omega)
  have hsplit := ht.splite_whole hfit (by rw [minChunkSize]; omega)
  rw [Logged.malloc, only_bind] at ho
  have ho₁ := ho.post hi.erase_lockWait
  rw [only_bind] at ho₁
  have ho₂ := ho₁.post ((Logged.erase_checkoutChunk _).trans hcheck)
  rw [only_bind, Logged.takeChunk, if_pos hx, hk, only_bind] at ho₂
  have ho₃ := ho₂.post ((Logged.erase_spliteFreeChunk ..).trans (congrArg some hsplit))
  rw [only_bind] at ho₃
  exact (only_read.mp ho₃).1

end Malloc

/-! ### `free` -/

/-- What a merge accesses: headers, and the bins without the chunk. -/
lemma Taken.within_mergePrev (ht : Taken B h c a n)
    (hpermit : ∀ y, Permits (Function.update (freeOf c) a none) y → V y)
    (hhead : ∀ p, Headed B c p → V ⟨p, .prevInfo⟩ ∧ V ⟨p, .thisInfo⟩) :
    Within V (Logged.mergePrev a n (a + n)) (fun _ _ => True) h := by
  have hl := ht.layout
  rw [Logged.mergePrev]
  refine Logged.within_load (hhead a (headed_of_some ht.chunk)).1 ?_
  rw [show h.get a .prevInfo = h.prevInfo a from rfl]
  rcases hl.tiling.prev_cases ht.chunk with ⟨b, hb, rfl⟩ | ⟨y, ⟨m, u⟩, hy, rfl⟩
  · refine within_ite (fun hbit => ?_) fun _ => within_pure trivial
    rw [ht.tags.start b hb] at hbit
    exact absurd hbit (by decide)
  · obtain ⟨hm16, hm4, -⟩ := hl.size y _ hy
    have hprev : h.prevInfo (y + m) = info ⟨m, u⟩ := ht.tags.prev y _ hy
    rw [hprev]
    cases u with
    | true =>
        refine within_ite (fun hbit => absurd hbit (and_one_of_used hm4)) fun _ => ?_
        exact within_pure trivial
    | false =>
        have hle := hl.le ht.chunk
        dsimp only at hm16 hle ⊢
        have hfree : Function.update (freeOf c) (y + m) none y = some m := by
          rw [Function.update_of_ne (by omega)]
          exact freeOf_eq_some.mpr hy
        rw [show info ⟨m, false⟩ = m from rfl, chunkHead, wsub_of_le (by omega) (by omega),
          wsub_of_le (by omega) (by omega), Nat.add_sub_cancel]
        refine within_ite (fun _ => ?_) fun _ => within_pure trivial
        refine ((Logged.within_unlinkChunk ht.bins hl.chunks.erase hfree).mono hpermit
          fun _ _ h => h).bind fun _ _ _ => ?_
        refine Logged.within_store (hhead _ (headed_next hl ht.chunk)).1 ?_
        refine Logged.within_store (hhead y (headed_of_some hy)).2 ?_
        exact within_pure trivial

lemma Taken.within_mergeNext (ht : Taken B h c a n)
    (hpermit : ∀ y, Permits (Function.update (freeOf c) a none) y → V y)
    (hhead : ∀ p, Headed B c p → V ⟨p, .prevInfo⟩ ∧ V ⟨p, .thisInfo⟩) :
    Within V (Logged.mergeNext a n (a + n)) (fun _ _ => True) h := by
  have hl := ht.layout
  have hself := hhead a (headed_of_some ht.chunk)
  rw [Logged.mergeNext]
  refine Logged.within_load (hhead _ (headed_next hl ht.chunk)).2 ?_
  rw [show h.get (a + n) .thisInfo = h.thisInfo (a + n) from rfl]
  obtain ⟨b, hb, -, -, hend | ⟨⟨k, u⟩, hk, hkb⟩⟩ := hl.tiling.next_cases ht.chunk
  · dsimp only at hend
    refine within_ite (fun hbit => ?_) fun _ => within_pure trivial
    rw [hend, ht.tags.last b hb] at hbit
    exact absurd hbit (by decide)
  · obtain ⟨hk16, hk4, -⟩ := hl.size _ _ hk
    have hnext : h.thisInfo (a + n) = info ⟨k, u⟩ := ht.tags.this _ _ hk
    rw [hnext]
    cases u with
    | true =>
        refine within_ite (fun hbit => absurd hbit (and_one_of_used hk4)) fun _ => ?_
        exact within_pure trivial
    | false =>
        have hn16 : 16 ≤ n := (hl.size a _ ht.chunk).1
        have hle := hl.le hk
        dsimp only at hk16 hle hk
        have hfree : Function.update (freeOf c) a none (a + n) = some k := by
          rw [Function.update_of_ne (by omega)]
          exact freeOf_eq_some.mpr hk
        rw [show info ⟨k, false⟩ = k from rfl, chunkHead]
        dsimp only
        rw [wsub_of_le (by omega) (by omega), wadd_of_lt (show a + n + k < 2 ^ 32 by omega)]
        refine within_ite (fun _ => ?_) fun _ => within_pure trivial
        refine ((Logged.within_unlinkChunk ht.bins hl.chunks.erase hfree).mono hpermit
          fun _ _ h => h).bind fun _ _ _ => ?_
        refine Logged.within_store (hhead _ (headed_next hl hk)).1 ?_
        exact Logged.within_store hself.2 (within_pure trivial)

/-- **The accesses of `free`.** -/
theorem HeapInv.within_free (hi : HeapInv B h c) (hx : c x = some ⟨n, true⟩) :
    ∃ h' c', h.free (x + 8) = some h' ∧ HeapInv B h' c' ∧
      Within (fun y => Allowed B c y ∨ Allowed B c' y) (Logged.free (x + 8)) (fun _ _ => True)
        h := by
  have hl := hi.layout
  have hn16 := (hl.size x _ hx).1
  have hle := hl.le hx
  dsimp only at hn16 hle
  obtain ⟨h₂, c₂, a, n₂, h₃, c₃, n₃, h₄, hprev, ht₂, hend, habs, hnext, ht₃, hcall, hi', -⟩ :=
    hi.free_steps hx
  obtain ⟨ht₁, -, hfree⟩ := hi.release hx
  have hheader : ∀ p, Headed B c p → Allowed B c ⟨p, .prevInfo⟩ ∧ Allowed B c ⟨p, .thisInfo⟩ :=
    fun p hp => ⟨allowed_header hl hp (Or.inl rfl), allowed_header hl hp (Or.inr rfl)⟩
  have hself := hheader x (headed_of_some hx)
  have hbehind : Headed B c (x + n) := headed_next hl hx
  have hfirst : Within (Allowed B c) (Logged.mergePrev x n (x + n)) (fun _ _ => True)
      (({ h with lock := 0 } : Heap).setInfo x n n) := by
    refine ht₁.within_mergePrev (fun y hy => ?_) fun p hp => hheader p (headed_mark hx hp)
    rw [hfree] at hy
    exact allowed_of_permits hl (fun _ _ => freeOf_eq_some.mp) hy
  have hsecond : Within (Allowed B c) (Logged.mergeNext a n₂ (x + n)) (fun _ _ => True) h₂ := by
    rw [← hend]
    refine ht₂.within_mergeNext (fun y hy => ?_) fun p hp =>
      hheader p (headed_mark hx (habs.headed hp))
    refine allowed_of_permits hl (fun z m hz => ?_) hy
    obtain ⟨hza, hz⟩ := eq_some_of_erase hz
    obtain ⟨hzx, hcz⟩ := habs.2 z _ hza (freeOf_eq_some.mp hz)
    rwa [Function.update_of_ne hzx] at hcz
  refine ⟨h₄, c₃, hcall, hi', ?_⟩
  rw [Logged.free, if_neg (show x + 8 ≠ null from Nat.succ_ne_zero _)]
  refine Within.bind_erase (Q := fun _ _ => True) (within_change fun _ _ => trivial)
    hi.erase_lockWait ?_
  rw [chunkHead, wsub_of_le (by omega) (by omega), Nat.add_sub_cancel]
  refine Logged.within_load (Or.inl hself.2) ?_
  rw [show ({ h with lock := 0 } : Heap).get x .thisInfo &&& 0xFFFFFFFE = n from hi.thisInfo_and hx]
  dsimp only
  rw [wadd_of_lt (by omega)]
  refine Logged.within_store (Or.inl (hheader _ hbehind).1) ?_
  refine Logged.within_store (Or.inl hself.2) ?_
  refine Within.bind_erase (hfirst.mono (fun _ => Or.inl) fun _ _ h => h)
    ((Logged.erase_mergePrev ..).trans hprev) ?_
  refine Within.bind_erase (hsecond.mono (fun _ => Or.inl) fun _ _ h => h)
    ((Logged.erase_mergeNext ..).trans hnext) ?_
  refine (ht₃.within_checkin.mono (fun _ => Or.inr) fun _ _ h => h).bind fun _ _ _ => ?_
  exact within_change fun _ _ => trivial

/-! ### The law -/

lemma dereferences_of_within {call : Logged α} {Q : α → Heap → Prop} {r : α}
    (hw : Within V call Q h) (he : call.erase h = some (h', r))
    (hV : ∀ y, V y → y.pointer ≠ null ∧ (Real banks h y ∨ Real banks h' y)) :
    Dereferences banks h call := by
  obtain ⟨⟨b, h₁, log⟩, heq, hb⟩ := Option.map_eq_some_iff.mp he
  obtain rfl : h₁ = h' := (Prod.mk.inj hb).1
  exact ⟨b, h₁, log, heq, fun y hy => hV y ((hw _ heq).1 y hy)⟩

lemma Dereferences.only {call : Logged α} (hd : Dereferences banks h call) :
    Only (fun y => y.pointer ≠ null) call (fun _ _ => True) h := by
  obtain ⟨b, h', log, heq, hlog⟩ := hd
  exact ⟨_, heq, fun y hy => (hlog y hy).1, trivial⟩

/-- The fields of the heaps before and behind a call. -/
lemma HeapInv.proper (hi : HeapInv (bankSet banks) h c) (hi' : HeapInv (bankSet banks) h' c')
    {y : Access} (hy : Allowed (bankSet banks) c y ∨ Allowed (bankSet banks) c' y) :
    y.pointer ≠ null ∧ (Real banks h y ∨ Real banks h' y) := by
  rcases hy with hy | hy
  · exact ⟨hy.ne_null hi.layout, Or.inl (hi.real_iff.mpr hy)⟩
  · exact ⟨hy.ne_null hi'.layout, Or.inr (hi'.real_iff.mpr hy)⟩

lemma request_mod (Size : ℕ) (hle : request Size ≤ 256) : request Size % 8 = 0 := by
  rw [request] at hle ⊢
  split_ifs at hle ⊢ <;> omega

/-- The search takes a chunk with little to spare, if there is one. -/
lemma Nearest.lt {Size n : ℕ} (hn : Nearest F (request Size) n) (hfit : request Size + 8 ≤ n)
    (ha : F a = some k) (hk : request Size ≤ k - 8) (hlt : k - 8 < request Size + 16) :
    n < request Size + 24 := by
  rcases hn a k ha hk with hle | ⟨hsmall, hle⟩
  · omega
  · have := request_mod Size (by omega)
    omega

/-- **`malloc` accesses only proper fields** exactly if no free chunk fits with less than 16 bytes
to spare. -/
theorem HeapInv.dereferences_malloc_iff (hi : HeapInv (bankSet banks) h c) {Size : Int32U}
    (hsize : Size.toNat ≤ 2 ^ 32 - 24) :
    Dereferences banks h (Logged.malloc Size) ↔
      ∀ a m, h.FreeAt banks a m → m < request Size.toNat ∨ request Size.toNat + 16 ≤ m := by
  have hl := hi.layout
  obtain ⟨hreq, hreq4, -⟩ := request_spec Size.toNat
  obtain ⟨R, hR, ⟨hcheck, hnone⟩ | ⟨x, n, h₁, hcheck, ht, hfit, hlock, hnear⟩⟩ := hi.search hsize
  · refine iff_of_true ?_ fun a m hm => ?_
    · have hnull : Within (Allowed (bankSet banks) c) (Logged.takeChunk null R) (fun _ _ => True)
          { h with lock := 0 } := within_ite (fun h => absurd rfl h) fun _ => within_pure trivial
      refine dereferences_of_within (hi.within_malloc_of hcheck hnull fun _ hy => hy)
        ((Logged.erase_malloc Size).trans (hi.malloc_not_found hcheck)) fun y hy => ?_
      exact hi.proper hi (Or.inl hy)
    · obtain ⟨k, hk, rfl⟩ := hi.freeAt_iff.mp hm
      exact Or.inl (hR ▸ hnone a k hk)
  · have hcx := ht.chunk
    by_cases hrest : n < R.toNat + 24
    · refine iff_of_false (fun hd => ?_) fun hall => ?_
      · exact hi.malloc_through_null hcheck ht hfit hrest hd.only rfl
      · have := hall x (n - 8) (hi.freeAt_iff.mpr ⟨n, hcx, rfl⟩)
        omega
    · refine iff_of_true ?_ fun a m hm => ?_
      · obtain ⟨h', hmalloc, hi'⟩ := hi.malloc_found hcheck ht (by omega) hfit (by omega) hlock
        have htake := ht.within_takeChunk (R := R) (by omega) (by omega) (by omega)
        exact dereferences_of_within (hi.within_malloc_of hcheck htake fun _ => Or.inl)
          ((Logged.erase_malloc Size).trans hmalloc) fun y hy => hi.proper hi' hy
      · by_contra hclose
        obtain ⟨k, hk, rfl⟩ := hi.freeAt_iff.mp hm
        rw [hR] at hnear hfit hrest
        exact hrest (hnear.lt hfit (freeOf_eq_some.mpr hk) (by omega) (by omega))

/-- **`free` accesses only proper fields.** -/
theorem HeapInv.dereferences_free (hi : HeapInv (bankSet banks) h c) (hx : c x = some ⟨n, true⟩) :
    Dereferences banks h (Logged.free (x + 8)) := by
  obtain ⟨h', c', hfree, hi', hwithin⟩ := hi.within_free hx
  refine dereferences_of_within hwithin (r := ()) ?_ fun y hy => hi.proper hi' hy
  rw [Logged.erase_free, hfree]
  rfl

/-- **The allocator accesses only proper fields**: in every heap that calls without an overflow
lead to, `free` always does, and `malloc` exactly if no free chunk fits with less than 16 bytes to
spare. -/
theorem dereferences_iff {s₀ s : Session} {calls : List Call} (hr : Registrable (registered banks))
    (hs : Session.start h₀ banks = some s₀)
    (hgood : Run.Along Session.step (fun s a _ => ¬ Overflows s a) s₀ calls)
    (hrun : Run.exec Session.step s₀ calls = some s) :
    (∀ Size : Int32U, Size.toNat ≤ 2 ^ 32 - 32 →
      (Dereferences (registered banks) s.heap (Logged.malloc Size) ↔
        ∀ a m, s.heap.FreeAt (registered banks) a m →
          m < request Size.toNat ∨ request Size.toNat + 16 ≤ m)) ∧
    ∀ p, (s.live p).isSome → Dereferences (registered banks) s.heap (Logged.free p) := by
  obtain ⟨c, hi⟩ := SessionInv.reached hr hs hgood hrun
  refine ⟨fun Size hsize => hi.heap.dereferences_malloc_iff (by omega), fun p hp => ?_⟩
  obtain ⟨Size, hSize⟩ := Option.isSome_iff_exists.mp hp
  obtain ⟨x, n, rfl, hx⟩ := hi.block p Size hSize
  exact hi.heap.dereferences_free hx

theorem dereferences_iff_twoBlocks : ∃ s₀ s, Session.start blank twoBanks = some s₀ ∧
    Run.exec Session.step s₀ twoBlocks = some s ∧
    (Dereferences (registered twoBanks) s.heap (Logged.malloc 300) ↔
      ∀ a m, s.heap.FreeAt (registered twoBanks) a m → m < request 300 ∨ request 300 + 16 ≤ m) := by
  obtain ⟨s₀, s, hs, hrun⟩ := twoBlocks_run
  refine ⟨s₀, s, hs, hrun, (dereferences_iff ?_ hs (not_overflows_of_le twoBlocks_size) hrun).1 300
    (by decide)⟩
  rw [registered_twoBanks]
  exact registrable_twoBanks

/-- A request of 8 bytes, where the only chunk has 24 bytes of memory, which fit exactly: the word
at the address 4 is read. -/
theorem not_dereferences_exact : ∃ s₀, Session.start blank [⟨4096, 4136⟩] = some s₀ ∧
    ¬ Dereferences (registered [⟨4096, 4136⟩]) s₀.heap (Logged.malloc 8) := by
  have hlog : ((Session.start blank [⟨4096, 4136⟩]).bind fun s₀ =>
      (Logged.malloc 8 s₀.heap).map fun r => decide (⟨null, .thisInfo⟩ ∈ r.2.2)) = some true := by
    decide +kernel
  obtain ⟨s₀, hs, hlog⟩ := Option.bind_eq_some_iff.mp hlog
  obtain ⟨r, hr, hmem⟩ := Option.map_eq_some_iff.mp hlog
  refine ⟨s₀, hs, fun ⟨b, h', log, heq, hall⟩ => ?_⟩
  rw [hr, Option.some.injEq] at heq
  subst heq
  exact (hall _ (of_decide_eq_true hmem)).1 rfl

end Dereference

end Heap

end ChinaOS
