import ChinaOS.Access
import ChinaOS.Bins

/-!
What the fields of the bins point to.

* `SmallNode`, `LargeNode`: the nodes of the circular lists and those of the trees, with the chunks
  that hang behind them. `Linked`: a field of a node, or a tree slot.
* `Suits`: a field may hold a value: the links of a node lead to nodes of its kind.
* `Typed`: all the fields hold what they may. `Bins.typed`: they do so in the bins; `Typed.set`:
  and still do when a field gets a value that fits.
-/

namespace ChinaOS

namespace Heap

open Records

/-- A small free chunk, or the head of a list. -/
def SmallNode (F : ℕ → Option ℕ) (x : ℕ) : Prop :=
  (∃ n, F x = some n ∧ n ≤ 264) ∨ ∃ i < 32, x = getSameChunkGroup i

/-- A large free chunk. -/
def LargeNode (F : ℕ → Option ℕ) (x : ℕ) : Prop := ∃ n, F x = some n ∧ 264 < n

/-- A link of a node of the bins, or the pointer in a tree slot. -/
def Linked (F : ℕ → Option ℕ) (x : Access) : Prop :=
  match x.field with
  | .prevInfo => False
  | .thisInfo => False
  | .freeNext => SmallNode F x.pointer ∨ LargeNode F x.pointer
  | .freePrev => SmallNode F x.pointer ∨ LargeNode F x.pointer
  | .child k => k ≤ 1 ∧ LargeNode F x.pointer
  | .parent => LargeNode F x.pointer
  | .index => LargeNode F x.pointer
  | .slot => ∃ i < 32, x.pointer = treeSlot i

/-- The value `v` may stand in the field `x`. -/
def Suits (F : ℕ → Option ℕ) (x : Access) (v : ℕ) : Prop :=
  match x.field with
  | .prevInfo => False
  | .thisInfo => False
  | .freeNext => SmallNode F x.pointer ∧ SmallNode F v ∨ LargeNode F x.pointer ∧ LargeNode F v
  | .freePrev => SmallNode F x.pointer ∧ SmallNode F v ∨ LargeNode F x.pointer ∧ LargeNode F v
  | .child k => (k ≤ 1 ∧ LargeNode F x.pointer) ∧ (v ≠ null → LargeNode F v)
  | .parent => LargeNode F x.pointer
  | .index => LargeNode F x.pointer ∧ v < 32
  | .slot => (∃ i < 32, x.pointer = treeSlot i) ∧ (v ≠ null → LargeNode F v)

/-- **Every link fits.** -/
def Typed (F : ℕ → Option ℕ) (h : Heap) : Prop :=
  ∀ x, Linked F x → Suits F x (h.get x.pointer x.field)

section Typing

variable {F F' : ℕ → Option ℕ} {h h' : Heap} {p q x v n k i : ℕ} {f g : Field} {a b : Access}

/-! ### Fields and addresses -/

lemma get_eq (h : Heap) (p : ℕ) (f : Field) : h.get p f = h.mem (p + f.offset) := by
  cases f with
  | child k =>
      show h.mem (p + 16 + 4 * k) = h.mem (p + (16 + 4 * k))
      rw [Nat.add_assoc]
  | _ => rfl

lemma set_eq (h : Heap) (p : ℕ) (f : Field) (v : ℕ) :
    h.set p f v = h.write (p + f.offset) v := by
  cases f with
  | child k =>
      show h.write (p + 16 + 4 * k) v = h.write (p + (16 + 4 * k)) v
      rw [Nat.add_assoc]
  | _ => rfl

lemma Suits.linked (hf : Suits F a v) : Linked F a := by
  obtain ⟨p, f⟩ := a
  cases f with
  | prevInfo => exact hf
  | thisInfo => exact hf
  | freeNext => exact hf.imp And.left And.left
  | freePrev => exact hf.imp And.left And.left
  | child k => exact hf.1
  | parent => exact hf
  | index => exact hf.1
  | slot => exact hf.1

lemma SmallNode.mono (hF : ∀ a n, F a = some n → F' a = some n) (hx : SmallNode F x) :
    SmallNode F' x := hx.imp_left fun ⟨n, hn, hle⟩ => ⟨n, hF x n hn, hle⟩

lemma LargeNode.mono (hF : ∀ a n, F a = some n → F' a = some n) (hx : LargeNode F x) :
    LargeNode F' x := by
  obtain ⟨n, hn, hlt⟩ := hx
  exact ⟨n, hF x n hn, hlt⟩

/-- More chunks have more links. -/
lemma Linked.mono (hF : ∀ a n, F a = some n → F' a = some n) (ha : Linked F a) :
    Linked F' a := by
  obtain ⟨p, f⟩ := a
  cases f with
  | prevInfo => exact ha
  | thisInfo => exact ha
  | freeNext => exact Or.imp (SmallNode.mono hF) (LargeNode.mono hF) ha
  | freePrev => exact Or.imp (SmallNode.mono hF) (LargeNode.mono hF) ha
  | child k => exact And.imp_right (LargeNode.mono hF) ha
  | parent => exact LargeNode.mono hF ha
  | index => exact LargeNode.mono hF ha
  | slot => exact ha

/-- A link is a field of a record of the bins. -/
lemma Linked.own (hF : Chunks F) (ha : Linked F a) : Own F a.pointer a.field.offset := by
  have hlist : ∀ o, o = 8 ∨ o = 12 → SmallNode F a.pointer ∨ LargeNode F a.pointer →
      Own F a.pointer o := by
    rintro o ho ((⟨n, hn, hle⟩ | hhead) | ⟨n, hn, hlt⟩)
    · have hsize := hF.size _ n hn
      exact Or.inl (Or.inl ⟨n, hn, hle, by omega, by omega, by omega⟩)
    · obtain ⟨i, hi, heq⟩ := hhead
      exact Or.inl (Or.inr ⟨i, hi, heq, ho⟩)
    · exact Or.inr (Or.inl ⟨n, hn, hlt, by omega, by omega, by omega⟩)
  have htree : ∀ o, 8 ≤ o ∧ o % 4 = 0 ∧ o ≤ 28 → LargeNode F a.pointer → Own F a.pointer o :=
    fun o ho ⟨n, hn, hlt⟩ => Or.inr (Or.inl ⟨n, hn, hlt, ho.1, ho.2.1, by omega⟩)
  obtain ⟨p, f⟩ := a
  cases f with
  | prevInfo => exact ha.elim
  | thisInfo => exact ha.elim
  | freeNext => exact hlist 8 (Or.inl rfl) ha
  | freePrev => exact hlist 12 (Or.inr rfl) ha
  | child k =>
      obtain ⟨hk, hp⟩ := ha
      exact htree (16 + 4 * k) (by omega) hp
  | parent => exact htree 24 (by omega) ha
  | index => exact htree 28 (by omega) ha
  | slot =>
      obtain ⟨i, hi, heq⟩ := ha
      exact Or.inr (Or.inr ⟨i, hi, heq, rfl⟩)

/-- The link at an offset. -/
def linkAt : ℕ → Field
  | 8 => .freeNext
  | 12 => .freePrev
  | 16 => .child 0
  | 20 => .child 1
  | 24 => .parent
  | 28 => .index
  | _ => .slot

lemma Linked.linkAt_offset (ha : Linked F a) : linkAt a.field.offset = a.field := by
  obtain ⟨p, f⟩ := a
  cases f with
  | prevInfo => exact ha.elim
  | thisInfo => exact ha.elim
  | child k =>
      obtain ⟨hk, -⟩ := ha
      interval_cases k <;> rfl
  | _ => rfl

/-- **Different links are different words.** -/
theorem Linked.eq_of_address (hF : Chunks F) (ha : Linked F a) (hb : Linked F b)
    (h : a.pointer + a.field.offset = b.pointer + b.field.offset) : a = b := by
  obtain ⟨hp, ho⟩ := hF.apart_own _ _ _ _ (ha.own hF) (hb.own hF) h
  have hf : a.field = b.field := by
    rw [← ha.linkAt_offset, ho, hb.linkAt_offset]
  cases a
  cases b
  obtain rfl : _ = _ := hp
  obtain rfl : _ = _ := hf
  rfl

/-! ### Writing -/

/-- What a link holds after another one was written. -/
lemma get_set (hF : Chunks F) (ha : Linked F a) (hb : Linked F b) :
    (h.set a.pointer a.field v).get b.pointer b.field =
      if b = a then v else h.get b.pointer b.field := by
  rw [set_eq, get_eq, get_eq, write]
  dsimp only
  by_cases hba : b = a
  · rw [if_pos hba, hba, Function.update_self]
  · rw [if_neg hba, Function.update_of_ne fun he => hba (hb.eq_of_address hF ha he)]

/-- The links are the same. -/
lemma Typed.congr (ht : Typed F h)
    (hsame : ∀ b, Linked F b → h'.get b.pointer b.field = h.get b.pointer b.field) :
    Typed F h' := by
  intro b hb
  rw [hsame b hb]
  exact ht b hb

/-- **A field gets a value that fits.** -/
theorem Typed.set (ht : Typed F h) (hF : Chunks F) (hf : Suits F ⟨p, f⟩ v) :
    Typed F (h.set p f v) := by
  intro b hb
  have hget := get_set (h := h) (v := v) hF hf.linked hb
  rw [hget]
  by_cases hba : b = ⟨p, f⟩
  · rw [if_pos hba, hba]
    exact hf
  · rw [if_neg hba]
    exact ht b hb

/-- The chunks before are among those with a new one. -/
lemma eq_some_update (hx : F x = none) : ∀ a m, F a = some m →
    Function.update F x (some n) a = some m := by
  intro a m ha
  rw [Function.update_of_ne, ha]
  rintro rfl
  rw [hx] at ha
  simp at ha

/-- A field of a chunk that is in no bin is written. -/
lemma Typed.set_new (ht : Typed F h) (hx : F x = none)
    (hF : Chunks (Function.update F x (some n)))
    (hf : Linked (Function.update F x (some n)) ⟨x, f⟩) : Typed F (h.set x f v) := by
  have hself : Function.update F x (some n) x = some n := Function.update_self ..
  refine ht.congr fun b hb => ?_
  have hget := get_set (h := h) (v := v) hF hf (hb.mono (eq_some_update hx))
  rw [hget, if_neg]
  rintro rfl
  rcases (hb.own (hF.of_update hx)).cases with ⟨m, hm, -⟩ | ⟨i, -, heq, -⟩ | ⟨i, -, heq, -⟩
  · rw [hx] at hm
    simp at hm
  · exact hF.ne_group hself heq
  · have hle := hF.le x n hself
    simp only [treeSlot, mallocor] at heq
    omega

/-! ### Following a link -/

lemma SmallNode.not_large (hF : Chunks F) (hx : SmallNode F x) : ¬ LargeNode F x := by
  rintro ⟨n, hn, hlt⟩
  rcases hx with ⟨m, hm, hle⟩ | ⟨i, -, rfl⟩
  · rw [hn, Option.some.injEq] at hm
    omega
  · exact hF.ne_group hn rfl

lemma Typed.small (ht : Typed F h) (hF : Chunks F) (hx : SmallNode F x) :
    SmallNode F (h.freeNext x) ∧ SmallNode F (h.freePrev x) := by
  have hnext := ht ⟨x, .freeNext⟩ (Or.inl hx)
  have hprev := ht ⟨x, .freePrev⟩ (Or.inl hx)
  exact ⟨(hnext.resolve_right fun h => hx.not_large hF h.1).2,
    (hprev.resolve_right fun h => hx.not_large hF h.1).2⟩

lemma Typed.large (ht : Typed F h) (hF : Chunks F) (hx : LargeNode F x) :
    LargeNode F (h.freeNext x) ∧ LargeNode F (h.freePrev x) := by
  have hnext := ht ⟨x, .freeNext⟩ (Or.inr hx)
  have hprev := ht ⟨x, .freePrev⟩ (Or.inr hx)
  exact ⟨(hnext.resolve_left fun h => h.1.not_large hF hx).2,
    (hprev.resolve_left fun h => h.1.not_large hF hx).2⟩

lemma Typed.child (ht : Typed F h) (hx : LargeNode F x) (hk : k ≤ 1) (hne : h.child x k ≠ null) :
    LargeNode F (h.child x k) := (ht ⟨x, .child k⟩ ⟨hk, hx⟩).2 hne

lemma Typed.index_lt (ht : Typed F h) (hx : LargeNode F x) : h.index x < 32 :=
  (ht ⟨x, .index⟩ hx).2

lemma Typed.slot (ht : Typed F h) (hi : i < 32) (hne : h.mem (treeSlot i) ≠ null) :
    LargeNode F (h.mem (treeSlot i)) := (ht ⟨treeSlot i, .slot⟩ ⟨i, hi, rfl⟩).2 hne

/-! ### The bins -/

/-- The nodes of the circular lists. -/
lemma Groups.smallNode_iff {box : ℕ → List ℕ} {w : ℕ → ℕ → ℕ} {map : Int32U}
    (hg : Groups w map F box) (hF : Chunks F) :
    SmallNode F x ↔ ∃ i < 32, x ∈ getSameChunkGroup i :: box i := by
  constructor
  · rintro (⟨n, hn, hle⟩ | ⟨i, hi, rfl⟩)
    · have hi := boxIndex_lt (hF.size x n hn) hle
      exact ⟨_, hi, List.mem_cons_of_mem _ ((hg.mem_iff _ hi x).mpr ⟨n, hn, hle, rfl⟩)⟩
    · exact ⟨i, hi, List.mem_cons_self⟩
  · rintro ⟨i, hi, hx⟩
    rcases List.mem_cons.mp hx with rfl | hx
    · exact Or.inr ⟨i, hi, rfl⟩
    · obtain ⟨n, hn, hle, -⟩ := (hg.mem_iff i hi x).mp hx
      exact Or.inl ⟨n, hn, hle⟩

section Forest

variable {node : ℕ → List Bool → Option ℕ} {ring : ℕ → List ℕ} {w : ℕ → ℕ → ℕ} {map : Int32U}
  {c : List Bool}

/-- The nodes of the trees, and the chunks behind them. -/
lemma Shape.largeNode_iff (hs : Shape F node ring) :
    LargeNode F x ↔ ∃ i c b, node i c = some b ∧ x ∈ b :: ring b := by
  constructor
  · rintro ⟨n, hn, hlt⟩
    obtain ⟨c, b, hb, -, hx⟩ := hs.exists_node hn hlt
    exact ⟨_, c, b, hb, hx⟩
  · rintro ⟨i, c, b, hb, hx⟩
    obtain ⟨n, hn, -, hlt, -⟩ := hs.size_of_mem hb hx
    exact ⟨n, hn, hlt⟩

lemma Shape.largeNode (hs : Shape F node ring) (hx : node i c = some x) : LargeNode F x :=
  hs.largeNode_iff.mpr ⟨i, c, x, hx, List.mem_cons_self⟩

/-- What a pointer to a node leads to, if it is not null. -/
lemma Shape.largeNode_getD (hs : Shape F node ring) (hne : (node i c).getD null ≠ null) :
    LargeNode F ((node i c).getD null) := by
  cases hn : node i c with
  | none =>
      rw [hn] at hne
      exact absurd rfl hne
  | some b => exact hs.largeNode hn

/-- The children of a large chunk are large. -/
lemma Forest.child_large (hf : Forest w map F node ring) (hx : LargeNode F x) (d : Bool)
    (hne : w x (childOffset d) ≠ null) : LargeNode F (w x (childOffset d)) := by
  obtain ⟨i, c, b, hb, hxb⟩ := hf.shape.largeNode_iff.mp hx
  rcases List.mem_cons.mp hxb with rfl | hxb
  · rw [hf.child_eq hb d] at hne ⊢
    exact hf.shape.largeNode_getD hne
  · exact absurd ((hf.mate_null b (mem_nodes hb) x hxb).2 d) hne

/-- A chunk with a parent is the root of a tree, or its parent is large. -/
lemma Forest.parent_cases (hf : Forest w map F node ring) (hx : LargeNode F x) :
    w x 24 = null ∨ w (treeSlot (w x 28)) 0 = x ∨ LargeNode F (w x 24) := by
  obtain ⟨i, c, b, hb, hxb⟩ := hf.shape.largeNode_iff.mp hx
  rcases List.mem_cons.mp hxb with rfl | hxb
  · have hparent : w x 24 = PathTree.up null treeSlot node i c := hf.tree.parent i c x hb
    cases c with
    | nil =>
        obtain ⟨n, hn, hlt, hi, -⟩ := hf.shape.node_spec i [] x hb
        refine Or.inr (Or.inl ?_)
        rw [hf.index x n hn hlt, hi, hf.root_eq (hf.shape.index_lt hb), hb, Option.getD_some]
    | cons d c =>
        rw [hparent]
        by_cases hne : PathTree.up null treeSlot node i (d :: c) = null
        · exact Or.inl hne
        · exact Or.inr (Or.inr (hf.shape.largeNode_getD hne))
  · exact Or.inl (hf.mate_null b (mem_nodes hb) x hxb).1

end Forest

/-- **The links of the bins** lead where they should. -/
theorem Bins.typed (hb : Bins h F) (hF : Chunks F) : Typed F h := by
  obtain ⟨⟨box, hg⟩, node, ring, hf⟩ := hb
  have hsmall : ∀ {x}, SmallNode F x → SmallNode F (h.freeNext x) ∧ SmallNode F (h.freePrev x) := by
    intro x hx
    obtain ⟨i, hi, hx⟩ := (hg.smallNode_iff hF).mp hx
    have hring := hg.rings.circle i hi
    exact ⟨(hg.smallNode_iff hF).mpr ⟨i, hi, hring.next_mem hx⟩,
      (hg.smallNode_iff hF).mpr ⟨i, hi, hring.prev_mem hx⟩⟩
  have hlarge : ∀ {x}, LargeNode F x → LargeNode F (h.freeNext x) ∧ LargeNode F (h.freePrev x) := by
    intro x hx
    obtain ⟨i, c, b, hb, hx⟩ := hf.shape.largeNode_iff.mp hx
    have hring := hf.rings.circle b (mem_nodes hb)
    exact ⟨hf.shape.largeNode_iff.mpr ⟨i, c, b, hb, hring.next_mem hx⟩,
      hf.shape.largeNode_iff.mpr ⟨i, c, b, hb, hring.prev_mem hx⟩⟩
  rintro ⟨x, f⟩ hx
  cases f with
  | prevInfo => exact hx
  | thisInfo => exact hx
  | freeNext =>
      exact Or.imp (fun hx => ⟨hx, (hsmall hx).1⟩) (fun hx => ⟨hx, (hlarge hx).1⟩) hx
  | freePrev =>
      exact Or.imp (fun hx => ⟨hx, (hsmall hx).2⟩) (fun hx => ⟨hx, (hlarge hx).2⟩) hx
  | child k =>
      obtain ⟨hk, hlx⟩ := id hx
      refine ⟨hx, ?_⟩
      interval_cases k
      · exact hf.child_large hlx false
      · exact hf.child_large hlx true
  | parent => exact hx
  | index =>
      obtain ⟨n, hn, hlt⟩ := id hx
      refine ⟨hx, ?_⟩
      have hindex : h.index x = treeSizeToIndex (n - 8) := hf.index x n hn hlt
      show h.index x < 32
      rw [hindex]
      exact treeSizeToIndex_lt (by omega)
  | slot =>
      obtain ⟨i, hi, rfl⟩ := id hx
      have hroot : h.mem (treeSlot i) = (node i []).getD null := hf.root_eq hi
      refine ⟨hx, fun hne => ?_⟩
      have hne' : h.mem (treeSlot i) ≠ null := hne
      show LargeNode F (h.mem (treeSlot i))
      rw [hroot] at hne' ⊢
      exact hf.shape.largeNode_getD hne'

/-- A large chunk that has a parent is the root of its tree, or its parent is a large chunk. -/
def Rooted (F : ℕ → Option ℕ) (h : Heap) (x : ℕ) : Prop :=
  h.parent x = null ∨ h.mem (treeSlot (h.index x)) = x ∨ LargeNode F (h.parent x)

lemma Bins.rooted (hb : Bins h F) (hx : LargeNode F x) : Rooted F h x := by
  obtain ⟨-, node, ring, hf⟩ := hb
  exact hf.parent_cases hx

/-- The way to the root does not depend on the other links. -/
lemma Rooted.set (hr : Rooted F h x) (ht : Typed F h) (hF : Chunks F) (hx : LargeNode F x)
    (hf : Linked F ⟨p, f⟩) (hne : f ≠ .parent ∧ f ≠ .index ∧ f ≠ .slot) :
    Rooted F (h.set p f v) x := by
  have hparent : (h.set p f v).parent x = h.parent x := by
    refine (get_set hF hf (b := ⟨x, .parent⟩) hx).trans (if_neg fun he => hne.1 ?_)
    exact (congrArg Access.field he).symm
  have hindex : (h.set p f v).index x = h.index x := by
    refine (get_set hF hf (b := ⟨x, .index⟩) hx).trans (if_neg fun he => hne.2.1 ?_)
    exact (congrArg Access.field he).symm
  have hslot : (h.set p f v).mem (treeSlot (h.index x)) = h.mem (treeSlot (h.index x)) := by
    refine (get_set hF hf (b := ⟨treeSlot (h.index x), .slot⟩)
      ⟨_, ht.index_lt hx, rfl⟩).trans (if_neg fun he => hne.2.2 ?_)
    exact (congrArg Access.field he).symm
  rw [Rooted, hparent, hindex, hslot]
  exact hr

/-- A tree that is marked has a root. -/
lemma Bins.root_ne_null (hb : Bins h F) (hi : i < 32) (hbit : h.treeMap.getLsbD i = true) :
    h.mem (treeSlot i) ≠ null := by
  obtain ⟨-, node, ring, hf⟩ := hb
  obtain ⟨b, hb⟩ := Option.isSome_iff_exists.mp ((hf.map i hi).mp hbit)
  have hroot : h.mem (treeSlot i) = (node i []).getD null := hf.root_eq hi
  rw [hroot, hb, Option.getD_some]
  exact hf.tree.ne_null i [] b hb

end Typing

end Heap

end ChinaOS
