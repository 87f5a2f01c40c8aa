import ChinaOS.Ring

/-!
The circular lists of `library/link/list.h`, over an arbitrary type of nodes.

Each function writes the link words in the order of the source, so that it is also defined
on nodes that are linked elsewhere or are next to each other.

* `rings_initListHead`, `rings_listAdd`, `rings_listDel`: on a family of circular lists
  they start one, insert into one, and remove from one.
* `listAdd_next`, `listDel_next` and their `prev` forms: the words of a single call.
* `Adjacent`: when `list_del` of a node that is in no list changes none.
-/

namespace ChinaOS

open Ring

variable {α : Type*} [DecidableEq α]

/-- `INIT_LIST_HEAD`. -/
def initListHead (L : Links α) (list : α) : Links α := (L.setNext list list).setPrev list list

/-- `__list_add`: insert `new` between `prev` and `next`. -/
def listAddBetween (L : Links α) (new prev next : α) : Links α :=
  (((L.setPrev next new).setNext new next).setPrev new prev).setNext prev new

/-- `list_add`: insert `new` behind `head`. -/
def listAdd (L : Links α) (new head : α) : Links α := listAddBetween L new head (L.next head)

/-- `__list_del`. -/
def listDelBetween (L : Links α) (prev next : α) : Links α :=
  (L.setPrev next prev).setNext prev next

/-- `list_del`: the entry's own words stay as they are. -/
def listDel (L : Links α) (entry : α) : Links α :=
  listDelBetween L (L.prev entry) (L.next entry)

/-- `free` of the block that a node lies in, which may leave any `bytes` in its two words. -/
def freeNode (L : Links α) (node : α) (bytes : α × α) : Links α :=
  (L.setNext node bytes.1).setPrev node bytes.2

/-- `list_empty`. -/
def listEmpty (L : Links α) (head : α) : Bool := decide (L.next head = head)

variable (L : Links α) (x h y : α)

lemma initListHead_next : (initListHead L h).next y = if y = h then h else L.next y := by
  simp [initListHead, Links.setNext_next]

lemma initListHead_prev : (initListHead L h).prev y = if y = h then h else L.prev y := by
  simp [initListHead, Links.setPrev_prev]

lemma listAdd_next : (listAdd L x h).next y =
    if y = h then x else if y = x then L.next h else L.next y := by
  simp [listAdd, listAddBetween, Links.setNext_next]

lemma listAdd_prev : (listAdd L x h).prev y =
    if y = x then h else if y = L.next h then x else L.prev y := by
  simp [listAdd, listAddBetween, Links.setPrev_prev]

lemma listDel_next : (listDel L x).next y = if y = L.prev x then L.next x else L.next y := by
  simp [listDel, listDelBetween, Links.setNext_next]

lemma listDel_prev : (listDel L x).prev y = if y = L.next x then L.prev x else L.prev y := by
  simp [listDel, listDelBetween, Links.setPrev_prev]

lemma freeNode_next (b : α × α) : (freeNode L x b).next y = if y = x then b.1 else L.next y := by
  simp [freeNode, Links.setNext_next]

lemma freeNode_prev (b : α × α) : (freeNode L x b).prev y = if y = x then b.2 else L.prev y := by
  simp [freeNode, Links.setPrev_prev]

/-! ### On a family of lists -/

variable {ι : Type*} {L x} {I : Set ι} {head : ι → α} {Q : ι → List α} {i : ι}

/-- The block of a node that is in no list. -/
lemma rings_freeNode (hr : Rings L I head Q) (hx : ∀ j ∈ I, x ∉ head j :: Q j) (b : α × α) :
    Rings (freeNode L x b) I head Q := by
  have hne : ∀ j ∈ I, ∀ y ∈ head j :: Q j, y ≠ x := by
    rintro j hj y hy rfl
    exact hx j hj hy
  exact hr.congr (fun j hj y hy => by rw [freeNode_next, if_neg (hne j hj y hy)])
    fun j hj y hy => by rw [freeNode_prev, if_neg (hne j hj y hy)]

/-- The neighbours that the words of a node name are still next to each other, as far as they are
in a list. -/
structure Adjacent (L : Links α) (S : Set α) (x : α) : Prop where
  next : L.prev x ∈ S → L.next (L.prev x) = L.next x
  prev : L.next x ∈ S → L.prev (L.next x) = L.prev x

/-- `list_del` of a node that is in no list changes none, if its neighbours are still adjacent. -/
lemma rings_listDel_of_adjacent (hr : Rings L I head Q)
    (ha : ∀ j ∈ I, Adjacent L {y | y ∈ head j :: Q j} x) : Rings (listDel L x) I head Q := by
  refine hr.congr (fun j hj y hy => ?_) fun j hj y hy => ?_
  · rw [listDel_next]
    split_ifs with h
    · subst h
      exact ((ha j hj).next hy).symm
    · rfl
  · rw [listDel_prev]
    split_ifs with h
    · subst h
      exact ((ha j hj).prev hy).symm
    · rfl

/-- **`list_del` of a node that is in no list** breaks a list in which one of its neighbours has
another neighbour since. -/
lemma adjacent_of_listDel {l : List α} (hr : Rings L I head Q) (hi : i ∈ I)
    (hx : x ∉ head i :: Q i) {b : α × α} (hl : (freeNode (listDel L x) x b).Circle (head i) l)
    (hmem : ∀ y, y ∈ l ↔ y ∈ Q i) : Adjacent L {y | y ∈ head i :: Q i} x := by
  have hring := hr.circle i hi
  have hmem' : ∀ y, y ∈ head i :: l ↔ y ∈ head i :: Q i := fun y => by
    rw [List.mem_cons, List.mem_cons, hmem]
  have hne : ∀ y ∈ head i :: Q i, y ≠ x := fun y hy h => hx (h ▸ hy)
  have hnext : ∀ y ∈ head i :: Q i, (freeNode (listDel L x) x b).next y =
      if y = L.prev x then L.next x else L.next y := fun y hy => by
    rw [freeNode_next, if_neg (hne y hy), listDel_next]
  have hprev : ∀ y ∈ head i :: Q i, (freeNode (listDel L x) x b).prev y =
      if y = L.next x then L.prev x else L.prev y := fun y hy => by
    rw [freeNode_prev, if_neg (hne y hy), listDel_prev]
  refine ⟨fun hp => ?_, fun hn => ?_⟩
  · -- two nodes of the new list would have the same successor
    by_contra hbad
    have hN := hl.next_mem ((hmem' _).mpr hp)
    have hback := hl.prev_next ((hmem' _).mpr hp)
    rw [hnext _ hp, if_pos rfl] at hN hback
    rw [hmem'] at hN
    have hother := hring.prev_mem hN
    have hstep := hring.next_prev hN
    have hdiff : L.prev (L.next x) ≠ L.prev x := fun h => hbad (by rw [← h, hstep])
    have hback' := hl.prev_next ((hmem' _).mpr hother)
    rw [hnext _ hother, if_neg hdiff, hstep, hback] at hback'
    exact hdiff hback'.symm
  · by_contra hbad
    have hP := hl.prev_mem ((hmem' _).mpr hn)
    have hback := hl.next_prev ((hmem' _).mpr hn)
    rw [hprev _ hn, if_pos rfl] at hP hback
    rw [hmem'] at hP
    have hother := hring.next_mem hP
    have hstep := hring.prev_next hP
    have hdiff : L.next (L.prev x) ≠ L.next x := fun h => hbad (by rw [← h, hstep])
    have hback' := hl.next_prev ((hmem' _).mpr hother)
    rw [hprev _ hother, if_neg hdiff, hstep, hback] at hback'
    exact hdiff hback'.symm

lemma listEmpty_iff (hr : Rings L I head Q) (hi : i ∈ I) :
    listEmpty L (head i) = true ↔ Q i = [] := by
  rw [listEmpty, decide_eq_true_iff, hr.next_head_eq_iff hi]

variable [DecidableEq ι]

lemma rings_initListHead (hr : Rings L I head Q) (hi : ∀ j ∈ I, head i ∉ head j :: Q j) :
    Rings (initListHead L (head i)) (insert i I) head (Function.update Q i []) := by
  refine hr.init hi (fun y => ?_) fun y => ?_
  · rw [initListHead_next]
    split_ifs with h <;> simp [h]
  · rw [initListHead_prev]
    split_ifs with h <;> simp [h]

lemma rings_listAdd (hr : Rings L I head Q) (hi : i ∈ I) (hx : ∀ j ∈ I, x ∉ head j :: Q j) :
    Rings (listAdd L x (head i)) I head (Function.update Q i (x :: Q i)) :=
  hr.insert hi hx (listAdd_next L x (head i)) (listAdd_prev L x (head i))

lemma rings_listDel (hr : Rings L I head Q) (hi : i ∈ I) (hx : x ∈ Q i) :
    Rings (listDel L x) I head (Function.update Q i ((Q i).erase x)) :=
  hr.remove hi hx (listDel_next L x) (listDel_prev L x)

end ChinaOS
