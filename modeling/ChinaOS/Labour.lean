import ChinaOS.Kernel
import ChinaOS.Session

/-!
The memory of a new thread: `labour` of `kernel/kernel.c` on the heap, with `stack_init` of
`architecture/arm/cortex-m3/cpu.c`.

The block of a thread is its control block of 52 bytes, and its stack of `StackDepth` bytes
behind it, rounded up to whole words. `stack_init` writes sixteen words from the end of the stack
downwards, whatever the size of the stack.

* `Fits`: the words lie in the stack, the block is its own, and the control block is as `labour`
  set it.
* `labour_fits`: a stack with room for sixteen words. `roomy_of_fits`: the others.
* `fits_iff`: the depths for which the frame fits, in every state that proper calls lead to.
-/

namespace ChinaOS

namespace Labour

open Heap Tiling

/-- `sizeof(THREAD)`. -/
def sizeofThread : ℕ := 52

/-! ### The source -/

/-- The words that `stack_init` writes, from the bottom of the stack on: `xPSR`, `PC`, `LR`, `R12`,
`R3` to `R0`, and `R11` to `R4`. -/
def frame (pThread pOption exit : ℕ) : List ℕ :=
  [0x01000000, pThread, exit, 0, 0, 0, 0, pOption, 0, 0, 0, 0, 0, 0, 0, 0]

/-- `*pStackTop-- = v` for all values but the last, which is written without a decrement; `down` is
the decrement of the pointer. -/
def push (down : ℕ → ℕ) : List ℕ → Heap → ℕ → Heap × ℕ
  | [], h, pStackTop => (h, pStackTop)
  | [v], h, pStackTop => (h.write pStackTop v, pStackTop)
  | v :: u :: vs, h, pStackTop => push down (u :: vs) (h.write pStackTop v) (down pStackTop)

/-- The next word below, on a full descending stack. -/
def down (pStackTop : ℕ) : ℕ := wsub pStackTop 4

/-- `stack_init`: the memory after it, and the top of the stack. -/
def stackInit (h : Heap) (pThread pOption exit pStackBottom : ℕ) : Heap × ℕ :=
  push down (frame pThread pOption exit) h pStackBottom

/-- `memset(pControl, NULL, n)`. -/
def clear (h : Heap) (pControl n : ℕ) : Heap :=
  { h with mem := fun a => if a < 2 ^ 32 ∧ wsub a pControl < n then 0 else h.mem a }

/-- The bottom of the stack. -/
def pStackBottom (pControl StackDepth : ℕ) : ℕ :=
  wadd (wadd pControl sizeofThread) (wsub StackDepth 4)

/-- What `labour` writes into the block at `pControl`, apart from the links of its `Node`. -/
def initControl (h : Heap) (pName pProcess pOption exit StackDepth Priority : Int32U)
    (pControl : ℕ) : Heap :=
  let bottom := pStackBottom pControl StackDepth.toNat
  let h := clear h pControl (StackDepth + 52#32).toNat
  let h := h.write (pControl + 4) bottom
  let t := stackInit h pProcess.toNat pOption.toNat exit.toNat bottom
  let h := t.1.write pControl t.2
  let h := h.write (pControl + 8) Priority.toNat
  let h := h.write (pControl + 12) pName.toNat
  h.write (pControl + 16) null

/-- `labour` on the heap and in the kernel: both after it, and the new thread. -/
def labour (h : Heap) (k : Kernel) (pName pProcess pOption exit StackDepth Priority : Int32U) :
    Option (Heap × Kernel × Option ThreadId) :=
  if Priority &&& ~~~0x1F ≠ 0 ∨ pProcess = 0 ∨ StackDepth = 0 then some (h, k, none)
  else
    let aligned := alignUpside StackDepth 4
    (h.malloc (aligned + 52#32)).map fun r =>
      if r.2 = null then (r.1, k, none)
      else
        let h := initControl r.1 pName pProcess pOption exit aligned Priority r.2
        (h, k.labour (some r.2) pProcess StackDepth Priority (BitVec.ofNat 32 (h.mem r.2)))

/-! ### The frame in the stack -/

/-- The depth of the stack in whole words. -/
def depth (StackDepth : Int32U) : ℕ := (StackDepth.toNat + 3) / 4 * 4

/-- **The first frame fits.** Of the heap `h₁` behind `malloc` the block of the thread at `p` is
the thread's alone, `stack_init` stays within the stack behind the control block, with the top of
the stack that it returns, only the block is written to, and the control block is as `labour` set
it. -/
structure Fits (banks : List Bank) (h₁ h' : Heap) (k' : Kernel) (live : ℕ → Option Int32U)
    (p : ℕ) (pName StackDepth Priority : Int32U) : Prop where
  block : Heap.Placed banks h₁ live p (sizeofThread + depth StackDepth)
  words : ∀ i < 16,
    p + sizeofThread ≤ wsub (pStackBottom p (alignUpside StackDepth 4).toNat) (4 * i) ∧
      wsub (pStackBottom p (alignUpside StackDepth 4).toNat) (4 * i) + 4 ≤
        p + sizeofThread + depth StackDepth
  top : p + sizeofThread ≤ h'.mem p ∧ h'.mem p + 4 ≤ p + sizeofThread + depth StackDepth
  outside : ∀ w, w < p ∨ p + sizeofThread + depth StackDepth ≤ w → h'.mem w = h₁.mem w
  priority : h'.mem (p + 8) = Priority.toNat ∧ k'.priority p = Priority
  ready : k'.links.next (Kernel.activeProc Priority) = .thread p
  pName : h'.mem (p + 12) = pName.toNat
  pExit : h'.mem (p + 44) = 0
  pKill : h'.mem (p + 48) = 0

/-! ### Words that are not written -/

section Maps

variable (h : Heap) (a v n : ℕ)

@[simp] lemma write_sameMap : (h.write a v).sameMap = h.sameMap := rfl

@[simp] lemma write_treeMap : (h.write a v).treeMap = h.treeMap := rfl

@[simp] lemma write_lock : (h.write a v).lock = h.lock := rfl

@[simp] lemma clear_sameMap : (clear h a n).sameMap = h.sameMap := rfl

@[simp] lemma clear_treeMap : (clear h a n).treeMap = h.treeMap := rfl

@[simp] lemma clear_lock : (clear h a n).lock = h.lock := rfl

end Maps

section Push

variable {h : Heap} {vs : List ℕ} {a b p n w i : ℕ} {StackDepth : Int32U}

lemma down_eq (hb : 4 ≤ b) (hlt : b < 2 ^ 32) : down b = b - 4 := wsub_of_le hb hlt

/-- `push` writes below `a` only, word by word. -/
lemma push_mem_of_outside (hb : 4 * vs.length ≤ b + 4) (hlt : b < 2 ^ 32)
    (hw : ∀ i < vs.length, w ≠ b - 4 * i) : (push down vs h b).1.mem w = h.mem w := by
  induction vs generalizing h b with
  | nil => rfl
  | cons v vs ih =>
      cases vs with
      | nil =>
          have hwb : w ≠ b := hw 0 Nat.one_pos
          rw [push]
          exact Function.update_of_ne hwb _ _
      | cons u vs =>
          simp only [List.length_cons] at hb hw
          rw [push, down_eq (by omega) hlt, ih (by simp only [List.length_cons]; omega) (by omega)]
          · have hwb : w ≠ b := hw 0 (by omega)
            exact Function.update_of_ne hwb _ _
          · intro i hi
            have := hw (i + 1) (by simp only [List.length_cons] at hi; omega)
            omega

/-- The address of the word that is written last. -/
lemma push_top (hb : 4 * vs.length ≤ b + 4) (hlt : b < 2 ^ 32) :
    (push down vs h b).2 = b - 4 * (vs.length - 1) := by
  induction vs generalizing h b with
  | nil => rfl
  | cons v vs ih =>
      cases vs with
      | nil => rfl
      | cons u vs =>
          simp only [List.length_cons] at hb
          rw [push, down_eq (by omega) hlt, ih (by simp only [List.length_cons]; omega) (by omega)]
          simp only [List.length_cons]
          omega

/-- The words of `stack_init`, sixteen of them. -/
lemma stackInit_spec (pThread pOption exit : ℕ) (hb : 60 ≤ b) (hlt : b < 2 ^ 32) :
    (stackInit h pThread pOption exit b).2 = b - 60 ∧
      ∀ w, w < b - 60 ∨ b < w → (stackInit h pThread pOption exit b).1.mem w = h.mem w := by
  rw [stackInit]
  generalize hvs : frame pThread pOption exit = vs
  have hlen : vs.length = 16 := by
    rw [← hvs]
    rfl
  refine ⟨?_, fun w hw => push_mem_of_outside (by omega) hlt fun i hi => by omega⟩
  rw [push_top (by omega) hlt, hlen]

/-- Writing leaves the bitmaps and the lock alone. -/
lemma push_maps : (push down vs h b).1.sameMap = h.sameMap ∧ (push down vs h b).1.treeMap = h.treeMap ∧
    (push down vs h b).1.lock = h.lock := by
  induction vs generalizing h b with
  | nil => exact ⟨rfl, rfl, rfl⟩
  | cons v vs ih =>
      cases vs with
      | nil => exact ⟨rfl, rfl, rfl⟩
      | cons u vs =>
          rw [push]
          obtain ⟨hsame, htree, hlock⟩ := ih (h := h.write b v) (b := down b)
          exact ⟨hsame, htree, hlock⟩

lemma stackInit_maps (pThread pOption exit : ℕ) :
    (stackInit h pThread pOption exit b).1.sameMap = h.sameMap ∧
      (stackInit h pThread pOption exit b).1.treeMap = h.treeMap ∧
      (stackInit h pThread pOption exit b).1.lock = h.lock := by
  rw [stackInit]
  generalize frame pThread pOption exit = vs
  exact push_maps

end Push

section Spawn

variable {banks : List Bank} {s : Session} {c : ℕ → Option Piece} {h h₁ h' : Heap} {k k' : Kernel}
  {pName pProcess pOption exit StackDepth Priority : Int32U} {p D : ℕ}

/-- The depth that `labour` works with. -/
lemma toNat_depth (hle : StackDepth.toNat ≤ 2 ^ 32 - 4) :
    (alignUpside StackDepth 4).toNat = depth StackDepth :=
  toNat_alignUpside_four (by omega)

/-- The bottom of a stack that lies in the address space. -/
lemma pStackBottom_eq (hD : 4 ≤ D) (hle : p + sizeofThread + D ≤ 2 ^ 32) :
    pStackBottom p D = p + 48 + D := by
  rw [sizeofThread] at hle
  rw [pStackBottom, sizeofThread, wsub_of_le hD (by omega), wadd_of_lt (x := p) (by omega),
    wadd_of_lt (by omega)]
  omega

/-- `memset` of a block in the address space. -/
lemma clear_mem {n w : ℕ} (hle : p + n ≤ 2 ^ 32) :
    (clear h p n).mem w = if p ≤ w ∧ w < p + n then 0 else h.mem w := by
  rw [clear]
  dsimp only
  congr 1
  rw [eq_iff_iff]
  constructor
  · rintro ⟨hlt, hn⟩
    by_cases hpw : p ≤ w
    · rw [wsub_of_le hpw hlt] at hn
      omega
    · rw [wsub_of_lt (not_le.mp hpw)] at hn
      omega
  · rintro ⟨hpw, hlt⟩
    rw [wsub_of_le hpw (by omega)]
    omega

/-- **A block with room for sixteen words** is written to as it should be. -/
lemma initControl_spec (hle : StackDepth.toNat ≤ 2 ^ 32 - 4) (hpos : 0 < p) (hD : 64 ≤ depth StackDepth)
    (hp : p + sizeofThread + depth StackDepth ≤ 2 ^ 32)
    (heq : initControl h pName pProcess pOption exit (alignUpside StackDepth 4) Priority p = h') :
    h'.mem p = p + depth StackDepth - 12 ∧ h'.mem (p + 8) = Priority.toNat ∧
      h'.mem (p + 12) = pName.toNat ∧ h'.mem (p + 44) = 0 ∧ h'.mem (p + 48) = 0 ∧
      (∀ w, w < p ∨ p + sizeofThread + depth StackDepth ≤ w → h'.mem w = h.mem w) ∧
      h'.sameMap = h.sameMap ∧ h'.treeMap = h.treeMap ∧ h'.lock = h.lock := by
  have hsize : sizeofThread = 52 := rfl
  have hdepth := toNat_depth hle
  have hbytes : (alignUpside StackDepth 4 + 52#32).toNat = depth StackDepth + 52 := by
    rw [BitVec.toNat_add, hdepth]
    exact Nat.mod_eq_of_lt (by show depth StackDepth + 52 < 2 ^ 32; omega)
  rw [initControl, hdepth, pStackBottom_eq (by omega) hp, hbytes] at heq
  set b := p + 48 + depth StackDepth with hb
  set h₁ := (clear h p (depth StackDepth + 52)).write (p + 4) b with hh₁
  clear_value h₁
  obtain ⟨htop, hout⟩ := stackInit_spec (h := h₁) (b := b) pProcess.toNat pOption.toNat
    exit.toNat (by omega) (by omega)
  obtain ⟨hsame, htree, hlock⟩ := stackInit_maps (h := h₁) (b := b) pProcess.toNat
    pOption.toNat exit.toNat
  generalize stackInit h₁ pProcess.toNat pOption.toNat exit.toNat b = t at *
  have hclear : ∀ w, w ≠ p + 4 → h₁.mem w = if p ≤ w ∧ w < p + (depth StackDepth + 52) then 0
      else h.mem w := by
    intro w hw
    rw [← clear_mem (by omega), hh₁]
    exact Function.update_of_ne hw _ _
  -- the words behind the frame, and those in front of it apart from the fields
  have hrest : ∀ w, w ≠ p → w ≠ p + 4 → w ≠ p + 8 → w ≠ p + 12 → w ≠ p + 16 →
      w < b - 60 ∨ b < w → h'.mem w =
        if p ≤ w ∧ w < p + (depth StackDepth + 52) then 0 else h.mem w := by
    intro w h0 h4 h8 h12 h16 hw
    rw [← hclear w h4, ← hout w hw, ← heq]
    exact (Function.update_of_ne h16 _ _).trans ((Function.update_of_ne h12 _ _).trans
      ((Function.update_of_ne h8 _ _).trans (Function.update_of_ne h0 _ _)))
  have hclear_same : h₁.sameMap = h.sameMap := by
    rw [hh₁, write_sameMap, clear_sameMap]
  have hclear_tree : h₁.treeMap = h.treeMap := by
    rw [hh₁, write_treeMap, clear_treeMap]
  have hclear_lock : h₁.lock = h.lock := by
    rw [hh₁, write_lock, clear_lock]
  refine ⟨?_, ?_, ?_, ?_, ?_, fun w hw => ?_, ?_, ?_, ?_⟩
  · rw [← heq]
    refine (Function.update_of_ne (by omega) _ _).trans ((Function.update_of_ne (by omega) _ _).trans
      ((Function.update_of_ne (by omega) _ _).trans ((Function.update_self ..).trans ?_)))
    rw [htop]
    omega
  · rw [← heq]
    exact (Function.update_of_ne (by omega) _ _).trans ((Function.update_of_ne (by omega) _ _).trans
      (Function.update_self ..))
  · rw [← heq]
    exact (Function.update_of_ne (by omega) _ _).trans (Function.update_self ..)
  · rw [hrest _ (by omega) (by omega) (by omega) (by omega) (by omega) (by omega), if_pos (by omega)]
  · rw [hrest _ (by omega) (by omega) (by omega) (by omega) (by omega) (by omega), if_pos (by omega)]
  · rw [hrest _ (by omega) (by omega) (by omega) (by omega) (by omega) (by omega), if_neg (by omega)]
  · rw [← heq, write_sameMap, write_sameMap, write_sameMap, write_sameMap, hsame, hclear_same]
  · rw [← heq, write_treeMap, write_treeMap, write_treeMap, write_treeMap, htree, hclear_tree]
  · rw [← heq, write_lock, write_lock, write_lock, write_lock, hlock, hclear_lock]

/-- **What a call does**: nothing, a request that fails, or a new thread. -/
lemma labour_cases {new : Option ThreadId}
    (heq : labour h k pName pProcess pOption exit StackDepth Priority = some (h', k', new)) :
    new = none ∧ h' = h ∨
    new = none ∧ h.malloc (alignUpside StackDepth 4 + 52#32) = some (h', null) ∨
    ∃ h₁ p, h.malloc (alignUpside StackDepth 4 + 52#32) = some (h₁, p) ∧ new = some p ∧
      p ≠ null ∧ StackDepth ≠ 0 ∧
      h' = initControl h₁ pName pProcess pOption exit (alignUpside StackDepth 4) Priority p ∧
      k'.priority p = Priority ∧ k'.links.next (Kernel.activeProc Priority) = .thread p := by
  rw [labour] at heq
  split_ifs at heq with hbad
  · rw [Option.some.injEq, Prod.mk.injEq, Prod.mk.injEq] at heq
    exact Or.inl ⟨heq.2.2.symm, heq.1.symm⟩
  · dsimp only at heq
    rw [Option.map_eq_some_iff] at heq
    obtain ⟨⟨h₁, p⟩, hmalloc, heq⟩ := heq
    dsimp only at heq
    refine Or.inr ?_
    split_ifs at heq with hnull
    · rw [Prod.mk.injEq, Prod.mk.injEq] at heq
      exact Or.inl ⟨heq.2.2.symm, by rw [hmalloc, hnull, heq.1]⟩
    · refine Or.inr ⟨h₁, p, hmalloc, ?_⟩
      generalize initControl h₁ pName pProcess pOption exit (alignUpside StackDepth 4) Priority p = h₂
        at heq ⊢
      rw [Kernel.labour, if_neg hbad, Prod.mk.injEq, Prod.mk.injEq] at heq
      obtain ⟨rfl, rfl, rfl⟩ := heq
      have hprio : Function.update k.priority p Priority p = Priority := Function.update_self ..
      refine ⟨rfl, hnull, fun hzero => hbad (Or.inr (Or.inr hzero)), rfl, hprio, ?_⟩
      dsimp only [Kernel.addActive, Kernel.threadRegister]
      rw [listAdd_next, hprio, if_pos rfl]

/-! ### The system with threads -/

/-- A call of the allocator, or of `labour`. -/
inductive Act where
  | call (a : Call)
  | labour (pName pProcess pOption exit StackDepth Priority : Int32U)

/-- What a step does to the heap with the blocks in use, and to the kernel. -/
def step (st : Session × Kernel) : Act → Option (Session × Kernel)
  | .call a => (st.1.step a).map fun s => (s, st.2)
  | .labour pName pProcess pOption exit StackDepth Priority =>
      (Labour.labour st.1.heap st.2 pName pProcess pOption exit StackDepth Priority).map fun r =>
        match r.2.2 with
        | none => (⟨r.1, st.1.live⟩, r.2.1)
        | some p =>
            (⟨r.1, Function.update st.1.live p (some (alignUpside StackDepth 4 + 52#32))⟩, r.2.1)

/-- A stack of sixteen words or more, for which no size wraps. -/
def Roomy (StackDepth : Int32U) : Prop := 61 ≤ StackDepth.toNat ∧ StackDepth.toNat ≤ 2 ^ 32 - 76

/-- The calls of a program whose requests are of proper sizes, and whose stacks have room. -/
def Proper : Act → Prop
  | .call (.malloc Size) => Size.toNat ≤ 2 ^ 32 - 32
  | .call _ => True
  | .labour _ _ _ _ StackDepth _ => Roomy StackDepth

/-- The bytes that a roomy stack asks for. -/
lemma toNat_request (hroomy : Roomy StackDepth) :
    (alignUpside StackDepth 4 + 52#32).toNat = sizeofThread + depth StackDepth ∧
      64 ≤ depth StackDepth ∧ sizeofThread + depth StackDepth ≤ 2 ^ 32 - 24 := by
  obtain ⟨hlo, hhi⟩ := hroomy
  have hD : 64 ≤ depth StackDepth ∧ sizeofThread + depth StackDepth ≤ 2 ^ 32 - 24 := by
    rw [depth, sizeofThread]
    omega
  refine ⟨?_, hD⟩
  rw [sizeofThread] at hD ⊢
  rw [BitVec.toNat_add, toNat_depth (by omega), Nat.add_comm]
  exact Nat.mod_eq_of_lt (by show 52 + depth StackDepth < 2 ^ 32; omega)

/-- **A roomy stack fits**, and the heap stays sound. -/
lemma labour_fits (hi : SessionInv banks s c) (hroomy : Roomy StackDepth) (hne : p ≠ null)
    (hmalloc : s.heap.malloc (alignUpside StackDepth 4 + 52#32) = some (h₁, p))
    (hinit : h' = initControl h₁ pName pProcess pOption exit (alignUpside StackDepth 4) Priority p)
    (hprio : k'.priority p = Priority)
    (hready : k'.links.next (Kernel.activeProc Priority) = .thread p) :
    Fits banks h₁ h' k' s.live p pName StackDepth Priority ∧
      Sound banks ⟨h', Function.update s.live p (some (alignUpside StackDepth 4 + 52#32))⟩ := by
  obtain ⟨hsize, hD, hle⟩ := toNat_request hroomy
  rcases hi.malloc (show (alignUpside StackDepth 4 + 52#32).toNat ≤ 2 ^ 32 - 24 by omega) with
    ⟨hnull, -⟩ | ⟨x, n, h₂, hsome, hx, hfit, hi'⟩
  · rw [hmalloc, Option.some.injEq, Prod.mk.injEq] at hnull
    exact absurd hnull.2 hne
  · rw [hmalloc, Option.some.injEq, Prod.mk.injEq] at hsome
    obtain ⟨rfl, rfl⟩ := hsome
    have hplaced := hi.placed_of_malloc hi' hx
    rw [hsize] at hplaced
    obtain ⟨b, -, -, hend⟩ := hplaced.bank
    have hb := (bankEnd b).isLt
    dsimp only [interval] at hend
    have hthread : sizeofThread = 52 := rfl
    have hlow : StackDepth.toNat ≤ 2 ^ 32 - 4 := by
      have := hroomy.2
      omega
    obtain ⟨htop, hprio', hname, hexit, hkill, hout, hsame, htree, hlock⟩ :=
      initControl_spec hlow (show 0 < x + 8 by omega) hD (by omega) hinit.symm
    refine ⟨⟨hplaced, fun i hi => ?_, by omega, hout, ⟨hprio', hprio⟩, hready, hname, hexit, hkill⟩,
      _, hi'.overwrite (Function.update_self ..) (fun w hw => hout w ?_) hsame htree hlock⟩
    · rw [toNat_depth hlow, pStackBottom_eq (by omega) (by omega), wsub_of_le (by omega) (by omega)]
      omega
    · rw [hsize] at hw
      omega

/-- `malloc` changes nothing, or returns memory behind a header. -/
lemma malloc_cases (hi : SessionInv banks s c) {Size : Int32U}
    (hmalloc : s.heap.malloc Size = some (h₁, p)) : p = null ∧ h₁ = s.heap ∨ 12 ≤ p := by
  have hnone : s.heap.malloc Size = some (s.heap, null) → p = null ∧ h₁ = s.heap := by
    intro hnull
    rw [hmalloc, Option.some.injEq, Prod.mk.injEq] at hnull
    exact ⟨hnull.2, hnull.1⟩
  have hbehind : ∀ x t, c x = some t → 12 ≤ x + 8 := by
    intro x t hx
    have hpos := hi.heap.layout.pos hx
    have hx4 := (hi.heap.layout.size x t hx).2.2
    omega
  by_cases hsize : Size.toNat ≤ 2 ^ 32 - 24
  · rcases hi.malloc hsize with ⟨hnull, -⟩ | ⟨x, n, h', heq, hx, -⟩
    · exact Or.inl (hnone hnull)
    · rw [hmalloc, Option.some.injEq, Prod.mk.injEq] at heq
      exact Or.inr (heq.2 ▸ hbehind x _ hx)
  · by_cases hfinds : s.heap.Finds (alignUpside (Size + 16#32) 4)
    · obtain ⟨x, n, hx, rfl⟩ := hi.heap.malloc_finds (not_le.mp hsize) hfinds hmalloc
      exact Or.inr (hbehind x _ hx)
    · exact Or.inl (hnone (hi.heap.malloc_null (not_le.mp hsize) hfinds))

/-- **A stack that is not roomy** does not fit. -/
lemma roomy_of_fits (hi : SessionInv banks s c) (hne : p ≠ null) (hzero : StackDepth ≠ 0)
    (hmalloc : s.heap.malloc (alignUpside StackDepth 4 + 52#32) = some (h₁, p))
    (hfits : Fits banks h₁ h' k' s.live p pName StackDepth Priority) : Roomy StackDepth := by
  have hp := (malloc_cases hi hmalloc).resolve_left fun hnull => hne hnull.1
  have hthread : sizeofThread = 52 := rfl
  have hdepth : depth StackDepth = (StackDepth.toNat + 3) / 4 * 4 := rfl
  -- no block of a bank reaches the end of the address space
  obtain ⟨b, -, -, hend⟩ := hfits.block.bank
  have hb := (bankEnd b).isLt
  have hb4 := bankEnd_mod (b := b)
  dsimp only [interval] at hend
  -- the word that is written last lies in the stack
  have hlast := hfits.words 15 (by norm_num)
  have hpos : 0 < StackDepth.toNat := Nat.pos_of_ne_zero fun h0 => hzero (BitVec.eq_of_toNat_eq h0)
  rw [toNat_depth (by omega), pStackBottom_eq (by omega) (by omega)] at hlast
  refine ⟨?_, by omega⟩
  by_cases hlow : 60 ≤ p + 48 + depth StackDepth
  · rw [wsub_of_le hlow (by omega)] at hlast
    omega
  · rw [wsub_of_lt (not_le.mp hlow)] at hlast
    omega

/-- **Proper steps** keep the heap sound. -/
lemma sound_step {st st' : Session × Kernel} {a : Act} (hsound : Sound banks st.1)
    (hproper : Proper a) (hs : step st a = some st') : Sound banks st'.1 := by
  obtain ⟨c, hi⟩ := hsound
  cases a with
  | call a =>
      rw [step, Option.map_eq_some_iff] at hs
      obtain ⟨s', hs, rfl⟩ := hs
      refine (hi.step ?_ hs).1
      cases a with
      | malloc Size =>
          have : Size.toNat ≤ 2 ^ 32 - 32 := hproper
          rintro ⟨hlt, -⟩
          omega
      | free p => exact id
      | store p w v => exact id
  | labour pName pProcess pOption exit StackDepth Priority =>
      rw [step, Option.map_eq_some_iff] at hs
      obtain ⟨⟨h', k', new⟩, heq, rfl⟩ := hs
      rcases labour_cases heq with
        ⟨rfl, rfl⟩ | ⟨rfl, hmalloc⟩ | ⟨h₁, p, hmalloc, rfl, hne, -, hinit, hprio, hready⟩
      · exact ⟨c, hi⟩
      · rcases malloc_cases hi hmalloc with ⟨-, rfl⟩ | hle
        · exact ⟨c, hi⟩
        · exact absurd hle (by decide)
      · exact (labour_fits hi hproper hne hmalloc hinit hprio hready).2

/-- **The first frame of a thread fits**, in every state that proper calls lead to, exactly for the
depths from 61 to `2 ^ 32 - 76`. -/
theorem fits_iff {h₀ : Heap} {s₀ : Session} {k₀ : Kernel} {acts : List Act} (hr : Registrable banks)
    (hs : Session.start h₀ banks = some s₀) (hproper : ∀ a ∈ acts, Proper a)
    (hrun : Run.exec step (s₀, k₀) acts = some (s, k))
    (hmalloc : s.heap.malloc (alignUpside StackDepth 4 + 52#32) = some (h₁, p))
    (heq : labour s.heap k pName pProcess pOption exit StackDepth Priority = some (h', k', some p)) :
    Fits banks h₁ h' k' s.live p pName StackDepth Priority ↔
      61 ≤ StackDepth.toNat ∧ StackDepth.toNat ≤ 2 ^ 32 - 76 := by
  have hstep : ∀ (st : Session × Kernel) a st', Sound banks st.1 → ¬ ¬ Proper a →
      step st a = some st' → Sound banks st'.1 :=
    fun st a st' hsound hgood hs => sound_step hsound (not_not.mp hgood) hs
  have hsound : Sound banks s := Run.invariant_of_exec hstep (SessionInv.start hr hs)
    (Run.along_of_mem fun a ha _ _ _ => not_not.mpr (hproper a ha)) hrun
  obtain ⟨c, hi⟩ := hsound
  rcases labour_cases heq with ⟨hnone, -⟩ | ⟨hnone, -⟩ | ⟨h₂, q, hmalloc', hq, hne, hzero, hinit, hprio, hready⟩
  · simp at hnone
  · simp at hnone
  · rw [hmalloc, Option.some.injEq, Prod.mk.injEq] at hmalloc'
    obtain ⟨rfl, rfl⟩ := hmalloc'
    exact ⟨fun hfits => roomy_of_fits hi hne hzero hmalloc hfits,
      fun hroomy => (labour_fits hi hroomy hne hmalloc hinit hprio hready).1⟩

/-! ### The first thread of a system -/

/-- The block of a thread with a stack of `StackDepth` bytes, the first one in `twoBanks`, and its
`pKill`. -/
def first (StackDepth : Int32U) : Option (ℕ × ℕ) :=
  (Session.start blank twoBanks).bind fun s₀ =>
    (labour s₀.heap .reset 1 2 3 4 StackDepth 5).bind fun r =>
      r.2.2.map fun p => (p, r.1.mem (p + 48))

lemma exists_first (StackDepth : Int32U) (p pKill : ℕ) (hfirst : first StackDepth = some (p, pKill)) :
    ∃ s₀ h₁ h' k', Session.start blank twoBanks = some s₀ ∧
      s₀.heap.malloc (alignUpside StackDepth 4 + 52#32) = some (h₁, p) ∧
      labour s₀.heap .reset 1 2 3 4 StackDepth 5 = some (h', k', some p) ∧
      h'.mem (p + 48) = pKill := by
  rw [first, Option.bind_eq_some_iff] at hfirst
  obtain ⟨s₀, hs, hfirst⟩ := hfirst
  rw [Option.bind_eq_some_iff] at hfirst
  obtain ⟨⟨h', k', new⟩, heq, hfirst⟩ := hfirst
  rw [Option.map_eq_some_iff] at hfirst
  obtain ⟨q, rfl, hq⟩ := hfirst
  obtain ⟨rfl, hkill⟩ := Prod.mk.inj hq
  rcases labour_cases heq with ⟨hnone, -⟩ | ⟨hnone, -⟩ | ⟨h₁, q', hmalloc, hq', -⟩
  · simp at hnone
  · simp at hnone
  · obtain rfl : q = q' := Option.some.inj hq'
    exact ⟨s₀, h₁, h', k', hs, hmalloc, heq, hkill⟩

theorem fits_iff_sixtyFour : ∃ s₀ h₁ h' k', Session.start blank twoBanks = some s₀ ∧
    labour s₀.heap .reset 1 2 3 4 64 5 = some (h', k', some 4108) ∧
    Fits twoBanks h₁ h' k' s₀.live 4108 1 64 5 := by
  obtain ⟨s₀, h₁, h', k', hs, hmalloc, heq, -⟩ :=
    exists_first 64 4108 0 (by decide +kernel)
  exact ⟨s₀, h₁, h', k', hs, heq, (fits_iff registrable_twoBanks hs
    (show ∀ a ∈ ([] : List Act), Proper a by simp) rfl hmalloc heq).mpr (by decide)⟩

/-- A stack of four bytes: the frame ends in front of the block, and `pKill` is the program
counter of the new thread. -/
theorem not_fits_four : ∃ s₀ h₁ h' k', Session.start blank twoBanks = some s₀ ∧
    s₀.heap.malloc (alignUpside 4 4 + 52#32) = some (h₁, 8200) ∧
    labour s₀.heap .reset 1 2 3 4 4 5 = some (h', k', some 8200) ∧ h'.mem (8200 + 48) = 2 ∧
    ¬ Fits twoBanks h₁ h' k' s₀.live 8200 1 4 5 := by
  obtain ⟨s₀, h₁, h', k', hs, hmalloc, heq, hkill⟩ :=
    exists_first 4 8200 2 (by decide +kernel)
  refine ⟨s₀, h₁, h', k', hs, hmalloc, heq, hkill, fun hfits => ?_⟩
  have hzero := hfits.pKill
  rw [hkill] at hzero
  exact absurd hzero (by decide)

end Spawn

end Labour

end ChinaOS
