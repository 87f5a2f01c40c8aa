import ChinaOS.Ready

/-!
The loop of `idle` in `kernel/kernel.c` that gives the blocks of finished threads back, next to
the core scheduler.

`list_for_each` reads `pNode->next` behind the body, which has just freed the block that `pNode`
lies in. Between two iterations other threads may run, and finish.

* `iterate`: one test of the loop, with the body and the step to the next node.
* `Reaped`: no node of a freed block is read or written, each block is freed once, and a pass
  over a list that receives no entry ends with an empty one.
* `reaped_iff`: the runs in which this holds.
-/

namespace ChinaOS

open Ring

namespace Reaper

open Kernel

/-- What `idle` does to a node of a list, or to a block. -/
inductive Access where
  /-- A read or a write of `next` or `prev`. -/
  | node (n : Node)
  /-- `free(pThread)`. -/
  | free (pThread : ThreadId)
  deriving DecidableEq

end Reaper

open Kernel

/-- The kernel and the loop of `idle`: the cursor while a pass is made, the blocks that were freed
and not handed out again, and whether a thread has finished since the pass began. -/
structure Reaper where
  kernel : Kernel
  pNode : Option Node
  freed : List ThreadId
  received : Bool

namespace Reaper

/-- Before the first pass. -/
def start (k : Kernel) : Reaper := ⟨k, none, [], false⟩

/-- The test of the loop for the cursor `pNode`; if it has not arrived at the head, the body and
`pNode = pNode->next`. `free` leaves the two words `bytes` in the node. -/
def iterate (s : Reaper) (bytes : Node × Node) (pNode : Node) : Option (Reaper × List Access) :=
  if pNode = .head .deadList then some ({ s with pNode := none }, [])
  else
    (containerOf pNode).map fun pThread =>
      let L := s.kernel.links
      let links := freeNode (listDel L pNode) pNode bytes
      ({ s with
          kernel := { s.kernel with
            links
            point := Function.update s.kernel.point pThread .user }
          pNode := some (links.next pNode)
          freed := pThread :: s.freed },
        [.node pNode, .node (L.next pNode), .node (L.prev pNode), .free pThread, .node pNode])

/-- A step of the core scheduler, the beginning of a pass up to the first step to the next node, or
an iteration after that. -/
inductive Act where
  | kernel (a : Kernel.Act)
  | begin (bytes : Node × Node)
  | next (bytes : Node × Node)

/-- What `idle` does in a step, if it does one: the state after it, and the accesses. -/
def pass (s : Reaper) : Act → Option (Reaper × List Access)
  | .kernel _ => none
  | .begin bytes =>
      if s.kernel.osThis = osIdle ∧ s.pNode = none then
        iterate { s with received := false } bytes (s.kernel.links.next (.head .deadList))
      else none
  | .next bytes =>
      if s.kernel.osThis = osIdle then s.pNode.bind (iterate s bytes) else none

/-- One step. A block that is handed out again is no longer a freed one. -/
def step (s : Reaper) : Act → Option Reaper
  | .kernel a =>
      if Core s.kernel a then
        (Kernel.step s.kernel a).map fun k =>
          { s with
            kernel := k
            freed := s.freed.filter fun t => ¬ k.Allocated t
            received := s.received || decide (a = .exit) }
      else none
  | .begin bytes => (s.pass (.begin bytes)).map Prod.fst
  | .next bytes => (s.pass (.next bytes)).map Prod.fst

/-- The accesses of a step. -/
def trace (s : Reaper) (a : Act) : List Access := ((s.pass a).map Prod.snd).getD []

/-- No node of a freed block is accessed, and no block is freed twice. -/
def Safe : List ThreadId → List Access → Prop
  | _, [] => True
  | freed, .node n :: as => (∀ t ∈ freed, n ≠ .thread t) ∧ Safe freed as
  | freed, .free t :: as => t ∉ freed ∧ Safe (t :: freed) as

/-- **The law of the reaper**: the accesses are safe, the blocks that are freed are those of
threads that have finished, and a pass that ends without a new entry leaves `OS_DeadList` empty. -/
structure Reaped (s : Reaper) (a : Act) (s' : Reaper) : Prop where
  safe : Safe s.freed (s.trace a)
  exited : ∀ t, Access.free t ∈ s.trace a → s.kernel.point t = .exited
  complete : (∀ b, a ≠ .kernel b) → s'.pNode = none → s'.received = false →
    listEmpty s'.kernel.links (.head .deadList) = true

/-- A pass begins when a thread has finished. -/
def Finds (s : Reaper) : Act → Prop
  | .begin _ => ∃ t, s.kernel.point t = .exited
  | _ => False

section Steps

variable {I : Set Head} {s s' : Reaper} {Q : Head → List ThreadId} {a : Act} {bytes : Node × Node}

/-- The invariant of the runs in which no pass finds a thread. -/
structure Waiting (I : Set Head) (s : Reaper) : Prop where
  lists : ∃ Q, Inv I s.kernel Q
  fields : CoreFields s.kernel
  pNode : s.pNode = none
  freed : s.freed = []

/-- The dead threads are those of the list. -/
lemma exited_iff (hi : Inv I s.kernel Q) (hI : Heads I) (hf : CoreFields s.kernel) :
    (∃ t, s.kernel.point t = .exited) ↔ Q .deadList ≠ [] := by
  have hlaw := hi.readyLaw hI hf
  constructor
  · rintro ⟨t, ht⟩
    exact List.ne_nil_of_mem ((hlaw.exited t).mpr ht)
  · intro hne
    obtain ⟨t, ht⟩ := List.exists_mem_of_ne_nil _ hne
    exact ⟨t, (hlaw.exited t).mp ht⟩

/-- **Steps that find no thread** obey the law, and no pass is left unfinished. -/
lemma Waiting.step (hw : Waiting I s) (hI : Heads I) (hnot : ¬ Finds s a)
    (hs : s.step a = some s') : Waiting I s' ∧ Reaped s a s' := by
  obtain ⟨⟨Q, hi⟩, hf, hnone, hfreed⟩ := hw
  cases a with
  | kernel a =>
      simp only [Reaper.step, Option.ite_none_right_eq_some, Option.map_eq_some_iff] at hs
      obtain ⟨hc, k, hk, rfl⟩ := hs
      refine ⟨⟨hi.plain_step hI hc.plain hk, hf.step hc hk, hnone, ?_⟩,
        trivial, fun t ht => ?_, fun hne => absurd rfl (hne a)⟩
      · dsimp only
        rw [hfreed, List.filter_nil]
      · exact absurd ht List.not_mem_nil
  | begin bytes =>
      have hnil : Q .deadList = [] := by
        by_contra hne
        exact hnot ((exited_iff hi hI hf).mpr hne)
      have hempty := (hi.lists.listEmpty_iff hI.deadList_mem).mpr hnil
      have hnext : s.kernel.links.next (.head .deadList) = .head .deadList :=
        of_decide_eq_true hempty
      have hthis : s.kernel.osThis = osIdle ∧ s.pNode = none := by
        by_contra hnot
        rw [Reaper.step, pass, if_neg hnot] at hs
        simp at hs
      have hpass : s.pass (.begin bytes) = some ({ s with received := false, pNode := none }, []) := by
        rw [pass, if_pos hthis, iterate, if_pos hnext]
      have hs' : { s with received := false, pNode := none } = s' := by
        rw [Reaper.step, hpass] at hs
        exact Option.some.inj hs
      subst hs'
      refine ⟨⟨⟨Q, hi⟩, hf, rfl, hfreed⟩, ?_, fun t ht => ?_, fun _ _ _ => hempty⟩
      · rw [trace, hpass]
        trivial
      · rw [trace, hpass] at ht
        exact absurd ht List.not_mem_nil
  | next bytes =>
      simp [Reaper.step, pass, hnone] at hs

/-- **A pass that finds a thread** reads the node of the block that it has freed. -/
lemma Waiting.not_reaped (hw : Waiting I s) (hI : Heads I) (hfinds : Finds s a)
    (hs : s.step a = some s') : ¬ Reaped s a s' := by
  obtain ⟨⟨Q, hi⟩, hf, hnone, hfreed⟩ := hw
  intro hlaw
  cases a with
  | kernel a => exact hfinds
  | next bytes => exact hfinds
  | begin bytes =>
      obtain ⟨u, us, hu⟩ := List.exists_cons_of_ne_nil ((exited_iff hi hI hf).mp hfinds)
      have hnext : s.kernel.links.next (.head .deadList) = .thread u := by
        rw [hi.lists.rings.next_head hI.deadList_mem, hu]
        rfl
      have hthis : s.kernel.osThis = osIdle ∧ s.pNode = none := by
        by_contra hnot
        rw [Reaper.step, pass, if_neg hnot] at hs
        simp at hs
      have htrace : s.trace (.begin bytes) = [.node (.thread u),
          .node (s.kernel.links.next (.thread u)), .node (s.kernel.links.prev (.thread u)), .free u,
          .node (.thread u)] := by
        rw [trace, pass, if_pos hthis, hnext, iterate, if_neg (by simp)]
        rfl
      have hsafe := hlaw.safe
      rw [htrace, hfreed] at hsafe
      exact hsafe.2.2.2.2.1 u List.mem_cons_self rfl

/-- Before the first pass. -/
lemma Waiting.start {k₀ : Kernel} (h₀ : AtReset k₀) (pStackTop : Int32U) :
    Waiting (bootHeads ∅) (start (startup k₀ pStackTop)) :=
  ⟨Inv.startup_core h₀ _, CoreFields.startup h₀ _, rfl, rfl⟩

/-- **The reaper obeys its law** along the runs from `startup` in which no pass begins when a thread
has finished, and along no others. -/
theorem reaped_iff {k₀ : Kernel} (h₀ : AtReset k₀) (pStackTop : Int32U) (acts : List Act) :
    Run.Along step Reaped (start (startup k₀ pStackTop)) acts ↔
      Run.Along step (fun s a _ => ¬ Finds s a) (start (startup k₀ pStackTop)) acts := by
  have hI := heads_bootHeads (W := ∅) fun _ hh => hh.elim
  exact Run.along_iff_of_invariant (fun s a s' hw hnot hs => hw.step hI hnot hs)
    (fun s a s' hw hfinds hs => hw.not_reaped hI hfinds hs) (Waiting.start h₀ pStackTop)

/-- The reaper finishes no thread. -/
lemma iterate_exited {pNode : Node} {r : Reaper × List Access} {t : ThreadId}
    (hr : iterate s bytes pNode = some r) (ht : r.1.kernel.point t = .exited) :
    s.kernel.point t = .exited := by
  rw [iterate] at hr
  split_ifs at hr with hhead
  · rwa [← Option.some.inj hr] at ht
  · rw [Option.map_eq_some_iff] at hr
    obtain ⟨u, -, rfl⟩ := hr
    dsimp only at ht
    rw [Function.update_apply] at ht
    split_ifs at ht
    exact ht

/-- **While no thread finishes**, no pass finds one. -/
lemma not_finds_of_not_exit {acts : List Act} (hacts : .kernel .exit ∉ acts)
    (hnone : ∀ t, s.kernel.point t ≠ .exited) :
    Run.Along step (fun s a _ => ¬ Finds s a) s acts := by
  have hstep : ∀ (s : Reaper) a s', (∀ t, s.kernel.point t ≠ .exited) → ¬ a = .kernel .exit →
      step s a = some s' → (∀ t, s'.kernel.point t ≠ .exited) ∧ ¬ Finds s a := by
    intro s a s' hnone ha hs
    cases a with
    | kernel a =>
        simp only [step, Option.ite_none_right_eq_some, Option.map_eq_some_iff] at hs
        obtain ⟨hc, k, hk, rfl⟩ := hs
        exact ⟨fun t ht => hnone t ((core_frame hc hk).exited (fun heq => ha (congrArg _ heq)) ht), id⟩
    | begin bytes =>
        simp only [step, pass, Option.map_eq_some_iff, Option.ite_none_right_eq_some] at hs
        obtain ⟨r, ⟨-, hr⟩, rfl⟩ := hs
        exact ⟨fun t ht => hnone t (iterate_exited (s := { s with received := false }) hr ht),
          fun ⟨t, ht⟩ => hnone t ht⟩
    | next bytes =>
        simp only [step, pass, Option.map_eq_some_iff, Option.ite_none_right_eq_some,
          Option.bind_eq_some_iff] at hs
        obtain ⟨r, ⟨-, pNode, -, hr⟩, rfl⟩ := hs
        exact ⟨fun t ht => hnone t (iterate_exited hr ht), id⟩
  refine Run.along_of_invariant hstep hnone (Run.along_of_mem fun a ha _ _ _ heq => ?_)
  rw [heq] at ha
  exact hacts ha

/-- A thread is made, sleeps, and wakes, with a pass while it sleeps. -/
def sleeper : List Act :=
  [.kernel (.labour 1 1 64 5 0), .kernel (.shift 0), .kernel (.sleep 10), .kernel (.shift 0),
    .begin (.head .deadList, .head .deadList), .kernel (.systimer 1), .kernel (.shift 0)]

theorem reaped_iff_sleeper :
    (Run.exec step (start (startup reset 0)) sleeper).isSome = true ∧
      Run.Along step Reaped (start (startup reset 0)) sleeper := by
  refine ⟨by decide, (reaped_iff atReset_reset 0 sleeper).mpr ?_⟩
  exact not_finds_of_not_exit (by simp [sleeper]) fun t => by simp [start, startup, reset, threadRegister]

/-- A thread is made, and finishes. -/
def finisher : List Act :=
  [.kernel (.labour 1 1 64 5 0), .kernel (.shift 0), .kernel .exit, .kernel (.shift 0)]

/-- The next pass reads the node of the block that it has freed. -/
theorem not_reaped_finisher :
    (Run.exec step (start (startup reset 0)) (finisher ++ [.begin (.thread 7, .thread 8)])).isSome =
        true ∧
      ¬ Run.Along step Reaped (start (startup reset 0))
        (finisher ++ [.begin (.thread 7, .thread 8)]) := by
  have hrun : (Run.exec step (start (startup reset 0))
      (finisher ++ [.begin (.thread 7, .thread 8)])).isSome = true := by decide
  refine ⟨hrun, fun hlaw => ?_⟩
  obtain ⟨s', hs'⟩ := Option.isSome_iff_exists.mp hrun
  obtain ⟨s₁, hs₁, hreaped⟩ := hlaw.of_append hs'
  have htrace : s₁.trace (.begin (.thread 7, .thread 8)) = [.node (.thread 1),
      .node (.head .deadList), .node (.head .deadList), .free 1, .node (.thread 1)] :=
    Run.eq_of_exec (f := fun s => trace s (.begin (.thread 7, .thread 8))) hs₁ (by decide)
  have hsafe := hreaped.safe
  rw [htrace] at hsafe
  exact hsafe.2.2.2.2.1 1 List.mem_cons_self rfl

end Steps

end Reaper

end ChinaOS
