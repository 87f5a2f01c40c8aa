import ChinaOS.PipeKernel
import ChinaOS.Wakeup

/-!
The wake-ups of a thread that is blocked in `pipe_read`.

`pReadThread` names the reader until it runs again, so every write before that, and the
expiry of its timer, links its node into the ready list once more.

* `exec_links`: the links after any sequence of wake-ups.
* `readyOnce_iff`: the ready lists are as they should be exactly after a single wake-up.
-/

namespace ChinaOS

open Ring

namespace PipeKernel

/-- What can make a blocked reader ready: a call of `pipe_write`, or its timer. -/
inductive Event where
  | pipeWrite (pElements Length : Int32U)
  | expire

/-- The step of an event for the reader `R`. -/
def Event.act (R : ThreadId) : Event → Act
  | .pipeWrite pElements Length => .pipeWrite pElements Length
  | .expire => .kernel (.systimer R)

/-- A write without data is refused before anything is done. -/
def Event.refused : Event → Bool
  | .pipeWrite pElements _ => decide (pElements = 0)
  | .expire => false

/-- The number of events that are not refused. -/
def wakeUps (es : List Event) : ℕ := es.countP fun e => !e.refused

/-- The reader `R` is blocked in `pipe_read`: the lists are well formed, `R` is in none of
them, and `pReadThread` names it. -/
structure Blocked (s : PipeKernel) (R : ThreadId) (I : Set Head) (Q : Head → List ThreadId) :
    Prop where
  heads : Kernel.Heads I
  lists : Kernel.Lists I s.kernel Q
  notMem : ∀ h ∈ I, R ∉ Q h
  priority_le : (s.kernel.priority R).toNat ≤ 32
  reader : s.pipe.pReadThread = some R

/-- **Waking is idempotent**: the reader is in its ready list exactly once, in a well-formed
list, and every other thread that was ready is still in its ready list. -/
structure ReadyOnce (s s' : PipeKernel) (R : ThreadId) : Prop where
  once : ∃ l, s'.kernel.links.Circle (Kernel.activeProc (s'.kernel.priority R)) l ∧
    l.count (Node.thread R) = 1
  others : ∀ t ≠ R, (s.kernel.priority t).toNat ≤ 32 → s.kernel.InReady t → s'.kernel.InReady t

section Wake

variable {s s' : PipeKernel} {R : ThreadId} {I : Set Head} {Q : Head → List ThreadId}
  {es : List Event} {e : Event}

/-! ### Blocking -/

/-- **A reader that finds the pipe empty is blocked.** -/
theorem blocked_of_pipeRead {c : ReadCall} (hi : Kernel.Inv I s.kernel Q) (hI : Kernel.Heads I)
    (hu : s.kernel.point s.kernel.osThis = .user) (hnull : c.pElements ≠ 0)
    (hempty : s.pipe.In = s.pipe.Out) :
    (s.pipeRead c).2 = none ∧ ∃ Q', Blocked (s.pipeRead c).1 s.kernel.osThis I Q' := by
  have hnone : Pipe.pipeRead s.ram s.pipe c.pElements c.length = none := by
    rw [Pipe.pipeRead, if_neg hnull, if_neg (not_not.mpr hempty)]
  have hsus : s.pipeRead c = (suspend s c, none) := by rw [pipeRead, hnone]
  rw [hsus]
  obtain ⟨hlive, -, -, -, -⟩ := hi.user hI hu
  obtain ⟨Q₁, hl, hh⟩ := hi.vivify hI hu
  refine ⟨rfl, Q₁, hI, hl.congr rfl rfl, hh.notMem (Function.update_self ..), ?_, rfl⟩
  exact (hi.thread _).priority_le hlive

/-! ### The links after the wake-ups -/

/-- A write changes neither the reader nor, when it is refused, anything else. -/
lemma pipeWrite_reader (ram : Ram) (p : Pipe) (pElements Length : Int32U) :
    (Pipe.pipeWrite ram p pElements Length).2.1.pReadThread = p.pReadThread ∧
      ((∃ n, (Pipe.pipeWrite ram p pElements Length).2.2 = .ok n) ↔ pElements ≠ 0) := by
  rw [Pipe.pipeWrite]
  split_ifs with h
  · exact ⟨rfl, by simp [h]⟩
  · exact ⟨rfl, iff_of_true ⟨_, rfl⟩ h⟩

/-- One event links the reader's node, unless it is refused. -/
lemma step_event (hr : s.pipe.pReadThread = some R) (hs : step s (e.act R) = some s') :
    s'.pipe.pReadThread = some R ∧ s'.kernel.priority = s.kernel.priority ∧
      s'.kernel.links = if e.refused then s.kernel.links
        else listAdd s.kernel.links (.thread R) (Kernel.activeProc (s.kernel.priority R)) := by
  cases e with
  | pipeWrite pElements Length =>
      obtain ⟨hreader, hok⟩ := pipeWrite_reader s.ram s.pipe pElements Length
      simp only [Event.act, step, Option.some.injEq] at hs
      rcases hw : Pipe.pipeWrite s.ram s.pipe pElements Length with ⟨ram, pipe, r⟩
      rw [hw] at hreader hok
      rw [pipeWrite, hw] at hs
      cases r with
      | error st =>
          have h0 : pElements = 0 := by simpa using hok
          subst hs
          exact ⟨hreader.trans hr, rfl, by simp [Event.refused, h0]⟩
      | ok n =>
          have h0 : pElements ≠ 0 := hok.mp ⟨n, rfl⟩
          have hthread : pipe.pReadThread = some R := hreader.trans hr
          simp only [hthread] at hs
          subst hs
          have hb : (Event.pipeWrite pElements Length).refused = false := decide_eq_false h0
          exact ⟨hthread, rfl, by rw [hb]; rfl⟩
  | expire =>
      simp only [Event.act, step, ownCode, Bool.false_and, Bool.false_eq_true, if_false,
        Option.map_eq_some_iff, Kernel.step, Option.ite_none_right_eq_some,
        Option.some.injEq] at hs
      obtain ⟨k, ⟨-, rfl⟩, rfl⟩ := hs
      refine ⟨hr, ?_, ?_⟩
      · rw [Kernel.systimerException, Kernel.markWoken_priority]
        rfl
      · rw [Kernel.systimerException, Kernel.markWoken_links]
        rfl

/-- **The links after a sequence of events**: the node is linked as often as there are
wake-ups. -/
theorem exec_links (hr : s.pipe.pReadThread = some R)
    (hs : Run.exec step s (es.map (Event.act R)) = some s') :
    s'.kernel.priority = s.kernel.priority ∧
      s'.kernel.links = Kernel.listAdds s.kernel.links (.thread R)
        (Kernel.activeProc (s.kernel.priority R)) (wakeUps es) := by
  induction es generalizing s with
  | nil =>
      rw [List.map_nil, Run.exec, Option.some.injEq] at hs
      subst hs
      exact ⟨rfl, rfl⟩
  | cons e es ih =>
      rw [List.map_cons, Run.exec, Option.bind_eq_some_iff] at hs
      obtain ⟨s₁, hs₁, hs⟩ := hs
      obtain ⟨hr₁, hp₁, hl₁⟩ := step_event hr hs₁
      obtain ⟨hp, hl⟩ := ih hr₁ hs
      refine ⟨hp.trans hp₁, ?_⟩
      rw [hl, hl₁, hp₁]
      cases hb : e.refused with
      | true => simp [wakeUps, hb]
      | false => simp [wakeUps, hb, Kernel.listAdds_listAdd]

/-! ### The ready lists after the wake-ups -/

lemma Blocked.head_ne (R : ThreadId) (p : Int32U) : Node.thread R ≠ Kernel.activeProc p := by
  simp [Kernel.activeProc]

/-- A blocked reader is in no ready list. -/
lemma Blocked.not_inReady (hb : Blocked s R I Q) : ¬ s.kernel.InReady R := by
  rintro ⟨l, hring, hmem⟩
  have hact := hb.heads.activeProc_mem _ hb.priority_le
  rw [hring.unique (hb.lists.rings.circle _ hact), Kernel.thread_mem_map] at hmem
  exact hb.notMem _ hact hmem

/-- After one wake-up the ready lists are as they should be. -/
lemma Blocked.readyOnce (hb : Blocked s R I Q) (hp : s'.kernel.priority = s.kernel.priority)
    (hl : s'.kernel.links =
      listAdd s.kernel.links (.thread R) (Kernel.activeProc (s.kernel.priority R))) :
    ReadyOnce s s' R := by
  have hact := hb.heads.activeProc_mem _ hb.priority_le
  have hrings := hb.lists.rings_listAdd hact hb.notMem
  rw [← Kernel.activeProc, ← hl] at hrings
  refine ⟨⟨_, by rw [hp]; exact hrings.circle _ hact, ?_⟩, fun t htR hprio ht => ?_⟩
  · rw [Function.update_self, List.map_cons, List.count_cons_self, Nat.add_eq_right,
      List.count_eq_zero, Kernel.thread_mem_map]
    exact hb.notMem _ hact
  · obtain ⟨l, hring, hmem⟩ := ht
    have hact' := hb.heads.activeProc_mem _ hprio
    rw [hring.unique (hb.lists.rings.circle _ hact'), Kernel.thread_mem_map] at hmem
    refine ⟨_, by rw [hp]; exact hrings.circle _ hact', ?_⟩
    rw [Kernel.thread_mem_map, Function.update_apply]
    split_ifs with h
    · exact List.mem_cons_of_mem _ (h ▸ hmem)
    · exact hmem

/-- After two wake-ups or more the reader is its own successor, and no thread of its priority
is in a well-formed ready list. -/
lemma not_inReady_of_listAdds {n : ℕ} {t : ThreadId}
    (ht : s'.kernel.priority t = s.kernel.priority R)
    (hl : s'.kernel.links = Kernel.listAdds s.kernel.links (.thread R)
      (Kernel.activeProc (s.kernel.priority R)) (n + 2)) : ¬ s'.kernel.InReady t := by
  have hself : s'.kernel.links.next (.thread R) = .thread R :=
    hl ▸ Kernel.listAdds_next_self (Blocked.head_ne R _) n
  have hhead : s'.kernel.links.next (Kernel.activeProc (s.kernel.priority R)) = .thread R :=
    hl ▸ (Kernel.listAdds_next (n + 1)).1
  rintro ⟨l, hring, -⟩
  rw [ht] at hring
  have hmem := hring.next_mem List.mem_cons_self
  rw [hhead] at hmem
  exact hring.next_ne ((List.mem_cons.mp hmem).resolve_left (Blocked.head_ne R _)) hself

/-- **The wake-ups of a blocked reader.** After a sequence of writes and an expiry of its
timer, before the reader runs, the ready lists are as they should be if and only if exactly
one of them was not refused. -/
theorem readyOnce_iff (hb : Blocked s R I Q)
    (hs : Run.exec step s (es.map (Event.act R)) = some s') :
    ReadyOnce s s' R ↔ wakeUps es = 1 := by
  obtain ⟨hp, hl⟩ := exec_links hb.reader hs
  have hready : ReadyOnce s s' R → s'.kernel.InReady R := by
    rintro ⟨⟨l, hring, hcount⟩, -⟩
    exact ⟨l, hring, List.count_pos_iff.mp (by omega)⟩
  rcases hn : wakeUps es with _ | _ | n
  · rw [hn] at hl
    refine iff_of_false (fun h => hb.not_inReady ?_) (by omega)
    rw [← Kernel.inReady_congr hl hp]
    exact hready h
  · rw [hn] at hl
    exact iff_of_true (hb.readyOnce hp hl) rfl
  · rw [hn] at hl
    exact iff_of_false (fun h => not_inReady_of_listAdds (by rw [hp]) hl (hready h)) (by omega)

end Wake

/-! ### A reader beside a ready thread of its priority -/

/-- An empty pipe beside the kernel as it starts. -/
def boot : PipeKernel := ⟨Kernel.startup Kernel.reset 0, fun _ => 0, Pipe.fourPairs, fun _ => none⟩

/-- Two threads of priority 5 are made, and the second one runs. -/
def makeTwo : List Kernel.Act := [.labour 1 1 64 5 0, .labour 2 1 64 5 0, .shift 0]

/-- Then it blocks in `pipe_read`, and the first one runs. -/
def blockReader : List Act :=
  makeTwo.map .kernel ++ [.pipeRead ⟨64, 1, 0⟩, .kernel (.shift 0)]

/-- Where no thread reads, the kernel runs by itself. -/
lemma exec_kernel {s : PipeKernel} {as : List Kernel.Act} (hr : s.reading = fun _ => none) :
    Run.exec step s (as.map .kernel) =
      (Run.exec Kernel.step s.kernel as).map fun kernel => { s with kernel } := by
  induction as generalizing s with
  | nil => rfl
  | cons a as ih =>
      have hstep : step s (.kernel a) =
          (Kernel.step s.kernel a).map fun kernel => { s with kernel } := by simp [step, hr]
      rw [List.map_cons, Run.exec, Run.exec, hstep]
      cases Kernel.step s.kernel a with
      | none => rfl
      | some k => exact ih (s := { s with kernel := k }) hr

/-- A switch leaves a blocked reader blocked. -/
lemma Blocked.shift {s s' : PipeKernel} {R : ThreadId} {I : Set Head}
    {Q : Head → List ThreadId} {pStackTop : Int32U} (hb : Blocked s R I Q)
    (hs : step s (.kernel (.shift pStackTop)) = some s') :
    Blocked s' R I Q ∧ s'.kernel.links = s.kernel.links ∧
      s'.kernel.priority = s.kernel.priority := by
  simp only [step, ownCode, Bool.false_and, Bool.false_eq_true, if_false,
    Option.map_eq_some_iff, Kernel.step, Kernel.shift] at hs
  obtain ⟨k, ⟨r, ⟨t, -, rfl⟩, rfl⟩, rfl⟩ := hs
  exact ⟨⟨hb.heads, hb.lists.congr rfl rfl, hb.notMem, hb.priority_le, hb.reader⟩, rfl, rfl⟩

/-- The state it leads to. -/
lemma blocked_blockReader : ∃ s Q, Run.exec step boot blockReader = some s ∧
    Blocked s 2 Kernel.allHeads Q ∧ s.kernel.InReady 1 ∧
      s.kernel.priority 1 = s.kernel.priority 2 := by
  obtain ⟨k, hk⟩ : ∃ k, Run.exec Kernel.step boot.kernel makeTwo = some k := ⟨_, rfl⟩
  have hstart : Kernel.NoneWoken boot.kernel :=
    Kernel.noneWoken_startup Kernel.atReset_reset (fun _ _ => ⟨rfl, rfl⟩) 0
  have hgood : Run.Along Kernel.step (fun k a _ => ¬ Kernel.Wakes k a) boot.kernel makeTwo :=
    fun _ _ => ⟨id, fun _ _ => ⟨id, fun _ _ => ⟨id, trivial⟩⟩⟩
  obtain ⟨⟨Q, hi⟩, -⟩ : Kernel.NoneWoken k := Run.invariant_of_exec
    (fun _ _ _ hn ha hs => (Kernel.NoneWoken.step hn ha hs).1) hstart hgood hk
  have hthis : k.osThis = 2 := Run.eq_of_exec (f := fun k => k.osThis) hk rfl
  have hpoint : k.point 2 = .user := Run.eq_of_exec (f := fun k => k.point 2) hk rfl
  obtain ⟨s, hs⟩ : ∃ s, Run.exec step boot blockReader = some s := ⟨_, rfl⟩
  have hsplit := hs
  rw [blockReader, Run.exec_append, exec_kernel rfl, hk, Option.map_some, Option.bind_some,
    Run.exec, Option.bind_eq_some_iff] at hsplit
  obtain ⟨s₁, hs₁, hsplit⟩ := hsplit
  simp only [step, hthis, hpoint, boot, and_self, if_true, Option.some.injEq] at hs₁
  rw [Run.exec, Option.bind_eq_some_iff] at hsplit
  obtain ⟨s₂, hs₂, hsplit⟩ := hsplit
  rw [Run.exec, Option.some.injEq] at hsplit
  subst hsplit
  obtain ⟨-, Q', hb⟩ := blocked_of_pipeRead (c := ⟨64, 1, 0⟩)
    (s := { kernel := k, ram := fun _ => 0, pipe := Pipe.fourPairs, reading := fun _ => none })
    hi Kernel.heads_allHeads (by rw [hthis]; exact hpoint) (by decide) rfl
  rw [hs₁, hthis] at hb
  refine ⟨s₂, Q', hs, (hb.shift hs₂).1, ?_, ?_⟩
  · have hnext : (s₂.kernel.links.next (.head (.activeProc 5)), s₂.kernel.links.next (.thread 1)) =
        (.thread 1, .head (.activeProc 5)) := Run.eq_of_exec (f := fun s =>
      (s.kernel.links.next (.head (.activeProc 5)), s.kernel.links.next (.thread 1))) hs rfl
    have hprev : (s₂.kernel.links.prev (.head (.activeProc 5)), s₂.kernel.links.prev (.thread 1)) =
        (.thread 1, .head (.activeProc 5)) := Run.eq_of_exec (f := fun s =>
      (s.kernel.links.prev (.head (.activeProc 5)), s.kernel.links.prev (.thread 1))) hs rfl
    have hprio : s₂.kernel.priority 1 = 5 :=
      Run.eq_of_exec (f := fun s => s.kernel.priority 1) hs rfl
    simp only [Prod.mk.injEq] at hnext hprev
    refine ⟨[.thread 1], ?_, List.mem_singleton_self _⟩
    rw [hprio]
    exact ⟨by simp [Linked, Kernel.activeProc, hnext, hprev], by decide⟩
  · have h1 : s₂.kernel.priority 1 = 5 := Run.eq_of_exec (f := fun s => s.kernel.priority 1) hs rfl
    have h2 : s₂.kernel.priority 2 = 5 := Run.eq_of_exec (f := fun s => s.kernel.priority 2) hs rfl
    rw [h1, h2]

/-- One write to the pipe makes the reader ready. -/
theorem readyOnce_iff_blockReader : ∃ s s', Run.exec step boot blockReader = some s ∧
    Run.exec step s ([.pipeWrite 64 1].map (Event.act 2)) = some s' ∧
    (ReadyOnce s s' 2 ↔ wakeUps [.pipeWrite 64 1] = 1) := by
  obtain ⟨s, Q, hs, hb, -⟩ := blocked_blockReader
  exact ⟨s, _, hs, rfl, readyOnce_iff hb rfl⟩

/-- Two writes drop the other ready thread of the reader's priority, and leave the reader in
no well-formed list. -/
theorem not_readyOnce_two_writes : ∃ s s', Run.exec step boot blockReader = some s ∧
    s.pipe.pReadThread = some 2 ∧ s.kernel.InReady 1 ∧
    Run.exec step s ([.pipeWrite 64 1, .pipeWrite 64 1].map (Event.act 2)) = some s' ∧
    ¬ s'.kernel.InReady 1 ∧ ¬ ReadyOnce s s' 2 := by
  obtain ⟨s, Q, hs, hb, h1, hprio⟩ := blocked_blockReader
  obtain ⟨s', hs'⟩ : ∃ s', Run.exec step s
    ([.pipeWrite 64 1, .pipeWrite 64 1].map (Event.act 2)) = some s' := ⟨_, rfl⟩
  obtain ⟨hp, hl⟩ := exec_links hb.reader hs'
  have hnot : ¬ s'.kernel.InReady 1 := not_inReady_of_listAdds (by rw [hp, hprio]) hl
  exact ⟨s, s', hs, hb.reader, h1, hs', hnot, fun h => hnot (h.others 1 (by decide)
    (hprio ▸ hb.priority_le) h1)⟩

end PipeKernel

end ChinaOS
