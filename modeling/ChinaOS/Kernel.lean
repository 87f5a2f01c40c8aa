import ChinaOS.Bit
import ChinaOS.List
import ChinaOS.Mailbox

/-!
The scheduler of `kernel/kernel.c` with the blocking parts of `kernel/semaphore/semaphore.c`
and `kernel/mailbox/mailbox.c`, and the loop body of `systimer_exception`.

One node per control block is shared by the ready lists, the wait lists and the list of dead
threads, so all of them live in one memory of links. The fields of the control blocks are
maps from threads. A thread's timer is only armed or not here; when it expires is the
subject of `ChinaOS.Ticker`. `OS_thread_switch` pends a switch, and `shift` performs one.

Each function is one critical section. A call that blocks is split at `OS_thread_switch`
into the part before it and the part after it.

* `step`: one critical section or one switch of the running system.
* `step_frame`: which counters and threads a step leaves alone.
-/

namespace ChinaOS

open Ring

/-- The list heads of the kernel. -/
inductive Head where
  /-- `OS_ActiveProc[p]` -/
  | activeProc (p : ℕ)
  /-- `OS_DeadList` -/
  | deadList
  /-- `WaitHead` of a semaphore -/
  | semaphore (s : ℕ)
  /-- `WaitHead` of a mailbox -/
  | mailbox (b : ℕ)
  deriving DecidableEq

/-- A `struct list_head` of the kernel: a list head, or the `Node` of a thread. -/
inductive Node where
  | head (h : Head)
  | thread (t : ThreadId)
  deriving DecidableEq

/-- A thread's timer: not in use, running, or expired and not yet deleted. -/
inductive TimerStatus where
  | unarmed
  | armed
  | fired
  deriving DecidableEq

/-- How far a thread has come: in its own code, suspended in `sleep`, suspended in
`semaphore_wait` or `mail_wait` on a list with a time limit, or finished. `woken` records
that a suspended waiter has been made ready since. -/
inductive Point where
  | user
  | sleeping
  | waiting (h : Head) (Timeout : Int32U) (woken : Bool)
  | exited
  deriving DecidableEq

/-- The kernel's variables, and the fields of all control blocks, semaphores and
mailboxes. `switching` holds of a thread between its own suspension and the switch away from
it; `posting` are the threads that calls of `mail_post` have picked and not yet made ready. -/
structure Kernel where
  links : Links Node
  osActivePrio : Int32U
  osThis : ThreadId
  osLiveList : List ThreadId
  priority : ThreadId → Int32U
  pStackTop : ThreadId → Int32U
  timer : ThreadId → TimerStatus
  point : ThreadId → Point
  switching : ThreadId → Bool
  counter : ℕ → Int32U
  mail : ℕ → Mailbox
  posting : List ThreadId

/-- `OS_Idle`. -/
def osIdle : ThreadId := 0

namespace Kernel

/-- `&OS_ActiveProc[Priority]`. -/
def activeProc (Priority : Int32U) : Node := .head (.activeProc Priority.toNat)

/-- `container_of` from a `Node` to its control block; what it makes of the address of a
list head is no thread. -/
def containerOf : Node → Option ThreadId
  | .thread t => some t
  | .head _ => none

/-- `vivify_thread`: take the thread out of its ready list. `sleep`, `exit`,
`semaphore_wait` and `mail_wait` have a copy of this body. -/
def vivifyThread (k : Kernel) (pControl : ThreadId) (Priority : Int32U) : Kernel :=
  let links := listDel k.links (.thread pControl)
  { k with
    links
    osActivePrio :=
      if listEmpty links (activeProc Priority) then clearBit k.osActivePrio Priority.toNat
      else k.osActivePrio }

/-- The two lines that put a thread into its ready list, as `labour`, `semaphore_post`,
`mail_post` and `systimer_exception` have them. -/
def addActive (k : Kernel) (pThread : ThreadId) : Kernel :=
  { k with
    links := listAdd k.links (.thread pThread) (activeProc (k.priority pThread))
    osActivePrio := setBit k.osActivePrio (k.priority pThread).toNat }

/-- Record that a suspended waiter has been made ready. -/
def markWoken (k : Kernel) (t : ThreadId) : Kernel :=
  match k.point t with
  | .waiting h Timeout _ => { k with point := Function.update k.point t (.waiting h Timeout true) }
  | _ => k

/-- `thread_register`: to the end of the list of live threads. -/
def threadRegister (k : Kernel) (pThread : ThreadId) : Kernel :=
  { k with osLiveList := k.osLiveList ++ [pThread] }

/-- `thread_unregister`; its walk runs off the end of the list for a thread that is not in
it. -/
def threadUnregister (k : Kernel) (pThread : ThreadId) : Option Kernel :=
  if pThread ∈ k.osLiveList then some { k with osLiveList := k.osLiveList.erase pThread }
  else none

/-- The variables before `startup`, when nothing has run yet. The link words, and what the
control blocks, semaphores and mailboxes hold, may be anything. -/
structure AtReset (k : Kernel) : Prop where
  osLiveList : k.osLiveList = []
  timer : ∀ t, k.timer t = .unarmed
  point : ∀ t, k.point t = .user
  switching : ∀ t, k.switching t = false
  posting : k.posting = []

/-- The variables before `startup`, when nothing has run yet and all words are zero but the
links, each node pointing at itself. -/
def reset : Kernel where
  links := ⟨id, id⟩
  osActivePrio := 0
  osThis := 0
  osLiveList := []
  priority := fun _ => 0
  pStackTop := fun _ => 0
  timer := fun _ => .unarmed
  point := fun _ => .user
  switching := fun _ => false
  counter := fun _ => 0
  mail := fun _ => ⟨0, 0, 0, fun _ => 0, 0⟩
  posting := []

lemma atReset_reset : AtReset reset :=
  ⟨rfl, fun _ => rfl, fun _ => rfl, fun _ => rfl, rfl⟩

/-- `startup`, up to the activation of the idle thread. -/
def startup (k : Kernel) (pStackTop : Int32U) : Kernel :=
  let links := initListHead k.links (.head .deadList)
  let links := (List.range 33).foldl
    (fun links i => initListHead links (.head (.activeProc i))) links
  let k := { k with
    links := listAdd links (.thread osIdle) (activeProc 32)
    osActivePrio := 0
    priority := Function.update k.priority osIdle 32
    pStackTop := Function.update k.pStackTop osIdle pStackTop
    osThis := osIdle }
  threadRegister k osIdle

/-- `labour`: `block` is the answer of `malloc`, `pStackTop` that of `stack_init`. -/
def labour (k : Kernel) (block : Option ThreadId) (pProcess StackDepth Priority : Int32U)
    (pStackTop : Int32U) : Kernel × Option ThreadId :=
  if Priority &&& ~~~0x1F ≠ 0 ∨ pProcess = 0 ∨ StackDepth = 0 then (k, none)
  else
    match block with
    | none => (k, none)
    | some pControl =>
        let k := { k with
          pStackTop := Function.update k.pStackTop pControl pStackTop
          priority := Function.update k.priority pControl Priority
          timer := Function.update k.timer pControl .unarmed
          point := Function.update k.point pControl .user
          switching := Function.update k.switching pControl false }
        (addActive (threadRegister k pControl) pControl, some pControl)

/-- `exit`, behind the call of `pExit`. -/
def exit (k : Kernel) : Option Kernel :=
  let pThread := k.osThis
  (threadUnregister k pThread).map fun k =>
    let k := vivifyThread k pThread (k.priority pThread)
    { k with
      timer := Function.update k.timer pThread .unarmed
      links := listAdd k.links (.thread pThread) (.head .deadList)
      point := Function.update k.point pThread .exited
      switching := Function.update k.switching pThread true }

/-- `sleep` up to the switch. -/
def sleep (k : Kernel) (Time : Int32U) : Kernel :=
  if Time = 0 then k
  else
    let pThread := k.osThis
    let k := vivifyThread k pThread (k.priority pThread)
    { k with
      timer := Function.update k.timer pThread .armed
      point := Function.update k.point pThread .sleeping
      switching := Function.update k.switching pThread true }

/-- `sleep` behind the switch. -/
def sleepResumed (k : Kernel) : Kernel :=
  { k with
    timer := Function.update k.timer k.osThis .unarmed
    point := Function.update k.point k.osThis .user }

/-- The suspension of the running thread on the list `WaitHead`, as `semaphore_wait` and
`mail_wait` have it. -/
def suspend (k : Kernel) (WaitHead : Head) (Timeout : Int32U) : Kernel :=
  let pThread := k.osThis
  let k := vivifyThread k pThread (k.priority pThread)
  { k with
    links := listAdd k.links (.thread pThread) (.head WaitHead)
    timer := if Timeout ≠ 0 then Function.update k.timer pThread .armed else k.timer
    point := Function.update k.point pThread (.waiting WaitHead Timeout false)
    switching := Function.update k.switching pThread true }

/-- What `semaphore_wait` and `mail_wait` do first when the thread runs again: delete the
timer, then unlink the node, from whatever list it is in. -/
def resume (k : Kernel) (Timeout : Int32U) : Kernel :=
  { k with
    timer := if Timeout ≠ 0 then Function.update k.timer k.osThis .unarmed else k.timer
    links := listDel k.links (.thread k.osThis)
    point := Function.update k.point k.osThis .user }

/-- `semaphore_wait` up to the switch; the status when it does not block. -/
def semaphoreWait (k : Kernel) (Semaphore : ℕ) (Timeout : Int32U) : Kernel × Option Status :=
  if k.counter Semaphore ≠ 0 then
    ({ k with counter := Function.update k.counter Semaphore (k.counter Semaphore - 1) },
      some .ok)
  else (suspend k (.semaphore Semaphore) Timeout, none)

/-- `semaphore_wait` behind the switch. -/
def semaphoreWaitResumed (k : Kernel) (Semaphore : ℕ) (Timeout : Int32U) : Kernel × Status :=
  let k := resume k Timeout
  if k.counter Semaphore = 0 then (k, .errTimeout)
  else
    ({ k with counter := Function.update k.counter Semaphore (k.counter Semaphore - 1) }, .ok)

/-- `semaphore_post` up to the call of `scheduler`. -/
def semaphorePost (k : Kernel) (Semaphore : ℕ) : Option (Kernel × Status) :=
  let k := { k with
    counter := Function.update k.counter Semaphore (k.counter Semaphore + 1) }
  if listEmpty k.links (.head (.semaphore Semaphore)) then some (k, .ok)
  else
    (containerOf (k.links.next (.head (.semaphore Semaphore)))).map fun pThread =>
      (markWoken (addActive k pThread) pThread, .ok)

/-- `mail_wait` up to the switch; the message when it does not block. -/
def mailWait (k : Kernel) (b : ℕ) (Timeout : Int32U) : Option (Kernel × Option Mail) :=
  match Mailbox.mailWait (k.mail b) with
  | none => none
  | some (m, some Message) => some ({ k with mail := Function.update k.mail b m }, some Message)
  | some (_, none) => some (suspend k (.mailbox b) Timeout, none)

/-- `mail_wait` behind the switch. -/
def mailWaitResumed (k : Kernel) (b : ℕ) (Timeout : Int32U) :
    Option (Kernel × Except Status Mail) :=
  let k := resume k Timeout
  match Mailbox.mailWaitResumed (k.mail b) with
  | none => none
  | some (m, r) => some ({ k with mail := Function.update k.mail b m }, r)

/-- `mail_post` before its critical section: put the message into the queue and pick the
thread to be made ready, if one waits. -/
def mailPost (k : Kernel) (b : ℕ) (Message : Mail) :
    Option (Kernel × Status × Option ThreadId) :=
  match Mailbox.mailPost (k.mail b) Message with
  | none => none
  | some (m, .ok) =>
      let k := { k with mail := Function.update k.mail b m }
      if listEmpty k.links (.head (.mailbox b)) then some (k, .ok, none)
      else
        (containerOf (k.links.next (.head (.mailbox b)))).map fun Thread => (k, .ok, some Thread)
  | some (_, r) => some (k, r, none)

/-- The critical section of `mail_post` for the thread that was picked. -/
def mailPostReady (k : Kernel) (Thread : ThreadId) : Kernel := markWoken (addActive k Thread) Thread

/-- The loop body of `systimer_exception` for the thread whose timer has expired. -/
def systimerException (k : Kernel) (pThread : ThreadId) : Kernel :=
  markWoken
    (addActive { k with timer := Function.update k.timer pThread .fired } pThread) pThread

/-- `shift`: the stack pointer of the thread to run, which becomes `OS_This`. -/
def shift (k : Kernel) (pStackTop : Int32U) : Option (Kernel × Int32U) :=
  let tops := Function.update k.pStackTop k.osThis pStackTop
  let Priority := bitScanForward k.osActivePrio
  (containerOf (k.links.next (activeProc Priority))).map fun t =>
    ({ k with
      pStackTop := tops
      switching := Function.update k.switching k.osThis false
      osThis := t }, tops t)

/-- `scheduler`: whether it pends a switch. -/
def scheduler (k : Kernel) : Bool := decide (bitScanForward k.osActivePrio < k.priority k.osThis)

/-! ### The steps of the system -/

/-- A critical section, or a switch. -/
inductive Act where
  | labour (block : ThreadId) (pProcess StackDepth Priority pStackTop : Int32U)
  | exit
  | sleep (Time : Int32U)
  | sleepResumed
  | semaphoreWait (s : ℕ) (Timeout : Int32U)
  | semaphorePost (s : ℕ)
  | mailWait (b : ℕ) (Timeout : Int32U)
  | mailPost (b : ℕ) (Message : Mail)
  | mailPostReady (Thread : ThreadId)
  | waitResumed
  | systimer (pThread : ThreadId)
  | shift (pStackTop : Int32U)
  deriving DecidableEq

/-- The memory of a control block is in use until the thread is reaped. -/
def Allocated (k : Kernel) (t : ThreadId) : Prop := t ∈ k.osLiveList ∨ k.point t = .exited

instance (k : Kernel) (t : ThreadId) : Decidable (k.Allocated t) :=
  inferInstanceAs (Decidable (_ ∨ _))

/-- One step. Calls that may suspend, and `labour`, are made by the running thread from its
own code; a suspended thread goes on when it runs again; the posts may also come from an
interrupt. -/
def step (k : Kernel) : Act → Option Kernel
  | .labour block pProcess StackDepth Priority pStackTop =>
      if k.point k.osThis = .user ∧ ¬ k.Allocated block then
        some (k.labour (some block) pProcess StackDepth Priority pStackTop).1
      else none
  | .exit => if k.point k.osThis = .user then k.exit else none
  | .sleep Time => if k.point k.osThis = .user then some (k.sleep Time) else none
  | .sleepResumed =>
      if k.point k.osThis = .sleeping ∧ k.switching k.osThis = false then some k.sleepResumed
      else none
  | .semaphoreWait s Timeout =>
      if k.point k.osThis = .user then some (k.semaphoreWait s Timeout).1 else none
  | .semaphorePost s => (k.semaphorePost s).map Prod.fst
  | .mailWait b Timeout =>
      if k.point k.osThis = .user then (k.mailWait b Timeout).map Prod.fst else none
  | .mailPost b Message =>
      (k.mailPost b Message).map fun r => { r.1 with posting := r.2.2.toList ++ k.posting }
  | .mailPostReady Thread =>
      if Thread ∈ k.posting then
        some { k.mailPostReady Thread with posting := k.posting.erase Thread }
      else none
  | .waitResumed =>
      if k.switching k.osThis = false then
        match k.point k.osThis with
        | .waiting (.semaphore s) Timeout _ => some (k.semaphoreWaitResumed s Timeout).1
        | .waiting (.mailbox b) Timeout _ => (k.mailWaitResumed b Timeout).map Prod.fst
        | _ => none
      else none
  | .systimer pThread =>
      if k.timer pThread = .armed then some (k.systimerException pThread) else none
  | .shift pStackTop => (k.shift pStackTop).map Prod.fst

/-! ### What the functions do to the other variables -/

section Frame

variable {k k' : Kernel} {t : ThreadId} {w : Head} {a : Act} {Timeout : Int32U}

/-- `markWoken` changes no variable of the source. -/
lemma markWoken_eq (k : Kernel) (t : ThreadId) : ∃ point, markWoken k t = { k with point } := by
  rw [markWoken]
  split
  · exact ⟨_, rfl⟩
  · exact ⟨k.point, rfl⟩

@[simp] lemma markWoken_links (k : Kernel) (t : ThreadId) : (markWoken k t).links = k.links := by
  obtain ⟨point, h⟩ := markWoken_eq k t
  rw [h]

@[simp] lemma markWoken_priority (k : Kernel) (t : ThreadId) :
    (markWoken k t).priority = k.priority := by
  obtain ⟨point, h⟩ := markWoken_eq k t
  rw [h]

@[simp] lemma markWoken_posting (k : Kernel) (t : ThreadId) :
    (markWoken k t).posting = k.posting := by
  obtain ⟨point, h⟩ := markWoken_eq k t
  rw [h]

@[simp] lemma markWoken_counter (k : Kernel) (t : ThreadId) :
    (markWoken k t).counter = k.counter := by
  obtain ⟨point, h⟩ := markWoken_eq k t
  rw [h]

/-- A thread in its own code stays there. -/
lemma markWoken_user (u : ThreadId) (h : k.point t = .user) : (markWoken k u).point t = .user := by
  rw [markWoken]
  split
  · rename_i w T woken hp
    have hne : t ≠ u := by
      rintro rfl
      rw [h] at hp
      simp at hp
    exact (Function.update_of_ne hne ..).trans h
  · exact h

lemma markWoken_of_waiting {woken : Bool} (hp : k.point t = .waiting w Timeout woken) :
    markWoken k t = { k with point := Function.update k.point t (.waiting w Timeout true) } := by
  rw [markWoken, hp]

lemma semaphorePost_of_nil {s : ℕ} (he : listEmpty k.links (.head (.semaphore s)) = true) :
    k.semaphorePost s = some
      ({ k with counter := Function.update k.counter s (k.counter s + 1) }, .ok) := by
  rw [semaphorePost]
  exact if_pos he

/-- What `mail_post` does before its critical section: it changes the queue, and picks the
first thread of the wait list, if there is one. -/
lemma mailPost_eq_some {b : ℕ} {m : Mail} {r : Kernel × Status × Option ThreadId}
    (h : k.mailPost b m = some r) :
    (∃ mail, r.1 = { k with mail }) ∧
      ∀ t ∈ r.2.2, containerOf (k.links.next (.head (.mailbox b))) = some t ∧
        listEmpty k.links (.head (.mailbox b)) = false := by
  rw [mailPost] at h
  cases hm : Mailbox.mailPost (k.mail b) m with
  | none => simp [hm] at h
  | some q =>
      obtain ⟨mb, st⟩ := q
      rw [hm] at h
      cases st with
      | ok =>
          by_cases he : listEmpty k.links (.head (.mailbox b)) = true
          · simp only [he, if_true, Option.some.injEq] at h
            subst h
            exact ⟨⟨_, rfl⟩, by simp⟩
          · simp only [he, Bool.false_eq_true, if_false, Option.map_eq_some_iff] at h
            obtain ⟨t, ht, rfl⟩ := h
            refine ⟨⟨_, rfl⟩, fun u hu => ?_⟩
            rw [Option.mem_some_iff] at hu
            exact ⟨hu ▸ ht, Bool.eq_false_of_not_eq_true he⟩
      | err | errBadParam | errTimeout =>
          simp only [Option.some.injEq] at h
          subst h
          exact ⟨⟨_, rfl⟩, by simp⟩

/-- `mail_wait` takes a message or suspends the thread. -/
lemma mailWait_cases {b : ℕ} {r : Kernel × Option Mail} (h : k.mailWait b Timeout = some r) :
    (∃ mail, r.1 = { k with mail }) ∨ r.1 = k.suspend (.mailbox b) Timeout := by
  rw [mailWait] at h
  cases hm : Mailbox.mailWait (k.mail b) with
  | none => simp [hm] at h
  | some q =>
      obtain ⟨mb, m⟩ := q
      rw [hm] at h
      cases m with
      | none =>
          simp only [Option.some.injEq] at h
          subst h
          exact Or.inr rfl
      | some m =>
          simp only [Option.some.injEq] at h
          subst h
          exact Or.inl ⟨_, rfl⟩

/-- `mail_wait` on a mailbox that stores a queue. -/
lemma mailWait_of_stores {b n : ℕ} {T : Int32U} {q : List Mail} (h : Mailbox.Stores (k.mail b) n q) :
    q = [] ∧ k.mailWait b T = some (k.suspend (.mailbox b) T, none) ∨
      ∃ m q' mb, q = m :: q' ∧ Mailbox.Stores mb n q' ∧
        k.mailWait b T =
          some ({ k with mail := Function.update k.mail b mb }, some m) := by
  cases q with
  | nil =>
      have hrw := h.read_eq_write_iff.mpr rfl
      refine Or.inl ⟨rfl, ?_⟩
      rw [mailWait, Mailbox.mailWait, if_neg (not_not.mpr hrw)]
  | cons m q =>
      refine Or.inr ⟨m, q, _, rfl, h.taken, ?_⟩
      rw [mailWait, h.take_cons.2.1]

/-- `mail_wait` that goes on, on a mailbox that stores a queue. -/
lemma mailWaitResumed_of_stores {b n : ℕ} {T : Int32U} {q : List Mail}
    (h : Mailbox.Stores (k.mail b) n q) :
    q = [] ∧ k.mailWaitResumed b T = some (k.resume T, .error .errTimeout) ∨
      ∃ m q' mb, q = m :: q' ∧ Mailbox.Stores mb n q' ∧
        k.mailWaitResumed b T =
          some ({ k.resume T with mail := Function.update k.mail b mb }, .ok m) := by
  cases q with
  | nil =>
      refine Or.inl ⟨rfl, ?_⟩
      rw [mailWaitResumed, show (k.resume T).mail b = k.mail b from rfl,
        h.mailWaitResumed_nil]
      dsimp only
      rw [show (k.resume T).mail = k.mail from rfl, Function.update_eq_self]
      rfl
  | cons m q =>
      refine Or.inr ⟨m, q, _, rfl, h.taken, ?_⟩
      rw [mailWaitResumed, show (k.resume T).mail b = k.mail b from rfl, h.take_cons.2.2]
      rfl

/-- The calls that may suspend the running thread. -/
def Act.Suspends : Act → Prop
  | .exit | .sleep _ | .semaphoreWait .. | .mailWait .. => True
  | _ => False

/-- The steps that take from or give to the semaphore `s`. -/
def Counts (k : Kernel) (s : ℕ) : Act → Prop
  | .semaphoreWait s' _ => s' = s
  | .semaphorePost s' => s' = s
  | .waitResumed => ∃ Timeout woken, k.point k.osThis = .waiting (.semaphore s) Timeout woken
  | _ => False

/-- What a step leaves alone: the threads picked by a `mail_post`, the counters of other
semaphores, and the threads that stay in their own code. -/
structure StepFrame (k : Kernel) (a : Act) (k' : Kernel) : Prop where
  posting : (∀ b m, a ≠ .mailPost b m) → ∀ t ∈ k'.posting, t ∈ k.posting
  counter : ∀ s, ¬ Counts k s a → k'.counter s = k.counter s
  user : ∀ t, k.point t = .user → (t = k.osThis → ¬ a.Suspends) → k'.point t = .user

/-- The frame of a change of the running thread's point. -/
lemma StepFrame.of_update {P : Point} (hp : k'.point = Function.update k.point k.osThis P)
    (hpost : k'.posting = k.posting) (hc : k'.counter = k.counter)
    (ha : a.Suspends ∨ P = .user) : StepFrame k a k' := by
  refine ⟨fun _ t ht => hpost ▸ ht, fun s _ => by rw [hc], fun t ht hne => ?_⟩
  rw [hp]
  by_cases htt : t = k.osThis
  · rw [htt, Function.update_self]
    exact ha.resolve_left (hne htt)
  · rw [Function.update_of_ne htt, ht]

/-- The frame of a step that changes no point and no counter. -/
lemma StepFrame.of_eq (hp : k'.point = k.point) (hpost : k'.posting = k.posting)
    (hc : k'.counter = k.counter) : StepFrame k a k' :=
  ⟨fun _ t ht => hpost ▸ ht, fun s _ => by rw [hc], fun t ht _ => by rw [hp, ht]⟩

/-- The frame of taking from a semaphore or giving to it. -/
lemma StepFrame.of_counter {s : ℕ} {v : Int32U} (ha : Counts k s a)
    (hp : ∀ t, k.point t = .user → k'.point t = .user) (hpost : k'.posting = k.posting)
    (hc : k'.counter = Function.update k.counter s v) : StepFrame k a k' := by
  refine ⟨fun _ t ht => hpost ▸ ht, fun s' hs' => ?_, fun t ht _ => hp t ht⟩
  have hne : s' ≠ s := by
    rintro rfl
    exact hs' ha
  rw [hc, Function.update_of_ne hne]

/-- **The frame of a step.** -/
theorem step_frame (hs : step k a = some k') : StepFrame k a k' := by
  cases a with
  | labour u pProcess StackDepth Priority pStackTop =>
      simp only [step, Option.ite_none_right_eq_some, Option.some.injEq] at hs
      obtain ⟨-, rfl⟩ := hs
      rw [labour]
      split_ifs
      · exact .of_eq rfl rfl rfl
      · refine ⟨fun _ t ht => ht, fun s _ => rfl, fun t ht _ => ?_⟩
        show Function.update k.point u .user t = .user
        rw [Function.update_apply, ht]
        split_ifs <;> rfl
  | exit =>
      simp only [step, Option.ite_none_right_eq_some, exit, threadUnregister,
        Option.map_eq_some_iff, Option.some.injEq] at hs
      obtain ⟨-, k₁, ⟨-, rfl⟩, rfl⟩ := hs
      exact .of_update rfl rfl rfl (Or.inl trivial)
  | sleep Time =>
      simp only [step, Option.ite_none_right_eq_some, Option.some.injEq] at hs
      obtain ⟨-, rfl⟩ := hs
      rw [sleep]
      split_ifs
      · exact .of_eq rfl rfl rfl
      · exact .of_update rfl rfl rfl (Or.inl trivial)
  | sleepResumed =>
      simp only [step, Option.ite_none_right_eq_some, Option.some.injEq] at hs
      obtain ⟨-, rfl⟩ := hs
      exact .of_update rfl rfl rfl (Or.inr rfl)
  | semaphoreWait s T =>
      simp only [step, Option.ite_none_right_eq_some, Option.some.injEq] at hs
      obtain ⟨-, rfl⟩ := hs
      rw [semaphoreWait]
      split_ifs
      · exact .of_counter (s := s) rfl (fun t ht => ht) rfl rfl
      · exact .of_update rfl rfl rfl (Or.inl trivial)
  | semaphorePost s =>
      simp only [step, Option.map_eq_some_iff, semaphorePost] at hs
      obtain ⟨r, hr, rfl⟩ := hs
      split_ifs at hr
      · rw [Option.some.injEq] at hr
        subst hr
        exact .of_counter (s := s) rfl (fun t ht => ht) rfl rfl
      · rw [Option.map_eq_some_iff] at hr
        obtain ⟨u, -, rfl⟩ := hr
        refine .of_counter (s := s) (v := k.counter s + 1) rfl
          (fun t ht => markWoken_user u ht) ?_ ?_
        · rw [markWoken_posting]
          rfl
        · rw [markWoken_counter]
          rfl
  | mailWait b T =>
      simp only [step, Option.ite_none_right_eq_some, Option.map_eq_some_iff] at hs
      obtain ⟨-, r, hr, rfl⟩ := hs
      rcases mailWait_cases hr with ⟨mail, h⟩ | h
      · rw [h]
        exact .of_eq rfl rfl rfl
      · rw [h]
        exact .of_update rfl rfl rfl (Or.inl trivial)
  | mailPost b m =>
      simp only [step, Option.map_eq_some_iff] at hs
      obtain ⟨r, hr, rfl⟩ := hs
      obtain ⟨⟨mail, h⟩, -⟩ := mailPost_eq_some hr
      rw [h]
      exact ⟨fun hne => absurd rfl (hne b m), fun s _ => rfl, fun t ht _ => ht⟩
  | mailPostReady u =>
      simp only [step, Option.ite_none_right_eq_some, Option.some.injEq] at hs
      obtain ⟨-, rfl⟩ := hs
      refine ⟨fun _ t ht => List.mem_of_mem_erase ht, fun s _ => ?_,
        fun t ht _ => markWoken_user u ht⟩
      show (mailPostReady k u).counter s = _
      rw [mailPostReady, markWoken_counter]
      rfl
  | waitResumed =>
      simp only [step, Option.ite_none_right_eq_some] at hs
      obtain ⟨-, hs⟩ := hs
      have huser : ∀ T t, k.point t = .user → (resume k T).point t = .user := by
        intro T t ht
        show Function.update k.point k.osThis .user t = .user
        rw [Function.update_apply, ht]
        split_ifs <;> rfl
      split at hs
      · rename_i s T woken hp
        rw [Option.some.injEq] at hs
        subst hs
        rw [semaphoreWaitResumed]
        split_ifs
        · exact .of_update rfl rfl rfl (Or.inr rfl)
        · exact .of_counter (s := s) ⟨T, woken, hp⟩ (huser T) rfl rfl
      · rw [Option.map_eq_some_iff] at hs
        obtain ⟨r, hr, rfl⟩ := hs
        rw [mailWaitResumed] at hr
        split at hr
        · simp at hr
        · rw [Option.some.injEq] at hr
          subst hr
          exact .of_update rfl rfl rfl (Or.inr rfl)
      · simp at hs
  | systimer u =>
      simp only [step, Option.ite_none_right_eq_some, Option.some.injEq] at hs
      obtain ⟨-, rfl⟩ := hs
      rw [systimerException]
      refine ⟨fun _ t ht => ?_, fun s _ => ?_, fun t ht _ => markWoken_user u ht⟩
      · rwa [markWoken_posting] at ht
      · rw [markWoken_counter]
        rfl
  | shift top =>
      simp only [step, Option.map_eq_some_iff, shift] at hs
      obtain ⟨r, ⟨u, -, rfl⟩, rfl⟩ := hs
      exact .of_eq rfl rfl rfl

/-- What a step does to the queues of the mailboxes. -/
inductive MailEffect (k : Kernel) (a : Act) (k' : Kernel) : Prop where
  | none : k'.mail = k.mail → MailEffect k a k'
  | post {b : ℕ} {m : Mail} {r : Mailbox × Status} : a = .mailPost b m →
      Mailbox.mailPost (k.mail b) m = some r → k'.mail = Function.update k.mail b r.1 →
      MailEffect k a k'
  | wait {b : ℕ} {Timeout : Int32U} {r : Mailbox} {m : Mail} : a = .mailWait b Timeout →
      Mailbox.mailWait (k.mail b) = some (r, some m) → k'.mail = Function.update k.mail b r →
      MailEffect k a k'
  | resumed {b : ℕ} {Timeout : Int32U} {woken : Bool} {r : Mailbox × Except Status Mail} :
      a = .waitResumed → k.point k.osThis = .waiting (.mailbox b) Timeout woken →
      Mailbox.mailWaitResumed (k.mail b) = some r → k'.mail = Function.update k.mail b r.1 →
      MailEffect k a k'

lemma markWoken_mail (k : Kernel) (t : ThreadId) : (markWoken k t).mail = k.mail := by
  obtain ⟨point, h⟩ := markWoken_eq k t
  rw [h]

/-- **The mailboxes change by the calls on them only.** -/
theorem step_mail (hs : step k a = some k') : MailEffect k a k' := by
  cases a with
  | labour u pProcess StackDepth Priority pStackTop =>
      simp only [step, Option.ite_none_right_eq_some, Option.some.injEq] at hs
      obtain ⟨-, rfl⟩ := hs
      rw [labour]
      split_ifs <;> exact .none rfl
  | exit =>
      simp only [step, Option.ite_none_right_eq_some, exit, threadUnregister,
        Option.map_eq_some_iff, Option.some.injEq] at hs
      obtain ⟨-, k₁, ⟨-, rfl⟩, rfl⟩ := hs
      exact .none rfl
  | sleep Time =>
      simp only [step, Option.ite_none_right_eq_some, Option.some.injEq] at hs
      obtain ⟨-, rfl⟩ := hs
      rw [sleep]
      split_ifs <;> exact .none rfl
  | sleepResumed =>
      simp only [step, Option.ite_none_right_eq_some, Option.some.injEq] at hs
      obtain ⟨-, rfl⟩ := hs
      exact .none rfl
  | semaphoreWait s T =>
      simp only [step, Option.ite_none_right_eq_some, Option.some.injEq] at hs
      obtain ⟨-, rfl⟩ := hs
      rw [semaphoreWait]
      split_ifs <;> exact .none rfl
  | semaphorePost s =>
      simp only [step, Option.map_eq_some_iff, semaphorePost] at hs
      obtain ⟨r, hr, rfl⟩ := hs
      split_ifs at hr
      · rw [Option.some.injEq] at hr
        subst hr
        exact .none rfl
      · rw [Option.map_eq_some_iff] at hr
        obtain ⟨u, -, rfl⟩ := hr
        exact .none (markWoken_mail _ u)
  | mailWait b T =>
      simp only [step, Option.ite_none_right_eq_some, Option.map_eq_some_iff] at hs
      obtain ⟨-, r, hr, rfl⟩ := hs
      rw [mailWait] at hr
      split at hr
      · simp at hr
      · rename_i m Message hm
        rw [Option.some.injEq] at hr
        subst hr
        exact .wait rfl hm rfl
      · rw [Option.some.injEq] at hr
        subst hr
        exact .none rfl
  | mailPost b m =>
      simp only [step, Option.map_eq_some_iff] at hs
      obtain ⟨r, hr, rfl⟩ := hs
      rw [mailPost] at hr
      split at hr
      · simp at hr
      · rename_i mb hm
        refine .post rfl hm ?_
        dsimp only at hr
        split_ifs at hr
        · rw [Option.some.injEq] at hr
          subst hr
          rfl
        · rw [Option.map_eq_some_iff] at hr
          obtain ⟨u, -, rfl⟩ := hr
          rfl
      · rw [Option.some.injEq] at hr
        subst hr
        exact .none rfl
  | mailPostReady u =>
      simp only [step, Option.ite_none_right_eq_some, Option.some.injEq] at hs
      obtain ⟨-, rfl⟩ := hs
      exact .none (markWoken_mail _ u)
  | waitResumed =>
      simp only [step, Option.ite_none_right_eq_some] at hs
      obtain ⟨-, hs⟩ := hs
      split at hs
      · rw [Option.some.injEq] at hs
        subst hs
        rw [semaphoreWaitResumed]
        split_ifs <;> exact .none rfl
      · rename_i b T woken hp
        rw [Option.map_eq_some_iff] at hs
        obtain ⟨r, hr, rfl⟩ := hs
        rw [mailWaitResumed] at hr
        split at hr
        · simp at hr
        · rename_i m st hm
          rw [Option.some.injEq] at hr
          subst hr
          exact .resumed rfl hp hm rfl
      · simp at hs
  | systimer u =>
      simp only [step, Option.ite_none_right_eq_some, Option.some.injEq] at hs
      obtain ⟨-, rfl⟩ := hs
      exact .none (markWoken_mail _ u)
  | shift top =>
      simp only [step, Option.map_eq_some_iff, shift] at hs
      obtain ⟨r, ⟨u, -, rfl⟩, rfl⟩ := hs
      exact .none rfl

end Frame

end Kernel

end ChinaOS
