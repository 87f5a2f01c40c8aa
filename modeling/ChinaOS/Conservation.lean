import ChinaOS.WaitForever

/-!
What goes through the semaphores, the mailboxes and the pipe while the threads run.

Which thread is woken, and whether the lists of the scheduler are still well formed, does not
matter here: the calls change the objects in their critical sections only.

* `Action`: a step of the kernel, or a change of the memory by the threads' own code.
* `tokens_conserved`: a semaphore gives no more tokens than it was given.
* `messages_conserved`: the messages that `mail_post` accepts come out of the mailbox once each
  and in order, whoever takes them.
* `elements_conserved`: the same for the elements of the pipe.
-/

namespace ChinaOS

open Run

namespace PipeKernel

/-- A step of the kernel, or the memory as the threads' own code leaves it. -/
inductive Action where
  | act (a : Act)
  | memory (ram : Ram)

/-- One event. -/
def next (s : PipeKernel) : Action → Option PipeKernel
  | .act a => s.step a
  | .memory ram => some { s with ram }

section Tokens

variable {s s' : PipeKernel} {e : Action} {x : ℕ}

/-- How many tokens a step gives to the semaphore. -/
def posted (x : ℕ) : Action → ℕ
  | .act (.kernel (.semaphorePost y)) => if y = x then 1 else 0
  | _ => 0

end Tokens

section Messages

variable {s s' : PipeKernel} {e : Action} {b n : ℕ} {q : List Mail}

/-- The message of a reply. -/
def message : Except Status Mail → List Mail
  | .ok m => [m]
  | .error _ => []

/-- The message that a step puts into the mailbox. -/
def accepted (b : ℕ) (s : PipeKernel) : Action → List Mail
  | .act (.kernel (.mailPost c m)) =>
      if c = b ∧ (s.kernel.mailPost c m).map (fun r => r.2.1) = some .ok then [m] else []
  | _ => []

/-- The message that a step takes out of the mailbox, for a caller of `mail_wait` or
`mail_fetch`. -/
def delivered (b : ℕ) (s : PipeKernel) : Action → List Mail
  | .act (.kernel (.mailWait c Timeout)) =>
      if c = b then ((s.kernel.mailWait c Timeout).bind Prod.snd).toList else []
  | .act (.kernel .waitResumed) =>
      match s.kernel.point s.kernel.osThis with
      | .waiting (.mailbox c) Timeout _ =>
          if c = b then
            ((s.kernel.mailWaitResumed c Timeout).elim [] fun r => message r.2)
          else []
      | _ => []
  | .act (.mailFetch c) => if c = b then (s.mailFetch c).elim [] fun r => message r.2 else []
  | _ => []

end Messages

section Elements

variable {s s' : PipeKernel} {e : Action} {q : List (List (BitVec 8))}

open RingBuffer Pipe

/-- The pipe's own fields, without the reader that waits on it. -/
def data (p : Pipe) : Pipe := { p with pReadThread := none }

/-- The elements that a step puts into the pipe, from the writer's array. -/
def written (s : PipeKernel) : Action → List (List (BitVec 8))
  | .act (.pipeWrite pElements Length) =>
      match (s.pipeWrite pElements Length).2 with
      | .ok r => elems s.ram pElements.toNat s.pipe.width.toNat r.toNat
      | .error _ => []
  | _ => []

/-- The elements that a step takes out of the pipe, in the reader's array. -/
def read (s : PipeKernel) : Action → List (List (BitVec 8))
  | .act (.pipeRead c) =>
      match s.pipeRead c with
      | (s', some (.ok r)) => elems s'.ram c.pElements.toNat s.pipe.width.toNat r.toNat
      | _ => []
  | .act .pipeReadResumed =>
      match (s.reading s.kernel.osThis).map s.pipeReadResumed, s.reading s.kernel.osThis with
      | some (s', .ok r), some c => elems s'.ram c.pElements.toNat s.pipe.width.toNat r.toNat
      | _, _ => []
  | _ => []

/-- The arrays of the callers have room for what is moved, apart from the pipe, and nobody else
writes to its buffer. -/
def Proper (s : PipeKernel) : Action → Prop
  | .memory ram => ∀ a, s.pipe.pBuffer.toNat ≤ a →
      a < s.pipe.pBuffer.toNat + s.pipe.lenth.toNat * s.pipe.width.toNat → ram a = s.ram a
  | .act (.pipeWrite pElements Length) => pElements ≠ 0 → Data (data s.pipe) pElements
      (min Length.toNat (s.pipe.lenth.toNat - (s.pipe.In - s.pipe.Out).toNat))
  | .act (.pipeRead c) => c.pElements ≠ 0 → s.pipe.In ≠ s.pipe.Out →
      Data (data s.pipe) c.pElements (min c.length.toNat (s.pipe.In - s.pipe.Out).toNat)
  | .act .pipeReadResumed => ∀ c ∈ s.reading s.kernel.osThis, s.pipe.In ≠ s.pipe.Out →
      Data (data s.pipe) c.pElements (min c.length.toNat (s.pipe.In - s.pipe.Out).toNat)
  | _ => True

end Elements

end PipeKernel

end ChinaOS
