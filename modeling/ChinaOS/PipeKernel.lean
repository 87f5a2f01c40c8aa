import ChinaOS.Kernel
import ChinaOS.Pipe

/-!
The blocking parts of `kernel/pipe/pipe.c` over the scheduler: one pipe, and the threads that
write to it and read from it.

A reader that finds the pipe empty leaves its ready list for no other list. `pReadThread`
alone says whom a writer has to make ready, and keeps saying so until that thread has run.

* `pipeWrite`, `pipeRead`, `pipeReadResumed`: the calls, with the data part of `ChinaOS.Pipe`.
* `step`: a step of the kernel, one of these calls, or a `mail_fetch`, which blocks nobody.
-/

namespace ChinaOS

/-- The arguments of a call of `pipe_read`. -/
structure ReadCall where
  pElements : Int32U
  length : Int32U
  timeout : Int32U
  deriving DecidableEq

/-- The kernel, the memory and a pipe; `reading` tells which threads are suspended in
`pipe_read`, with the arguments of their calls. -/
structure PipeKernel where
  kernel : Kernel
  ram : Ram
  pipe : Pipe
  reading : ThreadId → Option ReadCall

namespace PipeKernel

/-- `pipe_write` up to the call of `scheduler`. -/
def pipeWrite (s : PipeKernel) (pElements Length : Int32U) : PipeKernel × Except Status ℤ :=
  match Pipe.pipeWrite s.ram s.pipe pElements Length with
  | (ram, pipe, .error e) => ({ s with ram, pipe }, .error e)
  | (ram, pipe, .ok n) =>
      match pipe.pReadThread with
      | none => ({ s with ram, pipe }, .ok n)
      | some Thread => ({ s with ram, pipe, kernel := s.kernel.addActive Thread }, .ok n)

/-- The suspension of the running thread in `pipe_read`. -/
def suspend (s : PipeKernel) (c : ReadCall) : PipeKernel :=
  let pThread := s.kernel.osThis
  let k := s.kernel.vivifyThread pThread (s.kernel.priority pThread)
  { s with
    pipe := { s.pipe with pReadThread := some pThread }
    kernel := { k with
      timer := if c.timeout ≠ 0 then Function.update k.timer pThread .armed else k.timer
      switching := Function.update k.switching pThread true }
    reading := Function.update s.reading pThread (some c) }

/-- `pipe_read` up to the switch; the answer when it does not block. -/
def pipeRead (s : PipeKernel) (c : ReadCall) : PipeKernel × Option (Except Status ℤ) :=
  match Pipe.pipeRead s.ram s.pipe c.pElements c.length with
  | some (ram, pipe, r) => ({ s with ram, pipe }, some r)
  | none => (suspend s c, none)

/-- `pipe_read` behind the switch. -/
def pipeReadResumed (s : PipeKernel) (c : ReadCall) : PipeKernel × Except Status ℤ :=
  let pThread := s.kernel.osThis
  let (ram, pipe, r) := Pipe.pipeReadResumed s.ram s.pipe c.pElements c.length
  ({ ram, pipe
     kernel := { s.kernel with
       timer := if c.timeout ≠ 0 then Function.update s.kernel.timer pThread .unarmed
         else s.kernel.timer }
     reading := Function.update s.reading pThread none }, r)

/-- `mail_fetch`. -/
def mailFetch (s : PipeKernel) (b : ℕ) : Option (PipeKernel × Except Status Mail) :=
  (Mailbox.mailFetch (s.kernel.mail b)).map fun r =>
    ({ s with kernel := { s.kernel with mail := Function.update s.kernel.mail b r.1 } }, r.2)

/-! ### The steps of the system -/

/-- A step of the kernel, a `mail_fetch`, or a critical section of a call on the pipe. -/
inductive Act where
  | kernel (a : Kernel.Act)
  | mailFetch (b : ℕ)
  | pipeWrite (pElements Length : Int32U)
  | pipeRead (c : ReadCall)
  | pipeReadResumed
  deriving DecidableEq

/-- The steps of the kernel that the running thread takes in its own code. -/
def ownCode : Kernel.Act → Bool
  | .labour .. | .exit | .sleep _ | .semaphoreWait .. | .mailWait .. => true
  | _ => false

/-- One step. A write or a fetch may also come from an interrupt. -/
def step (s : PipeKernel) : Act → Option PipeKernel
  | .kernel a =>
      if ownCode a && (s.reading s.kernel.osThis).isSome then none
      else (s.kernel.step a).map fun kernel => { s with kernel }
  | .mailFetch b => (s.mailFetch b).map Prod.fst
  | .pipeWrite pElements Length => some (s.pipeWrite pElements Length).1
  | .pipeRead c =>
      if s.kernel.point s.kernel.osThis = .user ∧ s.reading s.kernel.osThis = none then
        some (s.pipeRead c).1
      else none
  | .pipeReadResumed =>
      if s.kernel.switching s.kernel.osThis = false then
        (s.reading s.kernel.osThis).map fun c => (s.pipeReadResumed c).1
      else none

/-! ### The calls on the pipe leave the mailboxes alone -/

lemma pipeWrite_mail (s : PipeKernel) (pElements Length : Int32U) :
    (s.pipeWrite pElements Length).1.kernel.mail = s.kernel.mail := by
  rw [pipeWrite]
  split
  · rfl
  · split <;> rfl

lemma pipeRead_mail (s : PipeKernel) (c : ReadCall) :
    (s.pipeRead c).1.kernel.mail = s.kernel.mail := by
  rw [pipeRead]
  split <;> rfl

end PipeKernel

end ChinaOS
