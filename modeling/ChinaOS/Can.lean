import ChinaOS.WaitForever

/-!
Sending on the CAN controller of `nxp/lpc1766/can/can.c`, over the kernel with its mailboxes
and the receive pipe.

`can_send` gives a transmit command and waits on a mailbox of one message, into which the
interrupt posts when a command is complete. A message says nothing about which command that
was, and it stays in the mailbox when its sender has given up.

* `step`: the calls of `can_send` in their critical sections, the interrupt, and anything
  else that the threads do.
* `Attributed`: a call returns `OK` only after an interrupt raised since its own command.
* `attributed_of_fresh`: it does where every call finds the mailbox empty.
-/

namespace ChinaOS

/-- What `can_send` returns. -/
inductive CanStatus where
  | ok
  | errBadParam
  | errSoftware
  | errTimeout
  deriving DecidableEq

/-- A call of `can_send` that has given its command: its time limit, and whether an interrupt
has completed a command since. -/
structure Sending where
  timeout : Int32U
  raised : Bool
  deriving DecidableEq

/-- The system, the transmit commands that are not complete, and the calls of `can_send` in
progress. -/
structure Can where
  system : PipeKernel
  outstanding : ℕ
  sending : ThreadId → Option Sending

namespace Can

/-- `pThis->SendMailBox`. -/
def sendMailBox : ℕ := 0

/-- The messages that wait in it. -/
def pending (c : Can) : ℕ := (c.system.kernel.mail sendMailBox).stored

/-- `can_send` up to the call of `mail_wait`: the refusal, or the command is given. -/
def canSend (c : Can) (pMessage Size Timeout : Int32U) : Can × Option CanStatus :=
  if pMessage = 0 then (c, some .errBadParam)
  else if ~~~0x0F &&& Size ≠ 0 then (c, some .errSoftware)
  else
    ({ c with
        outstanding := c.outstanding + 1
        sending := Function.update c.sending c.system.kernel.osThis (some ⟨Timeout, false⟩) },
      none)

/-- `mail_wait` of `can_send` up to the switch; the status when it does not block. -/
def sendWait (c : Can) (w : Sending) : Option (Can × Option CanStatus) :=
  (c.system.kernel.mailWait sendMailBox w.timeout).map fun r =>
    let c' := { c with system := { c.system with kernel := r.1 } }
    match r.2 with
    | some _ =>
        ({ c' with sending := Function.update c.sending c.system.kernel.osThis none }, some .ok)
    | none => (c', none)

/-- `mail_wait` of `can_send` behind the switch. -/
def sendResumed (c : Can) (w : Sending) : Option (Can × CanStatus) :=
  (c.system.kernel.mailWaitResumed sendMailBox w.timeout).map fun r =>
    ({ c with
        system := { c.system with kernel := r.1 }
        sending := Function.update c.sending c.system.kernel.osThis none },
      match r.2 with
      | .ok _ => .ok
      | .error _ => .errTimeout)

/-- `can_handle` for the interrupts `Status`: a received frame goes into the pipe, and the
completion of a command is posted, up to the critical section of `mail_post`. -/
def canHandle (c : Can) (Status aMessage : Int32U) : Option Can :=
  let c := if testBit Status 0 then { c with system := (c.system.pipeWrite aMessage 1).1 } else c
  if testBit Status 1 then
    if c.outstanding = 0 then none
    else
      (c.system.step (.kernel (.mailPost sendMailBox 0))).map fun system =>
        { system
          outstanding := c.outstanding - 1
          sending := fun t => (c.sending t).map fun w => { w with raised := true } }
  else some c

/-! ### The steps of the system -/

/-- The steps that take from the mailbox or put into it. -/
def onMailBox (c : Can) : PipeKernel.Act → Bool
  | .kernel (.mailPost b _) | .kernel (.mailWait b _) | .mailFetch b => decide (b = sendMailBox)
  | .kernel .waitResumed =>
      match c.system.kernel.point c.system.kernel.osThis with
      | .waiting (.mailbox b) _ _ => decide (b = sendMailBox)
      | _ => false
  | _ => false

/-- The steps that the running thread takes in its own code. -/
def ownCode : PipeKernel.Act → Bool
  | .kernel a => PipeKernel.ownCode a
  | .pipeRead _ => true
  | _ => false

/-- A critical section of `can_send`, the interrupt, or a step that has nothing to do with
the mailbox. -/
inductive Act where
  | canSend (pMessage Size Timeout : Int32U)
  | sendWait
  | sendResumed
  | canHandle (Status aMessage : Int32U)
  | other (a : PipeKernel.Act)

/-- The running thread is in its own code. -/
def InUser (c : Can) : Prop :=
  c.system.kernel.point c.system.kernel.osThis = .user ∧
    c.system.reading c.system.kernel.osThis = none

instance (c : Can) : Decidable c.InUser := inferInstanceAs (Decidable (_ ∧ _))

/-- One step. -/
def step (c : Can) : Act → Option Can
  | .canSend pMessage Size Timeout =>
      if c.InUser ∧ c.sending c.system.kernel.osThis = none then
        some (c.canSend pMessage Size Timeout).1
      else none
  | .sendWait =>
      if c.InUser then
        (c.sending c.system.kernel.osThis).bind fun w => (c.sendWait w).map Prod.fst
      else none
  | .sendResumed =>
      if c.system.kernel.switching c.system.kernel.osThis = false then
        match c.system.kernel.point c.system.kernel.osThis with
        | .waiting (.mailbox b) _ _ =>
            if b = sendMailBox then
              (c.sending c.system.kernel.osThis).bind fun w => (c.sendResumed w).map Prod.fst
            else none
        | _ => none
      else none
  | .canHandle Status aMessage => c.canHandle Status aMessage
  | .other a =>
      if c.onMailBox a ∨ ownCode a ∧ (c.sending c.system.kernel.osThis).isSome then none
      else (c.system.step a).map fun system => { c with system }

/-- The call of `can_send` that ends in a step, and what it returns. -/
def returns (c : Can) : Act → Option (Sending × CanStatus)
  | .sendWait =>
      (c.sending c.system.kernel.osThis).bind fun w =>
        (c.sendWait w).bind fun r => r.2.map fun st => (w, st)
  | .sendResumed =>
      (c.sending c.system.kernel.osThis).bind fun w => (c.sendResumed w).map fun r => (w, r.2)
  | _ => none

/-- **A completion is attributed to the right frame**: a call returns `OK` only if an
interrupt completed a command after the call gave its own. -/
def Attributed (c : Can) (a : Act) (_ : Can) : Prop :=
  ∀ w, c.returns a = some (w, .ok) → w.raised = true

/-- A command is given while a message is left in the mailbox. -/
def Stale (c : Can) : Act → Prop
  | .canSend pMessage Size Timeout =>
      (c.canSend pMessage Size Timeout).2 = none ∧ c.pending ≠ 0
  | _ => False

/-! ### What is in the mailbox -/

/-- The mailbox is a queue, and while a message is in it, every call in progress has seen an
interrupt since its command. -/
structure Inv (c : Can) : Prop where
  mail : ∃ n q, Mailbox.Stores (c.system.kernel.mail sendMailBox) n q
  fresh : ∀ t w, c.sending t = some w → w.raised = false → c.pending = 0

/-- The state behind `can_setup`: the mailbox of one message is new, and nothing is sent. -/
structure Setup (c : Can) : Prop where
  mail : Mailbox.Stores (c.system.kernel.mail sendMailBox) 1 []
  outstanding : c.outstanding = 0
  sending : ∀ t, c.sending t = none

section Steps

variable {c c' : Can} {a : Act}

lemma Setup.inv (h : Setup c) : Inv c where
  mail := ⟨1, [], h.mail⟩
  fresh t w hw := by simp [h.sending t] at hw

/-- Other steps leave the mailbox alone. -/
lemma mail_of_other {a : PipeKernel.Act} {system : PipeKernel} (ha : ¬ c.onMailBox a = true)
    (hs : c.system.step a = some system) :
    system.kernel.mail sendMailBox = c.system.kernel.mail sendMailBox := by
  cases a with
  | kernel a =>
      simp only [PipeKernel.step, Option.ite_none_left_eq_some, Option.map_eq_some_iff] at hs
      obtain ⟨-, k, hk, rfl⟩ := hs
      have hne : ∀ b, ¬ (decide (b = sendMailBox) = true) → sendMailBox ≠ b := by
        intro b hb h
        exact hb (decide_eq_true h.symm)
      cases Kernel.step_mail hk with
      | none hm => rw [hm]
      | post ha' _ hm =>
          subst ha'
          rw [hm, Function.update_of_ne (hne _ ha)]
      | wait ha' _ hm =>
          subst ha'
          rw [hm, Function.update_of_ne (hne _ ha)]
      | resumed ha' hp _ hm =>
          subst ha'
          simp only [onMailBox, hp] at ha
          rw [hm, Function.update_of_ne (hne _ ha)]
  | mailFetch b =>
      simp only [PipeKernel.step, PipeKernel.mailFetch, Option.map_eq_some_iff] at hs
      obtain ⟨_, ⟨r, -, rfl⟩, rfl⟩ := hs
      have hne : sendMailBox ≠ b := fun h => ha (decide_eq_true h.symm)
      exact Function.update_of_ne hne ..
  | pipeWrite pElements Length =>
      rw [PipeKernel.step, Option.some.injEq] at hs
      rw [← hs, PipeKernel.pipeWrite_mail]
  | pipeRead r =>
      simp only [PipeKernel.step, Option.ite_none_right_eq_some, Option.some.injEq] at hs
      rw [← hs.2, PipeKernel.pipeRead_mail]
  | pipeReadResumed =>
      simp only [PipeKernel.step, Option.ite_none_right_eq_some, Option.map_eq_some_iff] at hs
      obtain ⟨-, r, -, rfl⟩ := hs
      rfl

/-- A call that finds a message: the others have all seen an interrupt too. -/
lemma Inv.take {d : Can} (hi : Inv c) {mb : Mailbox} {q : List Mail} {n : ℕ} {m : Mail}
    {w : Sending} {t : ThreadId} (hst : Mailbox.Stores (c.system.kernel.mail sendMailBox) n (m :: q))
    (hw : c.sending t = some w) (hst' : Mailbox.Stores mb n q)
    (hmail : d.system.kernel.mail = Function.update c.system.kernel.mail sendMailBox mb)
    (hsend : d.sending = Function.update c.sending t none) : Inv d ∧ w.raised = true := by
  have hpos : c.pending ≠ 0 := by
    rw [pending, hst.stored_eq]
    simp
  have hraised : ∀ t w, c.sending t = some w → w.raised = true := by
    intro t w h
    by_contra hfalse
    exact hpos (hi.fresh t w h (Bool.eq_false_of_not_eq_true hfalse))
  refine ⟨⟨⟨n, q, by rw [hmail, Function.update_self]; exact hst'⟩, fun u v hv hfalse => ?_⟩,
    hraised t w hw⟩
  rw [hsend, Function.update_apply] at hv
  split_ifs at hv
  rw [hraised u v hv] at hfalse
  simp at hfalse

/-- The interrupt leaves every call in progress marked. -/
lemma Inv.canHandle (hi : Inv c) {Status aMessage : Int32U}
    (hs : c.canHandle Status aMessage = some c') : Inv c' := by
  set c₁ : Can := if testBit Status 0 then { c with system := (c.system.pipeWrite aMessage 1).1 }
    else c with hc₁
  have hi₁ : Inv c₁ := by
    rw [hc₁]
    split_ifs
    · refine ⟨?_, fun t w hw hf => ?_⟩
      · rw [PipeKernel.pipeWrite_mail]
        exact hi.mail
      · rw [pending, PipeKernel.pipeWrite_mail]
        exact hi.fresh t w hw hf
    · exact hi
  rw [Can.canHandle, ← hc₁] at hs
  split_ifs at hs
  · rw [Option.map_eq_some_iff] at hs
    obtain ⟨system, hsystem, rfl⟩ := hs
    refine ⟨?_, fun t w hw hf => ?_⟩
    · simp only [PipeKernel.step, PipeKernel.ownCode, Bool.false_and, Bool.false_eq_true, if_false,
        Option.map_eq_some_iff] at hsystem
      obtain ⟨k, hk, rfl⟩ := hsystem
      obtain ⟨n, q, hst⟩ := hi₁.mail
      cases Kernel.step_mail hk with
      | none hm => exact ⟨n, q, hm ▸ hst⟩
      | post ha hr hm =>
          obtain ⟨rfl, rfl⟩ : sendMailBox = _ ∧ (0 : Mail) = _ := by
            simpa only [Kernel.Act.mailPost.injEq] using ha
          dsimp only
          rw [hm, Function.update_self]
          rcases hst.of_mailPost hr with ⟨-, rfl⟩ | ⟨-, -, hst'⟩
          · exact ⟨n, q, hst⟩
          · exact ⟨n, _, hst'⟩
      | wait ha _ _ => simp at ha
      | resumed ha _ _ _ => simp at ha
    · simp only [Option.map_eq_some_iff] at hw
      obtain ⟨w', -, rfl⟩ := hw
      simp at hf
  · rw [Option.some.injEq] at hs
    exact hs ▸ hi₁

/-- A call that is not refused gives its command and changes nothing else. -/
lemma canSend_eq {pMessage Size Timeout : Int32U}
    (h : (c.canSend pMessage Size Timeout).2 = none) :
    (c.canSend pMessage Size Timeout).1 =
      { c with
        outstanding := c.outstanding + 1
        sending := Function.update c.sending c.system.kernel.osThis (some ⟨Timeout, false⟩) } := by
  rw [canSend] at h ⊢
  split_ifs at h ⊢
  rfl

/-- A refused call changes nothing. -/
lemma canSend_refused {pMessage Size Timeout : Int32U}
    (h : (c.canSend pMessage Size Timeout).2 ≠ none) :
    (c.canSend pMessage Size Timeout).1 = c := by
  rw [canSend] at h ⊢
  split_ifs at h ⊢
  · rfl
  · rfl
  · exact absurd rfl h

/-- **A step that gives no command on a message left over** keeps the invariant, and obeys
the law. -/
theorem Inv.step (hi : Inv c) (ha : ¬ Stale c a) (hs : step c a = some c') :
    Inv c' ∧ Attributed c a c' := by
  cases a with
  | canSend pMessage Size Timeout =>
      simp only [Can.step, Option.ite_none_right_eq_some, Option.some.injEq] at hs
      obtain ⟨-, rfl⟩ := hs
      refine ⟨?_, fun w hw => by simp [returns] at hw⟩
      by_cases hr : (c.canSend pMessage Size Timeout).2 = none
      · have hempty : c.pending = 0 := by
          by_contra h
          exact ha ⟨hr, h⟩
        rw [canSend_eq hr]
        exact ⟨hi.mail, fun _ _ _ _ => hempty⟩
      · rw [canSend_refused hr]
        exact hi
  | sendWait =>
      simp only [Can.step, Option.ite_none_right_eq_some, Option.bind_eq_some_iff,
        Option.map_eq_some_iff] at hs
      obtain ⟨-, w, hw, r, hr, rfl⟩ := hs
      obtain ⟨n, q, hst⟩ := hi.mail
      rcases Kernel.mailWait_of_stores (T := w.timeout) hst with
        ⟨rfl, hk⟩ | ⟨m, q', mb, rfl, hst', hk⟩
      · simp only [sendWait, hk, Option.map_some, Option.some.injEq] at hr
        subst hr
        refine ⟨⟨hi.mail, hi.fresh⟩, fun v hv => ?_⟩
        simp [returns, hw, sendWait, hk] at hv
      · simp only [sendWait, hk, Option.map_some, Option.some.injEq] at hr
        subst hr
        obtain ⟨hinv, hraised⟩ := hi.take (d := { c with
            system := { c.system with kernel := { c.system.kernel with
              mail := Function.update c.system.kernel.mail sendMailBox mb } }
            sending := Function.update c.sending c.system.kernel.osThis none })
          hst hw hst' rfl rfl
        refine ⟨hinv, fun v hv => ?_⟩
        simp only [returns, hw, sendWait, hk, Option.map_some, Option.bind_some,
          Option.some.injEq, Prod.mk.injEq, and_true] at hv
        exact hv ▸ hraised
  | sendResumed =>
      simp only [Can.step, Option.ite_none_right_eq_some] at hs
      obtain ⟨-, hs⟩ := hs
      split at hs
      · simp only [Option.ite_none_right_eq_some, Option.bind_eq_some_iff,
          Option.map_eq_some_iff] at hs
        obtain ⟨-, w, hw, r, hr, rfl⟩ := hs
        obtain ⟨n, q, hst⟩ := hi.mail
        rcases Kernel.mailWaitResumed_of_stores (T := w.timeout) hst with
          ⟨rfl, hk⟩ | ⟨m, q', mb, rfl, hst', hk⟩
        · simp only [sendResumed, hk, Option.map_some, Option.some.injEq] at hr
          subst hr
          refine ⟨⟨hi.mail, fun u v hv hf => ?_⟩, fun v hv => ?_⟩
          · exact hst.stored_eq
          · simp [returns, hw, sendResumed, hk] at hv
        · simp only [sendResumed, hk, Option.map_some, Option.some.injEq] at hr
          subst hr
          obtain ⟨hinv, hraised⟩ := hi.take (d := { c with
              system := { c.system with kernel := { c.system.kernel.resume w.timeout with
                mail := Function.update c.system.kernel.mail sendMailBox mb } }
              sending := Function.update c.sending c.system.kernel.osThis none })
            hst hw hst' rfl rfl
          refine ⟨hinv, fun v hv => ?_⟩
          simp only [returns, hw, sendResumed, hk, Option.map_some, Option.bind_some,
            Option.some.injEq, Prod.mk.injEq, and_true] at hv
          exact hv ▸ hraised
      · simp at hs
  | canHandle Status aMessage =>
      exact ⟨hi.canHandle hs, fun w hw => by simp [returns] at hw⟩
  | other a =>
      simp only [Can.step, Option.ite_none_left_eq_some, Option.map_eq_some_iff, not_or] at hs
      obtain ⟨⟨ha', -⟩, system, hsystem, rfl⟩ := hs
      have hmail := mail_of_other ha' hsystem
      refine ⟨⟨?_, fun t w hw hf => ?_⟩, fun w hw => by simp [returns] at hw⟩
      · rw [hmail]
        exact hi.mail
      · rw [pending, hmail]
        exact hi.fresh t w hw hf

end Steps

/-! ### A completion that comes late -/

/-- The system as it starts, with nothing sent. -/
def boot : Can := ⟨PipeKernel.bootServices, 0, fun _ => none⟩

end Can

end ChinaOS
