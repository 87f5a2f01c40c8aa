import ChinaOS.Run
import ChinaOS.Ring
import ChinaOS.Types

/-!
The timer service of `ticker/ticker.c`: a ring of `TIMER`s that share the match register of
hardware timer 0.

A `TIMER` is named by its address, and `0` is `NULL`. `TimeCounter` is read as the counter of
timer 0, which is what its comment calls it.

* `Ticker`: the `TIMER`s, `OS_pTimer` and the registers that `ticker.c` uses.
* `setTime`, `osTimerAdd`, `osTimerDel`, `systimerException`: the functions of the source;
  `Ticker.tick`: one tick of the hardware.
* `Service`: a ticker with the history a specification speaks of, and `step`, by which any
  sequence of calls, ticks and interrupts is a run.
-/

namespace ChinaOS

open Ring

/-- The timers and the hardware they share. -/
structure Ticker where
  /-- `OS_pTimer`: the timer whose expiry the match register holds. -/
  osPTimer : Int32U
  /-- `Next` and `Prev` of every `TIMER`. -/
  links : Links Int32U
  /-- `Time` of every `TIMER`. -/
  time : Int32U → Int32U
  /-- `T0MR0`, the match register. -/
  t0mr0 : Int32U
  /-- `TimeCounter`, the counter. -/
  timeCounter : Int32U
  /-- Bit 0 of `T0TCR`: the counter runs. -/
  enabled : Bool
  /-- `T0IR`: a match waits to be served. -/
  t0ir : Bool

namespace Ticker

/-! ### The hardware -/

/-- `T0MCR = 0x07`: a match raises the interrupt, resets the counter and stops it. -/
def matchMr0 (k : Ticker) : Ticker :=
  if k.enabled ∧ k.timeCounter = k.t0mr0 then
    { k with timeCounter := 0, enabled := false, t0ir := true }
  else k

/-- One tick of the clock that the counter counts while it runs. -/
def tick (k : Ticker) : Ticker :=
  if k.enabled then { k with timeCounter := k.timeCounter + 1 }.matchMr0 else k

/-! ### The functions of the source -/

/-- `get_left_time`. -/
def getLeftTime (k : Ticker) : Int32U := k.t0mr0 - k.timeCounter

/-- `set_time`: reset the counter, set the match value and start. -/
def setTime (k : Ticker) (Time : Int32U) : Ticker :=
  { k with timeCounter := 0, t0mr0 := Time, enabled := true }.matchMr0

/-- No walk around a ring of timers visits more nodes than there are addresses. -/
def ringBound : ℕ := 2 ^ 32

/-- The `while` loop of `OS_timer_add`: from `pTmp` on, the node after which a timer for the
moment `Time` belongs. -/
def findPlace (k : Ticker) (Time : Int32U) : ℕ → Int32U → Option Int32U
  | 0, _ => none
  | fuel + 1, pTmp =>
      if k.osPTimer = k.links.next pTmp then
        some pTmp
      else if Time - k.time pTmp ≤ k.time (k.links.next pTmp) - k.time pTmp then
        some pTmp
      else
        k.findPlace Time fuel (k.links.next pTmp)

/-- The label `replace` of `OS_timer_add`: the new timer becomes the current one. -/
def replace (k : Ticker) (pTimer Millisecond : Int32U) : Ticker :=
  { k with osPTimer := pTimer }.setTime Millisecond

/-- The four link words that put `pTimer` behind `pTmp`. -/
def linkAfter (L : Links Int32U) (pTimer pTmp : Int32U) : Links Int32U :=
  let L := (L.setNext pTimer (L.next pTmp)).setPrev pTimer pTmp
  (L.setPrev (L.next pTmp) pTimer).setNext pTmp pTimer

/-- `OS_timer_add`. -/
def osTimerAdd (k : Ticker) (pTimer Millisecond : Int32U) : Option Ticker :=
  if k.osPTimer = 0 then
    some <| { k with
      time := Function.update k.time pTimer Millisecond
      links := (k.links.setNext pTimer pTimer).setPrev pTimer pTimer }.replace pTimer Millisecond
  else
    let LeftTime := k.getLeftTime
    let Time := k.time k.osPTimer + Millisecond - LeftTime
    let k := { k with time := Function.update k.time pTimer Time }
    (k.findPlace Time ringBound k.osPTimer).map fun pTmp =>
      let k := { k with links := linkAfter k.links pTimer pTmp }
      if LeftTime ≤ Millisecond then k else k.replace pTimer Millisecond

/-- The two link words that take `pTimer` out, and the `memset` of its record. -/
def unlink (k : Ticker) (pTimer : Int32U) : Ticker :=
  let L := k.links.setNext (k.links.prev pTimer) (k.links.next pTimer)
  let L := L.setPrev (L.next pTimer) (L.prev pTimer)
  { k with
    links := (L.setNext pTimer 0).setPrev pTimer 0
    time := Function.update k.time pTimer 0 }

/-- What `OS_timer_del` does to the current timer and the hardware. -/
def passOn (k : Ticker) (pTimer : Int32U) : Ticker :=
  if pTimer = k.osPTimer then
    if pTimer = k.links.next pTimer then
      { k with enabled := false, timeCounter := 0, osPTimer := 0 }
    else
      let LeftTime := k.getLeftTime
      let k := { k with osPTimer := k.links.next pTimer }
      k.setTime (k.time k.osPTimer - k.time pTimer + LeftTime)
  else k

/-- `OS_timer_del`. -/
def osTimerDel (k : Ticker) (pTimer : Int32U) : Status × Ticker :=
  if k.links.prev pTimer = 0 ∨ k.links.next pTimer = 0 then
    (.err, k)
  else
    (.ok, (k.passOn pTimer).unlink pTimer)

/-- The `do` loop of `systimer_exception` from `pTimer` on, with the timers whose threads it
makes ready, in this order. -/
def expire (k : Ticker) (Time : Int32U) : ℕ → Int32U → Option (List Int32U × Ticker)
  | 0, _ => none
  | fuel + 1, pTimer =>
      let next := k.links.next pTimer
      if Time ≠ k.time next then
        let k' := k.setTime (k.time next - k.time (k.links.prev next))
        some ([pTimer], { k' with osPTimer := next })
      else if next ≠ k.osPTimer then
        (k.expire Time fuel next).map fun r => (pTimer :: r.1, r.2)
      else
        some ([pTimer], { k with osPTimer := 0, enabled := false })

/-- `systimer_exception`, with the timers whose threads it makes ready. -/
def systimerException (k : Ticker) : Option (List Int32U × Ticker) :=
  let k := { k with t0ir := false }
  if k.osPTimer = 0 then
    some ([], { k with enabled := false })
  else
    k.expire (k.time k.osPTimer) ringBound k.osPTimer

/-- The ticker after `systicker_setup`, with every `TIMER` still zero. -/
def setup : Ticker where
  osPTimer := 0
  links := ⟨fun _ => 0, fun _ => 0⟩
  time := fun _ => 0
  t0mr0 := 0
  timeCounter := 0
  enabled := false
  t0ir := false

/-! ### Runs -/

/-- What has become of one `OS_timer_add` whose timer has not been deleted since. -/
structure Entry where
  /-- The clock at the add. -/
  added : ℕ
  /-- The count of `Service.counted` at the add. -/
  start : ℕ
  /-- `Millisecond`. -/
  delay : Int32U
  /-- The clock at each time since that the thread was made ready. -/
  wakes : List ℕ

/-- The moment of expiry. -/
def Entry.due (e : Entry) : ℕ := e.added + e.delay.toNat

/-- Added, and neither expired nor deleted. -/
def Entry.Pending (e : Entry) : Prop := e.wakes = []

instance (e : Entry) : Decidable e.Pending := inferInstanceAs (Decidable (e.wakes = []))

/-- The ticker with the history of a run. -/
structure Service where
  ticker : Ticker
  /-- The ticks so far. -/
  clock : ℕ
  /-- The ticks that the counter counted while no match waited to be served. -/
  counted : ℕ
  /-- The timers that were added and not deleted since. -/
  entry : Int32U → Option Entry

/-- What can happen next. -/
inductive Event where
  | add (pTimer Millisecond : Int32U)
  | del (pTimer : Int32U)
  | tick
  | exception
  deriving DecidableEq

/-- The threads of the timers `ts` are made ready at the clock `now`. -/
def wake (ts : List Int32U) (now : ℕ) (entry : Int32U → Option Entry) (t : Int32U) :
    Option Entry :=
  (entry t).map fun e => { e with wakes := e.wakes ++ List.replicate (ts.count t) now }

/-- The service after an add that has left the ticker `k`. -/
def Service.added (s : Service) (k : Ticker) (t ms : Int32U) : Service :=
  { s with ticker := k, entry := Function.update s.entry t (some ⟨s.clock, s.counted, ms, []⟩) }

/-- The service after a deletion that has left the ticker `k`. -/
def Service.deleted (s : Service) (k : Ticker) (t : Int32U) : Service :=
  { s with ticker := k, entry := Function.update s.entry t none }

/-- The service after an exception that has made the threads of `ts` ready and left the
ticker `k`. -/
def Service.served (s : Service) (ts : List Int32U) (k : Ticker) : Service :=
  { s with ticker := k, entry := wake ts s.clock s.entry }

/-- One event. The exception is taken only when a match waits to be served. -/
def Service.step (s : Service) : Event → Option Service
  | .add t ms => (s.ticker.osTimerAdd t ms).map fun k => s.added k t ms
  | .del t =>
      match s.ticker.osTimerDel t with
      | (.ok, k) => some (s.deleted k t)
      | (_, k) => some { s with ticker := k }
  | .tick => some { s with
      ticker := s.ticker.tick
      clock := s.clock + 1
      counted := if s.ticker.enabled ∧ ¬ s.ticker.t0ir then s.counted + 1 else s.counted }
  | .exception =>
      if s.ticker.t0ir then
        s.ticker.systimerException.map fun r => s.served r.1 r.2
      else none

/-- The service before the first event. -/
def start : Service where
  ticker := setup
  clock := 0
  counted := 0
  entry := fun _ => none

end Ticker

end ChinaOS
