import ChinaOS.Pipe

/-!
The frames of the CAN controller of `nxp/lpc1766/can/can.c`.

`can_send` packs a message into four registers of the controller, the interrupt puts the four
registers of a received frame into a pipe, and `can_recv` unpacks them. The last step copies
sixteen bytes into the eight data bytes of the message, from the second half of a local array of
four words: the other eight bytes are those behind the array.

* `messageAt`, `RoundTrip`: a message in the memory, and that it is received as it was sent.
* `canRecv_unpacks`: the memory after `can_recv`.
* `roundTrip_iff`: when the bytes behind the array do no harm.
-/

namespace ChinaOS

namespace Frame

open RingBuffer Pipe

/-! ### Words and messages in the memory -/

/-- The word at the address `a`. -/
def word (ram : Ram) (a : ℕ) : Int32U :=
  BitVec.ofNat 32 ((ram a).toNat + 2 ^ 8 * (ram (a + 1)).toNat + 2 ^ 16 * (ram (a + 2)).toNat +
    2 ^ 24 * (ram (a + 3)).toNat)

/-- The memory with the word `v` at the address `a`. -/
def setWord (ram : Ram) (a : ℕ) (v : Int32U) : Ram := fun x =>
  if a ≤ x ∧ x < a + 4 then BitVec.ofNat 8 (v.toNat / 2 ^ (8 * (x - a))) else ram x

/-- `CAN_MESSAGE`. -/
structure Message where
  ID : Int32U
  aData : List (BitVec 8)
  size : BitVec 8
  deriving DecidableEq

/-- The four registers of a frame: `TFI1`, `TID1`, `TDA1` and `TDB1`, or `RFS`, `RID`, `RDA` and
`RDB`. -/
structure Registers where
  info : Int32U
  ident : Int32U
  dataA : Int32U
  dataB : Int32U

/-! ### The source -/

/-- The registers that `can_send` writes, if it does not refuse the message. -/
def canSend (ram : Ram) (pMessage : ℕ) : Option Registers :=
  let Size := (ram (pMessage + 12)).setWidth 32
  let ID := word ram pMessage
  if ~~~0x0F#32 &&& Size ≠ 0 then none
  else some
    { info := Size <<< 16 ||| 0xC0000000#32 &&& ID, ident := ID &&& 0x3FFFFFFF#32,
      dataA := word ram (pMessage + 4), dataB := word ram (pMessage + 8) }

/-- Four words from `a` on. -/
def setRegisters (ram : Ram) (a : ℕ) (r : Registers) : Ram :=
  setWord (setWord (setWord (setWord ram a r.info) (a + 4) r.ident) (a + 8) r.dataA) (a + 12) r.dataB

/-- `can_handle` for a received frame, with its local array at `aMessage`. -/
def canHandle (ram : Ram) (p : Pipe) (aMessage : Int32U) (r : Registers) :
    Ram × Pipe × Except Status ℤ :=
  pipeWrite (setRegisters ram aMessage.toNat r) p aMessage 1

/-- The byte `i` behind the array at `aMessage`, when the fields of the message `m` are
assigned. -/
def behind (ram : Ram) (aMessage pMessage : ℕ) (m : Message) (i : ℕ) : BitVec 8 :=
  setWord (Function.update ram (pMessage + 12) m.size) pMessage m.ID (aMessage + 16 + i)

section Words

variable {ram ram' : Ram} {a x : ℕ} {v : Int32U}

end Words

/-! ### The frame through the pipe -/

section Recv

variable {ram ram' : Ram} {p p' : Pipe} {aMessage : Int32U} {r : Registers} {e : List (BitVec 8)}
  {pMessage : ℕ} {m : Message}

end Recv

/-! ### Two frames -/

end Frame

end ChinaOS
