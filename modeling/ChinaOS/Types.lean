import Mathlib.Tactic

/-!
The machine words of `include/types.h` and the status codes of `include/macro.h`.
-/

namespace ChinaOS

/-- `INT32U`: an unsigned machine word. -/
abbrev Int32U := BitVec 32

/-- A thread, named by the address of its control block. -/
abbrev ThreadId := ℕ

/-- `min` of `library/math/math.h`, on unsigned words. -/
def umin (a b : Int32U) : Int32U := if a < b then a else b

lemma toNat_umin (a b : Int32U) : (umin a b).toNat = min a.toNat b.toNat := by
  rw [umin]
  split_ifs with h
  · have := BitVec.lt_def.mp h
    omega
  · have := BitVec.le_def.mp (BitVec.not_lt.mp h)
    omega

/-- The status codes a kernel service returns. -/
inductive Status where
  | ok
  | err
  | errBadParam
  | errTimeout
  deriving DecidableEq, Repr

end ChinaOS
