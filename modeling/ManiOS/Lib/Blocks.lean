import Mathlib.Data.List.Chain

/-!
# Memory cut into blocks

An allocator that keeps a header in front of every block cuts an interval of
addresses into blocks, each used or free.  `Tiles h lo l hi` says that the blocks
of `l`, each with a header of `h` bytes, fill the interval from `lo` to `hi` in
this order.
-/

namespace ManiOS.Lib

/-- A block: where its header is, how many bytes follow it, and whether it is free. -/
structure Block where
  addr : Nat
  size : Nat
  free : Bool
deriving DecidableEq, Repr

namespace Block

def limit (h : Nat) (b : Block) : Nat := b.addr + h + b.size

end Block

/-- The blocks fill the interval. -/
def Tiles (h : Nat) : Nat → List Block → Nat → Prop
  | lo, [], hi => lo = hi
  | lo, b :: l, hi => b.addr = lo ∧ Tiles h (b.limit h) l hi

variable {h lo hi : Nat} {b : Block} {l s t : List Block}

/-! ## Intervals -/

namespace Tiles

theorem length_le (ht : Tiles h lo l hi) : lo + h * l.length ≤ hi := by
  induction l generalizing lo with
  | nil => exact le_of_eq ht
  | cons b l ih =>
    have hl := ih ht.2
    rw [Block.limit, ht.1] at hl
    rw [List.length_cons, Nat.mul_succ]
    omega

end Tiles

end ManiOS.Lib
