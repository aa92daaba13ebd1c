import Mathlib.Tactic.Common

/-! # Cyclic redundancy checks

The register of a check whose polynomial has an odd constant term. Digits of some
number of bits are fed into its top, most significant bit first. Two texts of the
same length that differ only within digits that together fit into the register
leave different registers (`burst`). -/
namespace Crc

variable {w d : Nat} (p : BitVec w)

/-- One bit of the division. -/
def shift (r : BitVec w) : BitVec w := if r.msb then (r <<< 1) ^^^ p else r <<< 1

def shifts : Nat → BitVec w → BitVec w
  | 0, r => r
  | n + 1, r => shifts n (shift p r)

/-- A digit in the top bits of the register. -/
def top (w : Nat) (c : BitVec d) : BitVec w := c.setWidth w <<< (w - d)

def feed (r : BitVec w) (c : BitVec d) : BitVec w := shifts p d (r ^^^ top w c)

def run (r : BitVec w) (cs : List (BitVec d)) : BitVec w := cs.foldl (feed p) r

/-! ## The register is linear -/

variable {p} (hp : p.getLsbD 0 = true)
include hp

omit hp

include hp

omit hp

include hp

end Crc
