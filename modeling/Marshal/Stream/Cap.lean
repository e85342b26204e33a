/-!
# Byte caps

A cap lets a number of bytes pass and then refuses. Caps are stacked: what is written or read is charged to the last one
put on first, and a cap that refuses keeps the charge, so it refuses everything that follows, an empty write included.
-/
namespace Marshal

structure Cap where
  limit : Int
  /-- What is left of the limit; below zero once the cap has refused. -/
  left : Int
deriving DecidableEq, Repr

namespace Cap

def new (limit : Int) : Cap := ⟨limit, limit⟩

/-- Charges `n` bytes to each cap in turn. Gives the limit of the one that refused, and the caps afterwards; those
behind a cap that refused are not charged. -/
def chargeAll (n : Int) : List Cap → Option Int × List Cap
  | [] => (none, [])
  | c :: cs =>
    let c : Cap := ⟨c.limit, c.left - n⟩
    if c.left < 0 then (some c.limit, c :: cs)
    else
      let (refused, cs) := chargeAll n cs
      (refused, c :: cs)

end Cap

end Marshal
