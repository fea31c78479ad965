import Univariate.Decimal.Basic

/-!
# Shortest decimals

A positive binary number `m * 2 ^ q` is written with the fewest digits that are still nearer to it
than to its neighbours. The decimals of one exponent form a grid; the grids are tried from the
coarsest to finer ones, and the first that has a point within half the distance to both neighbours
is taken.
-/

namespace Univariate.Decimal

/-- The bounds within which a decimal reads back as a binary number, with the number itself, in
common units. -/
structure Neighbourhood where
  /-- Half the distance to the neighbour below. -/
  low : Nat
  /-- The number. -/
  value : Nat
  /-- Half the distance to the neighbour above. -/
  high : Nat
  /-- Whether the bounds themselves read back as the number. -/
  closed : Bool

/-- Whether a point reads back as the number. -/
def Neighbourhood.contains (n : Neighbourhood) (point : Nat) : Bool :=
  if n.closed then n.low ≤ point && point ≤ n.high else n.low < point && point < n.high

/-- The neighbourhood of `m * 2 ^ q` in units in which the points of the grid of exponent `k` are
whole, with the distance of those points. If `narrow`, the neighbour below is half as far as the one
above. -/
def Neighbourhood.onGrid (m : Nat) (q : Int) (narrow : Bool) (k : Int) : Neighbourhood × Nat :=
  let unit := Nat.pow 2 (q - 2).toNat * Nat.pow 10 (-k).toNat
  let step := Nat.pow 2 (2 - q).toNat * Nat.pow 10 k.toNat
  (⟨(4 * m - if narrow then 1 else 2) * unit, 4 * m * unit, (4 * m + 2) * unit, m % 2 = 0⟩, step)

/-- The point of the grid that reads back as the number, the nearer one if there are two, and the
upper one if both are as near. -/
def Neighbourhood.pointOn (n : Neighbourhood) (step : Nat) : Option Nat :=
  let below := n.value / step
  let above := below + 1
  match n.contains (below * step), n.contains (above * step) with
  | true, true => if n.value - below * step < above * step - n.value then some below else some above
  | true, false => some below
  | false, true => some above
  | false, false => none

/-- Tries the grid of exponent `k` and the next finer ones. -/
def shortestFrom (m : Nat) (q : Int) (narrow : Bool) : Nat → Int → Decimal
  | 0, k => ⟨0, k⟩
  | grids + 1, k =>
    let (n, step) := Neighbourhood.onGrid m q narrow k
    match n.pointOn step with
    | some c => ⟨c, k⟩
    | none => shortestFrom m q narrow grids (k - 1)

/-- The decimal with the fewest digits that reads back as `m * 2 ^ q`. The first grid tried is too
coarse to hold the number, and a double needs no more than seventeen digits, so that the first hit
is within twenty grids. -/
def shortest (m : Nat) (q : Int) (narrow : Bool) : Decimal :=
  shortestFrom m q narrow 20 (((m.log2 : Int) + q + 1) * 30103 / 100000 + 1)

end Univariate.Decimal
