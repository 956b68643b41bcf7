import Lox.Number.Basic

/-!
The shortest decimal that reads back as a given number. The reals that round to `m * 2 ^ q` form an
interval around it, closed if `m` is even. Among the decimals in that interval the ones on the coarsest
grid `10 ^ k` have the fewest digits; of those the nearest is taken, and the even one on a tie.
-/

namespace Lox

/-- The value `digits * 10 ^ exponent`. -/
structure Decimal where
  digits : Nat
  exponent : Int
  deriving DecidableEq, Repr

namespace Number

/-- An interval of positive rationals around `value`, over the common denominator `unit`. -/
structure Interval where
  low : Nat
  value : Nat
  high : Nat
  unit : Nat
  closed : Bool

/-- The reals that round to `m * 2 ^ q`. Below a power of two the next number is half as far. -/
def Interval.around (m : Nat) (q : Int) : Interval :=
  let scale := Nat.pow 2 q.toNat
  let below := if m = unitField ∧ -1074 < q then 1 else 2
  { low := (4 * m - below) * scale
    value := 4 * m * scale
    high := (4 * m + 2) * scale
    unit := 4 * Nat.pow 2 (-q).toNat
    closed := m % 2 = 0 }

/-- Whether `d * 10 ^ k` lies in the interval. -/
def Interval.contains (i : Interval) (d : Nat) (k : Int) : Bool :=
  let x := d * Nat.pow 10 k.toNat * i.unit
  let grid := Nat.pow 10 (-k).toNat
  if i.closed then
    i.low * grid ≤ x && x ≤ i.high * grid
  else
    i.low * grid < x && x < i.high * grid

/-- The decimal nearest to the middle among the two neighbours on the grid `10 ^ k` that lie in the
interval. -/
def Interval.onGrid? (i : Interval) (k : Int) : Option Decimal :=
  let num := i.value * Nat.pow 10 (-k).toNat
  let den := i.unit * Nat.pow 10 k.toNat
  let down := num / den
  let rest := num % den
  let nearUp := den < 2 * rest || (2 * rest == den && down % 2 == 1)
  match i.contains down k, i.contains (down + 1) k with
  | true, true => some ⟨if nearUp then down + 1 else down, k⟩
  | true, false => some ⟨down, k⟩
  | false, true => some ⟨down + 1, k⟩
  | false, false => none

/-- All digits of `m * 2 ^ q`. -/
def exactDecimal (m : Nat) (q : Int) : Decimal :=
  ⟨m * Nat.pow 2 q.toNat * Nat.pow 5 (-q).toNat, -((-q).toNat : Int)⟩

/-- A power of ten above `m * 2 ^ q`. -/
def topGrid (m : Nat) (q : Int) : Int :=
  ((m.log2 : Int) + 1 + q) * 1234 / 4096 + 2

/-- The grids on which a double has a decimal, from coarse to fine. -/
def grids (m : Nat) (q : Int) : List Int :=
  (List.range 24).map fun i : Nat => topGrid m q - i

def shortest (m : Nat) (q : Int) : Decimal :=
  if m = 0 then
    ⟨0, 0⟩
  else
    match (grids m q).findSome? (Interval.around m q).onGrid? with
    | some d => d
    | none => exactDecimal m q

def shortestDecimal (x : Number) : Decimal :=
  shortest x.mantissa x.exponent

end Number

end Lox
