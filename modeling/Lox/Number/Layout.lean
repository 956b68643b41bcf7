import Lox.Number.Shortest
import Lox.Text.Bytes

/-!
Written numbers: the shortest digits that read back, laid out with or without an exponent.
-/

namespace Lox

namespace Decimal

def zeros (n : Nat) : Bytes :=
  List.replicate n 48

/-- All places written out, without an exponent. -/
def positional (d : Decimal) : Bytes :=
  let digits := Bytes.ofNat d.digits
  match d.exponent with
  | .ofNat k => digits ++ zeros k
  | .negSucc k =>
      let places := k + 1
      if places < digits.length then
        digits.take (digits.length - places) ++ 46 :: digits.drop (digits.length - places)
      else
        48 :: 46 :: zeros (places - digits.length) ++ digits

/-- The exponent when one digit stands before the point. -/
def order (d : Decimal) : Int :=
  d.exponent + ((Bytes.ofNat d.digits).length - 1 : Nat)

/-- One digit before the point, and an exponent of at least two digits with its sign. -/
def scientific (d : Decimal) : Bytes :=
  let digits := Bytes.ofNat d.digits
  let fraction := digits.drop 1
  let order := d.order
  let size := Bytes.ofNat order.natAbs
  digits.take 1 ++ (if fraction.isEmpty then [] else 46 :: fraction) ++
    [101, if order < 0 then 45 else 43] ++ zeros (2 - size.length) ++ size

/-- Positional for orders from -4 to 5, scientific for others. -/
def general (d : Decimal) : Bytes :=
  if d.digits = 0 ∨ (-4 ≤ d.order ∧ d.order < 6) then d.positional else d.scientific

end Decimal

namespace Number

/-- How finite numbers are laid out, and the names of the others. -/
structure Layout where
  finite : Decimal → Bytes
  infinity : Bytes
  negativeInfinity : Bytes
  nan : Bytes

def write (layout : Layout) (x : Number) : Bytes :=
  if x.isNaN then layout.nan
  else if x.isInfinite then
    if x.isNegative then layout.negativeInfinity else layout.infinity
  else
    let digits := layout.finite x.shortestDecimal
    if x.isNegative then 45 :: digits else digits

/-- Numbers as a program prints them. -/
def printed : Layout :=
  { finite := Decimal.positional
    infinity := bytes "Infinity"
    negativeInfinity := bytes "-Infinity"
    nan := bytes "NaN" }

/-- Number literals in a dumped tree. -/
def dumped : Layout :=
  { finite := Decimal.positional
    infinity := bytes "+Inf"
    negativeInfinity := bytes "-Inf"
    nan := bytes "NaN" }

/-- Number literals in a listed token. -/
def listed : Layout :=
  { dumped with finite := Decimal.general }

end Number

end Lox
