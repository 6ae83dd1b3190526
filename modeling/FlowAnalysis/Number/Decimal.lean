import FlowAnalysis.Number.Bound

/-!
Decimal digits of doubles.

A double is written with the fewest significant digits that read back as the same double; of the
digit strings of that length the nearest to the double is taken, and of two equally near the
larger. Reading rounds the decimal to the nearest double, so both directions share `Bound.round`.
-/
namespace FlowAnalysis

/-- The number `digits * 10 ^ exponent`. -/
structure Decimal where
  digits : Nat
  exponent : Int
  deriving DecidableEq

namespace Decimal

def value (d : Decimal) : Rat := (d.digits : Int) * (10 : Rat) ^ d.exponent

/-- Whether `d` reads back as the double `q`. -/
def readsAs (d : Decimal) (q : Rat) : Bool := Bound.round d.value = .fin q

/-- The exponent `e` of the decade `10 ^ e ≤ q < 10 ^ (e + 1)` of a positive `q`. -/
def decade (q : Rat) : Int :=
  let e : Int := ((Nat.toDigits 10 q.num.natAbs).length : Int) - (Nat.toDigits 10 q.den).length
  if (10 : Rat) ^ e ≤ q then e else e - 1

/-- The decimal with `count` significant digits that reads back as the positive `q`, the nearest
one if its two neighbours both do. -/
def withDigits? (q : Rat) (count : Nat) : Option Decimal :=
  let exponent := decade q + 1 - count
  let scaled := q / (10 : Rat) ^ exponent
  let low : Decimal := ⟨scaled.floor.toNat, exponent⟩
  let high : Decimal := ⟨scaled.floor.toNat + 1, exponent⟩
  match low.readsAs q, high.readsAs q with
  | true, true => some (if 2 * (scaled - scaled.floor) < 1 then low else high)
  | true, false => some low
  | false, true => some high
  | false, false => none

/-- Seventeen significant digits identify every double. -/
def maxDigits : Nat := 17

/-- The fewest digits that read back as the positive double `q`. -/
def shortest (q : Rat) : Decimal :=
  ((List.range' 1 maxDigits).findSome? (withDigits? q)).getD
    ⟨(q / (10 : Rat) ^ (decade q + 1 - maxDigits)).floor.toNat, decade q + 1 - maxDigits⟩

/-- The digits without the zeros at their end, and the power of ten that these stood for. -/
def strip (d : Decimal) : List Char × Int :=
  let digits := Nat.toDigits 10 d.digits
  let kept := (digits.reverse.dropWhile (· == '0')).reverse
  (kept, d.exponent + (digits.length - kept.length : Nat))

/-- Positional notation, with a point only if there are digits after it. -/
def positional (d : Decimal) : String :=
  let (digits, exponent) := d.strip
  let point := (digits.length : Int) + exponent
  if 0 ≤ exponent then
    .ofList (digits ++ List.replicate exponent.toNat '0')
  else if 0 < point then
    .ofList (digits.take point.toNat ++ '.' :: digits.drop point.toNat)
  else
    .ofList ('0' :: '.' :: (List.replicate (-point).toNat '0' ++ digits))

/-- One digit before the point, and the exponent after an `e`. -/
def scientific (d : Decimal) : String :=
  let (digits, exponent) := d.strip
  let shown := exponent + (digits.length : Int) - 1
  let mantissa : List Char :=
    match digits with
    | [] => ['0']
    | [digit] => [digit]
    | digit :: rest => digit :: '.' :: rest
  String.ofList mantissa ++ "e" ++ toString shown

end Decimal

end FlowAnalysis
