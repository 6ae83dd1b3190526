import FlowAnalysis.Number.Decimal
import FlowAnalysis.Text.Digits

/-!
Doubles as programs write them.

Beside the numbers that ranges are made of, a literal may be negative zero or not a number; both
are kept apart so that literals are equal exactly if they have the same bits. Two texts exist: the
plain one is positional whatever the magnitude, the literal one shows at least one decimal and
turns to an exponent from `10 ^ 16` up and below `10 ^ (-4)`.
-/
namespace FlowAnalysis

/-- A double-precision number, not a number and negative zero included. -/
inductive Double where
  | nan
  | negZero
  | number (bound : Bound)
  deriving DecidableEq

/-- The text of a nonzero magnitude behind the sign of `q`. -/
def signed (q : Rat) (text : Rat → String) : String :=
  if q < 0 then "-" ++ text q.abs else text q

namespace Bound

def plain : Bound → String
  | negInf => "-inf"
  | posInf => "inf"
  | fin q => if q = 0 then "0" else signed q fun q => (Decimal.shortest q).positional

end Bound

namespace Double

open Text (takeDigits digitsValue)

/-- The number that ranges are made of, if there is one. -/
def bound? : Double → Option Bound
  | nan => none
  | negZero => some 0
  | number b => some b

def ofRat (q : Rat) : Double := number (Bound.round q)

def plain : Double → String
  | nan => "NaN"
  | negZero => "-0"
  | number b => b.plain

/-- Whether a magnitude is written with an exponent in a literal. -/
def wantsExponent (q : Rat) : Bool :=
  (10 : Rat) ^ (16 : Int) ≤ q || q < (10 : Rat) ^ (-4 : Int)

/-- The text of a positive magnitude in a literal. -/
def literalMagnitude (q : Rat) : String :=
  let digits := Decimal.shortest q
  if wantsExponent q then digits.scientific
  else
    let text := digits.positional
    if text.contains '.' then text else text ++ ".0"

def literal : Double → String
  | nan => "NaN"
  | negZero => "-0.0"
  | number .negInf => "-inf"
  | number .posInf => "inf"
  | number (.fin q) => if q = 0 then "0.0" else signed q literalMagnitude

/-- The double nearest to `mantissa * 10 ^ exponent`, behind a sign. Magnitudes far outside the
range of doubles are settled before any power is taken. -/
def ofDecimal (negative : Bool) (mantissa : Nat) (exponent : Int) : Double :=
  let magnitude := ((Nat.toDigits 10 mantissa).length : Int) + exponent
  if mantissa = 0 || magnitude < -400 then
    if negative then negZero else number 0
  else if 400 < magnitude then number (if negative then .negInf else .posInf)
  else
    let q := (Decimal.mk mantissa exponent).value
    match Bound.round (if negative then -q else q) with
    | .fin r => if r = 0 && negative then negZero else number (.fin r)
    | b => number b

/-- The exponent part of a decimal: nothing, or an `e` with a signed number of digits. -/
def readExponent? : List Char → Option Int
  | [] => some 0
  | e :: rest =>
    if e == 'e' || e == 'E' then
      let (negative, rest) : Bool × List Char :=
        match rest with
        | '-' :: rest => (true, rest)
        | '+' :: rest => (false, rest)
        | rest => (false, rest)
      if rest.isEmpty || !rest.all Char.isDigit then none
      else some (if negative then -(digitsValue rest : Int) else digitsValue rest)
    else none

/-- An unsigned decimal or the name of a special value. -/
def readMagnitude? (negative : Bool) (cs : List Char) : Option Double :=
  if cs == ['i', 'n', 'f'] then some (number (if negative then .negInf else .posInf))
  else if cs == ['n', 'a', 'n'] then some nan
  else
    let (whole, rest) := takeDigits cs
    let (fraction, rest) : List Char × List Char :=
      match rest with
      | '.' :: rest => takeDigits rest
      | rest => ([], rest)
    if whole.isEmpty && fraction.isEmpty then none
    else
      (readExponent? rest).map fun exponent =>
        ofDecimal negative (digitsValue (whole ++ fraction)) (exponent - (fraction.length : Int))

/-- The double nearest to a written decimal, or one of `inf` and `nan`, behind an optional sign. -/
def read? (text : String) : Option Double :=
  match text.toList with
  | '-' :: rest => readMagnitude? true rest
  | '+' :: rest => readMagnitude? false rest
  | cs => readMagnitude? false cs

end Double

end FlowAnalysis
