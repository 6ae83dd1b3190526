/-!
Decimal digits at the front of a text.
-/
namespace FlowAnalysis.Text

/-- The decimal digits at the start of a text, and what follows them. -/
def takeDigits (cs : List Char) : List Char × List Char :=
  (cs.takeWhile Char.isDigit, cs.dropWhile Char.isDigit)

/-- The number that decimal digits spell. -/
def digitsValue (cs : List Char) : Nat :=
  cs.foldl (fun n c => 10 * n + (c.toNat - '0'.toNat)) 0

end FlowAnalysis.Text
