import FlowAnalysis.Text.Digits

/-!
JSON text.

The functions here read a piece of JSON from the front of a list of characters and give what is
left, or fail. Strings are read into units, since an escape by number may be half of a surrogate
pair: a string that is skipped may hold any units, one that is wanted as text must pair them.
Values are skipped with the open brackets kept on a stack, to any depth.
-/
namespace FlowAnalysis.Json

/-- White space between tokens. -/
def isBlank (c : Char) : Bool := c == ' ' || c == '\t' || c == '\n' || c == '\r'

def skipBlank (cs : List Char) : List Char := cs.dropWhile isBlank

/-- A piece of a string: a character, or a code unit given by number. -/
inductive StringUnit where
  | char (c : Char)
  | code (n : Nat)

def hexDigit? (c : Char) : Option Nat :=
  if c.isDigit then some (c.toNat - '0'.toNat)
  else if 'a' ≤ c && c ≤ 'f' then some (c.toNat - 'a'.toNat + 10)
  else if 'A' ≤ c && c ≤ 'F' then some (c.toNat - 'A'.toNat + 10)
  else none

/-- The number of four hexadecimal digits. -/
def hexCode? (a b c d : Char) : Option Nat := do
  let a ← hexDigit? a
  let b ← hexDigit? b
  let c ← hexDigit? c
  let d ← hexDigit? d
  return 4096 * a + 256 * b + 16 * c + d

def escaped? : Char → Option Char
  | '"' => some '"'
  | '\\' => some '\\'
  | '/' => some '/'
  | 'b' => some '\x08'
  | 'f' => some '\x0c'
  | 'n' => some '\n'
  | 'r' => some '\r'
  | 't' => some '\t'
  | _ => none

/-- The units of a string whose opening quote was read, in reverse order behind `units`. -/
def readUnits (units : List StringUnit) : List Char → Option (List StringUnit × List Char)
  | [] => none
  | '"' :: rest => some (units.reverse, rest)
  | '\\' :: 'u' :: a :: b :: c :: d :: rest =>
    match hexCode? a b c d with
    | some n => readUnits (.code n :: units) rest
    | none => none
  | '\\' :: e :: rest =>
    match escaped? e with
    | some c => readUnits (.char c :: units) rest
    | none => none
  | '\\' :: [] => none
  | c :: rest => if c.toNat < 0x20 then none else readUnits (.char c :: units) rest

/-- The characters of units whose surrogates come in pairs. -/
def pairUnits : List StringUnit → Option (List Char)
  | [] => some []
  | .char c :: rest => (pairUnits rest).map (c :: ·)
  | .code n :: rest =>
    if n < 0xd800 || 0xe000 ≤ n then (pairUnits rest).map (Char.ofNat n :: ·)
    else if n < 0xdc00 then
      match rest with
      | .code m :: rest =>
        if 0xdc00 ≤ m && m < 0xe000 then
          (pairUnits rest).map (Char.ofNat (0x10000 + 0x400 * (n - 0xd800) + (m - 0xdc00)) :: ·)
        else none
      | _ => none
    else none

def readString? : List Char → Option (String × List Char)
  | '"' :: rest => do
    let (units, rest) ← readUnits [] rest
    let chars ← pairUnits units
    return (.ofList chars, rest)
  | _ => none

def skipString? : List Char → Option (List Char)
  | '"' :: rest => (readUnits [] rest).map Prod.snd
  | _ => none

/-- Skips digits, of which there has to be one. -/
def skipDigits? (cs : List Char) : Option (List Char) :=
  match cs with
  | c :: rest => if c.isDigit then some (rest.dropWhile Char.isDigit) else none
  | [] => none

/-- Skips the digits of a whole number, which starts with zero only if it is zero. -/
def skipWhole? : List Char → Option (List Char)
  | '0' :: rest => if (rest.head?.map Char.isDigit).getD false then none else some rest
  | cs => skipDigits? cs

/-- Skips an exponent if there is one. -/
def skipExponent? : List Char → Option (List Char)
  | e :: rest =>
    if e == 'e' || e == 'E' then
      match rest with
      | '+' :: rest => skipDigits? rest
      | '-' :: rest => skipDigits? rest
      | rest => skipDigits? rest
    else some (e :: rest)
  | [] => some []

/-- Skips a fraction if there is one. -/
def skipFraction? : List Char → Option (List Char)
  | '.' :: rest => skipDigits? rest
  | cs => some cs

def skipNumber? (cs : List Char) : Option (List Char) := do
  let whole ← skipWhole? (if cs.head? == some '-' then cs.tail else cs)
  let fraction ← skipFraction? whole
  skipExponent? fraction

/-- Skips a value that holds no others. -/
def skipScalar? : List Char → Option (List Char)
  | 'n' :: 'u' :: 'l' :: 'l' :: rest => some rest
  | 't' :: 'r' :: 'u' :: 'e' :: rest => some rest
  | 'f' :: 'a' :: 'l' :: 's' :: 'e' :: rest => some rest
  | '"' :: rest => skipString? ('"' :: rest)
  | cs => skipNumber? cs

/-- Skips the name of a member and the colon behind it. -/
def skipName? (cs : List Char) : Option (List Char) := do
  let rest ← skipString? (skipBlank cs)
  match skipBlank rest with
  | ':' :: rest => some rest
  | _ => none

/-- A bracket that is open. -/
inductive Bracket where
  | array
  | object

mutual

/-- Skips a value and what is left of the brackets around it. -/
def skipNested? : Nat → List Bracket → List Char → Option (List Char)
  | 0, _, _ => none
  | fuel + 1, stack, cs =>
    match skipBlank cs with
    | '[' :: rest =>
      match skipBlank rest with
      | ']' :: rest => skipClosing? fuel stack rest
      | rest => skipNested? fuel (.array :: stack) rest
    | '\x7b' :: rest =>
      match skipBlank rest with
      | '\x7d' :: rest => skipClosing? fuel stack rest
      | rest => (skipName? rest).bind (skipNested? fuel (.object :: stack))
    | rest => (skipScalar? rest).bind (skipClosing? fuel stack)

/-- Skips what is left of the open brackets after a value. -/
def skipClosing? : Nat → List Bracket → List Char → Option (List Char)
  | 0, _, _ => none
  | _, [], cs => some cs
  | fuel + 1, .array :: stack, cs =>
    match skipBlank cs with
    | ',' :: rest => skipNested? fuel (.array :: stack) rest
    | ']' :: rest => skipClosing? fuel stack rest
    | _ => none
  | fuel + 1, .object :: stack, cs =>
    match skipBlank cs with
    | ',' :: rest => (skipName? rest).bind (skipNested? fuel (.object :: stack))
    | '\x7d' :: rest => skipClosing? fuel stack rest
    | _ => none

end

/-- Skips a value. Every step reads a character, but for the last. -/
def skipValue? (cs : List Char) : Option (List Char) := skipNested? (cs.length + 2) [] cs

/-- A number without sign, fraction and exponent. -/
def readUnsigned? (cs : List Char) : Option (Nat × List Char) := do
  let rest ← skipWhole? cs
  if rest.head?.any fun c => c == '.' || c == 'e' || c == 'E' then none
  else return (Text.digitsValue (cs.take (cs.length - rest.length)), rest)

end FlowAnalysis.Json
