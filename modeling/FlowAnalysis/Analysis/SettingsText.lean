import FlowAnalysis.Analysis.Settings
import FlowAnalysis.Text.Json

/-!
Settings as JSON text.

Settings are an object with the members `widening` and `max_iterations`, each at most once, among
others that are skipped; or an array of the two values in this order. What is missing has its
default. Numbers are whole and fit a machine word.
-/
namespace FlowAnalysis

/-- Why settings cannot be loaded. -/
inductive SettingsError where
  /-- There is no text to read. -/
  | unreadable
  /-- The text does not describe settings. -/
  | malformed
  deriving DecidableEq

namespace Settings

open Json

/-- The values of the members that were read so far. -/
structure Draft where
  widening : Option Nat := none
  maxIterations : Option (Option Nat) := none

/-- The settings of a draft, defaults for what is missing. -/
def Draft.settings (d : Draft) : Settings :=
  { widening := d.widening.getD ({} : Settings).widening
    maxIterations := d.maxIterations.getD ({} : Settings).maxIterations }

/-- The largest number of a machine word. -/
def maxWord : Nat := 18446744073709551615

/-- A number that fits a machine word. -/
def readWord? (cs : List Char) : Option (Nat × List Char) := do
  let (n, rest) ← readUnsigned? (skipBlank cs)
  if n ≤ maxWord then return (n, rest) else none

/-- A cap: a number, or null for none. -/
def readCap? (cs : List Char) : Option (Option Nat × List Char) :=
  match skipBlank cs with
  | 'n' :: 'u' :: 'l' :: 'l' :: rest => some (none, rest)
  | cs => (readWord? cs).map fun (n, rest) => (some n, rest)

def readMember? (d : Draft) (name : String) (cs : List Char) : Option (Draft × List Char) :=
  if name = "widening" then
    if d.widening.isSome then none
    else (readWord? cs).map fun (n, rest) => ({ d with widening := some n }, rest)
  else if name = "max_iterations" then
    if d.maxIterations.isSome then none
    else (readCap? cs).map fun (cap, rest) => ({ d with maxIterations := some cap }, rest)
  else (skipValue? cs).map fun rest => (d, rest)

/-- The members of an object, from a name on. -/
def readMembers? : Nat → Draft → List Char → Option (Draft × List Char)
  | 0, _, _ => none
  | fuel + 1, d, cs => do
    let (name, rest) ← readString? (skipBlank cs)
    match skipBlank rest with
    | ':' :: rest =>
      let (d, rest) ← readMember? d name rest
      match skipBlank rest with
      | ',' :: rest => readMembers? fuel d rest
      | '\x7d' :: rest => some (d, rest)
      | _ => none
    | _ => none

def closeArray? (d : Draft) (cs : List Char) : Option (Draft × List Char) :=
  match skipBlank cs with
  | ']' :: rest => some (d, rest)
  | _ => none

/-- The values of an array, from the first on. -/
def readValues? (cs : List Char) : Option (Draft × List Char) := do
  let (widening, rest) ← readWord? cs
  match skipBlank rest with
  | ',' :: rest =>
    let (cap, rest) ← readCap? rest
    closeArray? ⟨some widening, some cap⟩ rest
  | rest => closeArray? ⟨some widening, none⟩ rest

/-- An object or an array at the front of a text. -/
def readFront? (cs : List Char) : Option (Draft × List Char) :=
  match skipBlank cs with
  | '\x7b' :: rest =>
    match skipBlank rest with
    | '\x7d' :: rest => some ({}, rest)
    | rest => readMembers? (rest.length + 1) {} rest
  | '[' :: rest =>
    match skipBlank rest with
    | ']' :: rest => some ({}, rest)
    | rest => readValues? rest
  | _ => none

def ofText (text : String) : Except SettingsError Settings :=
  match readFront? text.toList with
  | some (draft, rest) =>
    if (skipBlank rest).isEmpty then pure draft.settings else throw .malformed
  | none => throw .malformed

def ofBytes (bytes : ByteArray) : Except SettingsError Settings :=
  match String.fromUTF8? bytes with
  | some text => ofText text
  | none => throw .unreadable

/-- The settings in a file, whose bytes are missing if there is no such file. -/
def ofFile (bytes : Option ByteArray) : Except SettingsError Settings :=
  match bytes with
  | some bytes => ofBytes bytes
  | none => throw .unreadable

/-- Settings as compact JSON text. -/
def text (s : Settings) : String :=
  "\x7b\"widening\":" ++ toString s.widening ++ ",\"max_iterations\":"
    ++ (s.maxIterations.map toString).getD "null" ++ "\x7d"

end Settings

end FlowAnalysis
