import FlowAnalysis.Text.Invisible

/-!
Quoted text.

A string literal stands between double quotes. Quotes, backslashes and the common controls have
short escapes, characters without a visible form are written by number in braces, and all else is
written as it is.
-/
namespace FlowAnalysis.Text

/-- The escape by number of a character, in lower-case hexadecimal without padding. -/
def numbered (c : Char) : String :=
  "\\u\x7b" ++ .ofList (Nat.toDigits 16 c.toNat) ++ "\x7d"

/-- A character of a quoted text. -/
def quotedChar (c : Char) : String :=
  match c with
  | '"' => "\\\""
  | '\\' => "\\\\"
  | '\n' => "\\n"
  | '\r' => "\\r"
  | '\t' => "\\t"
  | '\x00' => "\\0"
  | c => if isInvisible c then numbered c else c.toString

def quoted (text : String) : String :=
  "\"" ++ String.join (text.toList.map quotedChar) ++ "\""

end FlowAnalysis.Text
