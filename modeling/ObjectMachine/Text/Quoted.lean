import ObjectMachine.Text.Hex
import ObjectMachine.Text.Unprintable

/-!
# Quoted text

A quoted text stands between double quotes. A backslash announces a quote, a backslash or a
character that would not show: a few by a letter, all others by their code in braces.
-/

namespace ObjectMachine

namespace Text

/-- One character of a quoted text. -/
def escaped (char : Char) : String :=
  match char with
  | '\x00' => "\\0"
  | '\t' => "\\t"
  | '\n' => "\\n"
  | '\r' => "\\r"
  | '"' => "\\\""
  | '\\' => "\\\\"
  | char =>
    if isUnprintable char then "\\u\x7b" ++ hex 1 char.toNat ++ "\x7d" else char.toString

def quoted (text : String) : String :=
  "\"" ++ String.join (text.toList.map escaped) ++ "\""

/-- Items between square brackets, with commas. -/
def bracketed (items : List String) : String :=
  "[" ++ ", ".intercalate items ++ "]"

end Text

end ObjectMachine
