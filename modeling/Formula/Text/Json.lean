import Formula.Text.Hex

/-!
# Texts in JSON

A text stands between double quotes. Quotes, backslashes and control characters are escaped, the
common ones by a letter; everything else stands for itself.
-/

namespace Formula.Json

/-- A character inside quotes. -/
def escape (c : Char) : String :=
  match c with
  | '"' => "\\\""
  | '\\' => "\\\\"
  | '\x08' => "\\b"
  | '\t' => "\\t"
  | '\n' => "\\n"
  | '\x0c' => "\\f"
  | '\r' => "\\r"
  | _ => if c < ' ' then "\\u" ++ Hex.padded 4 c.toNat else c.toString

/-- A text in quotes. -/
def quote (text : String) : String :=
  "\"" ++ String.join (text.toList.map escape) ++ "\""

end Formula.Json
