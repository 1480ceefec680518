import Planwright.Text.Printable

/-! Texts quoted for messages: quotes, backslashes and what cannot be shown are escaped. -/

namespace Planwright.Text

def escapeChar (c : Char) : String :=
  let n := c.toNat
  match c with
  | '"' => "\\\""
  | '\\' => "\\\\"
  | '\n' => "\\n"
  | '\r' => "\\r"
  | '\t' => "\\t"
  | c =>
    if n == 7 then "\\a"
    else if n == 8 then "\\b"
    else if n == 11 then "\\v"
    else if n == 12 then "\\f"
    else if isPrintable c then c.toString
    else if n < 32 || n == 127 then "\\x" ++ hex 2 n
    else if n < 0x10000 then "\\u" ++ hex 4 n
    else "\\U" ++ hex 8 n

def quote (s : String) : String := "\"" ++ String.join (s.toList.map escapeChar) ++ "\""

end Planwright.Text
