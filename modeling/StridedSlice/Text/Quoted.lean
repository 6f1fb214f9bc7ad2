import StridedSlice.Text.Graphic
/-!
# StridedSlice.Text.Quoted

A text as messages **quote** it: between double quotes, with a backslash before
quotes and backslashes, short escapes for the tab, the two ends of line and the zero
character, and the code point in place of every other character that is not graphic.
A single quote stands as it is.
-/

namespace StridedSlice.Text

/-- The code point of a character in a message. -/
def codePointEscape (c : Char) : String :=
  "\\u\x7b" ++ String.ofList (Nat.toDigits 16 c.toNat) ++ "\x7d"

/-- A character inside the quotes. -/
def quotedChar (c : Char) : String :=
  match c with
  | '"' => "\\\""
  | '\\' => "\\\\"
  | '\t' => "\\t"
  | '\n' => "\\n"
  | '\r' => "\\r"
  | '\x00' => "\\0"
  | c => if isGraphic c then c.toString else codePointEscape c

/-- The quoted form of a text. -/
def quoted (s : String) : String :=
  s.foldl (fun text c => text ++ quotedChar c) "\"" ++ "\""

end StridedSlice.Text
