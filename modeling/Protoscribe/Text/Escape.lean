import Protoscribe.Text.Hidden

/-!
# `Protoscribe.Text.Escape`: a text in quotation marks, for a message

A message shows a text between quotation marks. Quotation marks and backslashes get a backslash in
front, a few controls have a letter, and every other character that does not print on its own is
written by its code point.
-/

set_option autoImplicit false

namespace Protoscribe.Text

/-- A character inside quotation marks. -/
def escaped (c : Char) : List Char :=
  match c with
  | '"' => ['\\', '"']
  | '\\' => ['\\', '\\']
  | '\t' => ['\\', 't']
  | '\r' => ['\\', 'r']
  | '\n' => ['\\', 'n']
  | '\x00' => ['\\', '0']
  | c =>
    if isShown c then [c]
    else ['\\', 'u', '\x7b'] ++ Nat.toDigits 16 c.toNat ++ ['\x7d']

/-- A text between quotation marks. -/
def quoted (text : String) : String :=
  "\"" ++ String.ofList (text.toList.flatMap escaped) ++ "\""

end Protoscribe.Text
