import Chronicle.Text.Printable

/-!
# Quoted texts

A text inside a message is put between double quotes. The quote, the backslash and the common
controls have short escapes; any other character that is not shown as itself is written as
its code point in hexadecimal.
-/

namespace Chronicle.Quoted

/-- How one character is written between the quotes. -/
def encodeChar (c : Char) : List Char :=
  match c with
  | '"' => ['\\', '"']
  | '\\' => ['\\', '\\']
  | '\n' => ['\\', 'n']
  | '\r' => ['\\', 'r']
  | '\t' => ['\\', 't']
  | '\x00' => ['\\', '0']
  | c =>
    if isPrintable c then [c]
    else ['\\', 'u', '\x7b'] ++ Nat.toDigits 16 c.toNat ++ ['\x7d']

/-- The quoted form of a text. -/
def encode (text : String) : String :=
  String.ofList ('"' :: text.toList.flatMap encodeChar ++ ['"'])

end Chronicle.Quoted
