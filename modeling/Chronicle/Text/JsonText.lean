import Chronicle.Text.Numeral

/-!
# JSON texts

Strings of the JSON format: quotes, backslashes and controls are escaped, everything else stands as it
is. An object on one line has no blanks.
-/

namespace Chronicle.JsonText

/-- How one character is written in a JSON string. -/
def encodeChar (c : Char) : List Char :=
  match c with
  | '"' => ['\\', '"']
  | '\\' => ['\\', '\\']
  | '\n' => ['\\', 'n']
  | '\r' => ['\\', 'r']
  | '\t' => ['\\', 't']
  | '\x08' => ['\\', 'b']
  | '\x0c' => ['\\', 'f']
  | c =>
    if c.toNat < 32 then
      let digits := Nat.toDigits 16 c.toNat
      ['\\', 'u'] ++ List.replicate (4 - digits.length) '0' ++ digits
    else [c]

/-- A JSON string. -/
def string (text : String) : String :=
  String.ofList ('"' :: text.toList.flatMap encodeChar ++ ['"'])

/-- A JSON truth value. -/
def bool (b : Bool) : String := if b then "true" else "false"

/-- A JSON object on one line, its members written already. -/
def object (members : List (String × String)) : String :=
  "\x7b" ++ ",".intercalate (members.map fun member => string member.1 ++ ":" ++ member.2) ++ "\x7d"

end Chronicle.JsonText
