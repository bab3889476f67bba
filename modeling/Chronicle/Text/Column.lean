/-!
# Texts in columns

A table has columns of a fixed width, counted in characters. A text that is too long is cut and ends
in three dots.
-/

namespace Chronicle.Column

/-- A text with blanks after it up to a width. -/
def left (width : Nat) (text : String) : String :=
  text ++ String.ofList (List.replicate (width - text.length) ' ')

/-- A text with blanks before it up to a width. -/
def right (width : Nat) (text : String) : String :=
  String.ofList (List.replicate (width - text.length) ' ') ++ text

/-- A text cut to a width. -/
def cut (width : Nat) (text : String) : String :=
  if text.length ≤ width then text
  else String.ofList (text.toList.take (width - 3)) ++ "..."

/-- A line of dashes. -/
def rule (width : Nat) : String := String.ofList (List.replicate width '-')

end Chronicle.Column
