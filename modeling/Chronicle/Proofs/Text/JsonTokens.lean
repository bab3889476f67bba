import Mathlib.Data.List.Forall2
import Chronicle.Text.JsonText

/-!
# JSON texts read back

A JSON text is a row of tokens: marks, strings, and words such as numbers. They are read here character by
character, in the usual way and without regard to how they were written. A text is written so that the tokens
are read back that it was made from: whatever characters are in a string, it is read as one token that stands
for all of them, and an object is read as its members in their order.
-/

namespace Chronicle.JsonText

/-- A token of a JSON text. -/
inductive Token where
  /-- A brace, a bracket, a colon or a comma. -/
  | mark (c : Char)
  /-- A string, by the characters that it stands for. -/
  | string (text : List Char)
  /-- A number or a literal name, by its letters. -/
  | word (letters : List Char)
  deriving DecidableEq, Repr

/-- Blanks, which may stand between any two tokens. -/
def isBlank (c : Char) : Bool := c = ' ' || c = '\n' || c = '\r' || c = '\t'

/-- The characters that are tokens for themselves. -/
def isMark (c : Char) : Bool := c = '\x7b' || c = '\x7d' || c = '[' || c = ']' || c = ':' || c = ','

/-- The value of a hexadecimal digit. -/
def hexDigit? (c : Char) : Option Nat :=
  if '0' ≤ c ∧ c ≤ '9' then some (c.toNat - '0'.toNat)
  else if 'a' ≤ c ∧ c ≤ 'f' then some (c.toNat - 'a'.toNat + 10)
  else if 'A' ≤ c ∧ c ≤ 'F' then some (c.toNat - 'A'.toNat + 10)
  else none

/-- The character that a letter behind a backslash stands for. -/
def unescape? : Char → Option Char
  | '"' => some '"'
  | '\\' => some '\\'
  | '/' => some '/'
  | 'b' => some '\x08'
  | 'f' => some '\x0c'
  | 'n' => some '\n'
  | 'r' => some '\r'
  | 't' => some '\t'
  | _ => none

/-- What a reader is in the middle of. -/
inductive Mode where
  /-- No string, but it may be a word, of which it has read some letters. -/
  | plain (letters : List Char)
  /-- A string, of which it has read some characters. -/
  | quoted (text : List Char)
  /-- A backslash in a string. -/
  | escaped (text : List Char)
  /-- The code of a character in a string, of which it has read a value and awaits some digits more. -/
  | coded (text : List Char) (value awaits : Nat)
  deriving DecidableEq, Repr

/-- A reader with the tokens it has read, the last one first. -/
abbrev Reader := List Token × Mode

/-- A word that has ended is a token. -/
def settle (tokens : List Token) (letters : List Char) : List Token :=
  if letters.isEmpty then tokens else .word letters :: tokens

/-- Reads one more character. -/
def read (reader : Reader) (c : Char) : Option Reader :=
  match reader with
  | (tokens, .plain letters) =>
    if isBlank c then some (settle tokens letters, .plain [])
    else if isMark c then some (.mark c :: settle tokens letters, .plain [])
    else if c = '"' then if letters.isEmpty then some (tokens, .quoted []) else none
    else some (tokens, .plain (letters ++ [c]))
  | (tokens, .quoted text) =>
    if c = '"' then some (.string text :: tokens, .plain [])
    else if c = '\\' then some (tokens, .escaped text)
    else if c.toNat < 32 then none
    else some (tokens, .quoted (text ++ [c]))
  | (tokens, .escaped text) =>
    if c = 'u' then some (tokens, .coded text 0 4)
    else (unescape? c).map fun shown => (tokens, .quoted (text ++ [shown]))
  | (tokens, .coded text value awaits) => do
    let value := 16 * value + (← hexDigit? c)
    if awaits ≤ 1 then
      if value.isValidChar then some (tokens, .quoted (text ++ [Char.ofNat value])) else none
    else some (tokens, .coded text value (awaits - 1))

/-- The tokens of a text, if it is well-formed as a row of them. -/
def tokens? (text : String) : Option (List Token) :=
  match text.toList.foldlM read ([], .plain []) with
  | some (tokens, .plain letters) => some (settle tokens letters).reverse
  | _ => none

/-- The token of a string. -/
def Token.text (text : String) : Token := .string text.toList

/-- The token of a number. -/
def Token.number (n : Int) : Token := .word (toString n).toList

/-- The tokens of an object with some members. -/
def Token.object (members : List (String × List Token)) : List Token :=
  .mark '\x7b' :: [.mark ','].intercalate (members.map fun member => .text member.1 :: .mark ':' :: member.2) ++
    [.mark '\x7d']

/-- The tokens of an array with some items. -/
def Token.array (items : List (List Token)) : List Token :=
  .mark '[' :: [.mark ','].intercalate items ++ [.mark ']']

/-- A text is read as some tokens, whatever comes before or after it. -/
def Closed (text : List Char) (tokens : List Token) : Prop :=
  ∀ earlier, text.foldlM read (earlier, .plain []) = some (tokens.reverse ++ earlier, .plain [])

/-- A text is read as some tokens, the last of which may be a word that the text does not end. -/
def Spells (text : List Char) (tokens : List Token) : Prop :=
  ∀ earlier, ∃ before letters, text.foldlM read (earlier, .plain []) = some (before, .plain letters) ∧
    settle before letters = tokens.reverse ++ earlier

section Reading

variable {text more : List Char} {tokens others : List Token}

theorem Closed.spells (h : Closed text tokens) : Spells text tokens := fun earlier => ⟨_, _, h earlier, rfl⟩

/-- What follows a text is read behind its tokens. -/
theorem Closed.append (h : Closed text tokens) (hmore : Closed more others) :
    Closed (text ++ more) (tokens ++ others) := by
  intro earlier
  rw [List.foldlM_append, h earlier, List.reverse_append, List.append_assoc]
  exact hmore _

theorem Closed.append_spells (h : Closed text tokens) (hmore : Spells more others) :
    Spells (text ++ more) (tokens ++ others) := by
  intro earlier
  rw [List.foldlM_append, h earlier, List.reverse_append, List.append_assoc]
  exact hmore _

/-- A mark ends a word. -/
theorem Spells.mark (h : Spells text tokens) {c : Char} (hc : isMark c = true) (hblank : isBlank c = false) :
    Closed (text ++ [c]) (tokens ++ [.mark c]) := by
  intro earlier
  obtain ⟨before, letters, hread, hsettled⟩ := h earlier
  rw [List.foldlM_append, hread, List.reverse_append]
  simp [read, hc, hblank, hsettled]

/-- So does a blank. -/
theorem Spells.blank (h : Spells text tokens) {c : Char} (hc : isBlank c = true) : Closed (text ++ [c]) tokens := by
  intro earlier
  obtain ⟨before, letters, hread, hsettled⟩ := h earlier
  rw [List.foldlM_append, hread]
  simp [read, hc, hsettled]

/-- What is read of a whole text are its tokens. -/
theorem Spells.tokens? {s : String} (h : Spells s.toList tokens) : tokens? s = some tokens := by
  obtain ⟨before, letters, hread, hsettled⟩ := h []
  unfold JsonText.tokens?
  rw [hread]
  simp [hsettled]

end Reading

section Strings

/-- A digit is read with its value. -/
theorem hexDigit?_digitChar {d : Nat} (h : d < 16) : hexDigit? d.digitChar = some d := by
  revert d
  decide

/-- The code of a control character has two digits behind two zeros. -/
theorem code_of_control {n : Nat} (h : n < 32) :
    List.replicate (4 - (Nat.toDigits 16 n).length) '0' ++ Nat.toDigits 16 n =
      ['0', '0', (n / 16).digitChar, (n % 16).digitChar] := by
  revert n
  decide

/-- A code of four digits is read as the character whose code it is. -/
theorem foldlM_control (tokens : List Token) (text : List Char) {c : Char} (h : c.toNat < 32) :
    ['0', '0', (c.toNat / 16).digitChar, (c.toNat % 16).digitChar].foldlM read (tokens, .coded text 0 4) =
      some (tokens, .quoted (text ++ [c])) := by
  have hvalue : 16 * (c.toNat / 16) + c.toNat % 16 = c.toNat := Nat.div_add_mod _ _
  have hvalid : c.toNat.isValidChar := .inl (by omega)
  have hzero : hexDigit? '0' = some 0 := rfl
  simp [read, hzero, hexDigit?_digitChar (show c.toNat / 16 < 16 by omega),
    hexDigit?_digitChar (show c.toNat % 16 < 16 by omega), hvalue, hvalid]

/-- However a character is written in a string, it is read as itself. -/
theorem foldlM_encodeChar (tokens : List Token) (text : List Char) (c : Char) :
    (encodeChar c).foldlM read (tokens, .quoted text) = some (tokens, .quoted (text ++ [c])) := by
  unfold encodeChar
  split
  case h_8 hquote hbackslash _ _ _ _ _ =>
    split
    · rename_i hcontrol
      rw [List.append_assoc, List.foldlM_append, code_of_control hcontrol]
      exact foldlM_control tokens text hcontrol
    · rename_i hcontrol
      rw [List.foldlM_cons]
      simp only [read, if_neg hquote, if_neg hbackslash, if_neg hcontrol]
      rfl
  all_goals rfl

/-- All characters of a string are read. -/
theorem foldlM_flatMap_encodeChar (tokens : List Token) (text more : List Char) :
    (more.flatMap encodeChar).foldlM read (tokens, .quoted text) = some (tokens, .quoted (text ++ more)) := by
  induction more generalizing text with
  | nil => rw [List.append_nil]; rfl
  | cons c rest ih =>
    rw [List.flatMap_cons, List.foldlM_append, foldlM_encodeChar]
    exact (ih (text ++ [c])).trans (by rw [List.append_assoc]; rfl)

/-- A string is read as itself. -/
theorem closed_string (s : String) : Closed (string s).toList [.text s] := by
  intro earlier
  have hstart : read (earlier, .plain []) '"' = some (earlier, .quoted []) := rfl
  unfold string
  rw [String.toList_ofList, List.cons_append, List.foldlM_cons, hstart]
  simp only [Option.bind_eq_bind, Option.bind_some]
  rw [List.foldlM_append, foldlM_flatMap_encodeChar]
  rfl

end Strings

section Words

/-- A character that may stand in a word. -/
def isLetter (c : Char) : Bool := !isBlank c && !isMark c && c != '"'

/-- The letters of a word are read one by one. -/
theorem foldlM_letters (tokens : List Token) (letters : List Char) {word : List Char}
    (h : ∀ c ∈ word, isLetter c = true) :
    word.foldlM read (tokens, .plain letters) = some (tokens, .plain (letters ++ word)) := by
  induction word generalizing letters with
  | nil => rw [List.append_nil]; rfl
  | cons c rest ih =>
    obtain ⟨hc, hrest⟩ := List.forall_mem_cons.1 h
    have hread : read (tokens, .plain letters) c = some (tokens, .plain (letters ++ [c])) := by
      simp only [isLetter, Bool.and_eq_true, Bool.not_eq_true', bne_iff_ne, ne_eq] at hc
      simp [read, hc]
    rw [List.foldlM_cons, hread]
    exact (ih (letters ++ [c]) hrest).trans (by rw [List.append_assoc]; rfl)

/-- A word is read as itself. -/
theorem spells_word {word : List Char} (hne : word ≠ []) (h : ∀ c ∈ word, isLetter c = true) :
    Spells word [.word word] := by
  intro earlier
  refine ⟨earlier, word, foldlM_letters earlier [] h, ?_⟩
  rw [settle, if_neg (by simpa using hne)]
  rfl

/-- A digit may stand in a word. -/
theorem isLetter_of_isDigit {c : Char} (h : c.isDigit = true) : isLetter c = true := by
  have hne (other : Char) (hother : other.isDigit = false) : c ≠ other := by
    rintro rfl
    rw [h] at hother
    nomatch hother
  simp (disch := decide) [isLetter, isBlank, isMark, hne]

/-- A numeral is a word. -/
theorem repr_isWord (n : Nat) : n.repr.toList ≠ [] ∧ ∀ c ∈ n.repr.toList, isLetter c = true := by
  rw [Nat.toList_repr]
  exact ⟨Nat.toDigits_ne_nil, fun c hc =>
    isLetter_of_isDigit (Nat.isDigit_of_mem_toDigits (by decide) (by decide) hc)⟩

/-- A number is read as itself. -/
theorem spells_number (n : Int) : Spells (toString n).toList [.number n] := by
  rw [Token.number, Int.toString_eq_repr, Int.repr_eq_if]
  split
  · exact spells_word (repr_isWord _).1 (repr_isWord _).2
  · rw [String.toList_append]
    refine spells_word (List.cons_ne_nil _ _) ?_
    exact List.forall_mem_append.2 ⟨List.all_eq_true.1 rfl, (repr_isWord _).2⟩

/-- A truth value is read as itself. -/
theorem spells_bool (b : Bool) : Spells (bool b).toList [.word (toString b).toList] := by
  cases b <;> exact spells_word (List.cons_ne_nil _ _) (List.all_eq_true.1 rfl)

end Words

section Rows

/-- Texts with commas between them are read one after the other. -/
theorem Spells.intercalate {texts : List String} {rows : List (List Token)}
    (h : List.Forall₂ (fun text row => Spells text.toList row) texts rows) :
    Spells (",".intercalate texts).toList ([Token.mark ','].intercalate rows) := by
  induction h with
  | nil => exact Closed.spells fun _ => rfl
  | @cons text row texts rows hfirst hrest ih =>
    cases hrest with
    | nil =>
      rw [String.intercalate_singleton, List.intercalate_singleton]
      exact hfirst
    | cons hsecond hrest =>
      rw [String.intercalate_cons_cons, List.intercalate_cons_cons, String.toList_append, String.toList_append]
      exact (hfirst.mark rfl rfl).append_spells ih

/-- A member of an object is written for some tokens. -/
def WritesMember (member : String × String) (row : String × List Token) : Prop :=
  member.1 = row.1 ∧ Spells member.2.toList row.2

/-- An object is read as its members. -/
theorem closed_object {members : List (String × String)} {rows : List (String × List Token)}
    (h : List.Forall₂ WritesMember members rows) : Closed (object members).toList (Token.object rows) := by
  have hmembers : List.Forall₂ (fun text row => Spells text.toList row)
      (members.map fun member => string member.1 ++ ":" ++ member.2)
      (rows.map fun row => .text row.1 :: .mark ':' :: row.2) := by
    refine List.forall₂_map_left_iff.2 (List.forall₂_map_right_iff.2 (h.imp ?_))
    rintro ⟨name, text⟩ ⟨_, row⟩ ⟨rfl, hread⟩
    rw [String.toList_append, String.toList_append]
    exact ((closed_string name).spells.mark rfl rfl).append_spells hread
  have hopen : Closed ['\x7b'] [.mark '\x7b'] := fun _ => rfl
  unfold object Token.object
  rw [String.toList_append, String.toList_append]
  exact (hopen.append_spells (Spells.intercalate hmembers)).mark rfl rfl

end Rows

end Chronicle.JsonText
