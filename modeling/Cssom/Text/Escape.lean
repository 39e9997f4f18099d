import Cssom.Text.Characters

/-!
# Escapes in style sheet text

A backslash takes the meaning from the character after it, or names a character by up to six
hexadecimal digits, with one blank after them that belongs to the escape. `readEscapes` reads such
text, `stringLiteral` writes a text as a double-quoted string.
-/

namespace Cssom.Text

/-- The value of a hexadecimal digit. -/
def hexValue? (c : Char) : Option Nat :=
  if '0' ≤ c ∧ c ≤ '9' then some (c.toNat - '0'.toNat)
  else if 'a' ≤ c ∧ c ≤ 'f' then some (c.toNat - 'a'.toNat + 10)
  else if 'A' ≤ c ∧ c ≤ 'F' then some (c.toNat - 'A'.toNat + 10)
  else none

/-- The character of a code point. A code that names none, a surrogate or one beyond the last
plane, gives the replacement character. -/
def scalar (code : Nat) : Char :=
  if h : code.isValidChar then Char.ofNatAux code h else '\uFFFD'

/-- How far into an escape a reader of text is. -/
inductive EscapeState where
  /-- The next character stands for itself, unless it is a backslash. -/
  | outside
  /-- A backslash was just read. -/
  | opened
  /-- A backslash and this many digits were read, which name this code so far. -/
  | digits (count code : Nat)

/-- Reads text from a state on. At most six digits name a character, and one blank after them is
part of the escape; a backslash before a line feed or at the end stands for nothing. -/
def readEscapesFrom : EscapeState → List Char → List Char
  | .outside, [] => []
  | .outside, c :: rest =>
    if c = '\\' then readEscapesFrom .opened rest else c :: readEscapesFrom .outside rest
  | .opened, [] => []
  | .opened, c :: rest =>
    match hexValue? c with
    | some value => readEscapesFrom (.digits 1 value) rest
    | none =>
      if c = '\n' then readEscapesFrom .outside rest else c :: readEscapesFrom .outside rest
  | .digits _ code, [] => [scalar code]
  | .digits count code, c :: rest =>
    match if count < 6 then hexValue? c else none with
    | some value => readEscapesFrom (.digits (count + 1) (16 * code + value)) rest
    | none =>
      scalar code ::
        (if isBlank c then readEscapesFrom .outside rest
        else if c = '\\' then readEscapesFrom .opened rest
        else c :: readEscapesFrom .outside rest)

/-- The text that an escaped text stands for. -/
def readEscapes (cs : List Char) : List Char :=
  readEscapesFrom .outside cs

/-- The two characters that a quoted text escapes, each by a backslash before it. -/
def escapeQuotes : List Char → List Char
  | [] => []
  | c :: rest =>
    if c = '\\' ∨ c = '"' then '\\' :: c :: escapeQuotes rest else c :: escapeQuotes rest

/-- The text between double quotes, with its backslashes and double quotes escaped. -/
def stringLiteral (s : String) : String :=
  String.ofList ('"' :: escapeQuotes s.toList ++ ['"'])

/-- A quoted text reads back as the text. -/
theorem readEscapes_escapeQuotes (cs : List Char) : readEscapes (escapeQuotes cs) = cs := by
  induction cs with
  | nil => rfl
  | cons c rest ih =>
    unfold readEscapes at ih ⊢
    by_cases h : c = '\\' ∨ c = '"'
    · rcases h with rfl | rfl
      · simpa [escapeQuotes, readEscapesFrom, hexValue?] using ih
      · simpa [escapeQuotes, readEscapesFrom, hexValue?] using ih
    · have hc : c ≠ '\\' := fun e => h (Or.inl e)
      rw [escapeQuotes, if_neg h, readEscapesFrom, if_neg hc, ih]

end Cssom.Text
