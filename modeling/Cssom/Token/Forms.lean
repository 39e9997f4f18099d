import Cssom.Token.Basic
import Cssom.Token.Pattern

/-!
# What tokens look like

Each kind of token has a pattern. `forms` lists the kinds in the order in which they are tried: at
a place in the source the first kind whose pattern matches there has the token, and the pattern's
preferred match is its text. A character at which no pattern matches is a delimiter by itself.
-/

namespace Cssom.Token

open Pattern

/-! ### Characters and names -/

/-- A blank between tokens. -/
def space : Pattern := oneOf " \t\r\n\x0c"

/-- An ASCII letter or the underscore. -/
def isLetter (c : Char) : Bool :=
  c.isAlpha || c == '_'

/-- A character beyond ASCII. All of them may stand in a name. -/
def isBeyondAscii (c : Char) : Bool :=
  0x80 ≤ c.toNat

/-- Whether the character is a hexadecimal digit. -/
def isHexDigit (c : Char) : Bool :=
  (Text.hexValue? c).isSome

/-- A backslash and the character it escapes, which is no line break. -/
def escape : Pattern := seq (char '\\') (noneOf "\n\r\x0c")

/-- What a name starts with. -/
def nameStart : Pattern := alt (one isLetter) (alt (one isBeyondAscii) escape)

/-- What a name goes on with. -/
def nameChar : Pattern :=
  alt (one fun c => isLetter c || c.isDigit || c == '-') (alt (one isBeyondAscii) escape)

/-- An identifier. Two hyphens are one, and start any other. -/
def identifier : Pattern :=
  seq (alt (literal "--") (seq (opt (char '-')) nameStart)) (many nameChar)

/-! ### Numbers -/

/-- A decimal digit. -/
def digit : Pattern := one Char.isDigit

/-- A sign. -/
def sign : Pattern := oneOf "+-"

/-- A number, with its sign, its fraction and its exponent. -/
def numeral : Pattern :=
  seq (opt sign) <|
    seq (alt (seq (many digit) (seq (char '.') (oneOrMore digit))) (oneOrMore digit)) <|
      opt (seq (oneOf "eE") (seq (opt sign) (oneOrMore digit)))

/-- One to six hexadecimal digits. -/
def upToSix (p : Pattern) : Pattern := seq p (upTo 5 p)

/-- A range of code points, whose first end may have unknown digits. -/
def codeRange : Pattern :=
  seq (oneOf "uU") <| seq (char '+') <|
    seq (upToSix (one fun c => isHexDigit c || c == '?')) <|
      opt (seq (char '-') (upToSix (one isHexDigit)))

/-! ### Strings and addresses -/

/-- What stands between quotes: any character but the quote, a backslash or a line break, or a
backslash with whatever character follows it. -/
def quotedChar (q : Char) : Pattern :=
  alt (one fun c => !(c == q || "\\\n\r\x0c".toList.contains c))
    (seq (char '\\') (one fun _ => true))

/-- A string up to its closing quote. -/
def closedString (q : Char) : Pattern :=
  seq (char q) (seq (many (quotedChar q)) (char q))

/-- A string that no quote closes. -/
def openString (q : Char) : Pattern :=
  seq (char q) (many (quotedChar q))

/-- The opening of an address. -/
def urlOpening : Pattern :=
  seq (oneOf "uU") (seq (oneOf "rR") (seq (oneOf "lL") (char '(')))

/-- An address without quotes, between blanks. -/
def plainUrl : Pattern :=
  seq urlOpening <| seq (many space) <| seq (many (noneOf "\"'()\\ \t\r\n\x0c")) <|
    seq (many space) (char ')')

/-- An address that holds what a plain one may not, through its closing parenthesis. -/
def spoiledUrl : Pattern :=
  seq urlOpening <| seq (many (one Text.isBlank)) <|
    seq (one fun c => !("\"')".toList.contains c || Text.isBlank c)) <|
      seq (many (noneOf ")")) (opt (char ')'))

/-- A comment, up to the end of the input if nothing closes it. -/
def commentForm : Pattern :=
  seq (literal "/*") (seq (few (one fun _ => true)) (alt (literal "*/") atEnd))

/-! ### The table -/

/-- The kinds of tokens and their patterns, in the order in which they are tried. -/
def forms : List (Kind × Pattern) :=
  [(.comment, commentForm),
    (.whitespace, oneOrMore space),
    (.cdo, literal "<!--"),
    (.cdc, literal "-->"),
    (.url, plainUrl),
    (.badUrl, spoiledUrl),
    (.unicodeRange, codeRange),
    (.dimension, seq numeral identifier),
    (.percentage, seq numeral (char '%')),
    (.number, numeral),
    (.function, seq identifier (char '(')),
    (.ident, identifier),
    (.atKeyword, seq (char '@') identifier),
    (.hash, seq (char '#') (oneOrMore nameChar)),
    (.string, alt (closedString '"') (closedString '\'')),
    (.badString, alt (openString '"') (openString '\'')),
    (.includeMatch, literal "~="),
    (.dashMatch, literal "|="),
    (.prefixMatch, literal "^="),
    (.suffixMatch, literal "$="),
    (.substringMatch, literal "*="),
    (.column, literal "||"),
    (.colon, literal ":"),
    (.semicolon, literal ";"),
    (.comma, literal ","),
    (.openBracket, literal "["),
    (.closeBracket, literal "]"),
    (.openParen, literal "("),
    (.closeParen, literal ")"),
    (.openCurly, literal "\x7b"),
    (.closeCurly, literal "\x7d")]

/-- Whether the text is an identifier as a whole. -/
def isIdentifier (text : String) : Bool :=
  identifier.covers text.toList

end Cssom.Token
