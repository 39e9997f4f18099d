import Cssom.Source.Position
import Cssom.Text.Characters
import Cssom.Text.Escape

/-!
# Tokens

A token is a piece of source text with its kind and its place. Its text is exactly what it covers,
so the texts of a token list, put together, are the source. The functions here read a token: its
name without sigil or parenthesis, a string without its quotes, the address in `url( … )`.
-/

namespace Cssom

/-- The kinds of tokens. -/
inductive Token.Kind where
  | eof
  | ident
  | function
  | atKeyword
  | hash
  | string
  | badString
  | url
  | badUrl
  | number
  | percentage
  | dimension
  | unicodeRange
  | whitespace
  | comment
  | cdo
  | cdc
  | colon
  | semicolon
  | comma
  | openBracket
  | closeBracket
  | openParen
  | closeParen
  | openCurly
  | closeCurly
  | includeMatch
  | dashMatch
  | prefixMatch
  | suffixMatch
  | substringMatch
  | column
  | delim
deriving DecidableEq, Inhabited

namespace Token.Kind

/-- The name under which token listings show a kind. -/
def name : Kind → String
  | .eof => "EOF"
  | .ident => "Ident"
  | .function => "Function"
  | .atKeyword => "AtKeyword"
  | .hash => "Hash"
  | .string => "String"
  | .badString => "BadString"
  | .url => "Url"
  | .badUrl => "BadUrl"
  | .number => "Number"
  | .percentage => "Percentage"
  | .dimension => "Dimension"
  | .unicodeRange => "UnicodeRange"
  | .whitespace => "Whitespace"
  | .comment => "Comment"
  | .cdo => "CDO"
  | .cdc => "CDC"
  | .colon => "Colon"
  | .semicolon => "Semicolon"
  | .comma => "Comma"
  | .openBracket => "OpenBracket"
  | .closeBracket => "CloseBracket"
  | .openParen => "OpenParen"
  | .closeParen => "CloseParen"
  | .openCurly => "OpenCurly"
  | .closeCurly => "CloseCurly"
  | .includeMatch => "IncludeMatch"
  | .dashMatch => "DashMatch"
  | .prefixMatch => "PrefixMatch"
  | .suffixMatch => "SuffixMatch"
  | .substringMatch => "SubstringMatch"
  | .column => "Column"
  | .delim => "Delim"

/-- Every kind, once. -/
def all : List Kind :=
  [.eof, .ident, .function, .atKeyword, .hash, .string, .badString, .url, .badUrl, .number,
    .percentage, .dimension, .unicodeRange, .whitespace, .comment, .cdo, .cdc, .colon, .semicolon,
    .comma, .openBracket, .closeBracket, .openParen, .closeParen, .openCurly, .closeCurly,
    .includeMatch, .dashMatch, .prefixMatch, .suffixMatch, .substringMatch, .column, .delim]

/-- The kind that goes by a name. -/
def ofName? (name : String) : Option Kind :=
  all.find? (·.name == name)

/-- White space, comments and the two markers of an HTML comment mean nothing in the grammar. -/
def isTrivia : Kind → Bool
  | .whitespace | .comment | .cdo | .cdc => true
  | _ => false

/-- Whether tokens of this kind are what productions read: neither trivia nor the end. -/
def isSignificant (kind : Kind) : Bool :=
  !kind.isTrivia && kind != .eof

/-- The kind that closes what this kind opens. A function opens a parenthesis. -/
def closer? : Kind → Option Kind
  | .function | .openParen => some .closeParen
  | .openBracket => some .closeBracket
  | .openCurly => some .closeCurly
  | _ => none

/-- Whether tokens of this kind close a bracket. -/
def isCloser : Kind → Bool
  | .closeParen | .closeBracket | .closeCurly => true
  | _ => false

/-- The list of all kinds holds every kind. -/
theorem mem_all (kind : Kind) : kind ∈ all := by
  cases kind <;> decide

/-- A kind is found by its name. -/
theorem ofName?_name (kind : Kind) : ofName? kind.name = some kind := by
  cases kind <;> decide

end Token.Kind

/-- A piece of source text with its kind and its place. -/
structure Token where
  kind : Token.Kind
  text : String
  span : Span
deriving DecidableEq, Inhabited

namespace Token

/-- The end of a source, at a place. -/
def endAt (position : Position) : Token :=
  ⟨.eof, "", .empty position⟩

/-- Whether the token is an identifier of this spelling, up to the case of ASCII letters. -/
def isWord (token : Token) (keyword : String) : Bool :=
  token.kind == .ident && Text.sameLetters token.text keyword

/-- Whether the token is a delimiter that starts with this character. -/
def isMark (token : Token) (c : Char) : Bool :=
  token.kind == .delim && token.text.toList.head? == some c

/-- The name in an at-keyword, a hash or a function, without its sigil or parenthesis. Any other
token is its own name. -/
def name (token : Token) : String :=
  match token.kind with
  | .atKeyword | .hash => String.ofList (token.text.toList.drop 1)
  | .function => String.ofList token.text.toList.dropLast
  | _ => token.text

/-- What a string token stands for: its text without the quotes and with its escapes read. An
unfinished string has no quote at its end. -/
def contents (token : Token) : String :=
  let cs := token.text.toList
  String.ofList <| Text.readEscapes <|
    match token.kind with
    | .string => (cs.drop 1).dropLast
    | .badString => cs.drop 1
    | _ => cs

/-- What follows the first opening parenthesis. Of characters without one, all of them. -/
def afterParen (cs : List Char) : List Char :=
  if cs.contains '(' then (cs.dropWhile (· != '(')).drop 1 else cs

/-- The address in `url( … )` without quotes, whose last character closes it. Of any other token,
what it stands for as a string. -/
def address (token : Token) : String :=
  match token.kind with
  | .url =>
    let inner := (afterParen token.text.toList).dropLast
    String.ofList (Text.readEscapes (Text.trimEnd (Text.trimStart inner)))
  | _ => token.contents

/-- The token as a listing for debugging shows it. -/
def describe (token : Token) : String :=
  "Token \x7b\nkind: " ++ token.kind.name ++ ",\nvalue: " ++ token.text ++ "\x7d"

end Token

end Cssom
