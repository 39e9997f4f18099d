import Cssom.Diagnostic.Basic
import Cssom.Token.Cursor
import Cssom.Token.Forms

/-!
# Cutting text into tokens

`pieces` cuts the characters of a source into the texts of its tokens, with their kinds; `place`
gives each piece its position. `tokenize` does both and adds the token of the end. Nothing is lost
on the way: the texts of the tokens, put together, are the source.

`scan` cuts a source by hand, from its start to its end. At each place the forms are tried in their
order, and the first that makes the cursor move has the token; a place where none does is reported.
There is no such place, and a scan gives the tokens that `tokenize` gives.
-/

namespace Cssom.Token

/-! ### Pieces in their places -/

/-- The kind of the token at the start of a text, and how many characters it takes. -/
def first (s : List Char) : Kind × Nat :=
  (forms.findSome? fun form => (form.2.length? s).map (form.1, ·)).getD (.delim, 1)

/-- The texts of the tokens, with their kinds. The first number counts the characters that a token
already cut still covers. -/
def piecesFrom : Nat → List Char → List (Kind × String)
  | _, [] => []
  | pending + 1, _ :: rest => piecesFrom pending rest
  | 0, c :: rest =>
    let (kind, length) := first (c :: rest)
    (kind, String.ofList ((c :: rest).take length)) :: piecesFrom (length - 1) rest

/-- The texts of the tokens of a source, with their kinds. -/
def pieces (s : List Char) : List (Kind × String) :=
  piecesFrom 0 s

/-- Pieces as tokens that follow each other in a file from a byte on, and the end after them. -/
def place (file : String) : Nat → List (Kind × String) → List Token
  | offset, [] => [endAt (.ofBytes offset file)]
  | offset, (kind, text) :: rest =>
    let stop := offset + text.utf8ByteSize
    ⟨kind, text, .ofBytes offset file, .ofBytes stop file⟩ :: place file stop rest

/-- The tokens of a source, trivia included, and after them the token of its end. -/
def tokenize (source : String) (file : Option String) : List Token :=
  place (file.getD Position.inlineFile) 0 (pieces source.toList)

/-! ### Scanning -/

/-- The spelling of a kind whose tokens have only one. -/
def Kind.spelling? : Kind → Option String
  | .cdo => some "<!--"
  | .cdc => some "-->"
  | .includeMatch => some "~="
  | .dashMatch => some "|="
  | .prefixMatch => some "^="
  | .suffixMatch => some "$="
  | .substringMatch => some "*="
  | .column => some "||"
  | .colon => some ":"
  | .semicolon => some ";"
  | .comma => some ","
  | .openBracket => some "["
  | .closeBracket => some "]"
  | .openParen => some "("
  | .closeParen => some ")"
  | .openCurly => some "\x7b"
  | .closeCurly => some "\x7d"
  | _ => none

/-- How many bytes a token of a kind takes whose pattern matched some characters. -/
def cutSize (kind : Kind) (taken : List Char) : Nat :=
  match kind.spelling? with
  | some spelling => spelling.utf8ByteSize
  | none => (String.ofList taken).utf8ByteSize

/-- The forms, and after them any character as a delimiter. -/
def scanForms : List (Kind × Pattern) :=
  forms ++ [(.delim, .one fun _ => true)]

namespace Cursor

/-- Cuts a token by the first of the forms that makes the cursor move. -/
def cut (cursor : Cursor) : List (Kind × Pattern) → Cursor
  | [] => cursor
  | form :: rest =>
    match form.2.length? cursor.rest with
    | none => cursor.cut rest
    | some length =>
      let next := cursor.emit form.1 (cutSize form.1 (cursor.rest.take length))
      if cursor.offset < next.offset then next else next.cut rest

/-- The tokens that were cut, and the token of the end at the cursor. -/
def finish (cursor : Cursor) : List Token :=
  (cursor.tokens.push (endAt (.ofBytes cursor.offset cursor.file))).toList

end Cursor

/-- Cuts on up to the end of the source, a token in each round. -/
def scanFrom : Nat → Cursor → Except Diagnostic (List Token)
  | 0, cursor => .ok cursor.finish
  | rounds + 1, cursor =>
    if cursor.atEnd then .ok cursor.finish
    else
      let next := cursor.cut scanForms
      if cursor.offset < next.offset then scanFrom rounds next
      else .error ⟨.unrecognisedToken (String.singleton next.current),
        .ofBytes next.offset next.file⟩

/-- The tokens of a source and the token of its end, or the place where no token starts. No token
is empty, so there are not more rounds than characters. -/
def scan (source : String) (file : Option String) : Except Diagnostic (List Token) :=
  scanFrom source.length (.ofSource source file)

end Cssom.Token
