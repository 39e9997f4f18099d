import Cssom.Token.Basic

/-!
# Cutting tokens by hand

A cursor stands in a source. The caller says how many bytes the next token takes and of what kind
it is; the cursor cuts it and moves on.
-/

namespace Cssom.Token

/-- A place in a source, and the tokens cut before it. -/
structure Cursor where
  file : String
  offset : Nat
  rest : List Char
  tokens : Array Token

namespace Cursor

/-- The cursor at the start of a source. -/
def ofSource (source : String) (file : Option String) : Cursor :=
  ⟨file.getD Position.inlineFile, 0, source.toList, #[]⟩

/-- The characters that make up the first so many bytes, and the characters after them. -/
def splitBytes : Nat → List Char → List Char × List Char
  | _, [] => ([], [])
  | bytes, c :: rest =>
    if bytes < c.utf8Size then ([], c :: rest)
    else
      let (taken, left) := splitBytes (bytes - c.utf8Size) rest
      (c :: taken, left)

/-- Cuts the next so many bytes as one token. -/
def emit (cursor : Cursor) (kind : Kind) (bytes : Nat) : Cursor :=
  let (taken, left) := splitBytes bytes cursor.rest
  let stop := cursor.offset + bytes
  { cursor with
    offset := stop
    rest := left
    tokens := cursor.tokens.push
      ⟨kind, String.ofList taken, .ofBytes cursor.offset cursor.file, .ofBytes stop cursor.file⟩ }

/-- What is left of the source. -/
def remainder (cursor : Cursor) : String :=
  String.ofList cursor.rest

/-- The character under the cursor. Past the end it is U+0000. -/
def current (cursor : Cursor) : Char :=
  cursor.rest.headD '\x00'

/-- Whether nothing is left of the source. -/
def atEnd (cursor : Cursor) : Bool :=
  cursor.rest.isEmpty

end Cursor

end Cssom.Token
