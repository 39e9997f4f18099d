import Cssom.Token.Lexeme
import Cssom.Text.Characters

/-!
# Selector lists

The selectors of a style rule stand between commas, in their normal spelling. A builder takes the
tokens of a selector list one by one and writes them so: the combinators `>`, `+` and `~` between
single spaces, one space where white space separates two parts, and an empty comment where only
comments do, so that the parts neither join nor become ancestor and descendant. Commas and
combinators inside of brackets are ordinary tokens.
-/

namespace Cssom

/-- The selectors of a rule, which stand between commas. -/
structure SelectorList where
  selectors : List String
deriving DecidableEq, Inhabited

namespace SelectorList

/-- The selectors as text. -/
def render (list : SelectorList) : String :=
  String.intercalate ", " list.selectors

/-- A selector list being read: the selectors before the last comma, the text after it, the kinds
that close the brackets open, from the inside out, whether a combinator was read last, and whether
all was accepted. -/
structure Builder where
  finished : List String
  current : String
  closers : List Token.Kind
  afterCombinator : Bool
  valid : Bool
deriving DecidableEq

namespace Builder

/-- A list of which nothing was read. -/
def empty : Builder := ⟨[], "", [], false, true⟩

instance : Inhabited Builder := ⟨empty⟩

/-- Ends the current selector, which may be neither empty nor end in a combinator. -/
def finishSelector (builder : Builder) : Builder :=
  { builder with
    finished := builder.finished ++ [builder.current]
    current := ""
    afterCombinator := false
    valid := builder.valid && !builder.current.isEmpty && !builder.afterCombinator }

/-- The combinator that a token is, outside of brackets. -/
def combinator? (token : Token) : Option Char :=
  ['>', '+', '~'].find? fun c => token.isMark c

/-- The brackets that are open after a token, and whether the token may stand in a selector. -/
def track (closers : List Token.Kind) (kind : Token.Kind) : List Token.Kind × Bool :=
  match kind with
  | .semicolon | .atKeyword | .badString | .badUrl | .openCurly | .closeCurly => (closers, false)
  | .string => (closers, !closers.isEmpty)
  | kind =>
    match kind.closer? with
    | some closer => (closer :: closers, true)
    | none =>
      if kind.isCloser then
        match closers with
        | expected :: outer => if expected = kind then (outer, true) else (closers, false)
        | [] => (closers, false)
      else (closers, true)

/-- Writes a combinator. One that nothing or another combinator precedes is refused. -/
def writeCombinator (builder : Builder) (c : Char) : Builder :=
  { builder with
    current := String.ofList (Text.trimEnd builder.current.toList ++ [' ', c, ' '])
    afterCombinator := true
    valid := builder.valid && !builder.current.isEmpty && !builder.afterCombinator }

/-- What is written for a spacing between two parts. -/
def separator : Spacing → String
  | .none => ""
  | .space => " "
  | .comment => "/**/"

/-- Writes a token after what the spacing before it calls for. -/
def writePart (builder : Builder) (token : Token) (spacing : Spacing) : Builder :=
  let between :=
    if builder.current.isEmpty || builder.afterCombinator then "" else separator spacing
  { builder with current := builder.current ++ between ++ token.text, afterCombinator := false }

/-- Takes a token with the spacing before it. Also whether the token was accepted; of a comma
between selectors, whether all was accepted so far. -/
def feed (builder : Builder) (token : Token) (spacing : Spacing) : Builder × Bool :=
  let nested := !builder.closers.isEmpty
  if token.kind = .comma ∧ nested = false then
    let next := builder.finishSelector
    (next, next.valid)
  else
    let (closers, accepted) := track builder.closers token.kind
    let written :=
      match if nested then none else combinator? token with
      | some c => builder.writeCombinator c
      | none => builder.writePart token spacing
    ({ written with closers := closers, valid := written.valid && accepted }, accepted)

/-- The list that was read. -/
def list (builder : Builder) : SelectorList :=
  ⟨builder.finishSelector.finished⟩

/-- Whether all of the list was accepted, and all its brackets closed. -/
def isValid (builder : Builder) : Bool :=
  builder.finishSelector.valid && builder.closers.isEmpty

end Builder

end SelectorList

end Cssom
