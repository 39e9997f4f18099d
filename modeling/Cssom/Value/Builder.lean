import Cssom.Token.Basic

/-!
# Values

The value of a property in its normal spelling: the texts of its parts, single spaces where the
source had any blanks or comments, and no mark of importance. A builder takes the tokens of a
value one by one, writes their texts with single spaces, and sees to it that brackets are closed in
the order in which they were opened. Unfinished strings and spoiled addresses are refused; their
texts are kept all the same, so that a message can show them.
-/

namespace Cssom

/-- A value in its normal spelling. -/
structure Value where
  text : String
deriving DecidableEq, Inhabited

namespace Value

/-- A value being read: its text so far, the kinds that close the brackets open in it, from the
inside out, and whether all of it was accepted. -/
structure Builder where
  text : String
  closers : List Token.Kind
  valid : Bool
deriving DecidableEq

namespace Builder

/-- A value of which nothing was read. -/
def empty : Builder := ⟨"", [], true⟩

instance : Inhabited Builder := ⟨empty⟩

/-- How many brackets are open. -/
def depth (builder : Builder) : Nat :=
  builder.closers.length

/-- How many parentheses are open. -/
def parens (builder : Builder) : Nat :=
  builder.closers.count .closeParen

/-- The brackets that are open after a token, and whether the token is accepted. -/
def track (closers : List Token.Kind) (kind : Token.Kind) : List Token.Kind × Bool :=
  match kind with
  | .badString | .badUrl => (closers, false)
  | kind =>
    match kind.closer? with
    | some closer => (closer :: closers, true)
    | none =>
      if kind.isCloser then
        match closers with
        | expected :: outer => if expected = kind then (outer, true) else (closers, false)
        | [] => (closers, false)
      else (closers, true)

/-- Takes a token, which a space precedes if the source had any trivia there and anything was read
before. Also whether the token was accepted. -/
def feed (builder : Builder) (token : Token) (spaced : Bool) : Builder × Bool :=
  let (closers, accepted) := track builder.closers token.kind
  let separator := if spaced && !builder.text.isEmpty then " " else ""
  (⟨builder.text ++ separator ++ token.text, closers, builder.valid && accepted⟩, accepted)

/-- Leaves all brackets that are open, after what they hold was skipped. -/
def abandon (builder : Builder) : Builder :=
  { builder with closers := [], valid := false }

/-- The value that was read, if there was anything. -/
def value? (builder : Builder) : Option Value :=
  if builder.text.isEmpty then none else some ⟨builder.text⟩

/-- Whether a value was read, all of it accepted, and all its brackets closed. -/
def isValid (builder : Builder) : Bool :=
  !builder.text.isEmpty && builder.valid && builder.closers.isEmpty

end Builder

end Value

end Cssom
