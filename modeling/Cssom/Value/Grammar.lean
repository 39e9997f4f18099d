import Cssom.Production.PassOver
import Cssom.Value.Builder

/-!
# Reading a value

A value goes on up to a token of a kind that ends it, outside of brackets, or to the end of the
source. A mark of importance is taken off; nothing may follow it.
-/

namespace Cssom.Grammar

open Production

/-- A value being read. -/
structure ValueReading where
  builder : Value.Builder
  important : Bool
  valid : Bool

/-- A value as it was read: its text, if there was any, whether it was marked as important, and
whether the grammar accepts it. -/
structure ParsedValue where
  value : Option Value
  important : Bool
  valid : Bool
deriving DecidableEq

namespace ValueReading

/-- A value of which nothing was read. -/
def start : ValueReading := ⟨.empty, false, true⟩

/-- The reading after a mark of importance, which must be the first. -/
def markImportant (reading : ValueReading) : ValueReading :=
  { reading with valid := reading.valid && !reading.important, important := true }

/-- The reading after something that no value may hold. -/
def spoil (reading : ValueReading) : ValueReading :=
  { reading with valid := false }

/-- What was read. -/
def result (reading : ValueReading) : ParsedValue where
  value := reading.builder.value?
  important := reading.important
  valid := reading.valid && reading.builder.isValid

end ValueReading

/-- Takes the token under the cursor into the value. If it is refused inside of parentheses, what
they hold is passed over, and all brackets are left. -/
def takeValueToken (reading : ValueReading) : Production ValueReading := do
  let view ← view
  skip
  let (builder, accepted) := reading.builder.feed view.token view.spacing.isOpen
  let reading :=
    { reading with builder := builder, valid := reading.valid && !reading.important }
  if !accepted && 0 < builder.parens then
    passArguments builder.parens
    pure { reading with builder := builder.abandon }
  else pure reading

/-- Takes the exclamation mark under the cursor, and the word that makes it a mark of importance. -/
def takeImportance (reading : ValueReading) : Production ValueReading := do
  skip
  let view ← view
  if view.token.isWord "important" then
    skip
    pure reading.markImportant
  else pure reading.spoil

/-- Reads on, one token or mark of importance in each round. -/
def valueFrom (terminators : List Token.Kind) :
    Nat → ValueReading → Production ValueReading
  | 0, reading => pure reading
  | rounds + 1, reading => do
    let view ← view
    let outside := reading.builder.depth = 0
    if view.atEnd || (outside && terminators.contains view.kind) then pure reading
    else
      let reading ←
        if outside && view.token.isMark '!' then takeImportance reading
        else takeValueToken reading
      valueFrom terminators rounds reading

/-- Reads a value up to a token of a kind that ends it. -/
def value (terminators : List Token.Kind) : Production ParsedValue :=
  enclosed
    (do return (← valueFrom terminators (← view).size .start).result)
    (fun parsed => parsed.value.map .value)
    pure

/-- Kinds that end the value of a declaration. -/
def declarationEnd : List Token.Kind :=
  [.semicolon, .closeCurly]

/-- Kinds that end a value in parentheses. -/
def parenthesizedEnd : List Token.Kind :=
  [.closeParen, .openCurly, .closeCurly, .semicolon]

end Cssom.Grammar
