import Cssom.Media.Grammar
import Cssom.Rule.Basic

/-!
# Reading statements

A statement is a rule without a body: an import, an encoding or a namespace. It goes on to the next
semicolon, whatever stands before it.
-/

namespace Cssom.Grammar

open Production

/-! ### Addresses -/

/-- Reads the string of `url("…")` and the parenthesis after it. What else may stand there is
passed over. -/
def quotedLocation : Production (Option String) := do
  let argument ← view
  if argument.kind = .string then
    skip
    if (← kind) = .closeParen then
      skip
      pure (some argument.token.contents)
    else
      passArguments 1
      pure none
  else
    passArguments 1
    pure none

/-- Reads an address: a string, or `url( … )` with quotes or without. -/
def location : Production (Option String) := do
  let view ← view
  match view.kind with
  | .string =>
    skip
    pure (some view.token.contents)
  | .url =>
    skip
    pure (some view.token.address)
  | .function =>
    if Text.sameLetters view.token.name "url" then
      skip
      quotedLocation
    else pure none
  | _ => pure none

/-! ### Statements -/

/-- Reports that what is under the cursor is not the value that should stand there, and passes over
the rest of the statement. -/
def abandonStatement : Production (Option Rule) := do
  complainOf .invalidValue
  passStatement
  pure none

/-- Reads the media of an import. There are none where the statement ends at once. -/
def importMedia (ctx : Context) : Production MediaList := do
  match ← kind with
  | .semicolon | .eof => pure .empty
  | _ => mediaList ctx .semicolon

/-- Reads an import after its at-keyword. -/
def importStatement (ctx : Context) : Production (Option Rule) := do
  match ← location with
  | none => abandonStatement
  | some href =>
    let media ← importMedia ctx
    passStatement
    pure (some (.importRule href media))

/-- Reads the statement of an encoding after its at-keyword. -/
def charsetStatement : Production (Option Rule) := do
  let view ← view
  if view.kind = .string then
    skip
    passStatement
    pure (some (.charset view.token.contents))
  else abandonStatement

/-- Reads the statement of a namespace after its at-keyword. -/
def namespaceStatement : Production (Option Rule) := do
  let view ← view
  let label ← if view.kind = .ident then some <$> Token.text <$> take else pure none
  match ← location with
  | none => abandonStatement
  | some uri =>
    passStatement
    pure (some (.namespaceRule label uri))

end Cssom.Grammar
