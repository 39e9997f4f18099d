import Cssom.Condition.Basic
import Cssom.Config
import Cssom.Value.Grammar

/-!
# Reading conditions

The parts of a chain stand between words that are all `and` or all `or`; the first word decides,
and one that differs from it ends the chain. Conditions hold conditions in parentheses and after
`not`; each of these takes a token, so the number of tokens ahead bounds how deep they go.
-/

namespace Cssom.Grammar

open Production

/-- The words between the parts of a chain. -/
inductive Connector where
  | and
  | or
deriving DecidableEq

namespace Connector

/-- The connector that a token is. -/
def ofToken? (token : Token) : Option Connector :=
  if token.isWord "and" then some .and
  else if token.isWord "or" then some .or
  else none

/-- The chain of some parts. -/
def join : Connector → List Condition → Condition
  | .and, parts => .conjunction parts
  | .or, parts => .disjunction parts

end Connector

/-- Reads a declaration as a condition. -/
def declarationCondition (ctx : Context) : Production (Option Condition) := do
  let name ← take
  let property :=
    if ctx.config.takesPlaceholders then .placeholder name.text
    else (ctx.vocabulary.property? .standard name.text).getD (.placeholder name.text)
  if (← kind) ≠ .colon then pure none
  else
    skip
    let parsed ← value parenthesizedEnd
    match parsed.value with
    | none => pure none
    | some value =>
      if !parsed.valid && !ctx.config.keepInvalidValues then pure none
      else pure (some (.declaration (property.assign value parsed.important)))

/-- Reads on in a chain, a connector and a part in each round. -/
def chainFrom (operand : Production (Option Condition)) (connector : Connector) :
    Nat → List Condition → Production (Option Condition)
  | 0, parts => pure (some (connector.join parts))
  | rounds + 1, parts => do
    let view ← view
    if Connector.ofToken? view.token = some connector then
      skip
      match ← operand with
      | none => pure none
      | some part => chainFrom operand connector rounds (parts ++ [part])
    else pure (some (connector.join parts))

/-- Reads a chain of parts, or a single one. -/
def chainOf (operand : Production (Option Condition)) : Production (Option Condition) :=
  inFrame .condition do
    match ← operand with
    | none => pure none
    | some first =>
      let view ← view
      match Connector.ofToken? view.token with
      | none => pure (some first)
      | some connector => chainFrom operand connector view.size [first]

/-- Whether `not` is under the cursor and reverses what follows it. Before a colon it is the name of
a property. -/
def startsNegation (view : View) : Bool :=
  view.token.isWord "not" && view.next.kind != .colon

/-- Reads one part of a chain, in which conditions may go so deep. -/
def operandWithin (ctx : Context) : Nat → Production (Option Condition)
  | 0 => pure none
  | depth + 1 =>
    inFrame .condition do
      let view ← view
      match view.kind with
      | .openParen =>
        skip
        match ← chainOf (operandWithin ctx depth) with
        | none => pure none
        | some inner =>
          skipIf .closeParen
          pure (some (.group inner))
      | .ident =>
        if startsNegation view then
          skip
          match ← operandWithin ctx depth with
          | none => pure none
          | some inner => pure (some (.negation inner))
        else declarationCondition ctx
      | _ => pure none

/-- Reads one part of a chain: a condition in parentheses or after `not`, or a declaration. -/
def operand (ctx : Context) : Production (Option Condition) := do
  operandWithin ctx ((← view).size + 1)

/-- Reads a condition. -/
def condition (ctx : Context) : Production (Option Condition) := do
  chainOf (operandWithin ctx ((← view).size + 1))

end Cssom.Grammar
