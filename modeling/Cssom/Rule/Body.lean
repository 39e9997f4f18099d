import Cssom.Declaration.Grammar
import Cssom.Rule.Basic

/-!
# Reading the body of a rule

A body is a block of declarations or of rules between braces. The rules of a body are read by a
production that is given, so that bodies can be read before it is said how rules are.
-/

namespace Cssom.Grammar

open Production

/-! ### Braces -/

/-- Reads the brace that opens a block, and says whether it was there. Anything else is reported,
and the rest of the rule is passed over. -/
def blockOpening : Production Bool := do
  if (← kind) = .openCurly then
    skip
    pure true
  else
    complainOf .invalidBlockStart
    passRule
    pure false

/-- Reads the brace that closes a block. The end of the source closes a block too. -/
def blockClosing : Production Unit :=
  skipIf .closeCurly

/-! ### Blocks of declarations -/

/-- Reads a block of declarations with its braces, if a brace opens one. -/
def declarationBlock (ctx : Context) (set : BlockKind) : Production (Option Block) := do
  if ← blockOpening then
    let block ← declarations ctx set .empty
    blockClosing
    pure (some block)
  else pure none

/-! ### Blocks of rules -/

/-- Reads on in a list of rules, one in each round, up to a closing brace. -/
def rulesFrom (rule : Production (Option Rule)) : Nat → List Rule → Production (List Rule)
  | 0, rules => pure rules
  | rounds + 1, rules => do
    let view ← view
    match view.kind with
    | .closeCurly | .eof => pure rules
    | _ =>
      let parsed ← rule
      passIfStuck view.offset
      rulesFrom rule rounds (rules ++ parsed.toList)

/-- Reads rules up to a closing brace or the end of the source. -/
def rulesOf (rule : Production (Option Rule)) : Production (List Rule) := do
  rulesFrom rule (← view).size []

/-- Reads a block of rules with its braces, if a brace opens one. -/
def ruleBlock (rule : Production (Option Rule)) : Production (Option (List Rule)) := do
  if ← blockOpening then
    let rules ← rulesOf rule
    blockClosing
    pure (some rules)
  else pure none

end Cssom.Grammar
