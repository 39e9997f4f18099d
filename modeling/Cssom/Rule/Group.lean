import Cssom.Condition.Grammar
import Cssom.Media.Grammar
import Cssom.Rule.Body

/-!
# Reading grouping rules

A grouping rule holds rules that apply on some media, where something is supported, or in some
documents.
-/

namespace Cssom.Grammar

open Production

/-! ### Media -/

/-- Reads the media before a block. There are none where the block starts at once. -/
def mediaPrelude (ctx : Context) : Production MediaList := do
  if (← kind) = .openCurly then pure .empty else mediaList ctx .openCurly

/-- Reads the block of a rule for some media. If nothing of it can be found the rule is empty;
before a semicolon it is dropped. -/
def mediaBlock (rule : Production (Option Rule)) (media : MediaList) :
    Production (Option Rule) := do
  let view ← view
  match view.kind with
  | .openCurly =>
    skip
    let rules ← rulesOf rule
    blockClosing
    pure (some (.media media rules))
  | .semicolon =>
    complain (.invalidBlockStart ";")
    skip
    pure none
  | _ =>
    complainOf .invalidBlockStart
    pure (some (.media media []))

/-- Reads a rule for some media after its at-keyword. -/
def mediaRule (ctx : Context) (rule : Production (Option Rule)) : Production (Option Rule) := do
  mediaBlock rule (← mediaPrelude ctx)

/-! ### Conditions -/

/-- Reads the condition before a block. There is none where the block starts at once. -/
def supportsCondition (ctx : Context) : Production (Option Condition) := do
  if (← kind) = .openCurly then pure (some .empty) else condition ctx

/-- Reads a rule with a condition after its at-keyword. -/
def supportsRule (ctx : Context) (rule : Production (Option Rule)) :
    Production (Option Rule) := do
  match ← supportsCondition ctx with
  | none =>
    complainOf .invalidToken
    passRule
    pure none
  | some condition => return (← ruleBlock rule).map (.supports condition)

/-! ### Documents -/

/-- Reads the arguments of a function that names documents, through the closing parenthesis. -/
def documentArgument (kind? : Option DocumentFunction.Kind) :
    Production (Option DocumentFunction) := do
  let view ← view
  let argument ← if view.kind = .string then some <$> Token.contents <$> take else pure none
  match kind?, argument, ← kind with
  | some kind, some argument, .closeParen =>
    skip
    pure (some ⟨kind, argument⟩)
  | _, _, _ =>
    passArguments 1
    pure none

/-- Reads a function that names documents. -/
def documentFunction : Production (Option DocumentFunction) := do
  let view ← view
  match view.kind with
  | .url =>
    skip
    pure (some ⟨.url, view.token.address⟩)
  | .function =>
    skip
    documentArgument (DocumentFunction.Kind.ofName? view.token.name)
  | _ => pure none

/-- Reads on in the functions that name documents, one in each round, as long as commas follow. -/
def documentFunctionsFrom :
    Nat → List DocumentFunction → Production (Option (List DocumentFunction))
  | 0, functions => pure (some functions)
  | rounds + 1, functions => do
    match ← documentFunction with
    | none => pure none
    | some function =>
      let functions := functions ++ [function]
      if (← kind) = .comma then
        skip
        documentFunctionsFrom rounds functions
      else pure (some functions)

/-- Reads a rule for some documents after its at-keyword. -/
def documentRule (rule : Production (Option Rule)) : Production (Option Rule) := do
  match ← documentFunctionsFrom ((← view).size + 1) [] with
  | none =>
    complainOf .invalidValue
    passRule
    pure none
  | some functions => return (← ruleBlock rule).map (.document functions)

end Cssom.Grammar
