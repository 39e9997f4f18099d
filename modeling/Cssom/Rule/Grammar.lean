import Cssom.Rule.AtKeyword
import Cssom.Rule.Group
import Cssom.Rule.Keyframe
import Cssom.Rule.Statement
import Cssom.Rule.Unknown
import Cssom.Selector.Grammar
import Cssom.Rule.Render

/-!
# Reading rules

A rule is read from its first token on. One that cannot be read is reported and passed over, so
that whoever asked for it only goes on. Grouping rules hold rules, each of which takes a token; so
the number of tokens ahead bounds how deep they go.
-/

namespace Cssom.Grammar

open Production

/-! ### Rules of declarations -/

/-- Reads a style rule. A selector list that is not valid is reported where it starts, and the rule
is read to its end before it is dropped. -/
def styleRule (ctx : Context) : Production (Option Rule) := do
  let start ← view
  let parsed ← selectorList
  if !parsed.valid then complainAt (.invalidSelector parsed.list.render) start.position
  match ← declarationBlock ctx .standard with
  | none => pure none
  | some block => pure (if parsed.valid then some (.style parsed.list block) else none)

/-- Reads a rule that is nothing but a block of declarations. -/
def blockRule (ctx : Context) (set : BlockKind) (make : Block → Rule) :
    Production (Option Rule) := do
  return (← declarationBlock ctx set).map make

/-- Reads on in the selector of a page, a token in each round. -/
def pageSelectorFrom : Nat → String → Production String
  | 0, selector => pure selector
  | rounds + 1, selector => do
    let view ← view
    if endsPreamble view.kind then pure selector
    else
      skip
      let separator := if view.spacing.isOpen && !selector.isEmpty then " " else ""
      pageSelectorFrom rounds (selector ++ separator ++ view.token.text)

/-- Reads a page rule after its at-keyword. -/
def pageRule (ctx : Context) : Production (Option Rule) := do
  let selector ← pageSelectorFrom (← view).size ""
  blockRule ctx .standard (.page (if selector.isEmpty then none else some selector))

/-! ### Rules -/

/-- Reads the rule of an at-keyword. -/
def atRule (ctx : Context) (rule : Production (Option Rule)) : Production (Option Rule) := do
  let keyword ← take
  match AtKeyword.ofName keyword.name with
  | .media => mediaRule ctx rule
  | .fontFace => blockRule ctx .fontFace .fontFace
  | .keyframes => keyframesRule ctx
  | .importRule => importStatement ctx
  | .charset => charsetStatement
  | .namespaceRule => namespaceStatement
  | .page => pageRule ctx
  | .supports => supportsRule ctx rule
  | .viewport => blockRule ctx .viewport .viewport
  | .document => documentRule rule
  | .unknown => unknownRule ctx keyword.name keyword.span.start

/-- Reports what is under the cursor, and passes over the rest of the rule. -/
def abandonRule (cause : String → Cause) : Production (Option Rule) := do
  complainOf cause
  passRule
  pure none

/-- Reads the rule that a token of some kind starts, given how rules inside of it are read. -/
def ruleStarting (ctx : Context) (rule : Production (Option Rule)) :
    Token.Kind → Production (Option Rule)
  | .eof => pure none
  | .atKeyword => atRule ctx rule
  | .openCurly => abandonRule .invalidBlockStart
  | .string | .badString | .url | .badUrl | .closeCurly | .closeParen | .closeBracket =>
    abandonRule .invalidToken
  | _ => styleRule ctx

/-- Reads a rule in which rules may go so deep. -/
def ruleWithin (ctx : Context) : Nat → Production (Option Rule)
  | 0 => pure none
  | depth + 1 =>
    inFrame Entity.ofRule do
      let view ← view
      ruleStarting ctx (ruleWithin ctx depth) view.kind

/-- Reads a rule. -/
def rule (ctx : Context) : Production (Option Rule) := do
  ruleWithin ctx ((← view).size + 1)

/-- Reads rules up to a closing brace or the end of the source. -/
def rules (ctx : Context) : Production (List Rule) := do
  rulesOf (ruleWithin ctx ((← view).size + 1))

/-- Reads on in a style sheet, a rule in each round. -/
def stylesheetFrom (ctx : Context) : Nat → List Rule → Production Stylesheet
  | 0, rules => pure ⟨rules⟩
  | rounds + 1, rules => do
    let view ← view
    if view.atEnd then pure ⟨rules⟩
    else
      let parsed ← rule ctx
      passIfStuck view.offset
      stylesheetFrom ctx rounds (rules ++ parsed.toList)

/-- Reads all that is left as a style sheet. -/
def stylesheet (ctx : Context) : Production Stylesheet := do
  stylesheetFrom ctx (← view).size []

end Cssom.Grammar
