import Cssom.Production.PassOver
import Cssom.Config
import Cssom.Rule.Basic

/-!
# Keeping rules of unknown names

A rule whose at-keyword is not known can be kept token by token. Trivia between its tokens become
one token of white space each.
-/

namespace Cssom.Grammar

open Production

/-- Moves on, and gives the token that was under the cursor, after a single space if there was
anything before it and the space is to be kept. -/
def keepToken (keepSpace : Bool) : Production (List Token) := do
  let view ← view
  skip
  let space : List Token :=
    if keepSpace && view.spacing.isOpen then [⟨.whitespace, " ", view.token.span⟩] else []
  pure (space ++ [view.token])

/-- Whether a token of this kind ends what stands before the block of an unknown rule. -/
def endsUnknownPreamble (kind : Token.Kind) : Bool :=
  kind == .openCurly || kind == .semicolon || kind == .eof

/-- Keeps on before the block, a token in each round. -/
def unknownPreambleFrom : Nat → List Token → Production (List Token)
  | 0, kept => pure kept
  | rounds + 1, kept => do
    let view ← view
    if endsUnknownPreamble view.kind then pure kept
    else
      let tokens ← keepToken !kept.isEmpty
      unknownPreambleFrom rounds (kept ++ tokens)

/-- Keeps on in a block in which so many braces are open, through the one that closes it. -/
def unknownBlockFrom : Nat → Nat → List Token → Production (List Token)
  | 0, _, kept => pure kept
  | rounds + 1, depth, kept => do
    let view ← view
    if view.atEnd then pure kept
    else
      let tokens ← keepToken true
      let depth := bracesAfter depth view.kind
      let kept := kept ++ tokens
      if depth = 0 then pure kept else unknownBlockFrom rounds depth kept

/-- Keeps the block of an unknown rule, or reads the semicolon in its place. -/
def unknownBlock : Production (Option (List Token)) := do
  let view ← view
  match view.kind with
  | .openCurly =>
    skip
    return some (← unknownBlockFrom view.size 1 [])
  | .semicolon =>
    skip
    pure none
  | _ => pure none

/-- Reads a rule of an unknown name after its at-keyword: keeps it, or reports it at its keyword and
passes over it. -/
def unknownRule (ctx : Context) (name : String) (position : Position) :
    Production (Option Rule) := do
  if ctx.config.keepUnknownRules then
    let preamble ← unknownPreambleFrom (← view).size []
    let block ← unknownBlock
    pure (some (.unknown ⟨name, preamble, block⟩))
  else
    complainAt (.unknownAtRule name) position
    passRule
    pure none

end Cssom.Grammar
