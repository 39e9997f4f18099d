import Cssom.Production.Basic

/-!
# Passing over what cannot be read

After something was reported a production passes over the rest of it, up to a place where reading
can go on. None of these productions reports anything, and all of them stop at the end of the
source. Each loop is bounded by the number of tokens ahead, of which every round takes one.
-/

namespace Cssom.Grammar

open Production

/-! ### The rest of a rule -/

/-- How many braces are open after a token. -/
def bracesAfter (depth : Nat) : Token.Kind → Nat
  | .openCurly => depth + 1
  | .closeCurly => depth - 1
  | _ => depth

/-- Whether a token of this kind may end a rule. -/
def endsRule (kind : Token.Kind) : Bool :=
  kind == .semicolon || kind == .closeCurly

/-- Passes over tokens through the first semicolon or closing brace outside of the braces opened
on the way, of which some are open already. -/
def passRuleFrom : Nat → Nat → Production Unit
  | 0, _ => pure ()
  | rounds + 1, depth => do
    let view ← view
    if view.atEnd then pure ()
    else
      skip
      let depth := bracesAfter depth view.kind
      if depth = 0 && endsRule view.kind then pure () else passRuleFrom rounds depth

/-- Passes over the rest of a rule: through the first semicolon or closing brace that no brace
opened on the way encloses. -/
def passRule : Production Unit := do
  passRuleFrom (← view).size 0

/-! ### The rest of a statement -/

/-- Passes over tokens through the first semicolon. -/
def passStatementFrom : Nat → Production Unit
  | 0 => pure ()
  | rounds + 1 => do
    let view ← view
    if view.atEnd then pure ()
    else
      skip
      if view.kind = .semicolon then pure () else passStatementFrom rounds

/-- Passes over the rest of a rule without a body: through the first semicolon, whatever braces
stand before it. -/
def passStatement : Production Unit := do
  passStatementFrom (← view).size

/-! ### The rest of a declaration -/

/-- Passes over tokens up to the first semicolon or closing brace outside of the braces opened on
the way, of which some are open already. -/
def passDeclarationFrom : Nat → Nat → Production Unit
  | 0, _ => pure ()
  | rounds + 1, depth => do
    let view ← view
    if view.atEnd || (depth = 0 && endsRule view.kind) then pure ()
    else
      skip
      passDeclarationFrom rounds (bracesAfter depth view.kind)

/-- Passes over the rest of a declaration: up to the semicolon after it or the brace that closes
the block it stands in. Blocks inside of it are passed over. -/
def passDeclaration : Production Unit := do
  passDeclarationFrom (← view).size 0

/-! ### The rest of the arguments of a function -/

/-- How many parentheses are open after a token. A function opens one. -/
def parensAfter (depth : Nat) : Token.Kind → Nat
  | .openParen | .function => depth + 1
  | .closeParen => depth - 1
  | _ => depth

/-- Passes over tokens until none of the open parentheses is left open. -/
def passArgumentsFrom : Nat → Nat → Production Unit
  | 0, _ => pure ()
  | rounds + 1, depth => do
    let view ← view
    if view.atEnd || depth = 0 then pure ()
    else
      skip
      passArgumentsFrom rounds (parensAfter depth view.kind)

/-- Passes over the rest of what stands in so many open parentheses, through the closing one of
the outermost. -/
def passArguments (depth : Nat) : Production Unit := do
  passArgumentsFrom (← view).size depth

/-! ### The rest of a media list -/

/-- Whether a token of this kind ends a media list that some kind of token should follow. -/
def endsMedia (terminator kind : Token.Kind) : Bool :=
  kind == terminator || kind == .semicolon || kind == .openCurly || kind == .closeCurly

/-- Passes over tokens up to one that ends the list, outside of the parentheses opened on the way,
of which some are open already. -/
def passMediaFrom (terminator : Token.Kind) : Nat → Nat → Production Unit
  | 0, _ => pure ()
  | rounds + 1, depth => do
    let view ← view
    if view.atEnd || (depth = 0 && endsMedia terminator view.kind) then pure ()
    else
      skip
      passMediaFrom terminator rounds (parensAfter depth view.kind)

/-- Passes over the rest of a media list: up to the token that should follow it, a semicolon or a
brace, outside of parentheses. -/
def passMedia (terminator : Token.Kind) : Production Unit := do
  passMediaFrom terminator (← view).size 0

end Cssom.Grammar
