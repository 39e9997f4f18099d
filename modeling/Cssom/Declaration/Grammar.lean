import Cssom.Config
import Cssom.Value.Grammar

/-!
# Reading declarations

A declaration is a name, a colon and a value, and ends before a semicolon or the brace that closes
its block. One that cannot be read is reported and passed over, with its semicolon.
-/

namespace Cssom.Grammar

open Production

/-- Whether a token of this kind ends the name of a declaration. -/
def endsName (kind : Token.Kind) : Bool :=
  kind == .colon || kind == .openCurly || kind == .semicolon || kind == .closeCurly || kind == .eof

/-- Reads on in a name: any tokens that nothing separates. -/
def nameFrom : Nat → String → Production String
  | 0, name => pure name
  | rounds + 1, name => do
    let view ← view
    if endsName view.kind || (!name.isEmpty && view.spacing.isOpen) then pure name
    else
      skip
      nameFrom rounds (name ++ view.token.text)

/-- Reads the name of a declaration. It need not be an identifier: marks before it belong to it. -/
def declarationName : Production String := do
  nameFrom (← view).size ""

/-- The property of a name. One that is not known is reported at the start of its declaration,
unless declarations are placeholders anyway. -/
def property (ctx : Context) (set : BlockKind) (name : String) (position : Position) :
    Production Property :=
  if ctx.config.takesPlaceholders then pure (.placeholder name)
  else match ctx.vocabulary.property? set name with
    | some property => pure property
    | none => do
      complainAt (.unknownDeclarationName name) position
      pure (.placeholder name)

/-- Passes over the rest of a declaration, and its semicolon. -/
def abandonDeclaration : Production (Option Property) := do
  passDeclaration
  skipIf .semicolon
  pure none

/-- Reads the value after the colon, and the semicolon after it, for a property. -/
def declarationValue (ctx : Context) (name : String) (property : Property) :
    Production (Option Property) := do
  let parsed ← value declarationEnd
  match parsed.value with
  | none =>
    complain (.valueMissing name)
    abandonDeclaration
  | some value =>
    if !parsed.valid && !ctx.config.keepInvalidValues then
      complain (.invalidValue value.text)
      abandonDeclaration
    else
      skipIf .semicolon
      pure (some (property.assign value parsed.important))

/-- Reads a declaration, through its semicolon. -/
def declaration (ctx : Context) (set : BlockKind) : Production (Option Property) :=
  inFrame .declaration do
    let start ← view
    let name ← declarationName
    if name.isEmpty then
      let view ← view
      if !view.atEnd then complainOf .identExpected
      abandonDeclaration
    else
      let property ← property ctx set name start.position
      let view ← view
      if view.kind = .colon then
        skip
        declarationValue ctx name property
      else
        complain (.colonMissing name)
        abandonDeclaration

/-- Reads on in a block, a declaration or a semicolon in each round. -/
def declarationsFrom (ctx : Context) (set : BlockKind) : Nat → Block → Production Block
  | 0, block => pure block
  | rounds + 1, block => do
    let view ← view
    match view.kind with
    | .closeCurly | .eof => pure block
    | .semicolon =>
      skip
      declarationsFrom ctx set rounds block
    | _ =>
      let parsed ← declaration ctx set
      passIfStuck view.offset
      declarationsFrom ctx set rounds ((parsed.map block.set).getD block)

/-- Reads declarations into a block, up to a closing brace or the end of the source. -/
def declarations (ctx : Context) (set : BlockKind) (block : Block) : Production Block := do
  declarationsFrom ctx set (← view).size block

/-- Reads on in a list of declarations that no braces enclose. A closing brace is reported, and
passed over. -/
def declarationListFrom (ctx : Context) : Nat → Block → Production Block
  | 0, block => pure block
  | rounds + 1, block => do
    let start ← view
    if start.atEnd then pure block
    else
      let block ← declarations ctx .standard block
      let view ← view
      if view.kind = .closeCurly then
        complain (.invalidToken "\x7d")
        skip
      declarationListFrom ctx rounds block

/-- Reads all that is left as declarations. -/
def declarationList (ctx : Context) : Production Block := do
  declarationListFrom ctx (← view).size .empty

end Cssom.Grammar
