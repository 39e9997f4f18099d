import Cssom.Config
import Cssom.Production.Basic
import Cssom.SyntaxTree.Builder

/-!
# Parsers

A parser is the state that productions are run on: the input, the diagnostics so far, and, if it
keeps one, the syntax tree so far. The token under the cursor is in the tree already, as the last
node; a frame that is opened takes it over, and gives back the one under the cursor when it is
closed.
-/

namespace Cssom

/-- A run of productions, between two of their steps. -/
structure Parser where
  input : Input
  tree : Option SyntaxTree.Builder
  /-- The entity of the whole source, once it was read as a style sheet. -/
  root : Option Entity
  diagnostics : Array Diagnostic

namespace Parser

/-- Takes what came with the token under the cursor into the tree. -/
def recordFetched (parser : Parser) : Parser :=
  { parser with tree := parser.tree.map (·.recordAll parser.input.fetched) }

/-- A parser at the first significant token of its input, which keeps a tree if it should. -/
def ofInput (input : Input) (keepTree : Bool) : Parser :=
  recordFetched ⟨input, if keepTree then some .empty else none, none, #[]⟩

/-- A parser at the first significant token of a list. -/
def ofTokens (tokens : List Token) (config : Config) : Parser :=
  ofInput (.ofTokens tokens) config.keepTree

/-- What a production sees. -/
def view (parser : Parser) : View :=
  parser.input.view

/-- Whether there is a significant token under the cursor. -/
def hasTokens (parser : Parser) : Bool :=
  parser.input.hasTokens

/-- The parser at the next significant token. -/
def advance (parser : Parser) : Parser :=
  recordFetched { parser with input := parser.input.advance }

/-- The parser with one more diagnostic. -/
def report (parser : Parser) (diagnostic : Diagnostic) : Parser :=
  { parser with diagnostics := parser.diagnostics.push diagnostic }

/-- The parser with a frame opened at the token under the cursor. -/
def openFrame (parser : Parser) : Parser :=
  { parser with tree := parser.tree.map (·.openFrame parser.hasTokens) }

/-- The parser with its innermost frame closed before the token under the cursor. -/
def closeFrame (parser : Parser) (entity : Option Entity) : Parser :=
  { parser with tree := parser.tree.map (·.closeFrame entity parser.hasTokens) }

/-- How many frames are open inside of that of the whole source. -/
def depth (parser : Parser) : Nat :=
  match parser.tree with
  | some builder => builder.depth
  | none => 0

/-- The tree of the whole source, if one was kept. -/
def syntaxTree (parser : Parser) : Option SyntaxTree :=
  parser.tree.map (·.finish parser.root)

/-- The significant tokens from the cursor on, each with the spacing before it. -/
def rest (parser : Parser) : List (Token × Spacing) :=
  parser.input.ahead.map fun lexeme => (lexeme.token, lexeme.spacing)

/-- The parser so many significant tokens further. -/
def advanceBy : Nat → Parser → Parser
  | 0, parser => parser
  | count + 1, parser => advanceBy count parser.advance

/-- The parser at the end of its input. -/
def toEnd (parser : Parser) : Parser :=
  advanceBy parser.input.size parser

end Parser

namespace Production

/-- Runs a production on a parser: its result, and the parser after it. -/
def run {α : Type} : Production α → Parser → α × Parser
  | done result, parser => (result, parser)
  | look next, parser => (next parser.view).run parser
  | advance next, parser => next.run parser.advance
  | report diagnostic next, parser => next.run (parser.report diagnostic)
  | enclosed body entity next, parser =>
    let (result, inner) := body.run parser.openFrame
    (next result).run (inner.closeFrame (entity result))

@[simp] theorem run_pure {α : Type} (a : α) (parser : Parser) :
    (pure a : Production α).run parser = (a, parser) := rfl

/-- One production after another runs where the first one stopped. -/
@[simp] theorem run_bind {α β : Type} (p : Production α) (f : α → Production β)
    (parser : Parser) : (p >>= f).run parser = (f (p.run parser).1).run (p.run parser).2 := by
  change (p.bind f).run parser = _
  induction p generalizing parser with
  | done result => rfl
  | look next ih => exact ih _ f _
  | advance next ih => exact ih f _
  | report diagnostic next ih => exact ih f _
  | enclosed body entity next _ ih => exact ih _ f _

/-! ### Steps by name -/

@[simp] theorem run_view (parser : Parser) : view.run parser = (parser.view, parser) := rfl

@[simp] theorem run_kind (parser : Parser) : kind.run parser = (parser.view.kind, parser) := rfl

@[simp] theorem run_take (parser : Parser) :
    take.run parser = (parser.view.token, parser.advance) := rfl

@[simp] theorem run_skip (parser : Parser) : skip.run parser = ((), parser.advance) := rfl

@[simp] theorem run_complainAt (cause : Cause) (position : Position) (parser : Parser) :
    (complainAt cause position).run parser = ((), parser.report ⟨cause, position⟩) := rfl

@[simp] theorem run_complain (cause : Cause) (parser : Parser) :
    (complain cause).run parser = ((), parser.report ⟨cause, parser.view.position⟩) := rfl

@[simp] theorem run_complainOf (cause : String → Cause) (parser : Parser) :
    (complainOf cause).run parser =
      ((), parser.report ⟨cause parser.view.token.text, parser.view.position⟩) := rfl

@[simp] theorem run_inFrame {α : Type} (entity : α → Entity) (body : Production (Option α))
    (parser : Parser) : (inFrame entity body).run parser =
      ((body.run parser.openFrame).1,
        (body.run parser.openFrame).2.closeFrame ((body.run parser.openFrame).1.map entity)) := rfl

end Production

end Cssom
