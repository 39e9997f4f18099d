import Cssom.Parser.Basic
import Cssom.Rule.Grammar
import Cssom.Token.Lexer

/-!
# Reading style sheets and their parts

Each part of a style sheet can be read by itself, from a list of tokens; the parser that is given
with it holds the diagnostics, the syntax tree and what was left unread. A rule, a condition or a
moment of an animation can also be read from a text that must hold just that.
-/

namespace Cssom

namespace Parser

/-- Reads all that is left as a style sheet, which becomes the entity of the whole source. -/
def readStylesheet (ctx : Context) (parser : Parser) : Stylesheet × Parser :=
  let (sheet, after) := (Grammar.stylesheet ctx).run parser
  (sheet, { after with root := if after.tree.isSome then some (.stylesheet sheet) else after.root })

end Parser

/-- Reads a style sheet. -/
def Stylesheet.parse (tokens : List Token) (config : Config) : Stylesheet × Parser :=
  (Parser.ofTokens tokens config).readStylesheet (.ofConfig config)

/-- Reads a condition. What follows it is left unread. -/
def Condition.parse (tokens : List Token) (config : Config) : Option Condition × Parser :=
  (Grammar.condition (.ofConfig config)).run (.ofTokens tokens config)

/-- Reads a media list. -/
def MediaList.parse (tokens : List Token) (config : Config) : MediaList × Parser :=
  (Grammar.wholeMediaList (.ofConfig config)).run (.ofTokens tokens config)

/-- Reads a value and its mark of importance. One that the grammar refuses may be given all the
same. -/
def Value.parse (tokens : List Token) (config : Config) : Option (Value × Bool) × Parser :=
  let (parsed, parser) := (Grammar.value []).run (.ofTokens tokens config)
  let accepted := parsed.valid || config.keepInvalidValues
  (if accepted then parsed.value.map (·, parsed.important) else none, parser)

/-- Reads a selector list. -/
def SelectorList.parse (tokens : List Token) (config : Config) : Option SelectorList × Parser :=
  let (parsed, parser) := Grammar.selectorList.run (.ofTokens tokens config)
  (if parsed.valid then some parsed.list else none, parser)

/-- Reads declarations that no braces enclose. -/
def Block.parse (tokens : List Token) (config : Config) : Block × Parser :=
  (Grammar.declarationList (.ofConfig config)).run (.ofTokens tokens config)

/-- The one thing that a text holds, unless something is left after it. -/
def soleResult {α : Type} (text : String) (outcome : Option α × Parser) : Except Diagnostic α :=
  match outcome with
  | (some result, parser) =>
    if parser.hasTokens then .error (.placeless (.syntaxError text)) else .ok result
  | (none, _) => .error (.placeless (.syntaxError text))

/-- The rule that a text holds. -/
def Rule.ofText (text : String) (config : Config) : Except Diagnostic Rule := do
  let tokens ← Token.scan text none
  soleResult text <| (Grammar.rule (.ofConfig config)).run (.ofTokens tokens config)

/-- The condition that a text holds. -/
def Condition.ofText (text : String) : Except Diagnostic Condition := do
  let tokens ← Token.scan text none
  soleResult text (Condition.parse tokens .strict)

/-- The moment of an animation that a text holds. -/
def Keyframe.ofText (text : String) : Except Diagnostic Keyframe := do
  let tokens ← Token.scan text none
  soleResult text <| (Grammar.keyframe (.ofConfig .strict)).run (.ofTokens tokens .strict)

end Cssom
