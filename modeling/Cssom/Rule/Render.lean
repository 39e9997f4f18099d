import Cssom.Rule.Basic
import Cssom.Token.Forms

/-!
# Rules and style sheets as text

Each rule has one normal spelling, and a style sheet has that of its rules. Strings and addresses
are quoted anew, the name of an animation only where it is no identifier; a rule that was kept token
by token prints the texts it was kept in.
-/

namespace Cssom

/-- The moment of an animation as text. -/
def Keyframe.render (frame : Keyframe) : String :=
  String.intercalate ", " frame.keys ++ " " ++ frame.declarations.renderBraced

/-- The function as text. -/
def DocumentFunction.render (function : DocumentFunction) : String :=
  function.kind.name ++ "(" ++ Text.stringLiteral function.argument ++ ")"

/-- The texts of tokens, put together. -/
def Token.spelling (tokens : List Token) : String :=
  String.join (tokens.map Token.text)

/-- The unknown rule as text. -/
def UnknownRule.render (rule : UnknownRule) : String :=
  "@" ++ rule.name ++
    (if rule.preamble.isEmpty then "" else " " ++ Token.spelling rule.preamble) ++
    match rule.block with
    | some block => " \x7b" ++ Token.spelling block
    | none => ";"

namespace Rule

/-- Texts between braces, a space before each of them and before the closing brace. -/
def braced (texts : List String) : String :=
  "\x7b" ++ String.join (texts.map (" " ++ ·)) ++ " \x7d"

/-- The name of an animation, quoted if it is no identifier. -/
def animationName (name : String) : String :=
  if Token.isIdentifier name then name else Text.stringLiteral name

mutual

/-- The rule as text. -/
def render : Rule → String
  | style selectors declarations => selectors.render ++ " " ++ declarations.renderBraced
  | media list rules =>
    "@media " ++ (if list.isEmpty then "" else list.render ++ " ") ++ braced (renderAll rules)
  | supports condition rules =>
    "@supports " ++ condition.render ++ " " ++ braced (renderAll rules)
  | fontFace declarations => "@font-face " ++ declarations.renderBraced
  | keyframes name frames =>
    "@keyframes " ++ animationName name ++ " " ++ braced (frames.map Keyframe.render)
  | importRule href list =>
    "@import url(" ++ Text.stringLiteral href ++ ")" ++
      (if list.isEmpty then "" else " " ++ list.render) ++ ";"
  | charset encoding => "@charset " ++ Text.stringLiteral encoding ++ ";"
  | namespaceRule label uri =>
    "@namespace " ++
      (match label with
      | some label => label ++ " "
      | none => "") ++
      "url(" ++ Text.stringLiteral uri ++ ");"
  | page selector declarations =>
    "@page " ++
      (match selector with
      | some selector => selector ++ " "
      | none => "") ++
      declarations.renderBraced
  | viewport declarations => "@viewport " ++ declarations.renderBraced
  | document functions rules =>
    "@document " ++ String.intercalate ", " (functions.map DocumentFunction.render) ++ " " ++
      braced (renderAll rules)
  | keyframe frame => frame.render
  | unknown rule => rule.render

/-- The texts of the rules. -/
def renderAll : List Rule → List String
  | [] => []
  | rule :: rest => rule.render :: renderAll rest

end

/-- The texts of rules are the text of each. -/
theorem renderAll_eq_map (rules : List Rule) : renderAll rules = rules.map render := by
  induction rules with
  | nil => rfl
  | cons rule rest ih => rw [renderAll, ih, List.map_cons]

end Rule

/-! ### Style sheets -/

/-- The rules of a style sheet, in order. -/
structure Stylesheet where
  rules : List Rule
deriving Inhabited

namespace Stylesheet

/-- The style sheet as text, a rule to the line. -/
def render (sheet : Stylesheet) : String :=
  String.intercalate "\n" (sheet.rules.map Rule.render)

/-- Whether two style sheets have the same rules. -/
def same (s t : Stylesheet) : Bool :=
  Rule.sameAll s.rules t.rules

end Stylesheet

end Cssom
