import Cssom.Parser.Entry

/-!
# Editing style sheets

A place in a style sheet is a path: the index of a rule, then the index of a rule inside of it, and
so on. The empty path is the style sheet itself. An edit changes the list of rules, or the rule,
that a path leads to, or says why it cannot and changes nothing. Rules are given as texts, each of
which must hold just one rule.
-/

namespace Cssom

/-- Why an edit could not be done. -/
inductive EditFailure where
  /-- The path leads nowhere, or to a rule of which this cannot be asked. -/
  | noTarget
  /-- The index or the text was refused. -/
  | refused (diagnostic : Diagnostic)

/-- What an edit gives: its result, or why it could not be done. -/
abbrev Edit (α : Type) := Except EditFailure α

/-! ### Lists of rules -/

namespace RuleList

/-- An index that a list of rules does not have. -/
def outOfRange (index : Nat) (rules : List Rule) : Diagnostic :=
  .placeless (.indexSize index rules.length)

/-- The list with a rule inserted before an index, which may be just past the end. The index is
looked at before the text is. -/
def insert (index : Nat) (text : String) (rules : List Rule) :
    Except Diagnostic (List Rule) :=
  if rules.length < index then .error (outOfRange index rules)
  else (Rule.ofText text .strict).map fun rule => rules.insertIdx index rule

/-- The rule at an index, and the list without it. -/
def delete (index : Nat) (rules : List Rule) : Except Diagnostic (Rule × List Rule) :=
  match rules[index]? with
  | some rule => .ok (rule, rules.eraseIdx index)
  | none => .error (outOfRange index rules)

/-- The rule at an index, and the list with another rule in its place. -/
def replace (index : Nat) (rule : Rule) (rules : List Rule) :
    Except Diagnostic (Rule × List Rule) :=
  match rules[index]? with
  | some old => .ok (old, rules.set index rule)
  | none => .error (outOfRange index rules)

/-! ### Paths -/

/-- The list of rules that a path leads to. -/
def rulesAt? : List Nat → List Rule → Option (List Rule)
  | [], rules => some rules
  | index :: path, rules => do
    let rule ← rules[index]?
    let nested ← rule.nested?
    rulesAt? path nested

/-- Edits the list of rules that a path leads to. -/
def editRules {α : Type} (edit : List Rule → Edit (α × List Rule)) :
    List Nat → List Rule → Edit (α × List Rule)
  | [], rules => edit rules
  | index :: path, rules =>
    match rules[index]? with
    | none => .error .noTarget
    | some rule =>
      match rule.nested? with
      | none => .error .noTarget
      | some nested => do
        let (result, changed) ← editRules edit path nested
        pure (result, rules.set index (rule.withNested changed))

end RuleList

/-! ### Single rules -/

/-- Something asked of a rule: its result, and the rule after it. -/
abbrev RuleEdit (α : Type) := Rule → Edit (α × Rule)

namespace RuleEdit

/-- Puts the condition that a text holds in place of that of a rule. -/
def setCondition (text : String) : RuleEdit Unit := fun rule =>
  match rule.condition? with
  | none => .error .noTarget
  | some _ =>
    match Condition.ofText text with
    | .ok condition => .ok ((), rule.withCondition condition)
    | .error diagnostic => .error (.refused diagnostic)

/-- Puts the moment that a text holds after those of an animation. -/
def appendKeyframe (text : String) : RuleEdit Unit := fun rule =>
  match rule.keyframes? with
  | none => .error .noTarget
  | some frames =>
    match Keyframe.ofText text with
    | .ok frame => .ok ((), rule.withKeyframes (frames ++ [frame]))
    | .error diagnostic => .error (.refused diagnostic)

/-- Declares a property. -/
def setProperty (property : Property) : RuleEdit Unit := fun rule =>
  match rule.declarations? with
  | none => .error .noTarget
  | some block => .ok ((), rule.withDeclarations (block.set property))

/-- Takes the property of a name out of the declarations of a rule. -/
def removeProperty (name : String) : RuleEdit (Option Property) := fun rule =>
  match rule.declarations? with
  | none => .error .noTarget
  | some block => .ok (block.get? name, rule.withDeclarations (block.erase name))

/-- Puts other media in place of those of a rule. -/
def setMedia (list : MediaList) : RuleEdit Unit := fun rule =>
  match rule.media? with
  | none => .error .noTarget
  | some _ => .ok ((), rule.withMedia list)

end RuleEdit

/-- The last moment of an animation whose only key is this. -/
def Keyframe.findIn? (key : String) (frames : List Keyframe) : Option Keyframe :=
  frames.reverse.find? fun frame => frame.keys == [normalKey key]

/-! ### Style sheets -/

namespace Stylesheet

/-- The list of rules that a path leads to. -/
def rulesAt? (sheet : Stylesheet) (path : List Nat) : Option (List Rule) :=
  RuleList.rulesAt? path sheet.rules

/-- The rule that a path leads to. -/
def ruleAt? (sheet : Stylesheet) (path : List Nat) : Option Rule := do
  let index ← path.getLast?
  let rules ← sheet.rulesAt? path.dropLast
  rules[index]?

/-- Edits the list of rules that a path leads to. -/
def editRules {α : Type} (sheet : Stylesheet) (path : List Nat)
    (edit : List Rule → Edit (α × List Rule)) : Edit (α × Stylesheet) := do
  let (result, rules) ← RuleList.editRules edit path sheet.rules
  pure (result, ⟨rules⟩)

/-- Inserts the rule that a text holds into the list that a path leads to. -/
def insertRule (sheet : Stylesheet) (path : List Nat) (index : Nat) (text : String) :
    Edit Stylesheet :=
  Prod.snd <$> sheet.editRules path fun rules =>
    match RuleList.insert index text rules with
    | .ok rules => .ok ((), rules)
    | .error diagnostic => .error (.refused diagnostic)

/-- Takes a rule out of the list that a path leads to. -/
def deleteRule (sheet : Stylesheet) (path : List Nat) (index : Nat) : Edit (Rule × Stylesheet) :=
  sheet.editRules path fun rules => (RuleList.delete index rules).mapError .refused

/-- Puts the rule that a text holds in place of one in the list that a path leads to. The text is
looked at before the index is. -/
def replaceRule (sheet : Stylesheet) (path : List Nat) (index : Nat) (text : String)
    (config : Config) : Edit (Rule × Stylesheet) :=
  sheet.editRules path fun rules =>
    match Rule.ofText text config with
    | .ok rule => (RuleList.replace index rule rules).mapError .refused
    | .error diagnostic => .error (.refused diagnostic)

/-- Edits the rule that a path leads to. -/
def editRule {α : Type} (sheet : Stylesheet) (path : List Nat) (edit : RuleEdit α) :
    Edit (α × Stylesheet) :=
  match path.getLast? with
  | none => .error .noTarget
  | some index =>
    sheet.editRules path.dropLast fun rules =>
      match rules[index]? with
      | none => .error .noTarget
      | some rule => do
        let (result, changed) ← edit rule
        pure (result, rules.set index changed)

end Stylesheet

end Cssom
