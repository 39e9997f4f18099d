import Cssom.Rule.Render

/-!
# Entities

What a production built, as the syntax tree remembers it.
-/

namespace Cssom

/-- The result of a production. -/
inductive Entity where
  | stylesheet (sheet : Stylesheet)
  | rule (rule : Rule)
  | declaration (property : Property)
  | condition (condition : Condition)
  | mediaList (list : MediaList)
  | medium (medium : Medium)
  | feature (feature : Feature)
  | selector (list : SelectorList)
  | value (value : Value)
deriving Inhabited

namespace Entity

/-- What kind of thing the entity is. -/
def label : Entity → String
  | stylesheet _ => "stylesheet"
  | rule _ => "rule"
  | declaration _ => "declaration"
  | condition _ => "condition"
  | mediaList _ => "media list"
  | medium _ => "medium"
  | feature _ => "feature"
  | selector _ => "selector"
  | value _ => "value"

/-- The entity as text. -/
def render : Entity → String
  | stylesheet sheet => sheet.render
  | rule r => r.render
  | declaration property => property.render
  | condition c => c.render
  | mediaList list => list.render
  | medium m => m.render
  | feature f => f.render
  | selector list => list.render
  | value v => v.text

/-- The entity of a rule. What stands inside of the rule has entities of its own. -/
def ofRule (r : Rule) : Entity :=
  rule r.emptied

/-- The entity of a moment of an animation. -/
def ofKeyframe (frame : Keyframe) : Entity :=
  rule (.keyframe frame)

end Entity

end Cssom
