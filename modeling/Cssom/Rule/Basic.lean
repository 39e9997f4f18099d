import Cssom.Condition.Basic
import Cssom.Media.Basic
import Cssom.Selector.Builder
import Cssom.Token.Basic

/-!
# Rules

A rule applies declarations, groups other rules, or states something about the style sheet. Two
rules are the same when they agree in everything but the places, and the kinds, of the tokens that
a rule of an unknown name was kept in.
-/

namespace Cssom

/-- The functions by which a document is named. -/
inductive DocumentFunction.Kind where
  | url
  | urlPrefix
  | domain
  | regexp
deriving DecidableEq, Inhabited

namespace DocumentFunction.Kind

/-- The name of the function. -/
def name : Kind → String
  | url => "url"
  | urlPrefix => "url-prefix"
  | domain => "domain"
  | regexp => "regexp"

/-- The function of a name, up to the case of ASCII letters. -/
def ofName? (name : String) : Option Kind :=
  [url, urlPrefix, domain, regexp].find? (·.name == Text.lower name)

end DocumentFunction.Kind

/-- A function that names documents, with its argument. -/
structure DocumentFunction where
  kind : DocumentFunction.Kind
  argument : String
deriving DecidableEq, Inhabited

/-- The declarations that hold at some moments of an animation. -/
structure Keyframe where
  keys : List String
  declarations : Block
deriving DecidableEq, Inhabited

/-- A rule whose at-keyword means nothing here, kept token by token: what stood before its block,
and the block through the brace that closes it. A rule that ended in a semicolon has no block. -/
structure UnknownRule where
  name : String
  preamble : List Token
  block : Option (List Token)
deriving DecidableEq, Inhabited

namespace UnknownRule

/-- Whether two unknown rules have the same name and their tokens the same texts. -/
def same (r s : UnknownRule) : Bool :=
  r.name == s.name && r.preamble.map Token.text == s.preamble.map Token.text &&
    r.block.map (·.map Token.text) == s.block.map (·.map Token.text)

end UnknownRule

/-- A rule of a style sheet. -/
inductive Rule where
  /-- Declarations for the elements that a selector picks. -/
  | style (selectors : SelectorList) (declarations : Block)
  /-- Rules that hold on some media. -/
  | media (media : MediaList) (rules : List Rule)
  /-- Rules that hold where something is supported. -/
  | supports (condition : Condition) (rules : List Rule)
  /-- A font, by its descriptors. -/
  | fontFace (declarations : Block)
  /-- The moments of an animation. -/
  | keyframes (name : String) (keyframes : List Keyframe)
  /-- Another style sheet, for some media. -/
  | importRule (href : String) (media : MediaList)
  /-- The encoding of the style sheet. -/
  | charset (encoding : String)
  /-- A namespace, with the name it goes by unless it is the default. -/
  | namespaceRule (label : Option String) (uri : String)
  /-- Declarations for the pages that a selector picks. -/
  | page (selector : Option String) (declarations : Block)
  /-- The viewport, by its descriptors. -/
  | viewport (declarations : Block)
  /-- Rules that hold in some documents. -/
  | document (functions : List DocumentFunction) (rules : List Rule)
  /-- One moment of an animation, by itself. -/
  | keyframe (keyframe : Keyframe)
  /-- A rule that was kept as it stood. -/
  | unknown (rule : UnknownRule)
deriving Inhabited

namespace Rule

/-- The rules inside of a grouping rule. -/
def nested? : Rule → Option (List Rule)
  | media _ rules => some rules
  | supports _ rules => some rules
  | document _ rules => some rules
  | _ => none

/-- A grouping rule with other rules inside. Any other rule stays as it is. -/
def withNested (rules : List Rule) : Rule → Rule
  | media list _ => media list rules
  | supports condition _ => supports condition rules
  | document functions _ => document functions rules
  | rule => rule

/-- The rule without what stands inside of a group, and without the moments of an animation. -/
def emptied : Rule → Rule
  | media list _ => media list []
  | supports condition _ => supports condition []
  | document functions _ => document functions []
  | keyframes name _ => keyframes name []
  | rule => rule

/-- The declarations of a rule whose body consists of declarations. -/
def declarations? : Rule → Option Block
  | style _ declarations => some declarations
  | fontFace declarations => some declarations
  | page _ declarations => some declarations
  | viewport declarations => some declarations
  | keyframe frame => some frame.declarations
  | _ => none

/-- A rule whose body consists of declarations with another block. Any other rule stays. -/
def withDeclarations (block : Block) : Rule → Rule
  | style selectors _ => style selectors block
  | fontFace _ => fontFace block
  | page selector _ => page selector block
  | viewport _ => viewport block
  | keyframe frame => keyframe { frame with declarations := block }
  | rule => rule

/-- The media that a rule holds for, or imports for. -/
def media? : Rule → Option MediaList
  | media list _ => some list
  | importRule _ list => some list
  | _ => none

/-- A rule for some media with other media. Any other rule stays. -/
def withMedia (list : MediaList) : Rule → Rule
  | media _ rules => media list rules
  | importRule href _ => importRule href list
  | rule => rule

/-- The condition under which a rule holds. -/
def condition? : Rule → Option Condition
  | supports condition _ => some condition
  | _ => none

/-- A rule with a condition with another condition. Any other rule stays. -/
def withCondition (condition : Condition) : Rule → Rule
  | supports _ rules => supports condition rules
  | rule => rule

/-- The moments of an animation. -/
def keyframes? : Rule → Option (List Keyframe)
  | keyframes _ frames => some frames
  | _ => none

/-- An animation with other moments. Any other rule stays. -/
def withKeyframes (frames : List Keyframe) : Rule → Rule
  | keyframes name _ => keyframes name frames
  | rule => rule

mutual

/-- Whether two rules are the same. -/
def same : Rule → Rule → Bool
  | style s b, style t c => s == t && b == c
  | media l rs, media m ss => l == m && sameAll rs ss
  | supports c rs, supports d ss => c == d && sameAll rs ss
  | fontFace b, fontFace c => b == c
  | keyframes n fs, keyframes m gs => n == m && fs == gs
  | importRule h l, importRule i m => h == i && l == m
  | charset e, charset f => e == f
  | namespaceRule l u, namespaceRule m v => l == m && u == v
  | page s b, page t c => s == t && b == c
  | viewport b, viewport c => b == c
  | document fs rs, document gs ss => fs == gs && sameAll rs ss
  | keyframe f, keyframe g => f == g
  | unknown u, unknown v => u.same v
  | _, _ => false

/-- Whether two lists hold the same rules. -/
def sameAll : List Rule → List Rule → Bool
  | [], [] => true
  | r :: rs, s :: ss => r.same s && sameAll rs ss
  | _, _ => false

end

end Rule

end Cssom
