import Cssom.Value.Builder

/-!
# Media lists

A media list holds the media that a rule applies to. A medium is a type with features, reversed by
`not` or guarded by `only`. What cannot be read becomes the list whose one medium is `not all`,
which no device matches.
-/

namespace Cssom

/-- A feature in parentheses, with the value it is compared with if there is one. -/
structure Feature where
  name : String
  value : Option Value
deriving DecidableEq, Inhabited

/-- The feature as text. -/
def Feature.render (feature : Feature) : String :=
  match feature.value with
  | some value => "(" ++ feature.name ++ ": " ++ value.text ++ ")"
  | none => "(" ++ feature.name ++ ")"

/-- One medium of a list. Of a medium that names features alone the type is `all`. -/
structure Medium where
  typeName : String
  reversed : Bool
  guarded : Bool
  features : List Feature
deriving DecidableEq, Inhabited

namespace Medium

/-- The medium `not all`, which nothing matches. -/
def never : Medium := ⟨"all", true, false, []⟩

/-- Whether the medium reads `not all`. -/
def isNever (medium : Medium) : Bool :=
  medium.reversed && medium.typeName == "all" && medium.features.isEmpty

/-- Whether the type goes without saying: it is `all`, and features follow that nothing guards or
reverses. -/
def isImplicit (medium : Medium) : Bool :=
  medium.typeName == "all" && !medium.features.isEmpty && !medium.reversed && !medium.guarded

/-- The medium as text. -/
def render (medium : Medium) : String :=
  let features := medium.features.map Feature.render
  let modifier :=
    if medium.reversed then "not " else if medium.guarded then "only " else ""
  String.intercalate " and "
    (if medium.isImplicit then features else (modifier ++ medium.typeName) :: features)

end Medium

/-- The media that a rule applies to, or is imported for. -/
structure MediaList where
  media : List Medium
deriving DecidableEq

namespace MediaList

/-- The list without media. -/
def empty : MediaList := ⟨[]⟩

instance : Inhabited MediaList := ⟨empty⟩

/-- What a list that cannot be read becomes. -/
def unreadable : MediaList := ⟨[.never]⟩

/-- Whether the list is what one that cannot be read becomes. -/
def isNever (list : MediaList) : Bool :=
  match list.media with
  | [medium] => medium.isNever
  | _ => false

/-- How many media the list has. -/
def size (list : MediaList) : Nat :=
  list.media.length

/-- Whether the list has no media. -/
def isEmpty (list : MediaList) : Bool :=
  list.media.isEmpty

/-- The list as text. -/
def render (list : MediaList) : String :=
  String.intercalate ", " (list.media.map Medium.render)

end MediaList

end Cssom
