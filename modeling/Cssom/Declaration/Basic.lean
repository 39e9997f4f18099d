import Cssom.Value.Builder
import Cssom.Text.Characters

/-!
# Declarations

A property has a name, and once it is declared a value. A block holds the properties of a rule in
the order in which their names first came; declaring a name again replaces what it held, in place.
-/

namespace Cssom

/-- A property, with its value once it has one. A property is known when the vocabulary has its
name, and a placeholder when nothing is known of it. -/
structure Property where
  name : String
  value : Option Value
  important : Bool
  known : Bool
deriving DecidableEq, Inhabited

namespace Property

/-- A property of the vocabulary, without a value yet. -/
def ofName (name : String) : Property :=
  ⟨name, none, false, true⟩

/-- Whether a name is that of a custom property, whose letters keep their case. -/
def isCustom (name : String) : Bool :=
  ['-', '-'].isPrefixOf name.toList

/-- A placeholder for a property that is not known. Its name is lowered unless it is custom. -/
def placeholder (name : String) : Property :=
  ⟨if isCustom name then name else Text.lower name, none, false, false⟩

/-- The property with a value. -/
def assign (property : Property) (value : Value) (important : Bool) : Property :=
  { property with value := some value, important := important }

/-- The declaration as text, without a semicolon. -/
def render (property : Property) : String :=
  property.name ++ ":" ++
    (match property.value with
    | some value => " " ++ value.text
    | none => "") ++
    (if property.important then " !important" else "")

end Property

/-- The properties of a rule, in the order in which their names first came. -/
structure Block where
  properties : List Property
deriving DecidableEq

namespace Block

/-- The block without properties. -/
def empty : Block := ⟨[]⟩

instance : Inhabited Block := ⟨empty⟩

/-- Properties with one put in place of the first of its name, or at the end. -/
def setIn (property : Property) : List Property → List Property
  | [] => [property]
  | p :: rest => if p.name = property.name then property :: rest else p :: setIn property rest

/-- The block with a property declared. -/
def set (block : Block) (property : Property) : Block :=
  ⟨setIn property block.properties⟩

/-- The property of a name. -/
def get? (block : Block) (name : String) : Option Property :=
  block.properties.find? (·.name == name)

/-- The text of the value of a name. -/
def valueOf? (block : Block) (name : String) : Option String :=
  (block.get? name).bind fun property => property.value.map (·.text)

/-- Whether the property of a name is important. -/
def isImportant (block : Block) (name : String) : Bool :=
  (block.get? name).any (·.important)

/-- The block without the first property of a name. -/
def erase (block : Block) (name : String) : Block :=
  ⟨block.properties.eraseP (·.name == name)⟩

/-- How many properties the block holds. -/
def size (block : Block) : Nat :=
  block.properties.length

/-- Whether the block holds no property. -/
def isEmpty (block : Block) : Bool :=
  block.properties.isEmpty

/-- Declarations, each with its semicolon, between single spaces. -/
def render (block : Block) : String :=
  String.intercalate " " (block.properties.map fun property => property.render ++ ";")

/-- A block between its braces. -/
def renderBraced (block : Block) : String :=
  if block.isEmpty then "\x7b \x7d" else "\x7b " ++ block.render ++ " \x7d"

end Block

end Cssom
