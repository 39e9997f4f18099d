import Cssom.Declaration.Basic
import Cssom.Media.Basic

/-!
# Vocabularies

A vocabulary says which names of properties and media features mean something, and how each of them
is spelled in the model. What a property name means depends on the kind of block it stands in.
-/

namespace Cssom

/-- The kinds of blocks, as to which names may be declared in them. -/
inductive BlockKind where
  | standard
  | fontFace
  | viewport
deriving DecidableEq, Inhabited

/-- The names that mean something: for each its spelling in the model. -/
structure Vocabulary where
  property : BlockKind → String → Option String
  feature : String → Option String

namespace Vocabulary

/-- The property that a name stands for in a kind of block. -/
def property? (vocabulary : Vocabulary) (set : BlockKind) (name : String) : Option Property :=
  (vocabulary.property set name).map .ofName

/-- The media feature that a name stands for. -/
def feature? (vocabulary : Vocabulary) (name : String) : Option Feature :=
  (vocabulary.feature name).map fun spelling => ⟨spelling, none⟩

/-- A vocabulary of exactly the names listed, each spelled as it stands. -/
def ofNames (standard fontFace viewport features : List String) : Vocabulary where
  property set name :=
    let names :=
      match set with
      | .standard => standard
      | .fontFace => fontFace
      | .viewport => viewport
    if names.contains name then some name else none
  feature name := if features.contains name then some name else none

end Vocabulary

end Cssom
