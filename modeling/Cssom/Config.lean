import Cssom.Vocabulary.Standard

/-!
# How forgiving a parser is
-/

namespace Cssom

/-- What a parser puts up with, and whether it keeps a syntax tree. -/
structure Config where
  /-- Keep every token, trivia included, in a syntax tree. -/
  keepTree : Bool
  /-- Keep rules whose at-keyword is not known, token by token, in place of skipping them. -/
  keepUnknownRules : Bool
  /-- Take every declaration as a placeholder, whether its name is known or not. -/
  placeholders : Bool
  /-- Keep values that the grammar refuses. -/
  keepInvalidValues : Bool
  /-- Keep media features that are not known. -/
  keepUnknownFeatures : Bool
deriving DecidableEq

namespace Config

/-- No forgiveness, no syntax tree. -/
def strict : Config := ⟨false, false, false, false, false⟩

instance : Inhabited Config := ⟨strict⟩

/-- All forgiveness, no syntax tree. -/
def tolerant : Config := ⟨false, true, true, true, true⟩

/-- Whether declarations are taken as placeholders without looking at their names. -/
def takesPlaceholders (config : Config) : Bool :=
  config.placeholders || config.keepInvalidValues

end Config

/-- What a parser reads by: its configuration, and the names that mean something to it. -/
structure Context where
  config : Config
  vocabulary : Vocabulary

/-- A configuration with the vocabulary in common use. -/
def Context.ofConfig (config : Config) : Context :=
  ⟨config, .standard⟩

end Cssom
