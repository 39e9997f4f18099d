import Cssom.Config
import Cssom.Value.Grammar

/-!
# Reading media lists

A media list is read as a whole or not at all: if one medium cannot be read, or something else than
what should follow the list follows it, the rest is passed over and the list becomes `not all`.
-/

namespace Cssom.Grammar

open Production

/-- The feature of a name. One that is not known may be kept nevertheless. -/
def featureOf (ctx : Context) (name : String) : Option Feature :=
  match ctx.vocabulary.feature? name with
  | some feature => some feature
  | none =>
    if ctx.config.keepUnknownFeatures then some ⟨Text.lower name, none⟩ else none

/-- Reads a colon and the value after it into a feature, if a colon is there. -/
def featureValue (feature : Feature) : Production (Option Feature) := do
  if (← kind) = .colon then
    skip
    let parsed ← value parenthesizedEnd
    if !parsed.valid || parsed.important then pure none
    else pure (some { feature with value := parsed.value })
  else pure (some feature)

/-- Reads the closing parenthesis after a feature. -/
def closeFeature (feature : Feature) : Production (Option Feature) := do
  if (← kind) = .closeParen then
    skip
    pure (some feature)
  else pure none

/-- Reads a feature, with its parentheses. -/
def feature (ctx : Context) : Production (Option Feature) :=
  inFrame .feature do
    if (← kind) ≠ .openParen then pure none
    else
      skip
      if (← kind) ≠ .ident then pure none
      else
        let name ← take
        match featureOf ctx name.text with
        | none => pure none
        | some named =>
          match ← featureValue named with
          | none => pure none
          | some whole => closeFeature whole

/-- Reads on in the features of a medium, each after the word `and`. -/
def featuresFrom (ctx : Context) : Nat → Medium → Production (Option Medium)
  | 0, medium => pure (some medium)
  | rounds + 1, medium => do
    let view ← view
    if view.token.isWord "and" then
      skip
      match ← feature ctx with
      | none => pure none
      | some next =>
        featuresFrom ctx rounds { medium with features := medium.features ++ [next] }
    else pure (some medium)

/-- Reads the features of a medium after its type or its first feature. -/
def features (ctx : Context) (medium : Medium) : Production (Option Medium) := do
  featuresFrom ctx (← view).size medium

/-- Reads the type of a medium that `not` reverses or `only` guards. The word `and` is no type. -/
def typedMedium (ctx : Context) (reversed guarded : Bool) : Production (Option Medium) := do
  let view ← view
  if view.kind ≠ .ident || view.token.isWord "and" then pure none
  else
    skip
    features ctx ⟨Text.lower view.token.text, reversed, guarded, []⟩

/-- Reads a medium: a type, perhaps after `not` or `only`, or a feature, and the features after. -/
def medium (ctx : Context) : Production (Option Medium) :=
  inFrame .medium do
    let view ← view
    match view.kind with
    | .ident =>
      if view.token.isWord "not" then
        skip
        typedMedium ctx true false
      else if view.token.isWord "only" then
        skip
        typedMedium ctx false true
      else typedMedium ctx false false
    | .openParen =>
      match ← feature ctx with
      | none => pure none
      | some first => features ctx ⟨"all", false, false, [first]⟩
    | _ => pure none

/-- Reads on in a media list, a medium in each round, as long as commas follow. -/
def mediaFrom (ctx : Context) : Nat → List Medium → Production (Option (List Medium))
  | 0, media => pure (some media)
  | rounds + 1, media => do
    match ← medium ctx with
    | none => pure none
    | some next =>
      let media := media ++ [next]
      if (← kind) = .comma then
        skip
        mediaFrom ctx rounds media
      else pure (some media)

/-- Reads a media list that a kind of token should follow, up to that token. -/
def mediaList (ctx : Context) (terminator : Token.Kind) : Production MediaList :=
  enclosed
    (do
      let media ← mediaFrom ctx ((← view).size + 1) []
      let view ← view
      match if view.kind = terminator then media else none with
      | some media => pure ⟨media⟩
      | none =>
        passMedia terminator
        pure .unreadable)
    (fun list => some (.mediaList list))
    pure

/-- Reads all that is left as a media list. -/
def wholeMediaList (ctx : Context) : Production MediaList := do
  if (← view).atEnd then pure .empty else mediaList ctx .eof

end Cssom.Grammar
