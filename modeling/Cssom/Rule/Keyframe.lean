import Cssom.Rule.Body
import Cssom.Text.Characters

/-!
# Reading animations

An animation is a name and its moments. A moment is a list of keys between commas, each a
percentage, `from` or `to`, and a block of declarations. `from` and `to` are kept as the
percentages they stand for.
-/

namespace Cssom

/-- The normal spelling of a key: without blanks around it, and as a percentage if it is a word. -/
def Keyframe.normalKey (key : String) : String :=
  let key := Text.trim key
  if Text.sameLetters key "from" then "0%"
  else if Text.sameLetters key "to" then "100%"
  else key

namespace Grammar

open Production

/-! ### Keys -/

/-- Keys being read: the keys so far, the text they were read from, whether a key must follow, and
whether all was accepted. -/
structure KeyReading where
  keys : List String
  text : String
  expectKey : Bool
  valid : Bool

namespace KeyReading

/-- Keys of which nothing was read. -/
def start : KeyReading := ⟨[], "", true, true⟩

/-- Whether a token is a key. -/
def isKey (token : Token) : Bool :=
  token.kind == .percentage || token.isWord "from" || token.isWord "to"

/-- Takes a token: a key where one must follow, or a comma after a key. -/
def feed (reading : KeyReading) (token : Token) : KeyReading :=
  let reading := { reading with text := reading.text ++ token.text }
  if isKey token && reading.expectKey then
    { reading with keys := reading.keys ++ [Keyframe.normalKey token.text], expectKey := false }
  else if token.kind = .comma ∧ reading.expectKey = false then
    { reading with expectKey := true }
  else { reading with valid := false }

/-- Whether all was accepted, and the last thing was a key. -/
def isValid (reading : KeyReading) : Bool :=
  reading.valid && !reading.expectKey

end KeyReading

/-- Whether a token of this kind ends what stands before a block. -/
def endsPreamble (kind : Token.Kind) : Bool :=
  kind == .openCurly || kind == .closeCurly || kind == .semicolon || kind == .eof

/-- Reads on in the keys, a token in each round. -/
def keysFrom : Nat → KeyReading → Production KeyReading
  | 0, reading => pure reading
  | rounds + 1, reading => do
    let view ← view
    if endsPreamble view.kind then pure reading
    else
      skip
      keysFrom rounds (reading.feed view.token)

/-- Reads a moment of an animation: its keys and its block. -/
def keyframe (ctx : Context) : Production (Option Keyframe) :=
  inFrame Entity.ofKeyframe do
    let start ← view
    let reading ← keysFrom start.size .start
    if !reading.isValid then complainAt (.invalidSelector reading.text) start.position
    match ← declarationBlock ctx .standard with
    | none => pure none
    | some block => pure (if reading.isValid then some ⟨reading.keys, block⟩ else none)

/-- Reads on in the moments of an animation, one in each round. -/
def keyframesFrom (ctx : Context) : Nat → List Keyframe → Production (List Keyframe)
  | 0, frames => pure frames
  | rounds + 1, frames => do
    let view ← view
    match view.kind with
    | .closeCurly | .eof => pure frames
    | _ =>
      let parsed ← keyframe ctx
      passIfStuck view.offset
      keyframesFrom ctx rounds (frames ++ parsed.toList)

/-- Reads the moments of an animation, up to a closing brace or the end of the source. -/
def keyframes (ctx : Context) : Production (List Keyframe) := do
  keyframesFrom ctx (← view).size []

/-! ### Animations -/

/-- Reads the name of an animation: an identifier or a string. -/
def animationName : Production (Option String) := do
  let view ← view
  match view.kind with
  | .ident =>
    skip
    pure (some view.token.text)
  | .string =>
    skip
    pure (some view.token.contents)
  | _ => pure none

/-- Reads an animation after its at-keyword. -/
def keyframesRule (ctx : Context) : Production (Option Rule) := do
  match ← animationName with
  | none =>
    complainOf .identExpected
    passRule
    pure none
  | some name =>
    if ← blockOpening then
      let frames ← keyframes ctx
      blockClosing
      pure (some (.keyframes name frames))
    else pure none

end Grammar

end Cssom
