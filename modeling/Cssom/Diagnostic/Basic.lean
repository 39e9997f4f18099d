import Cssom.Source.Position
import Cssom.Text.Quoted

/-!
# Diagnostics

A diagnostic is a cause at a place. While a style sheet is read diagnostics only accumulate; an
edit that cannot be done gives one in place of its result. Each cause has a name, a message that
quotes what was found, and mostly a tip.
-/

namespace Cssom

/-- What is wrong. -/
inductive Cause where
  | unrecognisedToken (token : String)
  | invalidBlockStart (token : String)
  | invalidToken (token : String)
  | unknownAtRule (name : String)
  | invalidSelector (selector : String)
  | unknownDeclarationName (name : String)
  | valueMissing (property : String)
  | colonMissing (property : String)
  | identExpected (token : String)
  | invalidValue (value : String)
  | syntaxError (text : String)
  | indexSize (index length : Nat)
deriving DecidableEq

namespace Cause

/-- The name of the kind of cause. -/
def name : Cause → String
  | unrecognisedToken _ => "UnrecognisedToken"
  | invalidBlockStart _ => "InvalidBlockStart"
  | invalidToken _ => "InvalidToken"
  | unknownAtRule _ => "UnknownAtRule"
  | invalidSelector _ => "InvalidSelector"
  | unknownDeclarationName _ => "UnknownDeclarationName"
  | valueMissing _ => "ValueMissing"
  | colonMissing _ => "ColonMissing"
  | identExpected _ => "IdentExpected"
  | invalidValue _ => "InvalidValue"
  | syntaxError _ => "SyntaxError"
  | indexSize _ _ => "IndexSizeError"

/-- What is wrong, in a sentence that quotes the source. -/
def message : Cause → String
  | unrecognisedToken token => "unrecognised token: " ++ Text.quoted token
  | invalidBlockStart token => "invalid block start: " ++ Text.quoted token
  | invalidToken token => "invalid token: " ++ Text.quoted token
  | unknownAtRule name => "unknown at-rule: @" ++ name
  | invalidSelector selector => "invalid selector: " ++ Text.quoted selector
  | unknownDeclarationName name => "unknown declaration name: " ++ Text.quoted name
  | valueMissing property => "value missing for property " ++ Text.quoted property
  | colonMissing property => "colon missing after property " ++ Text.quoted property
  | identExpected token => "identifier expected, found " ++ Text.quoted token
  | invalidValue value => "invalid value: " ++ Text.quoted value
  | syntaxError text => "syntax error: " ++ Text.quoted text
  | indexSize index length =>
    "index " ++ toString index ++ " out of range for " ++ toString length ++ " rules"

/-- What may help to put it right. -/
def tip? : Cause → Option String
  | unrecognisedToken _ => none
  | invalidBlockStart token =>
    some ("Expected `\x7b` to open a block, found `" ++ token ++ "`")
  | invalidToken token =>
    some ("Unexpected token: `" ++ token ++ "`, a rule cannot start here")
  | unknownAtRule name =>
    some ("At-rule `@" ++ name ++ "` is not supported and was skipped")
  | invalidSelector selector =>
    some ("Selector `" ++ selector ++ "` is not valid, the rule was dropped")
  | unknownDeclarationName name => some ("Unknown property `" ++ name ++ "`")
  | valueMissing property => some ("Property `" ++ property ++ "` has no value")
  | colonMissing property =>
    some ("Expected `:` after property name `" ++ property ++ "`")
  | identExpected token =>
    some ("Expected a property name, found `" ++ token ++ "`")
  | invalidValue value => some ("Value `" ++ value ++ "` could not be parsed")
  | syntaxError text => some ("`" ++ text ++ "` is not valid here")
  | indexSize index length =>
    some ("Index " ++ toString index ++ " is out of range for a list of " ++ toString length ++
      " rules")

end Cause

/-- Something wrong at a place in a source. -/
structure Diagnostic where
  cause : Cause
  position : Position
deriving DecidableEq

namespace Diagnostic

/-- A cause that has no place in a source. -/
def placeless (cause : Cause) : Diagnostic :=
  ⟨cause, .null⟩

/-- The message of the cause, and where it applies. -/
def message (diagnostic : Diagnostic) : String :=
  diagnostic.cause.message ++ " at offset " ++ toString diagnostic.position.offset.toNat

end Diagnostic

end Cssom
