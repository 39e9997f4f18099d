import Cssom.Config

/-!
# Options of the command line

One style sheet, and flags before or after it. A flag may be given once.
-/

namespace Cssom.CommandLine

/-- The flags of the command line. -/
inductive Flag where
  | trivia
  | keepUnknownRules
  | placeholders
  | tolerant
  | cst
  | tokens
  | verbose
  | help
deriving DecidableEq

namespace Flag

/-- The flag of a spelling. -/
def ofText? : String → Option Flag
  | "--trivia" => some trivia
  | "--allow-unknown-rules" => some keepUnknownRules
  | "--allow-unknown-declarations" => some placeholders
  | "--tolerant" => some tolerant
  | "--cst" => some cst
  | "--tokens" => some tokens
  | "--verbose" | "-v" => some verbose
  | "--help" | "-h" => some help
  | _ => none

end Flag

/-- What the command line asks for. -/
structure Options where
  flags : List Flag
  inputs : List String

/-- Why the arguments are refused. -/
inductive UsageError where
  | unexpectedArgument (argument : String)
  | repeatedFlag (argument : String)
  | noInput

namespace UsageError

/-- What is wrong with the arguments. -/
def message : UsageError → String
  | unexpectedArgument argument => "error: unexpected argument '" ++ argument ++ "' found"
  | repeatedFlag argument =>
    "error: the argument '" ++ argument ++ "' cannot be used multiple times"
  | noInput => "error: the required argument <INPUT> was not provided"

end UsageError

namespace Options

/-- No arguments. -/
def empty : Options := ⟨[], []⟩

/-- Whether a flag was given. -/
def has (options : Options) (flag : Flag) : Bool :=
  options.flags.contains flag

/-- Takes an argument that is no flag. There may be one. -/
def takeInput (options : Options) (argument : String) : Except UsageError Options :=
  if options.inputs.isEmpty then .ok { options with inputs := [argument] }
  else .error (.unexpectedArgument argument)

/-- Takes an argument that looks like a flag. -/
def takeFlag (options : Options) (argument : String) : Except UsageError Options :=
  match Flag.ofText? argument with
  | none => .error (.unexpectedArgument argument)
  | some flag =>
    if options.has flag then .error (.repeatedFlag argument)
    else .ok { options with flags := flag :: options.flags }

/-- Whether an argument looks like a flag. A lone hyphen does not. -/
def isFlag (argument : String) : Bool :=
  match argument.toList with
  | '-' :: _ :: _ => true
  | _ => false

/-- Takes arguments one by one. After two hyphens none of them is a flag. -/
def takeAll : List String → Options → Except UsageError Options
  | [], options => .ok options
  | "--" :: rest, options => rest.foldlM takeInput options
  | argument :: rest, options => do
    let options ←
      if isFlag argument then takeFlag options argument else takeInput options argument
    takeAll rest options

/-- The configuration that the flags ask for. A listing of the syntax tree needs one to be kept. -/
def config (options : Options) : Config :=
  let base := if options.has .tolerant then Config.tolerant else Config.strict
  { base with
    keepTree := options.has .trivia || options.has .cst || base.keepTree
    keepUnknownRules := options.has .keepUnknownRules || base.keepUnknownRules
    placeholders :=
      options.has .placeholders || base.placeholders }

end Options

end Cssom.CommandLine
