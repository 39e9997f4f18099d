import Cssom.CommandLine.Options
import Cssom.Diagnostic.Report
import Cssom.Parser.Entry

/-!
# The command

The command reads a style sheet from a file and prints it in its normal spelling. Diagnostics go to
the error output; the flags add a listing of the tokens before and one of the syntax tree after.
-/

namespace Cssom.CommandLine

/-- What the command leaves behind. -/
structure Outcome where
  code : UInt8
  stdout : String
  stderr : String

/-- A token as a listing shows it. -/
def tokenLine (token : Token) : String :=
  let text := if token.kind == .whitespace || token.kind == .eof then "" else token.text
  token.kind.name ++ " (" ++ text ++ ")\n"

/-- The heading of a frame in a listing: what it built, and the source it covers. -/
def frameLine (depth : Nat) (entity : Option Entity) (nodes : List SyntaxTree) : String :=
  let label := (entity.map Entity.label).getD "-"
  String.join (List.replicate depth "  ") ++ "[" ++ label ++ "] " ++
    Text.quoted (Token.spelling (SyntaxTree.allTokens nodes)) ++ "\n"

mutual

/-- The lines of a tree at a depth. -/
def treeLines (depth : Nat) : SyntaxTree → String
  | .leaf _ => ""
  | .frame entity nodes => frameLine depth entity nodes ++ forestLines (depth + 1) nodes

/-- The lines of trees at a depth. -/
def forestLines (depth : Nat) : List SyntaxTree → String
  | [] => ""
  | tree :: rest => treeLines depth tree ++ forestLines depth rest

end

/-- The last part of a path, by which positions name the file. -/
def fileName (path : String) : String :=
  let parts := (path.splitOn "/").filter fun part => part != "" && part != "."
  match parts.getLast? with
  | some part => if part == ".." then path else part
  | none => path

/-- The outcome for a style sheet that was cut into tokens. -/
def processTokens (options : Options) (source : String) (tokens : List Token) : Outcome :=
  let (sheet, parser) := Stylesheet.parse tokens options.config
  let listing := if options.has .tokens then String.join (tokens.map tokenLine) else ""
  let tree :=
    match parser.syntaxTree with
    | some tree => if options.has .cst then treeLines 0 tree else ""
    | none => ""
  let reports := parser.diagnostics.toList.map fun diagnostic => diagnostic.report source ++ "\n\n"
  ⟨0, listing ++ sheet.render ++ "\n" ++ tree, String.join reports⟩

/-- The outcome for a style sheet that was read from a file. -/
def process (options : Options) (path source : String) : Outcome :=
  match Token.scan source (some (fileName path)) with
  | .ok tokens => processTokens options source tokens
  | .error diagnostic => ⟨1, "", diagnostic.report source ++ "\n"⟩

/-- The outcome for a file that could not be read. -/
def unreadable (path reason : String) : Outcome :=
  ⟨1, "", "Failed to read " ++ path ++ ": " ++ reason ++ "\n"⟩

/-- Why bytes that are no text cannot be read. -/
def notText : String :=
  "stream did not contain valid UTF-8"

/-- The outcome for the bytes of a file. -/
def processBytes (options : Options) (path : String) (bytes : ByteArray) : Outcome :=
  match String.fromUTF8? bytes with
  | some source => process options path source
  | none => unreadable path notText

/-- How the command is called. -/
def usage : String :=
  "Usage: cssom [OPTIONS] <INPUT>\n\n" ++
  "Arguments:\n" ++
  "  <INPUT>  Stylesheet to parse\n\n" ++
  "Options:\n" ++
  "      --trivia                      Record comments and whitespace into the syntax tree\n" ++
  "      --allow-unknown-rules         Keep unrecognised at-rules verbatim\n" ++
  "      --allow-unknown-declarations  Keep declarations with unrecognised names\n" ++
  "      --tolerant                    Enable every forgiving option\n" ++
  "      --cst                         Print the syntax tree (implies --trivia)\n" ++
  "      --tokens                      Print the token stream before parsing\n" ++
  "  -v, --verbose                     Say more while parsing\n" ++
  "  -h, --help                        Print help\n"

/-- The outcome for arguments that are refused. -/
def misused (error : UsageError) : Outcome :=
  ⟨2, "", error.message ++ "\n\n" ++ usage⟩

/-- What a call with some arguments comes to: an outcome at once, or a file to read first. -/
def plan (args : List String) : Except Outcome (Options × String) :=
  match Options.takeAll args .empty with
  | .error error => .error (misused error)
  | .ok options =>
    if options.has .help then .error ⟨0, usage, ""⟩
    else match options.inputs with
      | path :: _ => .ok (options, path)
      | [] => .error (misused .noInput)

end Cssom.CommandLine
