import Cssom.Diagnostic.Basic
import Cssom.Source.Line
import Cssom.Text.Characters

/-!
# Reports

A report shows a diagnostic with the line of the source it was found in, and a caret under it:

    error: ColonMissing (Expected `:` after property name `color`)
    -> style.css
      |
    1 | a { color red; }
      | ----------^

The line stands without the spaces and tabs at its start and without the blanks at its end. The
dashes count the bytes between the first character shown and the place.
-/

namespace Cssom.Diagnostic

/-- What a line starts with and a report leaves out. -/
def isIndent (c : Char) : Bool :=
  c == ' ' || c == '\t'

/-- The text moved to the right by spaces until it is so many characters wide. -/
def padLeft (width : Nat) (s : String) : String :=
  String.ofList (List.replicate (width - s.length) ' ') ++ s

/-- The line under the heading of a report, with the caret that points into it. -/
def excerpt (line : Source.Line) : String :=
  let number := toString line.number
  let width := number.length + 2
  let shown := line.text.toList.dropWhile isIndent
  let indent := (line.text.toList.takeWhile isIndent).length
  let dashes := String.ofList (List.replicate (line.column - indent) '-')
  padLeft width "|" ++ "\n" ++
    number ++ " | " ++ String.ofList (Text.trimEnd shown) ++ "\n" ++
    padLeft width "|" ++ " " ++ dashes ++ "^\n"

/-- The heading of a report: the name of the cause, its tip, and the file. -/
def heading (diagnostic : Diagnostic) : String :=
  let tip :=
    match diagnostic.cause.tip? with
    | some tip => " (" ++ tip ++ ")"
    | none => ""
  "error: " ++ diagnostic.cause.name ++ tip ++ "\n-> " ++ diagnostic.position.file ++ "\n"

/-- The report of a diagnostic on a source. Where the place lies beyond the end of the source there
is only a heading. -/
def report (diagnostic : Diagnostic) (source : String) : String :=
  diagnostic.heading ++
    match Source.lineAt source diagnostic.position.offset.toNat with
    | some line => excerpt line
    | none => ""

end Cssom.Diagnostic
