/-!
# Lines of a source

`lines` cuts a text after every line feed, which stays with the line it ends. `lineAt` finds the
line that an offset lies in; an offset at the very end of the text lies just past its last line.
-/

namespace Cssom.Source

/-- A line of a text, its number from one on, and a byte offset inside of it. -/
structure Line where
  number : Nat
  text : String
  column : Nat
deriving DecidableEq

/-- Characters cut after each line feed. No line is empty. -/
def lines : List Char → List (List Char)
  | [] => []
  | c :: rest =>
    if c = '\n' then [c] :: lines rest
    else match lines rest with
      | [] => [[c]]
      | line :: more => (c :: line) :: more

/-- Looks for the line that an offset, counted from the first of the lines given, lies in. Past
the last line the answer is the end of that line, which `last` remembers. -/
def seekLine (number : Nat) (last : String) (offset : Nat) : List String → Line
  | [] => ⟨max (number - 1) 1, last, last.utf8ByteSize⟩
  | line :: more =>
    if offset < line.utf8ByteSize then ⟨number, line, offset⟩
    else seekLine (number + 1) line (offset - line.utf8ByteSize) more

/-- The line that a byte offset lies in, unless the offset lies beyond the end of the text. -/
def lineAt (content : String) (offset : Nat) : Option Line :=
  if content.utf8ByteSize < offset then none
  else some (seekLine 1 "" offset ((lines content.toList).map String.ofList))

/-- Nothing is lost by cutting into lines. -/
theorem flatten_lines (cs : List Char) : (lines cs).flatten = cs := by
  induction cs with
  | nil => rfl
  | cons c rest ih =>
    by_cases h : c = '\n'
    · simp [lines, h, ih]
    · rcases hl : lines rest with _ | ⟨line, more⟩
      · rw [hl] at ih
        simp [lines, h, ← ih]
      · rw [hl] at ih
        simpa [lines, h, hl] using ih

end Cssom.Source
