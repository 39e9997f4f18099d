import Cssom.Production.Basic
import Cssom.Selector.Builder

/-!
# Reading a selector list

A selector list goes on up to a brace or the end of the source. It is given also if it is not
valid, so that a message can show it.
-/

namespace Cssom.Grammar

open Production

/-- A selector list as it was read, and whether the grammar accepts it. -/
structure ParsedSelectors where
  list : SelectorList
  valid : Bool
deriving DecidableEq

/-- Whether a token of this kind ends a selector list. -/
def endsSelectors (kind : Token.Kind) : Bool :=
  kind == .openCurly || kind == .closeCurly || kind == .eof

/-- Reads on, one token in each round. -/
def selectorsFrom : Nat → SelectorList.Builder → Production SelectorList.Builder
  | 0, builder => pure builder
  | rounds + 1, builder => do
    let view ← view
    if endsSelectors view.kind then pure builder
    else
      skip
      selectorsFrom rounds (builder.feed view.token view.spacing).1

/-- Reads a selector list. -/
def selectorList : Production ParsedSelectors :=
  enclosed
    (do
      let builder ← selectorsFrom (← view).size .empty
      return ⟨builder.list, builder.isValid⟩)
    (fun parsed => some (.selector parsed.list))
    pure

end Cssom.Grammar
