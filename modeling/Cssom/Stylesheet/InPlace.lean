import Cssom.Stylesheet.Edit

/-!
# Editing in place

A style sheet that stands somewhere in memory is edited by calls that look into it and write into
it. A call that fails leaves what it had written by then. So an edit in place gives a result or a
failure, and in either case the state after it; a call on a part of a state writes that part back
whatever came of it.

`EditCall.perform` makes one call, `performAll` one after the other, each on what the calls before
it left.
-/

namespace Cssom

/-- A call on a state that it may change. -/
abbrev InPlace (σ α : Type) := EStateM EditFailure σ α

namespace InPlace

variable {σ τ α : Type}

/-- What a reading gives, or the end of the call if it was refused. -/
def accept (reading : Except Diagnostic α) : InPlace σ α :=
  match reading with
  | .ok a => pure a
  | .error diagnostic => throw (.refused diagnostic)

/-- A call on a part of the state, if it has that part. -/
def within (part? : σ → Option τ) (withPart : τ → σ → σ) (call : InPlace τ α) : InPlace σ α :=
  fun state =>
    match part? state with
    | none => .error .noTarget state
    | some part =>
      match call.run part with
      | .ok result part => .ok result (withPart part state)
      | .error failure part => .error failure (withPart part state)

/-! ### Lists of rules -/

/-- Inserts the rule that a text holds before an index, which is given back. -/
def insertRule (text : String) (index : Nat) : InPlace (List Rule) Nat := do
  let rules ← get
  if rules.length < index then
    throw (.refused (RuleList.outOfRange index rules))
  let rule ← accept (Rule.ofText text .strict)
  modify fun rules => rules.insertIdx index rule
  pure index

/-- Takes out the rule at an index, which is given back. -/
def deleteRule (index : Nat) : InPlace (List Rule) Rule := do
  let rules ← get
  match rules[index]? with
  | none => throw (.refused (RuleList.outOfRange index rules))
  | some rule =>
    set (rules.eraseIdx index)
    pure rule

/-- Puts a rule at an index. The one that was there is given back. -/
def replaceRule (index : Nat) (rule : Rule) : InPlace (List Rule) Rule := do
  let rules ← get
  match rules[index]? with
  | none => throw (.refused (RuleList.outOfRange index rules))
  | some old =>
    set (rules.set index rule)
    pure old

/-- A call on the rule at an index. -/
def atRule (index : Nat) (call : InPlace Rule α) : InPlace (List Rule) α :=
  within (fun rules => rules[index]?) (fun rule rules => rules.set index rule) call

/-- A call on the list of rules that a path leads to. -/
def atList (call : InPlace (List Rule) α) : List Nat → InPlace (List Rule) α
  | [] => call
  | index :: path => atRule index (within Rule.nested? Rule.withNested (atList call path))

/-! ### Single rules -/

/-- Puts the condition that a text holds in place of a condition. -/
def setCondition (text : String) : InPlace Condition Unit := do
  let condition ← accept (Condition.ofText text)
  set condition

/-- Puts the moment that a text holds after other moments. -/
def appendKeyframe (text : String) : InPlace (List Keyframe) Unit := do
  let frame ← accept (Keyframe.ofText text)
  modify fun frames => frames ++ [frame]

end InPlace

/-! ### Calls -/

/-- What can be asked of a list of rules and an index into it. The last two are asked of the rule at
that index. -/
inductive EditCall.Operation where
  | insert (text : String)
  | delete
  | replace (rule : Rule)
  | setCondition (text : String)
  | appendKeyframe (text : String)

/-- What a call gives back. -/
inductive EditCall.Answer where
  | index (index : Nat)
  | rule (rule : Rule)
  | done

/-- An operation on the list of rules that a path leads to. -/
structure EditCall where
  path : List Nat
  index : Nat
  operation : EditCall.Operation

namespace EditCall

open InPlace

/-- An operation on the list of rules itself. -/
def Operation.perform (index : Nat) : Operation → InPlace (List Rule) Answer
  | .insert text => Answer.index <$> insertRule text index
  | .delete => Answer.rule <$> deleteRule index
  | .replace rule => Answer.rule <$> replaceRule index rule
  | .setCondition text => (fun _ => Answer.done) <$>
      atRule index (within Rule.condition? Rule.withCondition (InPlace.setCondition text))
  | .appendKeyframe text => (fun _ => Answer.done) <$>
      atRule index (within Rule.keyframes? Rule.withKeyframes (InPlace.appendKeyframe text))

/-- A call on a style sheet. -/
def perform (call : EditCall) : InPlace Stylesheet Answer :=
  within (fun sheet => some sheet.rules) (fun rules _ => ⟨rules⟩)
    (atList (call.operation.perform call.index) call.path)

/-- Calls on a style sheet, one after the other: what each of them gave, and what all left. -/
def performAll : List EditCall → Stylesheet → List (Except EditFailure Answer) × Stylesheet
  | [], sheet => ([], sheet)
  | call :: calls, sheet =>
    match call.perform.run sheet with
    | .ok answer sheet =>
      let (outcomes, last) := performAll calls sheet
      (.ok answer :: outcomes, last)
    | .error failure sheet =>
      let (outcomes, last) := performAll calls sheet
      (.error failure :: outcomes, last)

/-- The same call on a style sheet of which a changed copy is made. -/
def edit (call : EditCall) (sheet : Stylesheet) : Edit (Answer × Stylesheet) :=
  match call.operation with
  | .insert text => (.index call.index, ·) <$> sheet.insertRule call.path call.index text
  | .delete => Prod.map .rule id <$> sheet.deleteRule call.path call.index
  | .replace rule => Prod.map .rule id <$> sheet.editRules call.path fun rules =>
      (RuleList.replace call.index rule rules).mapError .refused
  | .setCondition text => Prod.map (fun _ => .done) id <$>
      sheet.editRule (call.path ++ [call.index]) (.setCondition text)
  | .appendKeyframe text => Prod.map (fun _ => .done) id <$>
      sheet.editRule (call.path ++ [call.index]) (.appendKeyframe text)

end EditCall

end Cssom
