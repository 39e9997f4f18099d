import Cssom.Rule.Grammar

/-!
# How productions end

What a production does after its first part can depend on what that part gave, and different
productions can end alike. Here such endings have names, and the productions are put together from
their first parts and these; so what holds of an ending is shown once, by itself.
-/

namespace Cssom.Grammar

open Production

variable {ctx : Context}

/-! ### Blocks -/

/-- Reads a block, of which something is made if it is used. -/
def blockIf {α : Type} (ctx : Context) (used : Bool) (make : Block → α) :
    Production (Option α) := do
  match ← declarationBlock ctx .standard with
  | none => pure none
  | some block => pure (if used then some (make block) else none)

/-- Reads a block for something that was found valid or not. If it was not, that is reported before
the block is read, and the block is not used. -/
def checkedBlock {α : Type} (ctx : Context) (valid : Bool) (cause : Cause) (position : Position)
    (make : Block → α) : Production (Option α) := do
  if !valid then complainAt cause position
  blockIf ctx valid make

/-- A style rule is a selector list and a block. -/
theorem styleRule_eq : styleRule ctx = (do
    let start ← view
    let parsed ← selectorList
    checkedBlock ctx parsed.valid (.invalidSelector parsed.list.render) start.position
      (.style parsed.list)) :=
  rfl

/-- A moment of an animation is its keys and a block. -/
theorem keyframe_eq : keyframe ctx = inFrame Entity.ofKeyframe (do
    let start ← view
    let reading ← keysFrom start.size .start
    checkedBlock ctx reading.isValid (.invalidSelector reading.text) start.position
      (Keyframe.mk reading.keys)) :=
  rfl

/-! ### Namespaces -/

/-- The name that a namespace goes by, read where there is one. -/
def namespaceLabel : Production (Option String) := do
  let view ← view
  if view.kind = .ident then some <$> Token.text <$> take else pure none

/-- Reads the address of a namespace, and the rest of the statement. -/
def namespaceAddress (label : Option String) : Production (Option Rule) := do
  match ← location with
  | none => abandonStatement
  | some uri =>
    passStatement
    pure (some (.namespaceRule label uri))

/-- A namespace is its label and then its address. -/
theorem namespaceStatement_eq : namespaceStatement = namespaceLabel >>= namespaceAddress := by
  unfold namespaceStatement namespaceLabel
  rw [LawfulMonad.bind_assoc]
  congr 1
  funext view
  split <;> rfl

/-! ### Media lists -/

/-- Ends a media list, of which nothing is kept if it could not be read to its end. -/
def mediaListEnd (terminator : Token.Kind) : Option (List Medium) → Production MediaList
  | some media => pure ⟨media⟩
  | none => do
    passMedia terminator
    pure .unreadable

/-- A media list is its media and then what ends it. -/
theorem mediaList_eq (terminator : Token.Kind) : mediaList ctx terminator =
    enclosed
      (do
        let media ← mediaFrom ctx ((← view).size + 1) []
        let view ← view
        mediaListEnd terminator (if view.kind = terminator then media else none))
      (fun list => some (.mediaList list))
      pure :=
  rfl

/-! ### Documents -/

/-- The argument of a function that names documents, if it is a string. -/
def documentString : Production (Option String) := do
  let view ← view
  if view.kind = .string then some <$> Token.contents <$> take else pure none

/-- Reads the closing parenthesis after an argument, or passes over what stands before it. -/
def documentArgumentEnd (kind? : Option DocumentFunction.Kind) (argument : Option String) :
    Production (Option DocumentFunction) := do
  match kind?, argument, ← kind with
  | some kind, some argument, .closeParen =>
    skip
    pure (some ⟨kind, argument⟩)
  | _, _, _ =>
    passArguments 1
    pure none

/-- The argument of a function that names documents is a string and then what ends it. -/
theorem documentArgument_eq (kind? : Option DocumentFunction.Kind) :
    documentArgument kind? = documentString >>= documentArgumentEnd kind? := by
  unfold documentArgument documentString
  rw [LawfulMonad.bind_assoc]
  congr 1
  funext view
  split <;> rfl

end Cssom.Grammar
