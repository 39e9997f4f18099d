import Cssom.Proofs.Reading.Endings
import Cssom.Proofs.Reading.Outcome

/-!
# Productions that report nothing

What is wrong is reported by rules and declarations. The parts they are made of, names, values,
selectors, keys, media, conditions and addresses, say in their results whether they could be read,
and nothing is reported by what passes over the rest of something. Such productions are *silent*
whatever they read.
-/

namespace Cssom

namespace Production

variable {α β : Type} {p q : Production α}

/-- Whatever is read, nothing is reported. -/
def Silent (p : Production α) : Prop :=
  ∀ input, (p.read input).reports = []

namespace Silent

/-- To give a result is silent. -/
theorem pure (a : α) : (Pure.pure a : Production α).Silent :=
  fun _ => rfl

/-- Silent steps, one after the other, are silent. -/
theorem bind {f : α → Production β} (hp : p.Silent) (hf : ∀ a, (f a).Silent) :
    (p >>= f).Silent := by
  intro input
  rw [reports_read_bind, hp, hf]
  rfl

/-- A choice between what is silent is silent. -/
theorem ite {c : Prop} [Decidable c] (hp : p.Silent) (hq : q.Silent) :
    (if c then p else q).Silent := by
  split
  · exact hp
  · exact hq

/-- To look is silent if what is done then is. -/
theorem view {f : View → Production α} (hf : ∀ v, (f v).Silent) :
    (Production.view >>= f).Silent :=
  fun input => hf input.view input

/-- To look at the kind is silent if what is done then is. -/
theorem kind {f : Token.Kind → Production α} (hf : ∀ k, (f k).Silent) :
    (Production.kind >>= f).Silent :=
  fun input => hf input.view.kind input

/-- To move on is silent. -/
theorem skip : Production.skip.Silent :=
  fun _ => rfl

/-- To take a token is silent. -/
theorem take : Production.take.Silent :=
  fun _ => rfl

/-- To move on over a kind is silent. -/
theorem skipIf (kind : Token.Kind) : (Production.skipIf kind).Silent :=
  .view fun _ => .ite .skip (.pure _)

/-- What is done to a result keeps a production silent. -/
theorem map (f : α → β) (hp : p.Silent) : (f <$> p).Silent :=
  hp.bind fun _ => .pure _

/-- A frame of the syntax tree keeps a production silent. -/
theorem enclosed {body : Production β} (entity : β → Option Entity) (hbody : body.Silent) :
    (Production.enclosed body entity Pure.pure).Silent := by
  intro input
  rw [read_enclosed]
  exact hbody input

/-- A frame of something that may fail keeps a production silent. -/
theorem inFrame {body : Production (Option α)} (entity : α → Entity) (hbody : body.Silent) :
    (Production.inFrame entity body).Silent :=
  hbody.enclosed _

end Silent

end Production

namespace Grammar

open Production

variable {ctx : Context}

/-! ### Passing over -/

/-- The rest of a rule is passed over in silence. -/
theorem silent_passRule : passRule.Silent := by
  have hfrom (rounds depth : Nat) : (passRuleFrom rounds depth).Silent := by
    induction rounds generalizing depth with
    | zero => exact .pure _
    | succ rounds ih =>
      exact .view fun _ => .ite (.pure _) (.bind .skip fun _ => .ite (.pure _) (ih _))
  exact .view fun _ => hfrom _ _

/-- The rest of a statement is passed over in silence. -/
theorem silent_passStatement : passStatement.Silent := by
  have hfrom (rounds : Nat) : (passStatementFrom rounds).Silent := by
    induction rounds with
    | zero => exact .pure _
    | succ rounds ih =>
      exact .view fun _ => .ite (.pure _) (.bind .skip fun _ => .ite (.pure _) ih)
  exact .view fun _ => hfrom _

/-- The rest of a declaration is passed over in silence. -/
theorem silent_passDeclaration : passDeclaration.Silent := by
  have hfrom (rounds depth : Nat) : (passDeclarationFrom rounds depth).Silent := by
    induction rounds generalizing depth with
    | zero => exact .pure _
    | succ rounds ih => exact .view fun _ => .ite (.pure _) (.bind .skip fun _ => ih _)
  exact .view fun _ => hfrom _ _

/-- The arguments of a function are passed over in silence. -/
theorem silent_passArguments (depth : Nat) : (passArguments depth).Silent := by
  have hfrom (rounds depth : Nat) : (passArgumentsFrom rounds depth).Silent := by
    induction rounds generalizing depth with
    | zero => exact .pure _
    | succ rounds ih => exact .view fun _ => .ite (.pure _) (.bind .skip fun _ => ih _)
  exact .view fun _ => hfrom _ _

/-- The rest of a media list is passed over in silence. -/
theorem silent_passMedia (terminator : Token.Kind) : (passMedia terminator).Silent := by
  have hfrom (rounds depth : Nat) : (passMediaFrom terminator rounds depth).Silent := by
    induction rounds generalizing depth with
    | zero => exact .pure _
    | succ rounds ih => exact .view fun _ => .ite (.pure _) (.bind .skip fun _ => ih _)
  exact .view fun _ => hfrom _ _

/-! ### Declarations -/

/-- The name of a declaration is read in silence. -/
theorem silent_declarationName : declarationName.Silent := by
  have hfrom (rounds : Nat) (name : String) : (nameFrom rounds name).Silent := by
    induction rounds generalizing name with
    | zero => exact .pure _
    | succ rounds ih => exact .view fun _ => .ite (.pure _) (.bind .skip fun _ => ih _)
  exact .view fun _ => hfrom _ _

/-- A declaration is passed over in silence. -/
theorem silent_abandonDeclaration : abandonDeclaration.Silent :=
  .bind silent_passDeclaration fun _ => .bind (.skipIf _) fun _ => .pure _

/-- A value is read in silence, even one that is refused. -/
theorem silent_value (terminators : List Token.Kind) : (value terminators).Silent := by
  have htoken (reading : ValueReading) : (takeValueToken reading).Silent :=
    .view fun _ => .bind .skip fun _ =>
      .ite (.bind (silent_passArguments _) fun _ => .pure _) (.pure _)
  have himportance (reading : ValueReading) : (takeImportance reading).Silent :=
    .bind .skip fun _ => .view fun _ => .ite (.bind .skip fun _ => .pure _) (.pure _)
  have hfrom (rounds : Nat) (reading : ValueReading) :
      (valueFrom terminators rounds reading).Silent := by
    induction rounds generalizing reading with
    | zero => exact .pure _
    | succ rounds ih =>
      exact .view fun _ => .ite (.pure _)
        (.ite (.bind (himportance _) fun _ => ih _) (.bind (htoken _) fun _ => ih _))
  exact .enclosed _ (.view fun _ => .bind (hfrom _ _) fun _ => .pure _)

/-! ### Parts of rules -/

/-- A selector list is read in silence, even one that is not valid. -/
theorem silent_selectorList : selectorList.Silent := by
  have hfrom (rounds : Nat) (builder : SelectorList.Builder) :
      (selectorsFrom rounds builder).Silent := by
    induction rounds generalizing builder with
    | zero => exact .pure _
    | succ rounds ih => exact .view fun _ => .ite (.pure _) (.bind .skip fun _ => ih _)
  exact .enclosed _ (.view fun _ => .bind (hfrom _ _) fun _ => .pure _)

/-- The keys of a moment are read in silence. -/
theorem silent_keysFrom (rounds : Nat) (reading : KeyReading) :
    (keysFrom rounds reading).Silent := by
  induction rounds generalizing reading with
  | zero => exact .pure _
  | succ rounds ih => exact .view fun _ => .ite (.pure _) (.bind .skip fun _ => ih _)

/-- The selector of a page is read in silence. -/
theorem silent_pageSelectorFrom (rounds : Nat) (selector : String) :
    (pageSelectorFrom rounds selector).Silent := by
  induction rounds generalizing selector with
  | zero => exact .pure _
  | succ rounds ih => exact .view fun _ => .ite (.pure _) (.bind .skip fun _ => ih _)

/-- The name of an animation is read in silence. -/
theorem silent_animationName : animationName.Silent := by
  refine .view fun v => ?_
  split
  · exact .bind .skip fun _ => .pure _
  · exact .bind .skip fun _ => .pure _
  · exact .pure _

/-- An address is read in silence. -/
theorem silent_location : location.Silent := by
  have hquoted : quotedLocation.Silent :=
    .view fun _ => .ite
      (.bind .skip fun _ => .kind fun _ =>
        .ite (.bind .skip fun _ => .pure _) (.bind (silent_passArguments 1) fun _ => .pure _))
      (.bind (silent_passArguments 1) fun _ => .pure _)
  refine .view fun v => ?_
  split
  · exact .bind .skip fun _ => .pure _
  · exact .bind .skip fun _ => .pure _
  · exact .ite (.bind .skip fun _ => hquoted) (.pure _)
  · exact .pure _

/-- The label of a namespace is read in silence. -/
theorem silent_namespaceLabel : namespaceLabel.Silent :=
  .view fun _ => .ite (.map _ (.map _ .take)) (.pure _)

/-! ### Media -/

/-- A feature is read in silence. -/
theorem silent_feature : (feature ctx).Silent := by
  have hvalue (feature : Feature) : (featureValue feature).Silent :=
    .kind fun _ => .ite
      (.bind .skip fun _ => .bind (silent_value _) fun _ => .ite (.pure _) (.pure _)) (.pure _)
  refine .inFrame _ (.kind fun _ => .ite (.pure _) ?_)
  refine .bind .skip fun _ => .kind fun _ => .ite (.pure _) (.bind .take fun name => ?_)
  split
  · exact .pure _
  · refine .bind (hvalue _) fun whole => ?_
    split
    · exact .pure _
    · exact .kind fun _ => .ite (.bind .skip fun _ => .pure _) (.pure _)

/-- The features of a medium are read in silence. -/
theorem silent_features (medium : Medium) : (features ctx medium).Silent := by
  have hfrom (rounds : Nat) (medium : Medium) : (featuresFrom ctx rounds medium).Silent := by
    induction rounds generalizing medium with
    | zero => exact .pure _
    | succ rounds ih =>
      refine .view fun v =>
        .ite (.bind .skip fun _ => .bind silent_feature fun next => ?_) (.pure _)
      split
      · exact .pure _
      · exact ih _
  exact .view fun _ => hfrom _ _

/-- A medium is read in silence. -/
theorem silent_medium : (medium ctx).Silent := by
  have htyped (reversed guarded : Bool) : (typedMedium ctx reversed guarded).Silent :=
    .view fun _ => .ite (.pure _) (.bind .skip fun _ => silent_features _)
  refine .inFrame _ (.view fun v => ?_)
  split
  · exact .ite (.bind .skip fun _ => htyped _ _)
      (.ite (.bind .skip fun _ => htyped _ _) (htyped _ _))
  · refine .bind silent_feature fun first => ?_
    split
    · exact .pure _
    · exact silent_features _
  · exact .pure _

/-- A media list is read in silence, even one that becomes `not all`. -/
theorem silent_mediaList (terminator : Token.Kind) : (mediaList ctx terminator).Silent := by
  have hfrom (rounds : Nat) (media : List Medium) : (mediaFrom ctx rounds media).Silent := by
    induction rounds generalizing media with
    | zero => exact .pure _
    | succ rounds ih =>
      refine .bind silent_medium fun next => ?_
      split
      · exact .pure _
      · exact .kind fun _ => .ite (.bind .skip fun _ => ih _) (.pure _)
  refine .enclosed _ (.view fun _ => .bind (hfrom _ _) fun media => .view fun v => ?_)
  split
  · exact .pure _
  · exact .bind (silent_passMedia _) fun _ => .pure _

/-- The media of an import are read in silence. -/
theorem silent_importMedia : (importMedia ctx).Silent := by
  refine .kind fun k => ?_
  split
  · exact .pure _
  · exact .pure _
  · exact silent_mediaList _

/-- The media before a block are read in silence. -/
theorem silent_mediaPrelude : (mediaPrelude ctx).Silent :=
  .kind fun _ => .ite (.pure _) (silent_mediaList _)

/-! ### Conditions and documents -/

/-- A condition is read in silence. -/
theorem silent_condition : (condition ctx).Silent := by
  have hdeclaration : (declarationCondition ctx).Silent := by
    refine .bind .take fun name => .kind fun _ => .ite (.pure _) ?_
    refine .bind .skip fun _ => .bind (silent_value _) fun parsed => ?_
    split
    · exact .pure _
    · exact .ite (.pure _) (.pure _)
  have hchain {operand : Production (Option Condition)} (h : operand.Silent) :
      (chainOf operand).Silent := by
    have hfrom (connector : Connector) (rounds : Nat) (parts : List Condition) :
        (chainFrom operand connector rounds parts).Silent := by
      induction rounds generalizing parts with
      | zero => exact .pure _
      | succ rounds ih =>
        refine .view fun v => .ite (.bind .skip fun _ => .bind h fun part => ?_) (.pure _)
        split
        · exact .pure _
        · exact ih _
    refine .inFrame _ (.bind h fun first => ?_)
    split
    · exact .pure _
    · refine .view fun v => ?_
      split
      · exact .pure _
      · exact hfrom _ _ _
  have hoperand (depth : Nat) : (operandWithin ctx depth).Silent := by
    induction depth with
    | zero => exact .pure _
    | succ depth ih =>
      refine .inFrame _ (.view fun v => ?_)
      split
      · refine .bind .skip fun _ => .bind (hchain ih) fun inner => ?_
        split
        · exact .pure _
        · exact .bind (.skipIf _) fun _ => .pure _
      · refine .ite (.bind .skip fun _ => .bind ih fun inner => ?_) hdeclaration
        split
        · exact .pure _
        · exact .pure _
      · exact .pure _
  exact .view fun _ => hchain (hoperand _)

/-- The condition before a block is read in silence. -/
theorem silent_supportsCondition : (supportsCondition ctx).Silent :=
  .kind fun _ => .ite (.pure _) silent_condition

/-- Functions that name documents are read in silence. -/
theorem silent_documentFunctionsFrom (rounds : Nat) (functions : List DocumentFunction) :
    (documentFunctionsFrom rounds functions).Silent := by
  have hend (kind? : Option DocumentFunction.Kind) (argument : Option String) :
      (documentArgumentEnd kind? argument).Silent := by
    refine .kind fun k => ?_
    split
    · exact .bind .skip fun _ => .pure _
    · exact .bind (silent_passArguments 1) fun _ => .pure _
  have hargument (kind? : Option DocumentFunction.Kind) : (documentArgument kind?).Silent := by
    rw [documentArgument_eq]
    exact .bind (.view fun _ => .ite (.map _ (.map _ .take)) (.pure _)) (hend kind?)
  have hfunction : documentFunction.Silent := by
    refine .view fun v => ?_
    split
    · exact .bind .skip fun _ => .pure _
    · exact .bind .skip fun _ => hargument _
    · exact .pure _
  induction rounds generalizing functions with
  | zero => exact .pure _
  | succ rounds ih =>
    refine .bind hfunction fun function => ?_
    split
    · exact .pure _
    · exact .kind fun _ => .ite (.bind .skip fun _ => ih _) (.pure _)

/-! ### Rules of unknown names -/

/-- A token is kept in silence. -/
theorem silent_keepToken (keepSpace : Bool) : (keepToken keepSpace).Silent :=
  .view fun _ => .bind .skip fun _ => .pure _

/-- What stands before the block of an unknown rule is kept in silence. -/
theorem silent_unknownPreambleFrom (rounds : Nat) (kept : List Token) :
    (unknownPreambleFrom rounds kept).Silent := by
  induction rounds generalizing kept with
  | zero => exact .pure _
  | succ rounds ih => exact .view fun _ => .ite (.pure _) (.bind (silent_keepToken _) fun _ => ih _)

/-- The block of an unknown rule is kept in silence. -/
theorem silent_unknownBlock : unknownBlock.Silent := by
  have hfrom (rounds depth : Nat) (kept : List Token) :
      (unknownBlockFrom rounds depth kept).Silent := by
    induction rounds generalizing depth kept with
    | zero => exact .pure _
    | succ rounds ih =>
      exact .view fun _ => .ite (.pure _)
        (.bind (silent_keepToken _) fun _ => .ite (.pure _) (ih _ _))
  refine .view fun v => ?_
  split
  · exact .bind .skip fun _ => .bind (hfrom _ _ _) fun _ => .pure _
  · exact .bind .skip fun _ => .pure _
  · exact .pure _

end Grammar

end Cssom
