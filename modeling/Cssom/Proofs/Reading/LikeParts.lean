import Cssom.Proofs.Reading.Endings
import Cssom.Proofs.Reading.Likeness
import Cssom.Proofs.Reading.Names
import Cssom.Rule.Grammar

/-!
# The parts of rules, read side by side

Every production that a rule is put together from is alike to itself. Two contexts may differ too,
as long as what is compared of a property is resolved alike in both, and what else they say agrees
(`Likeness.Contexts`).
-/

namespace Cssom

open Grammar Production

namespace Likeness

variable (L : Likeness)

/-- Properties of which the same is compared. -/
def Properties (p q : Property) : Prop :=
  L.property p = L.property q

/-- Blocks that agree up to what is not compared of properties. -/
def Blocks (b c : Block) : Prop :=
  b.mapProperties L.property = c.mapProperties L.property

/-- Conditions that agree up to what is not compared of properties. -/
def Conditions (c d : Condition) : Prop :=
  c.mapProperties L.property = d.mapProperties L.property

/-- Contexts that two readings may have: they differ at most in the properties they resolve names
to, and there in what is not compared. -/
structure Contexts (ctx ctx' : Context) : Prop where
  keepInvalidValues : ctx.config.keepInvalidValues = ctx'.config.keepInvalidValues
  keepUnknownRules : ctx.config.keepUnknownRules = ctx'.config.keepUnknownRules
  feature : ∀ name, featureOf ctx name = featureOf ctx' name
  property : ∀ set name {a b : Position}, L.position a b →
    Alike L L.Properties (Grammar.property ctx set name a) (Grammar.property ctx' set name b)
  condition : ∀ name, L.Properties (propertyOf ctx .standard name) (propertyOf ctx' .standard name)

variable {L}

/-- Properties of which the same is compared are alike with the same value. -/
theorem Properties.assign {p q : Property} (h : L.Properties p q) (value : Value)
    (important : Bool) : L.Properties (p.assign value important) (q.assign value important) := by
  have hproperty : L.property p = L.property q := h
  rw [Properties, L.assign_property, L.assign_property, hproperty]

/-- Blocks that agree still do when each is given a property of which the same is compared. -/
theorem Blocks.set {b c : Block} {p q : Property} (h : L.Blocks b c) (hp : L.Properties p q) :
    L.Blocks (b.set p) (c.set q) := by
  have hblock : b.mapProperties L.property = c.mapProperties L.property := h
  have hproperty : L.property p = L.property q := hp
  rw [Blocks, Block.mapProperties_set L.name_property, Block.mapProperties_set L.name_property,
    hblock, hproperty]

/-- A declaration that could not be read leaves the block as it was. -/
theorem Blocks.declare {b c : Block} {p? q? : Option Property} (h : L.Blocks b c)
    (hp : Option.Rel L.Properties p? q?) :
    L.Blocks ((p?.map b.set).getD b) ((q?.map c.set).getD c) := by
  cases hp with
  | none => exact h
  | some hp => exact h.set hp

end Likeness

namespace Grammar

open Production.Alike

variable {L : Likeness} {ctx ctx' : Context}

/-! ### Passing over -/

/-- The rest of a rule is passed over alike. -/
theorem alike_passRule : Alike L Eq passRule passRule :=
  .view fun v _ _ _ => roundsEq (f := passRuleFrom) (g := passRuleFrom) (fun _ => .pure rfl)
    (fun _ ih _ => .view fun _ _ _ _ =>
      .ite .rfl (.pure rfl) (.skip (.ite .rfl (.pure rfl) (ih _)))) v.size 0

/-- The rest of a statement is passed over alike. -/
theorem alike_passStatement : Alike L Eq passStatement passStatement :=
  .view fun v _ _ _ => roundsEq (f := fun k (_ : Unit) => passStatementFrom k)
    (g := fun k (_ : Unit) => passStatementFrom k) (fun _ => .pure rfl)
    (fun _ ih _ => .view fun _ _ _ _ =>
      .ite .rfl (.pure rfl) (.skip (.ite .rfl (.pure rfl) (ih ())))) v.size ()

/-- The rest of a declaration is passed over alike. -/
theorem alike_passDeclaration : Alike L Eq passDeclaration passDeclaration :=
  .view fun v _ _ _ => roundsEq (f := passDeclarationFrom) (g := passDeclarationFrom)
    (fun _ => .pure rfl)
    (fun _ ih _ => .view fun _ _ _ _ => .ite .rfl (.pure rfl) (.skip (ih _))) v.size 0

/-- The arguments of a function are passed over alike. -/
theorem alike_passArguments (depth : Nat) :
    Alike L Eq (passArguments depth) (passArguments depth) :=
  .view fun v _ _ _ => roundsEq (f := passArgumentsFrom) (g := passArgumentsFrom)
    (fun _ => .pure rfl)
    (fun _ ih _ => .view fun _ _ _ _ => .ite .rfl (.pure rfl) (.skip (ih _))) v.size depth

/-- The rest of a media list is passed over alike. -/
theorem alike_passMedia (terminator : Token.Kind) :
    Alike L Eq (passMedia terminator) (passMedia terminator) :=
  .view fun v _ _ _ => roundsEq (f := passMediaFrom terminator) (g := passMediaFrom terminator)
    (fun _ => .pure rfl)
    (fun _ ih _ => .view fun _ _ _ _ => .ite .rfl (.pure rfl) (.skip (ih _))) v.size 0

/-! ### Selectors and values -/

/-- Selector lists are read alike. -/
theorem alike_selectorList : Alike L Eq selectorList selectorList := by
  refine .enclosed (.view fun v _ _ _ => .bindEq ?_ fun _ => .pure rfl) _ _
  exact roundsEq (f := selectorsFrom) (g := selectorsFrom) (fun _ => .pure rfl)
    (fun _ ih _ => .view fun _ _ _ _ => .ite .rfl (.pure rfl) (.skip (ih _))) v.size _

/-- Marks of importance are read alike. -/
theorem alike_takeImportance (reading : ValueReading) :
    Alike L Eq (takeImportance reading) (takeImportance reading) :=
  .skip (.view fun _ _ _ _ => .ite .rfl (.skip (.pure rfl)) (.pure rfl))

/-- Tokens are read into values alike. -/
theorem alike_takeValueToken (reading : ValueReading) :
    Alike L Eq (takeValueToken reading) (takeValueToken reading) :=
  .view fun _ _ _ _ => .skip (.ite .rfl
    (.bindEq (alike_passArguments _) fun _ => .pure rfl) (.pure rfl))

/-- Values are read alike. -/
theorem alike_value (terminators : List Token.Kind) :
    Alike L Eq (value terminators) (value terminators) := by
  refine .enclosed (.view fun v _ _ _ => .bindEq ?_ fun _ => .pure rfl) _ _
  refine roundsEq (f := valueFrom terminators) (g := valueFrom terminators) (fun _ => .pure rfl)
    (fun _ ih reading => ?_) v.size _
  exact .view fun _ _ _ _ => .ite .rfl (.pure rfl)
    (.ite .rfl (.bindEq (alike_takeImportance _) fun _ => ih _)
      (.bindEq (alike_takeValueToken _) fun _ => ih _))

/-! ### Declarations -/

/-- The names of declarations are read alike. -/
theorem alike_declarationName : Alike L Eq declarationName declarationName :=
  .view fun v _ _ _ => roundsEq (f := nameFrom) (g := nameFrom) (fun _ => .pure rfl)
    (fun _ ih _ => .view fun _ _ _ _ => .ite .rfl (.pure rfl) (.skip (ih _))) v.size ""

/-- Declarations that are passed over give nothing, alike. -/
theorem alike_abandonDeclaration :
    Alike L (Option.Rel L.Properties) abandonDeclaration abandonDeclaration :=
  .bindEq alike_passDeclaration fun _ => .bindEq (.skipIf _) fun _ => .pure .none

section

variable (h : L.Contexts ctx ctx')
include h

/-- The values of declarations are read alike, for properties of which the same is compared. -/
theorem alike_declarationValue (name : String) {p q : Property} (hp : L.Properties p q) :
    Alike L (Option.Rel L.Properties) (declarationValue ctx name p)
      (declarationValue ctx' name q) := by
  unfold declarationValue
  rw [h.keepInvalidValues]
  refine .bindEq (alike_value _) fun parsed => ?_
  split
  · exact .bindEq (.complain rfl) fun _ => alike_abandonDeclaration
  · refine .ite .rfl (.bindEq (.complain rfl) fun _ => alike_abandonDeclaration) ?_
    exact .bindEq (.skipIf _) fun _ => .pure (.some (hp.assign _ _))

/-- Declarations are read alike. -/
theorem alike_declaration (set : BlockKind) :
    Alike L (Option.Rel L.Properties) (declaration ctx set) (declaration ctx' set) := by
  refine .inFrame (.view fun start _ _ hstart => .bindEq alike_declarationName fun name => ?_) _ _
  refine .ite .rfl (.view fun v _ _ _ => ?_) ?_
  · exact .ite .rfl (.bindEq (.complainOf fun _ => rfl) fun _ => alike_abandonDeclaration)
      alike_abandonDeclaration
  · refine .bind (h.property set name hstart.position) fun p q hp => .view fun _ _ _ _ => ?_
    exact .ite .rfl (.skip (alike_declarationValue h name hp))
      (.bindEq (.complain rfl) fun _ => alike_abandonDeclaration)

/-- The declarations of blocks are read alike, into blocks that agree. -/
theorem alike_declarations (set : BlockKind) {b c : Block} (hb : L.Blocks b c) :
    Alike L L.Blocks (declarations ctx set b) (declarations ctx' set c) := by
  refine .view fun v _ _ _ => rounds (f := declarationsFrom ctx set)
    (g := declarationsFrom ctx' set) (fun _ _ hb => .pure hb) (fun k ih b c hb => ?_) v.size hb
  refine .view fun v place next hsees => ?_
  simp only [View.kind_elsewhere]
  split
  · exact .pure hb
  · exact .pure hb
  · exact .skip (ih _ _ hb)
  · next heof _ =>
    refine .bind (alike_declaration h set) fun p? q? hp => ?_
    exact .bindEq (.passIfStuck (hsees.offset_of_kind heof)) fun _ => ih _ _ (hb.declare hp)

end

/-! ### Braces -/

/-- Opening braces are read alike. -/
theorem alike_blockOpening : Alike L Eq blockOpening blockOpening :=
  .kind fun _ => .ite .rfl (.skip (.pure rfl))
    (.bindEq (.complainOf fun _ => rfl) fun _ => .bindEq alike_passRule fun _ => .pure rfl)

/-- Closing braces are read alike. -/
theorem alike_blockClosing : Alike L Eq blockClosing blockClosing :=
  .skipIf _

/-- Blocks of declarations are read alike. -/
theorem alike_declarationBlock (h : L.Contexts ctx ctx') (set : BlockKind) :
    Alike L (Option.Rel L.Blocks) (declarationBlock ctx set) (declarationBlock ctx' set) :=
  .bindEq alike_blockOpening fun _ => .ite .rfl
    (.bind (alike_declarations h set rfl) fun _ _ hb =>
      .bindEq alike_blockClosing fun _ => .pure (.some hb))
    (.pure .none)

/-! ### Media -/

/-- The values of features are read alike. -/
theorem alike_featureValue (feature : Feature) :
    Alike L Eq (featureValue feature) (featureValue feature) :=
  .kind fun _ => .ite .rfl
    (.skip (.bindEq (alike_value _) fun _ => .ite .rfl (.pure rfl) (.pure rfl))) (.pure rfl)

/-- Features are closed alike. -/
theorem alike_closeFeature (feature : Feature) :
    Alike L Eq (closeFeature feature) (closeFeature feature) :=
  .kind fun _ => .ite .rfl (.skip (.pure rfl)) (.pure rfl)

section

variable (h : L.Contexts ctx ctx')
include h

/-- Features are read alike. -/
theorem alike_feature : Alike L Eq (feature ctx) (feature ctx') := by
  refine .inFrame (.kind fun _ => .ite .rfl (.pure rfl) (.skip (.kind fun _ => ?_))) _ _
  refine .ite .rfl (.pure rfl) (.take fun name place _ => ?_)
  dsimp only
  rw [h.feature]
  cases featureOf ctx' name.text with
  | none => exact .pure rfl
  | some named =>
    refine .bindEq (alike_featureValue _) fun whole => ?_
    split
    · exact .pure rfl
    · exact alike_closeFeature _

/-- The features of a medium are read alike. -/
theorem alike_features (medium : Medium) :
    Alike L Eq (features ctx medium) (features ctx' medium) := by
  refine .view fun v _ _ _ => roundsEq (f := featuresFrom ctx) (g := featuresFrom ctx')
    (fun _ => .pure rfl) (fun k ih medium => ?_) v.size medium
  refine .view fun _ _ _ _ => .ite .rfl (.skip (.bindEq (alike_feature h) fun next => ?_))
    (.pure rfl)
  split
  · exact .pure rfl
  · exact ih _

/-- Media with a type are read alike. -/
theorem alike_typedMedium (reversed guarded : Bool) :
    Alike L Eq (typedMedium ctx reversed guarded) (typedMedium ctx' reversed guarded) :=
  .view fun _ _ _ _ => .ite .rfl (.pure rfl) (.skip (alike_features h _))

/-- Media are read alike. -/
theorem alike_medium : Alike L Eq (medium ctx) (medium ctx') := by
  refine .inFrame (.view fun v place next _ => ?_) _ _
  simp only [View.kind_elsewhere]
  split
  · exact .ite .rfl (.skip (alike_typedMedium h _ _))
      (.ite .rfl (.skip (alike_typedMedium h _ _)) (alike_typedMedium h _ _))
  · refine .bindEq (alike_feature h) fun first => ?_
    split
    · exact .pure rfl
    · exact alike_features h _
  · exact .pure rfl

omit h in
/-- Media lists are ended alike. -/
theorem alike_mediaListEnd (terminator : Token.Kind) (media? : Option (List Medium)) :
    Alike L Eq (mediaListEnd terminator media?) (mediaListEnd terminator media?) := by
  cases media? with
  | some media => exact .pure rfl
  | none => exact .bindEq (alike_passMedia _) fun _ => .pure rfl

/-- Media lists are read alike. -/
theorem alike_mediaList (terminator : Token.Kind) :
    Alike L Eq (mediaList ctx terminator) (mediaList ctx' terminator) := by
  rw [mediaList_eq, mediaList_eq]
  refine .enclosed (.view fun v _ _ _ => .bindEq ?_ fun media => ?_) _ _
  · refine roundsEq (f := mediaFrom ctx) (g := mediaFrom ctx') (fun _ => .pure rfl)
      (fun k ih media => .bindEq (alike_medium h) fun next => ?_) (v.size + 1) []
    split
    · exact .pure rfl
    · exact .kind fun _ => .ite .rfl (.skip (ih _)) (.pure rfl)
  · exact view (f := fun v => mediaListEnd terminator (if v.kind = terminator then media else none))
      (g := fun v => mediaListEnd terminator (if v.kind = terminator then media else none))
      fun _ _ _ _ => alike_mediaListEnd _ _

/-- The media before a block are read alike. -/
theorem alike_mediaPrelude : Alike L Eq (mediaPrelude ctx) (mediaPrelude ctx') :=
  .kind fun _ => .ite .rfl (.pure rfl) (alike_mediaList h _)

/-! ### Conditions -/

/-- Declarations in conditions are read alike. -/
theorem alike_declarationCondition :
    Alike L (Option.Rel L.Conditions) (declarationCondition ctx) (declarationCondition ctx') := by
  refine .take fun name place _ => ?_
  dsimp only
  rw [h.keepInvalidValues]
  refine .kind fun _ => .ite .rfl (.pure .none) (.skip (.bindEq (alike_value _) fun parsed => ?_))
  split
  · exact .pure .none
  next value _ =>
    refine .ite .rfl (.pure .none) (.pure (.some ?_))
    exact congrArg Condition.declaration ((h.condition name.text).assign value parsed.important)

end

/-- Chains are read alike if their parts are. -/
theorem alike_chainOf {p q : Production (Option Condition)}
    (h : Alike L (Option.Rel L.Conditions) p q) :
    Alike L (Option.Rel L.Conditions) (chainOf p) (chainOf q) := by
  refine .inFrame (.bind h fun c? d? hfirst => ?_) _ _
  cases hfirst with
  | none => exact .pure .none
  | @some c d hfirst =>
    refine .view fun v place next _ => ?_
    have htoken : Connector.ofToken? (v.elsewhere place next).token =
        Connector.ofToken? v.token := rfl
    rw [htoken]
    cases Connector.ofToken? v.token with
    | none => exact .pure (.some hfirst)
    | some connector =>
      have hjoin (cs ds : List Condition)
          (hparts : Condition.mapAll L.property cs = Condition.mapAll L.property ds) :
          L.Conditions (connector.join cs) (connector.join ds) := by
        cases connector
        · exact congrArg Condition.conjunction hparts
        · exact congrArg Condition.disjunction hparts
      refine rounds (f := chainFrom p connector) (g := chainFrom q connector)
        (T := fun cs ds => Condition.mapAll L.property cs = Condition.mapAll L.property ds)
        (fun cs ds hparts => .pure (.some (hjoin cs ds hparts))) (fun k ih cs ds hparts => ?_)
        v.size ?_
      · refine .view fun _ _ _ _ => .ite .rfl (.skip (.bind h fun c? d? hpart => ?_))
          (.pure (.some (hjoin cs ds hparts)))
        cases hpart with
        | none => exact .pure .none
        | some hpart =>
          refine ih _ _ ?_
          rw [Condition.mapAll_append, Condition.mapAll_append, hparts]
          exact congrArg (_ ++ [·]) hpart
      · exact congrArg ([·]) hfirst

/-- The parts of chains are read alike, to any depth. -/
theorem alike_operandWithin (h : L.Contexts ctx ctx') (depth : Nat) :
    Alike L (Option.Rel L.Conditions) (operandWithin ctx depth) (operandWithin ctx' depth) := by
  induction depth with
  | zero => exact .pure .none
  | succ depth ih =>
    refine .inFrame (.view fun v place next hsees => ?_) _ _
    simp only [View.kind_elsewhere]
    split
    · refine .skip (.bind (alike_chainOf ih) fun c? d? hinner => ?_)
      cases hinner with
      | none => exact .pure .none
      | some hinner =>
        exact .bindEq (.skipIf _) fun _ => .pure (.some (congrArg Condition.group hinner))
    · have hstarts : startsNegation (v.elsewhere place next) = startsNegation v := by
        unfold startsNegation
        exact congrArg (fun k => v.token.isWord "not" && k != .colon) hsees.next
      rw [hstarts]
      refine .ite .rfl (.skip (.bind ih fun c? d? hinner => ?_)) (alike_declarationCondition h)
      cases hinner with
      | none => exact .pure .none
      | some hinner => exact .pure (.some (congrArg Condition.negation hinner))
    · exact .pure .none

/-- The conditions before a block are read alike. -/
theorem alike_supportsCondition (h : L.Contexts ctx ctx') :
    Alike L (Option.Rel L.Conditions) (supportsCondition ctx) (supportsCondition ctx') :=
  .kind fun _ => .ite .rfl (.pure (.some rfl))
    (.view fun v _ _ _ => alike_chainOf (alike_operandWithin h (v.size + 1)))

end Grammar

end Cssom
