import Cssom.Proofs.Recovery.Brackets

/-!
# Preludes and declarations stay in a block

What stands before the block of a rule, and every declaration in a block, is read by taking tokens
that are no braces and by scans that stop in the braces they start in. So reading any of it stops in
the braces in which it started.
-/

namespace Cssom.Grammar

open Production Token

variable {ctx : Context} {close : Lexeme} {after : List Lexeme} {braces : Nat} {input : Input}

/-- Reading stays in a block: wherever in a block it starts, it stops in the same braces. -/
structure Stays {α : Type} (p : Production α) : Prop where
  inside : ∀ {close : Lexeme} {after : List Lexeme} {braces : Nat} {input : Input},
    close.token.kind = .closeCurly → Inside (close :: after) braces input →
      Inside (close :: after) braces (p.read input).rest

namespace Stays

variable {α β : Type} {p : Production α}

/-- To give a result stays in the block. -/
theorem pure (a : α) : Stays (Pure.pure a : Production α) := ⟨fun _ h => h⟩

/-- Steps that stay in a block, one after the other, do. -/
theorem bind {f : α → Production β} (hp : Stays p) (hf : ∀ a, Stays (f a)) : Stays (p >>= f) where
  inside hclose h := by
    rw [rest_read_bind]
    exact (hf _).inside hclose (hp.inside hclose h)

/-- What follows a look may use what is seen. -/
theorem view_bind {f : View → Production α}
    (hf : ∀ {close after braces input}, close.token.kind = Kind.closeCurly →
      Inside (close :: after) braces input →
      Inside (close :: after) braces ((f input.view).read input).rest) : Stays (view >>= f) where
  inside hclose h := by
    rw [rest_read_bind, read_view]
    exact hf hclose h

/-- To look at the kind stays in a block if what is done then does. -/
theorem kind_bind {f : Kind → Production α}
    (hf : ∀ {close after braces input}, close.token.kind = Kind.closeCurly →
      Inside (close :: after) braces input →
      Inside (close :: after) braces ((f input.view.kind).read input).rest) :
    Stays (Production.kind >>= f) where
  inside hclose h := by
    rw [rest_read_bind, read_kind]
    exact hf hclose h

/-- A report at a place stays in the block. -/
theorem complainAt (cause : Cause) (position : Position) :
    Stays (Production.complainAt cause position) := ⟨fun _ h => h⟩

/-- A report at the cursor stays in the block. -/
theorem complain (cause : Cause) : Stays (Production.complain cause) := ⟨fun _ h => h⟩

/-- A report of what is under the cursor stays in the block. -/
theorem complainOf (cause : String → Cause) : Stays (Production.complainOf cause) :=
  ⟨fun _ h => h⟩

/-- What stays in a block does so in a frame of the syntax tree. -/
theorem enclosed (hp : Stays p) (entity : α → Option Entity) :
    Stays (Production.enclosed p entity Pure.pure) where
  inside hclose h := by
    rw [read_enclosed]
    exact hp.inside hclose h

/-- What may fail and stays in a block does so in a frame of the syntax tree. -/
theorem inFrame {body : Production (Option α)} (hp : Stays body) (entity : α → Entity) :
    Stays (Production.inFrame entity body) :=
  hp.enclosed _

/-- To move on over a kind that is no brace stays in the block. -/
theorem skipIf {kind : Kind} (ho : kind ≠ .openCurly) (hc : kind ≠ .closeCurly) :
    Stays (Production.skipIf kind) where
  inside hclose h := by
    rw [read_skipIf]
    split
    · next hk => exact h.advance hclose (hk ▸ ho) (hk ▸ hc)
    · exact h

end Stays

namespace Inside

variable {α : Type}

/-- Passing over one token that is no brace, and then going on. -/
theorem skip_bind {f : Unit → Production α} (h : Inside (close :: after) braces input)
    (hclose : close.token.kind = .closeCurly) (ho : input.view.kind ≠ .openCurly)
    (hc : input.view.kind ≠ .closeCurly) (hf : Stays (f ())) :
    Inside (close :: after) braces ((skip >>= f).read input).rest := by
  rw [rest_read_bind, read_skip]
  exact hf.inside hclose (h.advance hclose ho hc)

/-- To take a token that is no brace stays in a block if what is done then does. -/
theorem take_bind {f : Token → Production α} (h : Inside (close :: after) braces input)
    (hclose : close.token.kind = .closeCurly) (ho : input.view.kind ≠ .openCurly)
    (hc : input.view.kind ≠ .closeCurly) (hf : ∀ token, Stays (f token)) :
    Inside (close :: after) braces ((take >>= f).read input).rest := by
  rw [rest_read_bind, read_take]
  exact (hf _).inside hclose (h.advance hclose ho hc)

end Inside

/-- A value that a closing brace ends stays in the block. -/
theorem stays_value {terminators : List Kind} (hterm : terminators.contains .closeCurly = true) :
    Stays (value terminators) := ⟨fun hclose h => value_inside hclose hterm h⟩

/-- The rest of a media list is passed over in the block. -/
theorem stays_passMedia (terminator : Kind) : Stays (passMedia terminator) :=
  ⟨fun hclose h => passMedia_inside hclose terminator h⟩

/-- The rest of a declaration is passed over in the block. -/
theorem stays_passDeclaration : Stays passDeclaration :=
  ⟨fun hclose h => passDeclaration_inside hclose h⟩

/-! ### Selectors, keys and names -/

/-- A selector list that was begun stays in the block. -/
theorem stays_selectorsFrom (rounds : Nat) (builder : SelectorList.Builder) :
    Stays (selectorsFrom rounds builder) := by
  induction rounds generalizing builder with
  | zero => exact .pure _
  | succ rounds ih =>
    unfold selectorsFrom
    refine .view_bind fun hclose h => ?_
    split
    · exact h
    · next hends =>
      simp only [endsSelectors, Bool.or_eq_true, beq_iff_eq, not_or] at hends
      exact h.skip_bind hclose hends.1.1 hends.1.2 (ih _)

/-- A selector list stays in the block. -/
theorem stays_selectorList : Stays selectorList :=
  .enclosed (.view_bind fun hclose h =>
    Stays.inside (.bind (stays_selectorsFrom _ _) fun _ => .pure _) hclose h) _

/-- The keys of a moment stay in the block. -/
theorem stays_keysFrom (rounds : Nat) (reading : KeyReading) : Stays (keysFrom rounds reading) := by
  induction rounds generalizing reading with
  | zero => exact .pure _
  | succ rounds ih =>
    unfold keysFrom
    refine .view_bind fun hclose h => ?_
    split
    · exact h
    · next hends =>
      simp only [endsPreamble, Bool.or_eq_true, beq_iff_eq, not_or] at hends
      exact h.skip_bind hclose hends.1.1.1 hends.1.1.2 (ih _)

/-- The selector of a page stays in the block. -/
theorem stays_pageSelectorFrom (rounds : Nat) (selector : String) :
    Stays (pageSelectorFrom rounds selector) := by
  induction rounds generalizing selector with
  | zero => exact .pure _
  | succ rounds ih =>
    unfold pageSelectorFrom
    refine .view_bind fun hclose h => ?_
    split
    · exact h
    · next hends =>
      simp only [endsPreamble, Bool.or_eq_true, beq_iff_eq, not_or] at hends
      exact h.skip_bind hclose hends.1.1.1 hends.1.1.2 (ih _)

/-- The name of an animation stays in the block. -/
theorem stays_animationName : Stays animationName := by
  refine .view_bind fun hclose h => ?_
  split
  · next hk => exact h.skip_bind hclose (by rw [hk]; decide) (by rw [hk]; decide) (.pure _)
  · next hk => exact h.skip_bind hclose (by rw [hk]; decide) (by rw [hk]; decide) (.pure _)
  · exact h

/-! ### Declarations -/

/-- A name that was begun stays in the block. -/
theorem stays_nameFrom (rounds : Nat) (name : String) : Stays (nameFrom rounds name) := by
  induction rounds generalizing name with
  | zero => exact .pure _
  | succ rounds ih =>
    unfold nameFrom
    refine .view_bind fun hclose h => ?_
    split
    · exact h
    · next hends =>
      simp only [endsName, Bool.or_eq_true, beq_iff_eq, not_or] at hends
      exact h.skip_bind hclose hends.1.1.1.1.2 hends.1.1.2 (ih _)

/-- To look up a property reads nothing, and stays in the block. -/
theorem stays_property (set : BlockKind) (name : String) (position : Position) :
    Stays (property ctx set name position) := by
  unfold property
  split
  · exact .pure _
  · split
    · exact .pure _
    · exact .bind (.complainAt _ _) fun _ => .pure _

/-- A declaration that is passed over stays in the block. -/
theorem stays_abandonDeclaration : Stays abandonDeclaration :=
  .bind stays_passDeclaration fun _ =>
    .bind (.skipIf (by decide) (by decide)) fun _ => .pure _

/-- The value of a declaration stays in the block. -/
theorem stays_declarationValue (name : String) (property : Property) :
    Stays (declarationValue ctx name property) := by
  refine .bind (stays_value (by decide)) fun parsed => ?_
  split
  · exact .bind (.complain _) fun _ => stays_abandonDeclaration
  · split
    · exact .bind (.complain _) fun _ => stays_abandonDeclaration
    · exact .bind (.skipIf (by decide) (by decide)) fun _ => .pure _

/-- A declaration stops in the braces in which it starts. -/
theorem stays_declaration (set : BlockKind) : Stays (declaration ctx set) := by
  refine .inFrame (.view_bind fun hclose h => ?_) _
  refine Stays.inside (.bind (.view_bind fun hclose h => ?_) fun name => ?_) hclose h
  · exact (stays_nameFrom _ _).inside hclose h
  · split
    · refine .view_bind fun hclose h => ?_
      split
      · exact Stays.inside (.bind (.complainOf _) fun _ => stays_abandonDeclaration) hclose h
      · exact stays_abandonDeclaration.inside hclose h
    · refine .bind (stays_property _ _ _) fun property => .view_bind fun hclose h => ?_
      split
      · next hk =>
        exact h.skip_bind hclose (by rw [hk]; decide) (by rw [hk]; decide)
          (stays_declarationValue _ _)
      · exact Stays.inside (.bind (.complain _) fun _ => stays_abandonDeclaration) hclose h

/-! ### Blocks of declarations -/

/-- Declarations, read on in a block, stay in it. -/
theorem stays_declarationsFrom (set : BlockKind) (rounds : Nat) (block : Block) :
    Stays (declarationsFrom ctx set rounds block) := by
  induction rounds generalizing block with
  | zero => exact .pure _
  | succ rounds ih =>
    unfold declarationsFrom
    refine .view_bind fun {close after braces input} hclose h => ?_
    split
    · exact h
    · exact h
    · next hk => exact h.skip_bind hclose (by rw [hk]; decide) (by rw [hk]; decide) (ih _)
    · next hc _ hs =>
      have hends : endsRule input.view.kind = false := by
        unfold endsRule
        rw [Bool.or_eq_false_iff, beq_eq_false_iff_ne, beq_eq_false_iff_ne]
        exact ⟨hs, hc⟩
      have hadv : (declaration ctx set).Advances (.ofInput input false) :=
        advances_declaration set h.hasTokens hends
      rw [rest_read_bind, rest_read_bind, read_passIfStuck hadv h.nodup]
      exact (ih _).inside hclose ((stays_declaration set).inside hclose h)

/-- The declarations of a block stay in it. -/
theorem stays_declarations (ctx : Context) (set : BlockKind) (block : Block) :
    Stays (declarations ctx set block) :=
  .view_bind fun hclose h => (stays_declarationsFrom set _ block).inside hclose h

/-- A loop that ends at a closing brace or at the end stands on the brace as long as it is inside of
a block. -/
theorem kind_eq_close_of_runs {α : Type} {p : Production α} {loop : Loop}
    (hruns : loop.Runs ctx (.ofInput input false) (p.run (.ofInput input false)).2)
    (hloop : ∀ k, loop.stops k = (k == .closeCurly || k == .eof))
    (h : Inside (close :: after) braces (p.read input).rest) :
    (p.read input).rest.view.kind = .closeCurly := by
  have hrest : (p.run (.ofInput input false)).2.input = (p.read input).rest := p.run_rest _
  have hstop := hruns.stops
  rw [hloop, Parser.view, hrest, Bool.or_eq_true, beq_iff_eq, beq_iff_eq] at hstop
  exact hstop.resolve_right h.kind_ne_eof

/-- An opening brace under the cursor opens the block. -/
theorem read_blockOpening_of_open (ho : input.view.kind = .openCurly) :
    blockOpening.read input = ⟨true, input.advance, []⟩ := by
  rw [blockOpening, read_bind]
  simp only [read_kind, ho, if_true, read_bind, read_skip, read_pure, List.append_nil]

/-- A block of declarations stops behind the brace that closes it. -/
theorem declarationBlock_inside (set : BlockKind) (hclose : close.token.kind = .closeCurly)
    (h : Inside (close :: after) braces input) (ho : input.view.kind = .openCurly) :
    Inside (close :: after) braces ((declarationBlock ctx set).read input).rest := by
  have hin := (stays_declarations ctx set .empty).inside hclose (h.advance_open hclose ho)
  have hk := kind_eq_close_of_runs (Loop.declarations_runs ctx set .empty _) (fun _ => rfl) hin
  rw [declarationBlock, rest_read_bind, read_blockOpening_of_open ho]
  simp only [if_true, rest_read_bind, blockClosing, read_skipIf, hk, read_pure]
  exact hin.advance_close hk

/-! ### Media lists -/

/-- The value of a feature stays in the block. -/
theorem stays_featureValue (feature : Feature) : Stays (featureValue feature) := by
  refine .kind_bind fun hclose h => ?_
  split
  · next hk =>
    refine h.skip_bind hclose (by rw [hk]; decide) (by rw [hk]; decide)
      (.bind (stays_value (by decide)) fun parsed => ?_)
    split <;> exact .pure _
  · exact h

/-- What closes a feature stays in the block. -/
theorem stays_closeFeature (feature : Feature) : Stays (closeFeature feature) := by
  refine .kind_bind fun hclose h => ?_
  split
  · next hk => exact h.skip_bind hclose (by rw [hk]; decide) (by rw [hk]; decide) (.pure _)
  · exact h

/-- A feature stays in the block. -/
theorem stays_feature : Stays (feature ctx) := by
  refine .inFrame (.kind_bind fun hclose h => ?_) _
  split
  · exact h
  · next hk =>
    rw [ne_eq, Classical.not_not] at hk
    refine h.skip_bind hclose (by rw [hk]; decide) (by rw [hk]; decide)
      (.kind_bind fun hclose h => ?_)
    split
    · exact h
    · next hk =>
      rw [ne_eq, Classical.not_not] at hk
      refine h.take_bind hclose (by rw [hk]; decide) (by rw [hk]; decide) fun name => ?_
      split
      · exact .pure _
      · refine .bind (stays_featureValue _) fun whole => ?_
        split
        · exact .pure _
        · exact stays_closeFeature _

/-- Features that were begun stay in the block. -/
theorem stays_featuresFrom (rounds : Nat) (medium : Medium) :
    Stays (featuresFrom ctx rounds medium) := by
  induction rounds generalizing medium with
  | zero => exact .pure _
  | succ rounds ih =>
    unfold featuresFrom
    refine .view_bind fun {close after braces input} hclose h => ?_
    split
    · next hword =>
      have hk : input.view.kind = .ident := kind_of_isWord hword
      refine h.skip_bind hclose (by rw [hk]; decide) (by rw [hk]; decide)
        (.bind stays_feature fun next => ?_)
      split
      · exact .pure _
      · exact ih _
    · exact h

/-- The features of a medium stay in the block. -/
theorem stays_features (medium : Medium) : Stays (features ctx medium) :=
  .view_bind fun hclose h => (stays_featuresFrom _ medium).inside hclose h

/-- A medium with a type stays in the block. -/
theorem stays_typedMedium (reversed guarded : Bool) : Stays (typedMedium ctx reversed guarded) := by
  refine .view_bind fun {close after braces input} hclose h => ?_
  split
  · exact h
  · next hcon =>
    rw [Bool.or_eq_true, not_or, decide_eq_true_iff, Classical.not_not] at hcon
    exact h.skip_bind hclose (by rw [hcon.1]; decide) (by rw [hcon.1]; decide) (stays_features _)

/-- A medium stays in the block. -/
theorem stays_medium : Stays (medium ctx) := by
  refine .inFrame (.view_bind fun {close after braces input} hclose h => ?_) _
  split
  · next hk =>
    split
    · exact h.skip_bind hclose (by rw [hk]; decide) (by rw [hk]; decide) (stays_typedMedium _ _)
    · split
      · exact h.skip_bind hclose (by rw [hk]; decide) (by rw [hk]; decide) (stays_typedMedium _ _)
      · exact (stays_typedMedium _ _).inside hclose h
  · refine Stays.inside (.bind stays_feature fun first => ?_) hclose h
    split
    · exact .pure _
    · exact stays_features _
  · exact h

/-- Media between commas stay in the block. -/
theorem stays_mediaFrom (rounds : Nat) (media : List Medium) :
    Stays (mediaFrom ctx rounds media) := by
  induction rounds generalizing media with
  | zero => exact .pure _
  | succ rounds ih =>
    unfold mediaFrom
    refine .bind stays_medium fun next => ?_
    split
    · exact .pure _
    · refine .kind_bind fun hclose h => ?_
      split
      · next hk => exact h.skip_bind hclose (by rw [hk]; decide) (by rw [hk]; decide) (ih _)
      · exact h

/-- A media list stays in the block. -/
theorem stays_mediaList (terminator : Kind) : Stays (mediaList ctx terminator) := by
  refine .enclosed (.view_bind fun hclose h => ?_) _
  refine Stays.inside (.bind (stays_mediaFrom _ _) fun media => .view_bind fun hclose h => ?_)
    hclose h
  split
  · exact h
  · exact Stays.inside (.bind (stays_passMedia _) fun _ => .pure _) hclose h

/-! ### Conditions -/

/-- A declaration in a condition stays in the block. -/
theorem stays_declarationCondition (hclose : close.token.kind = .closeCurly)
    (h : Inside (close :: after) braces input) (hk : input.view.kind = .ident) :
    Inside (close :: after) braces ((declarationCondition ctx).read input).rest := by
  refine h.take_bind hclose (by rw [hk]; decide) (by rw [hk]; decide) fun name => ?_
  refine .kind_bind fun hclose h => ?_
  split
  · exact h
  · next hcolon =>
    rw [ne_eq, Classical.not_not] at hcolon
    refine h.skip_bind hclose (by rw [hcolon]; decide) (by rw [hcolon]; decide)
      (.bind (stays_value (by decide)) fun parsed => ?_)
    split
    · exact .pure _
    · split <;> exact .pure _

section

variable {operand : Production (Option Condition)}

/-- A chain that was begun stays in the block if its parts do. -/
theorem stays_chainFrom (hoperand : Stays operand) (connector : Connector) (rounds : Nat)
    (parts : List Condition) : Stays (chainFrom operand connector rounds parts) := by
  induction rounds generalizing parts with
  | zero => exact .pure _
  | succ rounds ih =>
    unfold chainFrom
    refine .view_bind fun {close after braces input} hclose h => ?_
    split
    · next hword =>
      have hk : input.view.kind = .ident := kind_of_ofToken? hword
      refine h.skip_bind hclose (by rw [hk]; decide) (by rw [hk]; decide)
        (.bind hoperand fun next => ?_)
      split
      · exact .pure _
      · exact ih _
    · exact h

/-- A chain stays in the block if its parts do. -/
theorem stays_chainOf (hoperand : Stays operand) : Stays (chainOf operand) := by
  refine .inFrame (.bind hoperand fun first => ?_) _
  split
  · exact .pure _
  · refine .view_bind fun hclose h => ?_
    split
    · exact h
    · exact (stays_chainFrom hoperand _ _ _).inside hclose h

end

/-- A part of a chain stays in the block, to any depth. -/
theorem stays_operandWithin (depth : Nat) : Stays (operandWithin ctx depth) := by
  induction depth with
  | zero => exact .pure _
  | succ depth ih =>
    unfold operandWithin
    refine .inFrame (.view_bind fun {close after braces input} hclose h => ?_) _
    split
    · next hk =>
      refine h.skip_bind hclose (by rw [hk]; decide) (by rw [hk]; decide)
        (.bind (stays_chainOf ih) fun inner => ?_)
      split
      · exact .pure _
      · exact .bind (.skipIf (by decide) (by decide)) fun _ => .pure _
    · next hk =>
      split
      · refine h.skip_bind hclose (by rw [hk]; decide) (by rw [hk]; decide)
          (.bind ih fun inner => ?_)
        split <;> exact .pure _
      · exact stays_declarationCondition hclose h hk
    · exact h

/-- The condition before a block stays in the block that it stands in. -/
theorem stays_supportsCondition (ctx : Context) : Stays (supportsCondition ctx) := by
  refine .kind_bind fun hclose h => ?_
  split
  · exact h
  · refine Stays.inside (.view_bind fun hclose h => ?_) hclose h
    exact (stays_chainOf (stays_operandWithin _)).inside hclose h

/-! ### Documents -/

/-- After the name of a function its arguments are read through the closing parenthesis. -/
theorem documentArgument_inside (hclose : close.token.kind = .closeCurly)
    (kind? : Option DocumentFunction.Kind)
    (h : InsideOpen (close :: after) [.closeParen] braces input) :
    Inside (close :: after) braces ((documentArgument kind?).read input).rest := by
  rw [documentArgument, rest_read_bind, read_view]
  by_cases hs : input.view.kind = .string
  · have hadv := h.advance_other hclose (by rw [hs]; rfl) (by rw [hs]; rfl)
    simp only [hs, if_true, rest_read_bind, read_map, read_take, read_kind]
    split
    · next hk =>
      have hnext := (hadv.advance hclose (Or.inl (by simp))).1
      rw [hk] at hnext
      exact hnext.inside_of_count rfl
    · rw [rest_read_bind]
      exact passArguments_inside hclose hadv
  · simp only [hs, if_false, rest_read_bind, read_pure, read_kind]
    exact passArguments_inside hclose h

/-- A function that names documents stays in the block. -/
theorem stays_documentFunction : Stays documentFunction := by
  refine .view_bind fun {close after braces input} hclose h => ?_
  split
  · next hk => exact h.skip_bind hclose (by rw [hk]; decide) (by rw [hk]; decide) (.pure _)
  · next hk =>
    have hadv := (h.toOpen.advance hclose (Or.inr (by rw [hk]; decide))).1
    rw [hk] at hadv
    rw [rest_read_bind, read_skip]
    exact documentArgument_inside hclose _ hadv
  · exact h

/-- Functions that name documents, between commas, stay in the block. -/
theorem stays_documentFunctionsFrom (rounds : Nat) (functions : List DocumentFunction) :
    Stays (documentFunctionsFrom rounds functions) := by
  induction rounds generalizing functions with
  | zero => exact .pure _
  | succ rounds ih =>
    unfold documentFunctionsFrom
    refine .bind stays_documentFunction fun function => ?_
    split
    · exact .pure _
    · refine .kind_bind fun hclose h => ?_
      split
      · next hk => exact h.skip_bind hclose (by rw [hk]; decide) (by rw [hk]; decide) (ih _)
      · exact h

end Cssom.Grammar
