import Cssom.Proofs.Reading.Outcome

/-!
# Keeping a tree is not observed

A run hangs on the input alone (`Production.run_eq_read`), so a frame that records and one that does
not go the same way. What a production is may still hang on the configuration that says whether a
tree is kept; but no production asks for that, which is shown of one production after the other, the
loops by induction on their rounds. Together these are `keeping_a_tree_is_not_observed`: whatever
part of a style sheet is read, from whatever tokens, a tree that is kept beside it changes neither
the result nor the diagnostics nor what is left unread.
-/

namespace Cssom

namespace Context

/-- The context with the same forgiveness and vocabulary, in which a tree is kept or is not. -/
def keepingTree (ctx : Context) (keep : Bool) : Context :=
  { ctx with config := { ctx.config with keepTree := keep } }

end Context

namespace Grammar

variable (ctx : Context) (keep : Bool)

/-! ### Declarations -/

@[simp] theorem declaration_keepingTree (set : BlockKind) :
    declaration (ctx.keepingTree keep) set = declaration ctx set := rfl

@[simp] theorem declarationsFrom_keepingTree (set : BlockKind) (rounds : Nat) (block : Block) :
    declarationsFrom (ctx.keepingTree keep) set rounds block =
      declarationsFrom ctx set rounds block := by
  induction rounds generalizing block with
  | zero => rfl
  | succ rounds ih => simp only [declarationsFrom, declaration_keepingTree, ih]

@[simp] theorem declarations_keepingTree (set : BlockKind) (block : Block) :
    declarations (ctx.keepingTree keep) set block = declarations ctx set block := by
  simp only [declarations, declarationsFrom_keepingTree]

@[simp] theorem declarationListFrom_keepingTree (rounds : Nat) (block : Block) :
    declarationListFrom (ctx.keepingTree keep) rounds block =
      declarationListFrom ctx rounds block := by
  induction rounds generalizing block with
  | zero => rfl
  | succ rounds ih => simp only [declarationListFrom, declarations_keepingTree, ih]

@[simp] theorem declarationList_keepingTree :
    declarationList (ctx.keepingTree keep) = declarationList ctx := by
  simp only [declarationList, declarationListFrom_keepingTree]

@[simp] theorem declarationBlock_keepingTree (set : BlockKind) :
    declarationBlock (ctx.keepingTree keep) set = declarationBlock ctx set := by
  simp only [declarationBlock, declarations_keepingTree]

/-! ### Media lists -/

@[simp] theorem feature_keepingTree : feature (ctx.keepingTree keep) = feature ctx := rfl

@[simp] theorem featuresFrom_keepingTree (rounds : Nat) (medium : Medium) :
    featuresFrom (ctx.keepingTree keep) rounds medium = featuresFrom ctx rounds medium := by
  induction rounds generalizing medium with
  | zero => rfl
  | succ rounds ih => simp only [featuresFrom, feature_keepingTree, ih]

@[simp] theorem medium_keepingTree : medium (ctx.keepingTree keep) = medium ctx := by
  simp only [medium, typedMedium, features, feature_keepingTree, featuresFrom_keepingTree]

@[simp] theorem mediaFrom_keepingTree (rounds : Nat) (media : List Medium) :
    mediaFrom (ctx.keepingTree keep) rounds media = mediaFrom ctx rounds media := by
  induction rounds generalizing media with
  | zero => rfl
  | succ rounds ih => simp only [mediaFrom, medium_keepingTree, ih]

@[simp] theorem mediaList_keepingTree (terminator : Token.Kind) :
    mediaList (ctx.keepingTree keep) terminator = mediaList ctx terminator := by
  simp only [mediaList, mediaFrom_keepingTree]

@[simp] theorem wholeMediaList_keepingTree :
    wholeMediaList (ctx.keepingTree keep) = wholeMediaList ctx := by
  simp only [wholeMediaList, mediaList_keepingTree]

/-! ### Conditions -/

@[simp] theorem declarationCondition_keepingTree :
    declarationCondition (ctx.keepingTree keep) = declarationCondition ctx := rfl

@[simp] theorem operandWithin_keepingTree (depth : Nat) :
    operandWithin (ctx.keepingTree keep) depth = operandWithin ctx depth := by
  induction depth with
  | zero => rfl
  | succ depth ih => simp only [operandWithin, declarationCondition_keepingTree, ih]

@[simp] theorem condition_keepingTree : condition (ctx.keepingTree keep) = condition ctx := by
  simp only [condition, operandWithin_keepingTree]

/-! ### Rules -/

@[simp] theorem keyframe_keepingTree : keyframe (ctx.keepingTree keep) = keyframe ctx := by
  simp only [keyframe, declarationBlock_keepingTree]

@[simp] theorem keyframesFrom_keepingTree (rounds : Nat) (frames : List Keyframe) :
    keyframesFrom (ctx.keepingTree keep) rounds frames = keyframesFrom ctx rounds frames := by
  induction rounds generalizing frames with
  | zero => rfl
  | succ rounds ih => simp only [keyframesFrom, keyframe_keepingTree, ih]

@[simp] theorem keyframesRule_keepingTree :
    keyframesRule (ctx.keepingTree keep) = keyframesRule ctx := by
  simp only [keyframesRule, keyframes, keyframesFrom_keepingTree]

@[simp] theorem blockRule_keepingTree (set : BlockKind) (make : Block → Rule) :
    blockRule (ctx.keepingTree keep) set make = blockRule ctx set make := by
  simp only [blockRule, declarationBlock_keepingTree]

@[simp] theorem styleRule_keepingTree : styleRule (ctx.keepingTree keep) = styleRule ctx := by
  simp only [styleRule, declarationBlock_keepingTree]

@[simp] theorem unknownRule_keepingTree (name : String) (position : Position) :
    unknownRule (ctx.keepingTree keep) name position = unknownRule ctx name position := rfl

@[simp] theorem importStatement_keepingTree :
    importStatement (ctx.keepingTree keep) = importStatement ctx := by
  simp only [importStatement, importMedia, mediaList_keepingTree]

@[simp] theorem atRule_keepingTree (rule : Production (Option Rule)) :
    atRule (ctx.keepingTree keep) rule = atRule ctx rule := by
  simp only [atRule, mediaRule, mediaPrelude, supportsRule, supportsCondition, pageRule,
    mediaList_keepingTree, condition_keepingTree, blockRule_keepingTree, keyframesRule_keepingTree,
    importStatement_keepingTree, unknownRule_keepingTree]

@[simp] theorem ruleStarting_keepingTree (rule : Production (Option Rule)) (kind : Token.Kind) :
    ruleStarting (ctx.keepingTree keep) rule kind = ruleStarting ctx rule kind := by
  cases kind <;> simp only [ruleStarting, atRule_keepingTree, styleRule_keepingTree]

@[simp] theorem ruleWithin_keepingTree (depth : Nat) :
    ruleWithin (ctx.keepingTree keep) depth = ruleWithin ctx depth := by
  induction depth with
  | zero => rfl
  | succ depth ih =>
    simp only [ruleWithin, ruleStarting_keepingTree, ih]

@[simp] theorem rule_keepingTree : rule (ctx.keepingTree keep) = rule ctx := by
  simp only [rule, ruleWithin_keepingTree]

@[simp] theorem stylesheetFrom_keepingTree (rounds : Nat) (rules : List Rule) :
    stylesheetFrom (ctx.keepingTree keep) rounds rules = stylesheetFrom ctx rounds rules := by
  induction rounds generalizing rules with
  | zero => rfl
  | succ rounds ih => simp only [stylesheetFrom, rule_keepingTree, ih]

@[simp] theorem stylesheet_keepingTree : stylesheet (ctx.keepingTree keep) = stylesheet ctx := by
  simp only [stylesheet, stylesheetFrom_keepingTree]

end Grammar

/-! ### Runs side by side -/

/-- Two readings come to the same: the same result, the same diagnostics in the same order, and the
same input left, which is the token under the cursor, the spacing before it and all that follows. -/
structure SameReading {α : Type} (a b : α × Parser) : Prop where
  result : a.1 = b.1
  diagnostics : a.2.diagnostics = b.2.diagnostics
  input : a.2.input = b.2.input

namespace SameReading

variable {α β : Type}

/-- A production reads the same from the same input, whatever trees are kept. -/
theorem run (p : Production α) {s t : Parser} (hinput : s.input = t.input)
    (hdiagnostics : s.diagnostics = t.diagnostics) : SameReading (p.run s) (p.run t) := by
  obtain ⟨hresult, hrest, hreports⟩ := p.run_eq_read s
  obtain ⟨hresult', hrest', hreports'⟩ := p.run_eq_read t
  refine ⟨?_, ?_, ?_⟩
  · rw [hresult, hresult', hinput]
  · rw [← Array.toList_inj, hreports, hreports', hinput, hdiagnostics]
  · rw [hrest, hrest', hinput]

/-- What is made of the results of two readings that come to the same is the same. -/
theorem map {a b : α × Parser} (h : SameReading a b) (f : α → β) :
    SameReading (f a.1, a.2) (f b.1, b.2) :=
  ⟨congrArg f h.result, h.diagnostics, h.input⟩

end SameReading

/-- Of two configurations that differ only in whether a tree is kept, each reads the same style
sheets, conditions, media lists, values, selector lists and lists of declarations from every list of
tokens, with the same diagnostics, and leaves the same input. -/
theorem keeping_a_tree_is_not_observed (tokens : List Token) (config : Config) (keep : Bool) :
    let config' := { config with keepTree := keep }
    SameReading (Stylesheet.parse tokens config') (Stylesheet.parse tokens config) ∧
    SameReading (Condition.parse tokens config') (Condition.parse tokens config) ∧
    SameReading (MediaList.parse tokens config') (MediaList.parse tokens config) ∧
    SameReading (Value.parse tokens config') (Value.parse tokens config) ∧
    SameReading (SelectorList.parse tokens config') (SelectorList.parse tokens config) ∧
    SameReading (Block.parse tokens config') (Block.parse tokens config) := by
  intro config'
  have hctx : Context.ofConfig config' = (Context.ofConfig config).keepingTree keep := rfl
  have hrun {α : Type} (p : Production α) : SameReading
      (p.run (.ofTokens tokens config')) (p.run (.ofTokens tokens config)) := .run p rfl rfl
  refine ⟨?_, ?_, ?_, ?_, ?_, ?_⟩
  · -- the entity of the whole source, which is set at the end, is no part of a reading
    have h := hrun (Grammar.stylesheet (.ofConfig config))
    rw [Stylesheet.parse, hctx, Parser.readStylesheet, Grammar.stylesheet_keepingTree]
    exact ⟨h.result, h.diagnostics, h.input⟩
  · rw [Condition.parse, hctx, Grammar.condition_keepingTree]
    exact hrun _
  · rw [MediaList.parse, hctx, Grammar.wholeMediaList_keepingTree]
    exact hrun _
  · exact (hrun (Grammar.value [])).map fun parsed =>
      if parsed.valid || config.keepInvalidValues then parsed.value.map (·, parsed.important)
      else none
  · exact (hrun Grammar.selectorList).map fun parsed =>
      if parsed.valid then some parsed.list else none
  · rw [Block.parse, hctx, Grammar.declarationList_keepingTree]
    exact hrun _

end Cssom
